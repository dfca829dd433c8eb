import Chunkwise.Parser.Decl

namespace Chunkwise

structure Parsed (α : Type) where
  unit : Option α
  diagnostics : Diagnostics

/-- Whether the first thing wrong is that the text stops too early. -/
def Parsed.isPartial {α : Type} (p : Parsed α) : Bool := p.diagnostics.isPartialInput

def parseWith {α : Type} (parser : Parser α) (src : Source) : Parsed α :=
  let lexed := lex src.text
  let (unit, c) := parser (Cursor.ofTokens lexed.tokens)
  ⟨unit, (Diagnostics.ofIssues src lexed.issues).mergeInSourceOrder
    (Diagnostics.ofIssues src c.issues)⟩

def parseStatements : Source → Parsed StatementUnit := parseWith Parser.statementUnit

def parseDeclarations : Source → Parsed DeclarationUnit := parseWith Parser.declarationUnit

end Chunkwise
