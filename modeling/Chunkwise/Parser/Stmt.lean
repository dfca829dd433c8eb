import Chunkwise.Parser.Expr
import Chunkwise.Syntax.Stmt

/-!
Statements nest at most `maxNesting` deep, and the parser of a statement takes the number of
levels left to it. A statement that cannot be read is dropped and the parse resumes at the next
one.
-/
namespace Chunkwise.Parser

def condition : Parser Expr := do
  expectSymbol .openParen
  let test ← expression
  expectSymbol .closeParen
  return test

def expressionRound (es : List Expr) : Parser (List Expr ⊕ List Expr) := do
  if ← eatSymbol .comma then return .inl (es ++ [← expression])
  else return .inr es

def expressionList : Parser (List Expr) := do
  repeatFrom expressionRound [← expression]

/-- Nothing before a token `s`, else an expression. -/
def expressionUnless (s : Symbol) : Parser (Option Expr) := do
  if ← checkSymbol s then return none
  else return some (← expression)

/-- An equals sign and a value, if there is an equals sign. -/
def initializer : Parser (Option Expr) := do
  if ← eatSymbol .assign then return some (← expression)
  else return none

def declaratorRound (ds : List Declarator) : Parser (List Declarator ⊕ List Declarator) := do
  let name ← identifier
  let init ← initializer
  let ds := ds ++ [⟨name, init, ← spanFrom name.span⟩]
  if ← eatSymbol .comma then return .inl ds
  else return .inr ds

def declarators : Parser (List Declarator) := repeatFrom declaratorRound []

/-- A local declaration without its semicolon. -/
def localDecl : Parser LocalDecl := do
  let start ← currentSpan
  let isConst ← eat (.keyword .constKw)
  let type ← typeRef
  let names ← declarators
  return ⟨isConst, type, names, ← spanFrom start⟩

def startsLocal : Parser Bool := do
  if ← checkKeyword .constKw then return true
  else looksLikeLocal

/-- Skips what could not be read, and passes a token by force where nothing was skipped. -/
def resume {α : Type} (before : Span) (as : List α) : Parser (List α ⊕ List α) := do
  synchronize
  let moved := (← currentSpan) != before
  if !moved && !(← atEnd) then advance
  return .inl as

def elementRound {α : Type} (stop : Parser Bool) (element : Parser α) (as : List α) :
    Parser (List α ⊕ List α) := do
  if ← stop then return .inr as
  if ← atEnd then return .inr as
  if ← tooManyErrors then return .inr as
  let before ← currentSpan
  match ← Attempt.optional element with
  | some a => return .inl (as ++ [a])
  | none => resume before as

/-- Reads elements until `stop` holds, the input ends or there are too many errors. An element
that cannot be read is skipped. -/
def elements {α : Type} (stop : Parser Bool) (element : Parser α) : Parser (List α) :=
  repeatFrom (elementRound stop element) []

def block (inner : Parser Stmt) : Parser Block := do
  let start ← currentSpan
  expectSymbol .openBrace
  let stmts ← elements (checkSymbol .closeBrace) inner
  expectSymbol .closeBrace
  return ⟨stmts, ← spanFrom start⟩

def ifStmt (inner : Parser Stmt) : Parser Stmt := do
  let start ← currentSpan
  advance
  let test ← condition
  let yes ← inner
  if ← eat (.keyword .elseKw) then
    let no ← inner
    return .ifElse (← spanFrom start) test yes (some no)
  else return .ifElse (← spanFrom start) test yes none

def whileStmt (inner : Parser Stmt) : Parser Stmt := do
  let start ← currentSpan
  advance
  let test ← condition
  let body ← inner
  return .whileDo (← spanFrom start) test body

def doStmt (inner : Parser Stmt) : Parser Stmt := do
  let start ← currentSpan
  advance
  let body ← inner
  expectKeyword .whileKw
  let test ← condition
  expectSymbol .semicolon
  return .doWhile (← spanFrom start) body test

def forInit : Parser ForInit := do
  if ← checkSymbol .semicolon then return .none
  else if ← startsLocal then return .declare (← localDecl)
  else return .exprs (← expressionList)

def forStmt (inner : Parser Stmt) : Parser Stmt := do
  let start ← currentSpan
  advance
  expectSymbol .openParen
  let init ← forInit
  expectSymbol .semicolon
  let test ← expressionUnless .semicolon
  expectSymbol .semicolon
  let update ← do
    if ← checkSymbol .closeParen then pure []
    else expressionList
  expectSymbol .closeParen
  let body ← inner
  return .forLoop (← spanFrom start) init test update body

def jump (make : Span → Stmt) : Parser Stmt := do
  let start ← currentSpan
  advance
  expectSymbol .semicolon
  return make (← spanFrom start)

/-- A word, perhaps a value, and a semicolon. -/
def jumpWith (make : Span → Option Expr → Stmt) : Parser Stmt := do
  let start ← currentSpan
  advance
  let value ← expressionUnless .semicolon
  expectSymbol .semicolon
  return make (← spanFrom start) value

def declareStmt : Parser Stmt := do
  let decl ← localDecl
  expectSymbol .semicolon
  return .declare (← spanFrom decl.span) decl

/-- An expression and its semicolon, which the last statement of a chunk may leave out. -/
def expressionStmt (topLevel : Bool) : Parser Stmt := do
  let e ← expression
  if !(← eatSymbol .semicolon) then
    if !(topLevel && (← atEnd)) then expectSymbol .semicolon
  return .expr (← spanFrom e.span) e

/-- A statement, given the parser of the statements inside it. -/
def statementWith (inner : Parser Stmt) (topLevel : Bool) : Parser Stmt := do
  let start ← currentSpan
  match ← kind with
  | .symbol .openBrace =>
    let b ← block inner
    return .block b.span b.stmts
  | .symbol .semicolon =>
    advance
    return .empty start
  | .keyword .ifKw => ifStmt inner
  | .keyword .whileKw => whileStmt inner
  | .keyword .doKw => doStmt inner
  | .keyword .forKw => forStmt inner
  | .keyword .breakKw => jump .breakLoop
  | .keyword .continueKw => jump .continueLoop
  | .keyword .returnKw => jumpWith .returnValue
  | .keyword .throwKw => jumpWith .throwValue
  | _ =>
    if ← startsLocal then declareStmt
    else expressionStmt topLevel

/-- A statement with `room` levels of nesting left. -/
def statementWithin : (room : Nat) → (topLevel : Bool) → Parser Stmt
  | 0, _ => tooDeep .statement
  | room + 1, topLevel => statementWith (statementWithin room false) topLevel

def statement (topLevel : Bool) : Parser Stmt := statementWithin maxNesting topLevel

def body : Parser Block := block (statement false)

/-- Passes a token unless one was passed since `left` of them remained. -/
def ensureProgress (left : Nat) : Parser Unit := Attempt.modify fun c =>
  if c.remaining = left then c.advance else c

def statementRound (stmts : List Stmt) : Parser (List Stmt ⊕ List Stmt) := do
  if ← atEnd then return .inr stmts
  if ← tooManyErrors then return .inr stmts
  let left ← Attempt.gets Cursor.remaining
  match ← Attempt.optional (statement true) with
  | some s =>
    ensureProgress left
    return .inl (stmts ++ [s])
  | none =>
    synchronize
    ensureProgress left
    return .inl stmts

def statementUnit : Parser StatementUnit := do
  let start ← currentSpan
  let stmts ← repeatFrom statementRound []
  return ⟨stmts, ← spanFrom start⟩

end Chunkwise.Parser
