import Chunkwise.Token.Lexer

namespace Chunkwise

inductive ChunkClass where
  | endOfInput
  | statements
  | declarations
  | invalid
  deriving DecidableEq, Repr

namespace ChunkClass

/-- For a word that decides only together with the token after it. -/
def ofSecond (second : TokenKind) (marks : TokenKind → Bool) (marked other : ChunkClass) :
    ChunkClass :=
  if second = .endOfInput then .endOfInput
  else if marks second then marked
  else other

/-- The class by the first two kinds of tokens. -/
def ofKinds (first second : TokenKind) : ChunkClass :=
  match first with
  | .endOfInput => .endOfInput
  | .keyword .abstractKw | .keyword .classKw | .keyword .enumKw | .keyword .interfaceKw
  | .keyword .internalKw | .keyword .namespaceKw | .keyword .privateKw | .keyword .protectedKw
  | .keyword .publicKw | .keyword .sealedKw | .keyword .staticKw | .keyword .structKw
  | .symbol .openBracket => .declarations
  | .keyword .usingKw => ofSecond second TokenKind.isIdent .declarations .statements
  | .keyword .delegateKw =>
    ofSecond second (fun k => k == .symbol .openParen || k == .symbol .openBrace)
      .statements .declarations
  | .keyword .unsafeKw =>
    ofSecond second (· == .symbol .openBrace) .statements .declarations
  | .keyword .readonlyKw | .keyword .overrideKw | .unknown _ => .invalid
  | _ => .statements

end ChunkClass

def classify (text : String) : ChunkClass :=
  let (first, l) := (Lexer.ofText text).next
  let (second, _) := l.next
  ChunkClass.ofKinds first.kind second.kind

end Chunkwise
