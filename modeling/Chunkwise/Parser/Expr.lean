import Chunkwise.Parser.Cursor

/-!
Precedence, lowest first:

* assignment, to the right
* `?:`, with full expressions in both branches
* `??`, to the right
* `||`, `&&`, equality, relation, sum and product, to the left
* prefix operators
* member access, call and postfix steps

Expressions may nest `maxNesting` deep. The parser of an expression takes the number of levels
left to it, so it is defined by recursion on that number.
-/
namespace Chunkwise

/-- The nesting limit of expressions, and separately of statements. -/
def maxNesting : Nat := 64

namespace Parser

def nameStep (q : QualifiedName) : Parser (QualifiedName ⊕ QualifiedName) := do
  if ← eatSymbol .dot then
    let part ← identifier
    return .inl ⟨q.parts ++ [part], q.span.merge part.span⟩
  else return .inr q

def qualifiedName : Parser QualifiedName := do
  let first ← identifier
  repeatFrom nameStep ⟨[first], first.span⟩

def builtinType? : TokenKind → Option TypeExpr
  | .keyword .boolKw => some .bool
  | .keyword .intKw => some .int
  | .keyword .longKw => some .long
  | .keyword .doubleKw | .keyword .floatKw => some .double
  | .keyword .stringKw => some .string
  | .keyword .objectKw => some .object
  | .keyword .voidKw => some .void
  | .keyword .varKw => some .infer
  | _ => none

def typeRef : Parser TypeRef := do
  let span ← currentSpan
  let k ← kind
  match builtinType? k with
  | some t =>
    advance
    return ⟨t, span⟩
  | none =>
    if k.isIdent then
      let name ← qualifiedName
      return ⟨.named name, name.span⟩
    else expected "type"

/-- Whether a dotted name, of which the first part has been seen, is followed by a name. -/
def nameFollows : List TokenKind → Bool
  | .symbol .dot :: .ident _ :: rest => nameFollows rest
  | .ident _ :: _ => true
  | _ => false

/-- Whether a type and then a variable name stand here. -/
def looksLikeLocal : Parser Bool := Attempt.gets fun c =>
  if c.current.kind.namesType then (c.ahead 1).isIdent
  else c.current.kind.isIdent && nameFollows (c.later.map Token.kind)

def binary (op : BinaryOp) (left right : Expr) : Expr :=
  .binary (left.span.merge right.span) op left right

/-- The levels of operators that group to the left, lowest first. -/
def leftLevels : List (List (Symbol × BinaryOp)) :=
  [[(.either, .or)],
    [(.both, .and)],
    [(.equal, .eq), (.notEqual, .ne)],
    [(.less, .lt), (.lessEqual, .le), (.greater, .gt), (.greaterEqual, .ge)],
    [(.plus, .add), (.minus, .sub)],
    [(.star, .mul), (.slash, .div), (.percent, .rem)]]

def operator? (ops : List (Symbol × BinaryOp)) : TokenKind → Option BinaryOp
  | .symbol s => ops.lookup s
  | _ => none

def leftStep (ops : List (Symbol × BinaryOp)) (operand : Parser Expr) (left : Expr) :
    Parser (Expr ⊕ Expr) := do
  match operator? ops (← kind) with
  | some op =>
    advance
    let right ← operand
    return .inl (binary op left right)
  | none => return .inr left

/-- Operands joined by the operators of one level, grouped to the left. -/
def leftLevel (ops : List (Symbol × BinaryOp)) (operand : Parser Expr) : Parser Expr := do
  repeatFrom (leftStep ops operand) (← operand)

/-- All levels over the operands of the highest one. -/
def leftOperators (operand : Parser Expr) : Parser Expr :=
  leftLevels.foldr leftLevel operand

/-- Groups a non-empty list of operands to the right. -/
def coalesceRight (first : Expr) : List Expr → Expr
  | [] => first
  | next :: rest => binary .coalesce first (coalesceRight next rest)

def coalesceStep (operand : Parser Expr) (es : List Expr) : Parser (List Expr ⊕ List Expr) := do
  if ← eatSymbol .coalesce then return .inl (es ++ [← operand])
  else return .inr es

def coalesce (operand : Parser Expr) : Parser Expr := do
  let first ← operand
  let rest ← repeatFrom (coalesceStep operand) []
  return coalesceRight first rest

def conditional (operand nested : Parser Expr) : Parser Expr := do
  let test ← coalesce operand
  if ← eatSymbol .question then
    let yes ← nested
    expectSymbol .colon
    let no ← nested
    return .cond (test.span.merge no.span) test yes no
  else return test

def assignOp? : TokenKind → Option AssignOp
  | .symbol .assign => some none
  | .symbol .plusAssign => some (some .add)
  | .symbol .minusAssign => some (some .sub)
  | .symbol .starAssign => some (some .mul)
  | .symbol .slashAssign => some (some .div)
  | .symbol .percentAssign => some (some .rem)
  | _ => none

def assignment (operand nested : Parser Expr) : Parser Expr := do
  let target ← conditional operand nested
  match assignOp? (← kind) with
  | some op =>
    advance
    let value ← nested
    return .assign (target.span.merge value.span) op target value
  | none => return target

def argumentStep (nested : Parser Expr) (args : List Expr) : Parser (List Expr ⊕ List Expr) := do
  let args := args ++ [← nested]
  if ← eatSymbol .comma then return .inl args
  expectSymbol .closeParen
  return .inr args

def arguments (nested : Parser Expr) : Parser (List Expr) := do
  expectSymbol .openParen
  if ← eatSymbol .closeParen then return []
  repeatFrom (argumentStep nested) []

def literal? (span : Span) : TokenKind → Option Expr
  | .int n => some (.int span n)
  | .double x => some (.double span x)
  | .str s => some (.str span s)
  | .ident name => some (.name span name)
  | .keyword .trueKw => some (.bool span true)
  | .keyword .falseKw => some (.bool span false)
  | .keyword .nullKw => some (.null span)
  | .keyword .thisKw => some (.thisRef span)
  | _ => none

def unsupported {α : Type} (k : Keyword) : Parser α := do
  reportHere (.unsupportedKeyword k.text)
  Attempt.fail

def primary (nested : Parser Expr) : Parser Expr := do
  let span ← currentSpan
  let k ← kind
  match literal? span k with
  | some e =>
    advance
    return e
  | none =>
    match k with
    | .symbol .openParen =>
      advance
      let inner ← nested
      expectSymbol .closeParen
      return .paren (← spanFrom span) inner
    | .keyword .newKw =>
      advance
      let type ← typeRef
      let args ← arguments nested
      return .new (← spanFrom span) type args
    | .keyword .delegateKw => unsupported .delegateKw
    | .keyword .unsafeKw => unsupported .unsafeKw
    | _ => expected "expression"

def postfixStep (nested : Parser Expr) (e : Expr) : Parser (Expr ⊕ Expr) := do
  match ← kind with
  | .symbol .dot =>
    advance
    let name ← identifier
    return .inl (.member (e.span.merge name.span) e name)
  | .symbol .openParen =>
    let args ← arguments nested
    return .inl (.call (← spanFrom e.span) e args)
  | .symbol .plusPlus =>
    let span := e.span.merge (← currentSpan)
    advance
    return .inl (.step span .increment false e)
  | .symbol .minusMinus =>
    let span := e.span.merge (← currentSpan)
    advance
    return .inl (.step span .decrement false e)
  | _ => return .inr e

def postfixExpr (nested : Parser Expr) : Parser Expr := do
  repeatFrom (postfixStep nested) (← primary nested)

inductive LeadingOp where
  | unary (op : UnaryOp)
  | step (op : StepOp)

def leadingOp? : TokenKind → Option LeadingOp
  | .symbol .minus => some (.unary .neg)
  | .symbol .plus => some (.unary .plus)
  | .symbol .bang => some (.unary .not)
  | .symbol .plusPlus => some (.step .increment)
  | .symbol .minusMinus => some (.step .decrement)
  | _ => none

def LeadingOp.apply (span : Span) (e : Expr) : LeadingOp → Expr
  | unary op => .unary span op e
  | step op => .step span op true e

/-- A prefix operator and its operand, or else what stands without one. -/
def leading (operand other : Parser Expr) : Parser Expr := do
  let start ← currentSpan
  match leadingOp? (← kind) with
  | some op =>
    advance
    let e ← operand
    return op.apply (start.merge e.span) e
  | none => other

def tooDeep {α : Type} (what : Nesting) : Parser α := do
  reportHere (.nestingLimit what maxNesting)
  Attempt.fail

mutual

/-- An expression with `room` levels of nesting left. -/
def expressionWithin : (room : Nat) → Parser Expr
  | 0 => tooDeep .expression
  | room + 1 => assignment (leftOperators (unaryWithin room)) (expressionWithin room)

/-- A prefix expression with `room` levels of nesting left inside it. -/
def unaryWithin : (room : Nat) → Parser Expr
  | 0 => leading (tooDeep .expression) (postfixExpr (tooDeep .expression))
  | room + 1 =>
    leading (unaryWithin room)
      (postfixExpr (assignment (leftOperators (unaryWithin room)) (expressionWithin room)))

end

def expression : Parser Expr := expressionWithin maxNesting

end Parser

end Chunkwise
