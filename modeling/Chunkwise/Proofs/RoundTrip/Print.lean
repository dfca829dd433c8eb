import Chunkwise.Proofs.Parser.Grammar

/-!
`parenthesize` puts an operand between parentheses where it binds less tightly than its place asks
for, and only there; `tokens` writes a tree down as it stands. `depth` is the number of levels that
the parser has to go down inside the text, and `bare` is what is left of a tree without parentheses
and spans.
-/
namespace Chunkwise

open Grammar

def UnaryOp.symbol : UnaryOp → Symbol
  | .neg => .minus
  | .plus => .plus
  | .not => .bang

def StepOp.symbol : StepOp → Symbol
  | .increment => .plusPlus
  | .decrement => .minusMinus

def BinaryOp.symbol : BinaryOp → Symbol
  | .coalesce => .coalesce
  | .or => .either
  | .and => .both
  | .eq => .equal
  | .ne => .notEqual
  | .lt => .less
  | .le => .lessEqual
  | .gt => .greater
  | .ge => .greaterEqual
  | .add => .plus
  | .sub => .minus
  | .mul => .star
  | .div => .slash
  | .rem => .percent

def AssignOp.symbol : AssignOp → Symbol
  | none => .assign
  | some .add => .plusAssign
  | some .sub => .minusAssign
  | some .mul => .starAssign
  | some .div => .slashAssign
  | some .rem => .percentAssign

/-- The parts of a dotted name after its first one. -/
def dotted : List Ident → List TokenKind
  | [] => []
  | id :: ids => .symbol .dot :: .ident id.name :: dotted ids

def QualifiedName.tokens (q : QualifiedName) : List TokenKind :=
  match q.parts with
  | [] => []
  | id :: ids => .ident id.name :: dotted ids

def TypeExpr.tokens : TypeExpr → List TokenKind
  | .bool => [.keyword .boolKw]
  | .int => [.keyword .intKw]
  | .long => [.keyword .longKw]
  | .double => [.keyword .doubleKw]
  | .string => [.keyword .stringKw]
  | .object => [.keyword .objectKw]
  | .void => [.keyword .voidKw]
  | .infer => [.keyword .varKw]
  | .named name => name.tokens

/-- A dotted name has at least one part. -/
def TypeExpr.Spelled : TypeExpr → Prop
  | .named name => name.parts ≠ []
  | _ => True

namespace Expr

mutual

/-- The tokens of a tree as it stands. -/
def tokens : Expr → List TokenKind
  | .int _ n => [.int n]
  | .double _ x => [.double x]
  | .str _ s => [.str s]
  | .bool _ b => [.keyword (if b then .trueKw else .falseKw)]
  | .null _ => [.keyword .nullKw]
  | .thisRef _ => [.keyword .thisKw]
  | .name _ id => [.ident id]
  | .member _ e id => e.tokens ++ [.symbol .dot, .ident id.name]
  | .call _ e args => e.tokens ++ argumentTokens args
  | .new _ t args => .keyword .newKw :: (t.type.tokens ++ argumentTokens args)
  | .unary _ op e => .symbol op.symbol :: e.tokens
  | .binary _ op a b => a.tokens ++ .symbol op.symbol :: b.tokens
  | .assign _ op target value => target.tokens ++ .symbol op.symbol :: value.tokens
  | .step _ op true e => .symbol op.symbol :: e.tokens
  | .step _ op false e => e.tokens ++ [.symbol op.symbol]
  | .cond _ test yes no =>
    test.tokens ++ .symbol .question :: (yes.tokens ++ .symbol .colon :: no.tokens)
  | .paren _ e => .symbol .openParen :: (e.tokens ++ [.symbol .closeParen])

def argumentTokens : List Expr → List TokenKind
  | [] => [.symbol .openParen, .symbol .closeParen]
  | e :: es => .symbol .openParen :: (e.tokens ++ furtherTokens es)

/-- The arguments after the first one and the closing parenthesis. -/
def furtherTokens : List Expr → List TokenKind
  | [] => [.symbol .closeParen]
  | e :: es => .symbol .comma :: (e.tokens ++ furtherTokens es)

end

/-- The tokens that an expression may begin with. -/
def begins : TokenKind → Bool
  | .int _ | .double _ | .str _ | .ident _ => true
  | .keyword .trueKw | .keyword .falseKw | .keyword .nullKw | .keyword .thisKw
  | .keyword .newKw => true
  | .symbol .openParen | .symbol .plus | .symbol .minus | .symbol .bang | .symbol .plusPlus
  | .symbol .minusMinus => true
  | _ => false

theorem tokens_begin : ∀ e : Expr, ∃ k w, e.tokens = k :: w ∧ begins k = true
  | .int .. | .double .. | .str .. | .null .. | .thisRef .. | .name .. | .new .. | .paren .. => by
    simp only [tokens]
    exact ⟨_, _, rfl, rfl⟩
  | .bool _ b => by cases b <;> exact ⟨_, _, rfl, rfl⟩
  | .unary _ op _ => by
    simp only [tokens]
    cases op <;> exact ⟨_, _, rfl, rfl⟩
  | .step _ op true _ => by
    simp only [tokens]
    cases op <;> exact ⟨_, _, rfl, rfl⟩
  | .member _ e _ | .call _ e _ | .step _ _ false e | .binary _ _ e _ | .assign _ _ e _
  | .cond _ e _ _ => by
    obtain ⟨k, w, hw, hk⟩ := tokens_begin e
    simp only [tokens, hw]
    exact ⟨k, _, rfl, hk⟩

/-- The rank that the left operand of an operator must have: `??` groups to the right. -/
def leftPlace (op : BinaryOp) : Nat := if op = .coalesce then opRank op + 1 else opRank op

/-- The rank that the right operand of an operator must have. -/
def rightPlace (op : BinaryOp) : Nat := if op = .coalesce then opRank op else opRank op + 1

/-- An operand at a place that asks for rank `r`. -/
def enclose (r : Nat) (e : Expr) : Expr := if r ≤ rank e then e else .paren e.span e

mutual

-- The last branch of a conditional takes in an assignment that follows it, so a target needs rank 2.
def parenthesize : Expr → Expr
  | .member s e id => .member s (enclose 10 e.parenthesize) id
  | .call s e args => .call s (enclose 10 e.parenthesize) (parenthesizeAll args)
  | .new s t args => .new s t (parenthesizeAll args)
  | .unary s op e => .unary s op (enclose 9 e.parenthesize)
  | .binary s op a b =>
    .binary s op (enclose (leftPlace op) a.parenthesize) (enclose (rightPlace op) b.parenthesize)
  | .assign s op target value => .assign s op (enclose 2 target.parenthesize) value.parenthesize
  | .step s op true e => .step s op true (enclose 9 e.parenthesize)
  | .step s op false e => .step s op false (enclose 10 e.parenthesize)
  | .cond s test yes no =>
    .cond s (enclose 2 test.parenthesize) yes.parenthesize no.parenthesize
  | .paren s e => .paren s e.parenthesize
  | .int s n => .int s n
  | .double s x => .double s x
  | .str s text => .str s text
  | .bool s b => .bool s b
  | .null s => .null s
  | .thisRef s => .thisRef s
  | .name s id => .name s id

def parenthesizeAll : List Expr → List Expr
  | [] => []
  | e :: es => e.parenthesize :: parenthesizeAll es

end

mutual

/-- Every operand has the rank that its place asks for, and every type name is spelled. -/
def Fits : Expr → Prop
  | .member _ e _ => 10 ≤ rank e ∧ e.Fits
  | .call _ e args => 10 ≤ rank e ∧ e.Fits ∧ FitsAll args
  | .new _ t args => t.type.Spelled ∧ FitsAll args
  | .unary _ _ e => 9 ≤ rank e ∧ e.Fits
  | .binary _ op a b => (leftPlace op ≤ rank a ∧ a.Fits) ∧ rightPlace op ≤ rank b ∧ b.Fits
  | .assign _ _ target value => (2 ≤ rank target ∧ target.Fits) ∧ value.Fits
  | .step _ _ true e => 9 ≤ rank e ∧ e.Fits
  | .step _ _ false e => 10 ≤ rank e ∧ e.Fits
  | .cond _ test yes no => (2 ≤ rank test ∧ test.Fits) ∧ yes.Fits ∧ no.Fits
  | .paren _ e => e.Fits
  | _ => True

def FitsAll : List Expr → Prop
  | [] => True
  | e :: es => e.Fits ∧ FitsAll es

end

mutual

/-- Every type name in the tree is spelled. -/
def Spelled : Expr → Prop
  | .new _ t args => t.type.Spelled ∧ SpelledAll args
  | .call _ e args => e.Spelled ∧ SpelledAll args
  | .member _ e _ | .unary _ _ e | .step _ _ _ e | .paren _ e => e.Spelled
  | .binary _ _ a b | .assign _ _ a b => a.Spelled ∧ b.Spelled
  | .cond _ test yes no => test.Spelled ∧ yes.Spelled ∧ no.Spelled
  | _ => True

def SpelledAll : List Expr → Prop
  | [] => True
  | e :: es => e.Spelled ∧ SpelledAll es

end

theorem rank_enclose {r : Nat} (hr : r ≤ 11) (e : Expr) : r ≤ rank (enclose r e) := by
  unfold enclose
  split
  · assumption
  · exact hr

theorem fits_enclose {r : Nat} (hr : r ≤ 11) {e : Expr} (h : e.Fits) :
    r ≤ rank (enclose r e) ∧ (enclose r e).Fits := by
  refine ⟨rank_enclose hr e, ?_⟩
  unfold enclose
  split
  · exact h
  · simpa only [Fits] using h

theorem leftPlace_le (op : BinaryOp) : leftPlace op ≤ 11 := by cases op <;> decide

theorem rightPlace_le (op : BinaryOp) : rightPlace op ≤ 11 := by cases op <;> decide

mutual

theorem fits_parenthesize : ∀ {e : Expr}, e.Spelled → e.parenthesize.Fits
  | .int .., _ | .double .., _ | .str .., _ | .bool .., _ | .null .., _ | .thisRef .., _
  | .name .., _ => by simp only [parenthesize, Fits]
  | .member _ e _, h => by
    simp only [parenthesize, Fits]
    exact fits_enclose (by omega) (fits_parenthesize (e := e) (by simpa only [Spelled] using h))
  | .call _ e args, h => by
    simp only [Spelled] at h
    obtain ⟨hr, he⟩ := fits_enclose (r := 10) (by omega) (fits_parenthesize h.1)
    simp only [parenthesize, Fits]
    exact ⟨hr, he, fitsAll_parenthesizeAll h.2⟩
  | .new _ t args, h => by
    simp only [Spelled] at h
    simp only [parenthesize, Fits]
    exact ⟨h.1, fitsAll_parenthesizeAll h.2⟩
  | .unary _ _ e, h => by
    simp only [parenthesize, Fits]
    exact fits_enclose (by omega) (fits_parenthesize (e := e) (by simpa only [Spelled] using h))
  | .binary _ op a b, h => by
    simp only [Spelled] at h
    simp only [parenthesize, Fits]
    exact ⟨fits_enclose (leftPlace_le op) (fits_parenthesize h.1),
      fits_enclose (rightPlace_le op) (fits_parenthesize h.2)⟩
  | .assign _ _ target value, h => by
    simp only [Spelled] at h
    simp only [parenthesize, Fits]
    exact ⟨fits_enclose (by omega) (fits_parenthesize h.1), fits_parenthesize h.2⟩
  | .step _ _ true e, h => by
    simp only [parenthesize, Fits]
    exact fits_enclose (by omega) (fits_parenthesize (e := e) (by simpa only [Spelled] using h))
  | .step _ _ false e, h => by
    simp only [parenthesize, Fits]
    exact fits_enclose (by omega) (fits_parenthesize (e := e) (by simpa only [Spelled] using h))
  | .cond _ test yes no, h => by
    simp only [Spelled] at h
    simp only [parenthesize, Fits]
    exact ⟨fits_enclose (by omega) (fits_parenthesize h.1), fits_parenthesize h.2.1,
      fits_parenthesize h.2.2⟩
  | .paren _ e, h => by
    simp only [parenthesize, Fits]
    exact fits_parenthesize (e := e) (by simpa only [Spelled] using h)

theorem fitsAll_parenthesizeAll : ∀ {es : List Expr}, SpelledAll es → FitsAll (parenthesizeAll es)
  | [], _ => by simp only [parenthesizeAll, FitsAll]
  | e :: es, h => by
    simp only [SpelledAll] at h
    simp only [parenthesizeAll, FitsAll]
    exact ⟨fits_parenthesize h.1, fitsAll_parenthesizeAll h.2⟩

end

mutual

/-- The levels of nesting inside an expression. Arguments, branches, the value of an assignment and
what stands between parentheses or after a prefix operator are one level down. -/
def depth : Expr → Nat
  | .member _ e _ => e.depth
  | .call _ e args => max e.depth (depthAll args)
  | .new _ _ args => depthAll args
  | .unary _ _ e => e.depth + 1
  | .binary _ _ a b => max a.depth b.depth
  | .assign _ _ target value => max target.depth (value.depth + 1)
  | .step _ _ true e => e.depth + 1
  | .step _ _ false e => e.depth
  | .cond _ test yes no => max test.depth (max yes.depth no.depth + 1)
  | .paren _ e => e.depth + 1
  | _ => 0

def depthAll : List Expr → Nat
  | [] => 0
  | e :: es => max (e.depth + 1) (depthAll es)

end

attribute [simp] depth depthAll

theorem depth_lt_depthAll {e : Expr} {es : List Expr} (h : e ∈ es) : e.depth < depthAll es := by
  induction es with
  | nil => cases h
  | cons x xs ih =>
    simp only [depthAll]
    rcases List.mem_cons.mp h with rfl | h
    · omega
    · have hxs := ih h
      omega

end Expr

def Ident.bare (id : Ident) : Ident := ⟨id.name, default⟩

def TypeExpr.bare : TypeExpr → TypeExpr
  | .named name => .named ⟨name.parts.map Ident.bare, default⟩
  | t => t

def TypeRef.bare (t : TypeRef) : TypeRef := ⟨t.type.bare, default⟩

namespace Expr

mutual

def bare : Expr → Expr
  | .int _ n => .int default n
  | .double _ x => .double default x
  | .str _ s => .str default s
  | .bool _ b => .bool default b
  | .null _ => .null default
  | .thisRef _ => .thisRef default
  | .name _ id => .name default id
  | .member _ e id => .member default e.bare id.bare
  | .call _ e args => .call default e.bare (bareAll args)
  | .new _ t args => .new default t.bare (bareAll args)
  | .unary _ op e => .unary default op e.bare
  | .binary _ op a b => .binary default op a.bare b.bare
  | .assign _ op target value => .assign default op target.bare value.bare
  | .step _ op leading e => .step default op leading e.bare
  | .cond _ test yes no => .cond default test.bare yes.bare no.bare
  | .paren _ e => e.bare

def bareAll : List Expr → List Expr
  | [] => []
  | e :: es => e.bare :: bareAll es

end

theorem bareAll_eq (es : List Expr) : bareAll es = es.map bare := by
  induction es with
  | nil => simp only [bareAll, List.map_nil]
  | cons e es ih => simp only [bareAll, List.map_cons, ih]

@[simp] theorem bare_enclose (r : Nat) (e : Expr) : (enclose r e).bare = e.bare := by
  unfold enclose
  split
  · rfl
  · simp only [bare]

mutual

theorem bare_parenthesize : ∀ e : Expr, e.parenthesize.bare = e.bare
  | .int .. | .double .. | .str .. | .bool .. | .null .. | .thisRef .. | .name .. => by
    simp only [parenthesize]
  | .member _ e _ | .unary _ _ e | .step _ _ true e | .step _ _ false e | .paren _ e => by
    simp only [parenthesize, bare, bare_enclose, bare_parenthesize e]
  | .call _ e args => by
    simp only [parenthesize, bare, bare_enclose, bare_parenthesize e, bareAll_parenthesizeAll args]
  | .new _ _ args => by simp only [parenthesize, bare, bareAll_parenthesizeAll args]
  | .binary _ _ a b | .assign _ _ a b => by
    simp only [parenthesize, bare, bare_enclose, bare_parenthesize a, bare_parenthesize b]
  | .cond _ test yes no => by
    simp only [parenthesize, bare, bare_enclose, bare_parenthesize test, bare_parenthesize yes,
      bare_parenthesize no]

theorem bareAll_parenthesizeAll : ∀ es : List Expr, bareAll (parenthesizeAll es) = bareAll es
  | [] => by simp only [parenthesizeAll]
  | e :: es => by
    simp only [parenthesizeAll, bareAll, bare_parenthesize e, bareAll_parenthesizeAll es]

end

end Expr

end Chunkwise
