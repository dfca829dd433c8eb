import Chunkwise.Parser.Expr
import Chunkwise.Proofs.RoundTrip.Accepts
import Chunkwise.Proofs.RoundTrip.Print
import Mathlib.Tactic.IntervalCases

/-!
The parser of each level of precedence reads the text of an expression of that rank or above, as long
as the token after it does not continue an expression at that level or above. The levels that group
to the left are loops, and the induction says for them how a loop is entered, so that a left operand
leaves the loop where the operator continues it.
-/
namespace Chunkwise.Parser

open Grammar Chunkwise.Expr

variable {room r : Nat} {e : Expr} {w t : List TokenKind} {k : TokenKind}

/-- The level at which a token continues an expression that stands before it. -/
def joinRank : TokenKind → Option Nat
  | .symbol .assign | .symbol .plusAssign | .symbol .minusAssign | .symbol .starAssign
  | .symbol .slashAssign | .symbol .percentAssign => some 0
  | .symbol .question => some 1
  | .symbol .coalesce => some 2
  | .symbol .either => some 3
  | .symbol .both => some 4
  | .symbol .equal | .symbol .notEqual => some 5
  | .symbol .less | .symbol .lessEqual | .symbol .greater | .symbol .greaterEqual => some 6
  | .symbol .plus | .symbol .minus => some 7
  | .symbol .star | .symbol .slash | .symbol .percent => some 8
  | .symbol .dot | .symbol .openParen | .symbol .plusPlus | .symbol .minusMinus => some 10
  | _ => none

/-- What follows does not continue an expression at level `r` or above. -/
def Stops (r : Nat) (t : List TokenKind) : Prop := ∀ k ∈ t.head?, ∀ s ∈ joinRank k, s < r

theorem Stops.mono {s : Nat} (h : Stops r t) (hle : r ≤ s) : Stops s t :=
  fun k hk i hi => Nat.lt_of_lt_of_le (h k hk i hi) hle

theorem stops_cons (h : ∀ s ∈ joinRank k, s < r) : Stops r (k :: t) := by
  intro k' hk'
  obtain rfl : k = k' := by simpa using hk'
  exact h

theorem stops_eleven : Stops 11 t := by
  intro k _ s hs
  unfold joinRank at hs
  split at hs <;> cases hs <;> decide

theorem Stops.joinRank_ne (h : Stops r (k :: t)) {s : Nat} (hle : r ≤ s) : joinRank k ≠ some s :=
  fun hk => absurd (h k rfl s hk) (by omega)

theorem Stops.head?_ne (h : Stops r t) {s : Nat} (hk : joinRank k = some s) (hle : r ≤ s) :
    t.head? ≠ some k :=
  fun hhead => absurd (h k hhead s hk) (by omega)

/-- The parser of a place of rank `r`. -/
def placed (room : Nat) : Nat → Parser Expr
  | 0 => expressionWithin (room + 1)
  | 1 => conditional (leftOperators (unaryWithin room)) (expressionWithin room)
  | 2 => coalesce (leftOperators (unaryWithin room))
  | 10 => postfixExpr (expressionWithin room)
  | 11 => primary (expressionWithin room)
  | r => (leftLevels.drop (r - 3)).foldr leftLevel (unaryWithin room)

/-- The levels that extend an expression round by round. -/
def Joins (r : Nat) : Prop := 3 ≤ r ∧ r ≤ 8 ∨ r = 10

def levelOps (r : Nat) : List (Symbol × BinaryOp) := leftLevels[r - 3]?.getD []

def joinStep (room r : Nat) : Expr → Parser (Expr ⊕ Expr) :=
  if r = 10 then postfixStep (expressionWithin room) else leftStep (levelOps r) (placed room (r + 1))

theorem placed_join (h : Joins r) :
    placed room r = placed room (r + 1) >>= repeatFrom (joinStep room r) := by
  obtain ⟨hlow, hhigh⟩ | rfl := h
  · interval_cases r <;> rfl
  · rfl

theorem operator?_levelOps {op : BinaryOp} (h : op ≠ .coalesce) :
    operator? (levelOps (opRank op)) (.symbol op.symbol) = some op := by
  cases op with
  | coalesce => exact absurd rfl h
  | _ => rfl

theorem joinRank_symbol (op : BinaryOp) : joinRank (.symbol op.symbol) = some (opRank op) := by
  cases op <;> rfl

theorem joins_opRank {op : BinaryOp} (h : op ≠ .coalesce) : Joins (opRank op) := by
  cases op with
  | coalesce => exact absurd rfl h
  | _ => exact .inl (by decide)

theorem operator?_eq_none (hlow : 3 ≤ r) (hhigh : r ≤ 8) (h : joinRank k ≠ some r) :
    operator? (levelOps r) k = none := by
  cases k with
  | symbol s => interval_cases r <;> cases s <;> first | rfl | exact absurd rfl h
  | _ => rfl

theorem joinStep_left (hhigh : r ≤ 8) :
    joinStep room r = leftStep (levelOps r) (placed room (r + 1)) := if_neg (by omega)

theorem joinStep_ten : joinStep room 10 = postfixStep (expressionWithin room) := rfl

theorem joinStep_stops (hr : Joins r) (ht : Stops r t) (a : Expr) :
    Accepts (joinStep room r a) [] t fun x => ∃ b, x = .inr b ∧ b = a := by
  refine Accepts.of_cons ?_
  rintro k t rfl
  have hk := ht.joinRank_ne (Nat.le_refl r)
  obtain ⟨hlow, hhigh⟩ | rfl := hr
  · rw [joinStep_left hhigh]
    refine Accepts.peekNext ?_
    rw [operator?_eq_none hlow hhigh hk]
    exact Accepts.pure ⟨a, rfl, rfl⟩
  · rw [joinStep_ten]
    refine Accepts.peekNext ?_
    split
    case h_5 => exact Accepts.pure ⟨a, rfl, rfl⟩
    all_goals exact absurd rfl hk

/-- The parser of level `r` reads the text of `e`. -/
def Reaches (room r : Nat) (e : Expr) : Prop :=
  ∀ t, Stops r t → Accepts (placed room r) e.tokens t (·.bare = e.bare)

/-- The loop of level `r` is entered with `e`. -/
def Opens (room r : Nat) (e : Expr) : Prop :=
  ∀ t, Stops (r + 1) t → Enters (placed room r) (joinStep room r) e.tokens t (·.bare = e.bare)

theorem Reaches.opens (hr : Joins r) (h : Reaches room (r + 1) e) : Opens room r e := by
  intro t ht
  rw [placed_join hr]
  exact Enters.first (h t ht)

theorem Opens.reaches (hr : Joins r) (h : Opens room r e) : Reaches room r e := by
  intro t ht
  refine (h t (ht.mono (Nat.le_succ r))).stop fun a ha => ?_
  exact (joinStep_stops hr ht a).mono fun x ⟨b, hx, hb⟩ => ⟨b, hx, hb ▸ ha⟩

theorem coalesceStep_stops (ht : Stops 2 t) (operand : Parser Expr) (es : List Expr) :
    Accepts (coalesceStep operand es) [] t fun x => ∃ es', x = .inr es' ∧ es' = es :=
  Accepts.eat_other (ht.head?_ne rfl (Nat.le_refl 2)) (Accepts.pure ⟨es, rfl, rfl⟩)

theorem Reaches.coalesce (h : Reaches room 3 e) : Reaches room 2 e := by
  intro t ht
  refine (h t (ht.mono (by omega))).andThen fun a ha => ?_
  have hnone : Accepts (repeatFrom (coalesceStep (placed room 3)) []) [] t (· = []) := by
    refine (Enters.start (Q := (· = [])) rfl).stop fun es hes => ?_
    exact (coalesceStep_stops ht _ es).mono fun x ⟨es', hx, hes'⟩ => ⟨es', hx, hes'.trans hes⟩
  refine Accepts.andThen hnone fun es hes => Accepts.pure ?_
  rw [hes]
  exact ha

theorem Reaches.conditional (h : Reaches room 2 e) : Reaches room 1 e := by
  intro t ht
  refine (h t (ht.mono (by omega))).andThen fun a ha => ?_
  exact Accepts.eat_other (ht.head?_ne rfl (Nat.le_refl 1)) (Accepts.pure ha)

theorem assignOp?_eq_none (h : joinRank k ≠ some 0) : assignOp? k = none := by
  unfold assignOp?
  split
  case h_7 => rfl
  all_goals exact absurd rfl h

/-- What a conditional reads is an expression where no assignment follows. -/
theorem Accepts.assignment (ht : Stops 0 t)
    (h : Accepts (placed room 1) w t (·.bare = e.bare)) :
    Accepts (placed room 0) w t (·.bare = e.bare) := by
  refine h.andThen fun a ha => Accepts.of_cons ?_
  rintro k t rfl
  refine Accepts.peekNext ?_
  rw [assignOp?_eq_none (ht.joinRank_ne (Nat.le_refl 0))]
  exact Accepts.pure ha

theorem Reaches.whole (h : Reaches room 2 e) : Reaches room 0 e :=
  fun t ht => (h.conditional t (ht.mono (by omega))).assignment ht

theorem placed_nine : ∃ operand, placed room 9 = leading operand (placed room 10) := by
  cases room with
  | zero => exact ⟨_, rfl⟩
  | succ room => exact ⟨_, rfl⟩

/-- The text does not begin with a prefix operator. -/
def Unled (w : List TokenKind) : Prop := ∃ k w', w = k :: w' ∧ (leadingOp? k).isNone

theorem Reaches.unled (h : Reaches room 10 e) (hw : Unled e.tokens) : Reaches room 9 e := by
  intro t ht
  obtain ⟨k, w, hk, hnone⟩ := hw
  obtain ⟨operand, hplaced⟩ : ∃ operand, placed room 9 = leading operand (placed room 10) :=
    placed_nine
  have htail := h t (ht.mono (by omega))
  rw [hplaced]
  rw [hk] at htail ⊢
  refine Accepts.look fun start => Accepts.peek ?_
  rw [Option.isNone_iff_eq_none.mp hnone]
  exact htail

theorem Reaches.lower (h : Reaches room (r + 1) e) (hlow : 2 ≤ r) (hhigh : r ≤ 10)
    (hw : r = 9 → Unled e.tokens) : Reaches room r e := by
  by_cases hjoins : Joins r
  · exact (h.opens hjoins).reaches hjoins
  · obtain rfl | rfl : r = 2 ∨ r = 9 := by
      unfold Joins at hjoins
      omega
    · exact h.coalesce
    · exact h.unled (hw rfl)

theorem Reaches.down {s : Nat} (h : Reaches room s e) (hlow : 2 ≤ r) (hle : r ≤ s) (hhigh : s ≤ 11)
    (hw : 10 ≤ s → Unled e.tokens) : Reaches room r e := by
  induction s, hle using Nat.le_induction with
  | base => exact h
  | succ s hle ih =>
    exact ih (h.lower (by omega) (by omega) fun hs => hw (by omega)) (by omega) fun hs => hw (by omega)

/-- A loop of `??` goes on with the text of `e` and ends after it. -/
def Chains (room : Nat) (e : Expr) : Prop :=
  ∀ (p : Parser (List Expr)) (w t : List TokenKind) (Q : List Expr → Prop), Stops 2 t →
    Enters p (coalesceStep (placed room 3)) w (.symbol .coalesce :: (e.tokens ++ t)) Q →
    Accepts p (w ++ .symbol .coalesce :: e.tokens) t fun es => ∃ before x after,
      Q before ∧ es = before ++ x :: after ∧ (coalesceRight x after).bare = e.bare

theorem coalesceStep_joins (h : Reaches room 3 e) (ht : Stops 3 t) (es : List Expr) :
    Accepts (coalesceStep (placed room 3) es) (.symbol .coalesce :: e.tokens) t fun x =>
      ∃ es', x = .inl es' ∧ ∃ a, es' = es ++ [a] ∧ a.bare = e.bare :=
  Accepts.eat_then ((h t ht).andThen fun a ha => Accepts.pure ⟨_, rfl, a, rfl, ha⟩)

theorem Reaches.chains (h : Reaches room 3 e) : Chains room e := by
  intro p w t Q ht henters
  have hnext : Enters p (coalesceStep (placed room 3)) (w ++ .symbol .coalesce :: e.tokens) t fun es =>
      ∃ before a, Q before ∧ es = before ++ [a] ∧ a.bare = e.bare := by
    refine henters.again (by simp) fun es hes => ?_
    refine (coalesceStep_joins h (ht.mono (by omega)) es).mono ?_
    rintro x ⟨es', hx, a, hes', ha⟩
    exact ⟨es', hx, es, a, hes, hes', ha⟩
  refine hnext.stop fun es hes => (coalesceStep_stops ht _ es).mono ?_
  rintro x ⟨es', hx, rfl⟩
  obtain ⟨before, a, hbefore, rfl, ha⟩ := hes
  exact ⟨_, hx, before, a, [], hbefore, rfl, ha⟩

theorem chains_coalesce {a b : Expr} {span : Span} (ha : Reaches room 3 a) (hb : Chains room b) :
    Chains room (.binary span .coalesce a b) := by
  intro p w t Q ht henters
  have hnext : Enters p (coalesceStep (placed room 3)) (w ++ .symbol .coalesce :: a.tokens)
      (.symbol .coalesce :: (b.tokens ++ t)) fun es =>
      ∃ before x, Q before ∧ es = before ++ [x] ∧ x.bare = a.bare := by
    refine Enters.again (Q := Q) ?_ (by simp) fun es hes => ?_
    · simpa [Expr.tokens, BinaryOp.symbol] using henters
    · refine (coalesceStep_joins ha (stops_cons (by simp [joinRank])) es).mono ?_
      rintro x ⟨es', hx, y, hes', hy⟩
      exact ⟨es', hx, es, y, hes, hes', hy⟩
  have hread := hb p _ t _ ht hnext
  have htext : w ++ .symbol .coalesce :: (Expr.binary span .coalesce a b).tokens =
      w ++ .symbol .coalesce :: a.tokens ++ .symbol .coalesce :: b.tokens := by
    simp [Expr.tokens, BinaryOp.symbol]
  rw [htext]
  refine hread.mono ?_
  rintro es ⟨_, y, after, ⟨before, x, hbefore, rfl, hx⟩, rfl, hy⟩
  refine ⟨before, x, y :: after, hbefore, by simp, ?_⟩
  simp only [coalesceRight, binary, Expr.bare, hx, hy]

/-- The text of `e` is read at every place that its rank allows. No place asks for rank 1. -/
structure Readable (e : Expr) : Prop where
  unled : 10 ≤ rank e → Unled e.tokens
  reaches : ∀ {room r}, e.depth ≤ room → r ≤ rank e → r ≠ 1 → Reaches room r e
  opens : ∀ {room r}, e.depth ≤ room → r ≤ rank e → Joins r → Opens room r e
  chains : ∀ {room}, e.depth ≤ room → 2 ≤ rank e → Chains room e

theorem rank_le (e : Expr) : rank e ≤ 11 := by
  unfold rank
  split
  case h_3 op _ _ => cases op <;> decide
  all_goals decide

/-- An expression that is read at its own level, at least that of `||`. -/
theorem Readable.of_reaches (hrank : 3 ≤ rank e) (hunled : 10 ≤ rank e → Unled e.tokens)
    (h : ∀ {room}, e.depth ≤ room → Reaches room (rank e) e)
    (hopens : ∀ {room}, e.depth ≤ room → Joins (rank e) → Opens room (rank e) e) : Readable e := by
  have hdown : ∀ {room r}, e.depth ≤ room → 2 ≤ r → r ≤ rank e → Reaches room r e :=
    fun hroom hlow hle => (h hroom).down hlow hle (rank_le e) hunled
  refine ⟨hunled, fun {room r} hroom hle hne => ?_, fun {room r} hroom hle hr => ?_,
    fun hroom _ => (hdown hroom (by omega) hrank).chains⟩
  · obtain rfl | hlow : r = 0 ∨ 2 ≤ r := by omega
    · exact (hdown hroom (by omega) (by omega)).whole
    · exact hdown hroom hlow hle
  · obtain rfl | hlt := Nat.eq_or_lt_of_le hle
    · exact hopens hroom hr
    · have hlow : 3 ≤ r := by
        unfold Joins at hr
        omega
      exact (hdown hroom (by omega) hlt).opens hr

theorem Readable.of_opens (hjoins : Joins (rank e)) (hunled : 10 ≤ rank e → Unled e.tokens)
    (h : ∀ {room}, e.depth ≤ room → Opens room (rank e) e) : Readable e := by
  refine .of_reaches ?_ hunled (fun hroom => (h hroom).reaches hjoins) fun hroom _ => h hroom
  unfold Joins at hjoins
  omega

theorem Readable.of_whole (hrank : rank e ≤ 1)
    (h : ∀ {room}, e.depth ≤ room → Reaches room 0 e) : Readable e := by
  refine ⟨fun hle => absurd hle (by omega), fun {room r} hroom hle hne => ?_,
    fun {room r} hroom hle hr => ?_, fun _ hle => absurd hle (by omega)⟩
  · obtain rfl : r = 0 := by omega
    exact h hroom
  · unfold Joins at hr
    omega

theorem Readable.nested (h : Readable e) (hroom : e.depth + 1 ≤ room) (ht : Stops 0 t) :
    Accepts (expressionWithin room) e.tokens t (·.bare = e.bare) := by
  cases room with
  | zero => omega
  | succ room => exact h.reaches (by omega) (Nat.zero_le _) (by omega) t ht

theorem dotted_accepts (ids : List Ident) {p : Parser QualifiedName} {Q : QualifiedName → Prop}
    (ht : t.head? ≠ some (.symbol .dot)) (h : Enters p nameStep w (dotted ids ++ t) Q) :
    Accepts p (w ++ dotted ids) t fun q => ∃ q₀, Q q₀ ∧
      q.parts.map Ident.bare = q₀.parts.map Ident.bare ++ ids.map Ident.bare := by
  induction ids generalizing w Q with
  | nil =>
    simp only [dotted, List.append_nil]
    refine h.stop fun q hq => Accepts.eat_other ht (Accepts.pure ⟨q, rfl, q, hq, by simp⟩)
  | cons id ids ih =>
    have hnext : Enters p nameStep (w ++ [TokenKind.symbol .dot, .ident id.name]) (dotted ids ++ t) fun q =>
        ∃ q₀, Q q₀ ∧ q.parts.map Ident.bare = q₀.parts.map Ident.bare ++ [id.bare] := by
      refine Enters.again (v := [.symbol .dot, .ident id.name]) h (by simp) fun q hq =>
        Accepts.eat_then (Accepts.identifier_then ?_)
      intro part hpart
      exact Accepts.pure ⟨_, rfl, q, hq, by simp [Ident.bare, hpart]⟩
    have hread := (ih hnext).mono (S := fun q => ∃ q₀, Q q₀ ∧
      q.parts.map Ident.bare = q₀.parts.map Ident.bare ++ (id :: ids).map Ident.bare) (by
        rintro q ⟨q₁, ⟨q₀, hq₀, hq₁⟩, hq⟩
        exact ⟨q₀, hq₀, by rw [hq, hq₁]; simp⟩)
    simpa [dotted] using hread

theorem qualifiedName_accepts {q : QualifiedName} (hq : q.parts ≠ [])
    (ht : t.head? ≠ some (.symbol .dot)) :
    Accepts qualifiedName q.tokens t (·.parts.map Ident.bare = q.parts.map Ident.bare) := by
  obtain ⟨id, ids, hparts⟩ := List.exists_cons_of_ne_nil hq
  have htokens : q.tokens = .ident id.name :: dotted ids := by simp [QualifiedName.tokens, hparts]
  rw [htokens, hparts]
  refine Accepts.identifier_then fun first hfirst => ?_
  have hfrom : Enters (repeatFrom nameStep ⟨[first], first.span⟩) nameStep [] (dotted ids ++ t)
      (· = ⟨[first], first.span⟩) := Enters.start rfl
  refine (dotted_accepts ids ht hfrom).mono ?_
  rintro q' ⟨q₀, rfl, hq'⟩
  simpa [Ident.bare, hfirst] using hq'

theorem typeRef_accepts {type : TypeExpr} (h : type.Spelled) (ht : t.head? ≠ some (.symbol .dot)) :
    Accepts typeRef type.tokens t (·.type.bare = type.bare) := by
  cases type with
  | named q =>
    obtain ⟨id, ids, hparts⟩ := List.exists_cons_of_ne_nil h
    have hread := qualifiedName_accepts h ht
    have htokens : q.tokens = .ident id.name :: dotted ids := by simp [QualifiedName.tokens, hparts]
    simp only [TypeExpr.tokens]
    rw [htokens] at hread ⊢
    refine Accepts.look fun span => Accepts.peek (hread.andThen fun q' hq' => Accepts.pure ?_)
    simp [TypeExpr.bare, hq']
  | _ => exact Accepts.look fun span => Accepts.peek (Accepts.advance_then (Accepts.pure rfl))

/-- The parser reads the text of `e` before a comma and before a closing parenthesis. -/
def Takes (nested : Parser Expr) (e : Expr) : Prop :=
  ∀ t, Stops 0 t → Accepts nested e.tokens t (·.bare = e.bare)

theorem furtherTokens_stops (es : List Expr) : Stops 0 (furtherTokens es ++ t) := by
  cases es with
  | nil => exact stops_cons (by simp [joinRank])
  | cons e es => exact stops_cons (by simp [joinRank])

theorem further_accepts {nested : Parser Expr} (es : List Expr) {p : Parser (List Expr)}
    {Q : List Expr → Prop} (he : Takes nested e) (hes : ∀ x ∈ es, Takes nested x)
    (h : Enters p (argumentStep nested) w (e.tokens ++ furtherTokens es ++ t) Q) :
    Accepts p (w ++ e.tokens ++ furtherTokens es) t fun args => ∃ before, Q before ∧
      args.map Expr.bare = before.map Expr.bare ++ (e :: es).map Expr.bare := by
  induction es generalizing e w Q with
  | nil =>
    rw [List.append_assoc]
    refine Enters.last h fun args hargs => ?_
    refine (he _ (furtherTokens_stops [])).bind fun a ha => ?_
    refine Accepts.eat_other (by simp [furtherTokens]) (Accepts.expect_then (Accepts.pure ?_))
    exact ⟨_, rfl, args, hargs, by simp [ha]⟩
  | cons x xs ih =>
    have hnext : Enters p (argumentStep nested) (w ++ (e.tokens ++ [TokenKind.symbol .comma]))
        (x.tokens ++ furtherTokens xs ++ t) fun args => ∃ before, Q before ∧
          args.map Expr.bare = before.map Expr.bare ++ [e.bare] := by
      refine Enters.again (Q := Q) ?_ (by simp) fun args hargs => ?_
      · simpa [furtherTokens] using h
      · refine (he _ (stops_cons (by simp [joinRank]))).bind fun a ha => ?_
        exact Accepts.eat_then (Accepts.pure ⟨_, rfl, args, hargs, by simp [ha]⟩)
    have hread := (ih (hes x (by simp)) (fun y hy => hes y (by simp [hy])) hnext).mono (S := fun args =>
      ∃ before, Q before ∧ args.map Expr.bare = before.map Expr.bare ++ (e :: x :: xs).map Expr.bare) (by
        rintro args ⟨mid, ⟨before, hbefore, hmid⟩, hargs⟩
        exact ⟨before, hbefore, by rw [hargs, hmid]; simp⟩)
    simpa [furtherTokens] using hread

theorem arguments_accepts {nested : Parser Expr} (args : List Expr) (h : ∀ x ∈ args, Takes nested x) :
    Accepts (arguments nested) (argumentTokens args) t (bareAll · = bareAll args) := by
  simp only [bareAll_eq]
  cases args with
  | nil =>
    simp only [argumentTokens]
    exact Accepts.expect_then (Accepts.eat_then (Accepts.pure rfl))
  | cons e es =>
    simp only [argumentTokens]
    obtain ⟨k, v, hv, hk⟩ := tokens_begin e
    refine Accepts.expect_then (Accepts.eat_other ?_ ?_)
    · rw [hv]
      rintro ⟨rfl⟩
      cases hk
    have hread := further_accepts es (t := t) (w := []) (h e (by simp)) (fun x hx => h x (by simp [hx]))
      (Enters.start (Q := (· = [])) rfl)
    refine hread.mono ?_
    rintro as ⟨before, rfl, has⟩
    simpa using has

theorem readable_literal (hrank : rank e = 11) (htokens : e.tokens = [k])
    (h : ∀ span, ∃ a, literal? span k = some a ∧ a.bare = e.bare) : Readable e := by
  have hunled : Unled e.tokens := by
    obtain ⟨a, ha, -⟩ := h default
    refine ⟨k, [], htokens, ?_⟩
    cases k with
    | symbol s => cases ha
    | _ => rfl
  refine .of_reaches (by omega) (fun _ => hunled) (fun {room} hroom => ?_) fun _ hjoins => ?_
  · rw [hrank, Reaches, htokens]
    intro t ht
    refine Accepts.look fun span => Accepts.peek ?_
    obtain ⟨a, ha, hbare⟩ := h span
    rw [ha]
    exact Accepts.advance_then (Accepts.pure hbare)
  · unfold Joins at hjoins
    omega

theorem readable_paren (span : Span) (h : Readable e) : Readable (.paren span e) := by
  refine .of_reaches (by simp [rank]) (fun _ => ⟨_, _, rfl, rfl⟩) (fun {room} hroom => ?_) fun _ hjoins =>
    absurd hjoins (by simp [Joins, rank])
  simp only [depth] at hroom
  intro t ht
  refine Accepts.look fun start => Accepts.peek (Accepts.advance_then ?_)
  refine (h.nested hroom (stops_cons (by simp [joinRank]))).bind fun a ha => ?_
  exact Accepts.expect_then (Accepts.span fun s => Accepts.pure (by simpa only [Expr.bare] using ha))

theorem takes_all {args : List Expr} (h : ∀ x ∈ args, Readable x) (hroom : depthAll args ≤ room) :
    ∀ x ∈ args, Takes (expressionWithin room) x := by
  intro x hx t ht
  have hdepth := depth_lt_depthAll hx
  exact (h x hx).nested (by omega) ht

theorem readable_new {args : List Expr} (span : Span) {type : TypeRef} (htype : type.type.Spelled)
    (h : ∀ x ∈ args, Readable x) : Readable (.new span type args) := by
  refine .of_reaches (by simp [rank]) (fun _ => ⟨_, _, rfl, rfl⟩) (fun {room} hroom => ?_)
    fun _ hjoins => absurd hjoins (by simp [Joins, rank])
  simp only [depth] at hroom
  intro t ht
  simp only [tokens]
  refine Accepts.look fun start => Accepts.peek (Accepts.advance_then ?_)
  have hnext : (argumentTokens args ++ t).head? ≠ some (.symbol .dot) := by
    cases args <;> simp [argumentTokens]
  refine (typeRef_accepts htype hnext).bind fun type' htype' => ?_
  refine (arguments_accepts args (takes_all h hroom)).andThen fun args' hargs' => ?_
  refine Accepts.span fun s => Accepts.pure ?_
  simp only [Expr.bare, TypeRef.bare, htype', hargs']

/-- A postfix step after an expression that is itself read by the loop. -/
theorem readable_trailing {e' : Expr} (h : Readable e) (hrank : 10 ≤ rank e) (hrank' : rank e' = 10)
    (hw : w ≠ []) (htokens : e'.tokens = e.tokens ++ w) (hdepth : e.depth ≤ e'.depth)
    (hstep : ∀ {room t a}, e'.depth ≤ room → a.bare = e.bare →
      Accepts (postfixStep (expressionWithin room) a) w t fun x => ∃ b, x = .inl b ∧ b.bare = e'.bare) :
    Readable e' := by
  have hjoins : Joins (rank e') := .inr hrank'
  refine .of_opens hjoins (fun _ => ?_) fun {room} hroom => ?_
  · obtain ⟨k, v, hv, hk⟩ := h.unled hrank
    exact ⟨k, v ++ w, by rw [htokens, hv, List.cons_append], hk⟩
  · rw [hrank', Opens, htokens]
    intro t ht
    exact (h.opens (by omega) hrank (.inr rfl) (w ++ t) stops_eleven).again hw fun a ha =>
      hstep hroom ha

theorem readable_member (span : Span) (id : Ident) (h : Readable e) (hrank : 10 ≤ rank e) :
    Readable (.member span e id) := by
  refine readable_trailing (w := [.symbol .dot, .ident id.name]) h hrank rfl (by simp)
    (by simp only [tokens]) (by simp) ?_
  intro room t a _ ha
  refine Accepts.peek (Accepts.advance_then (Accepts.identifier_then fun id' hid => Accepts.pure ?_))
  exact ⟨_, rfl, by simp only [Expr.bare, ha, Ident.bare, hid]⟩

theorem readable_call {args : List Expr} (span : Span) (h : Readable e) (hrank : 10 ≤ rank e)
    (hargs : ∀ x ∈ args, Readable x) : Readable (.call span e args) := by
  obtain ⟨v, hv⟩ : ∃ v, argumentTokens args = .symbol .openParen :: v := by
    cases args <;> exact ⟨_, rfl⟩
  refine readable_trailing (w := argumentTokens args) h hrank rfl (by simp [hv])
    (by simp only [tokens]) (by simp) ?_
  intro room t a hroom ha
  simp only [depth] at hroom
  have hall := takes_all hargs (show depthAll args ≤ room by omega)
  have hread := arguments_accepts (t := t) args hall
  rw [hv] at hread ⊢
  refine Accepts.peek (hread.andThen fun args' hargs' => Accepts.span fun s => Accepts.pure ?_)
  exact ⟨_, rfl, by simp only [Expr.bare, ha, hargs']⟩

theorem readable_stepped (span : Span) (op : StepOp) (h : Readable e) (hrank : 10 ≤ rank e) :
    Readable (.step span op false e) := by
  refine readable_trailing (w := [.symbol op.symbol]) h hrank rfl (by simp)
    (by simp only [tokens]) (by simp) ?_
  intro room t a _ ha
  cases op <;> exact Accepts.peek (Accepts.look fun s => Accepts.advance_then
    (Accepts.pure ⟨_, rfl, by simp only [Expr.bare, ha]⟩))

/-- A prefix operator before an operand that may have one as well. -/
theorem readable_led {e' : Expr} {s : Symbol} {op : LeadingOp} (h : Readable e) (hrank : 9 ≤ rank e)
    (hrank' : rank e' = 9) (htokens : e'.tokens = .symbol s :: e.tokens)
    (hop : leadingOp? (.symbol s) = some op) (hdepth : e'.depth = e.depth + 1)
    (hbare : ∀ span a, a.bare = e.bare → (op.apply span a).bare = e'.bare) : Readable e' := by
  refine .of_reaches (by omega) (fun hle => absurd hle (by omega)) (fun {room} hroom => ?_)
    fun _ hjoins => ?_
  · rw [hrank', Reaches, htokens]
    intro t ht
    cases room with
    | zero => omega
    | succ room =>
      refine Accepts.look fun start => Accepts.peek ?_
      rw [hop]
      refine Accepts.advance_then ?_
      refine (h.reaches (by omega) hrank (by omega) t ht).andThen fun a ha => ?_
      exact Accepts.pure (hbare _ a ha)
  · unfold Joins at hjoins
    omega

theorem readable_unary (span : Span) (op : UnaryOp) (h : Readable e) (hrank : 9 ≤ rank e) :
    Readable (.unary span op e) := by
  have hop : leadingOp? (.symbol op.symbol) = some (.unary op) := by cases op <;> rfl
  refine readable_led h hrank rfl (by simp only [tokens]) hop (by simp only [depth]) fun s a ha => ?_
  simp only [LeadingOp.apply, Expr.bare, ha]

theorem readable_stepping (span : Span) (op : StepOp) (h : Readable e) (hrank : 9 ≤ rank e) :
    Readable (.step span op true e) := by
  have hop : leadingOp? (.symbol op.symbol) = some (.step op) := by cases op <;> rfl
  refine readable_led h hrank rfl (by simp only [tokens]) hop (by simp only [depth]) fun s a ha => ?_
  simp only [LeadingOp.apply, Expr.bare, ha]

/-- The left operand leaves the loop at its operator, and the right operand binds more tightly. -/
theorem readable_left {a b : Expr} {op : BinaryOp} (span : Span) (hop : op ≠ .coalesce)
    (ha : Readable a) (hb : Readable b) (hleft : opRank op ≤ rank a) (hright : opRank op + 1 ≤ rank b) :
    Readable (.binary span op a b) := by
  have hjoins := joins_opRank hop
  have hlow : 3 ≤ opRank op ∧ opRank op ≤ 8 := by cases op <;> first | exact absurd rfl hop | decide
  refine .of_opens hjoins (fun hle => ?_) fun {room} hroom => ?_
  · change 10 ≤ opRank op at hle
    omega
  · simp only [depth] at hroom
    intro t ht
    simp only [tokens]
    refine Enters.again (v := .symbol op.symbol :: b.tokens) (Q := (·.bare = a.bare))
      (ha.opens (by omega) hleft hjoins _ ?_) (by simp) fun x hx => ?_
    · refine stops_cons fun s hs => ?_
      rw [joinRank_symbol] at hs
      cases hs
      exact Nat.lt_succ_self _
    · change Accepts (joinStep room (opRank op) x) _ t _
      rw [joinStep_left hlow.2]
      refine Accepts.peek ?_
      rw [operator?_levelOps hop]
      refine Accepts.advance_then ?_
      refine (hb.reaches (by omega) hright (by omega) t ht).andThen fun y hy => ?_
      exact Accepts.pure ⟨_, rfl, by simp only [binary, Expr.bare, hx, hy]⟩

theorem readable_coalesce {a b : Expr} (span : Span) (ha : Readable a) (hb : Readable b)
    (hleft : 3 ≤ rank a) (hright : 2 ≤ rank b) : Readable (.binary span .coalesce a b) := by
  have hreach : ∀ {room}, (Expr.binary span .coalesce a b).depth ≤ room →
      Reaches room 2 (.binary span .coalesce a b) := by
    intro room hroom t ht
    simp only [depth] at hroom
    simp only [tokens]
    refine (ha.reaches (by omega) hleft (by omega) _ ?_).bind fun x hx => ?_
    · exact stops_cons (by simp [BinaryOp.symbol, joinRank])
    · have hchains : Chains room b := hb.chains (by omega) hright
      have hrest := hchains (repeatFrom (coalesceStep (placed room 3)) []) [] t (· = []) ht
        (Enters.start rfl)
      refine Accepts.andThen hrest fun es hes => Accepts.pure ?_
      obtain ⟨before, y, after, rfl, rfl, hy⟩ := hes
      simp only [List.nil_append, coalesceRight, binary, Expr.bare, hx, hy]
  refine ⟨fun hle => absurd hle (by simp [rank, opRank]), fun {room r} hroom hle hne => ?_,
    fun {room r} _ hle hjoins => ?_, fun {room} hroom _ => ?_⟩
  · obtain rfl | rfl : r = 0 ∨ r = 2 := by
      simp only [rank, opRank] at hle
      omega
    · exact (hreach hroom).whole
    · exact hreach hroom
  · simp only [rank, opRank] at hle
    unfold Joins at hjoins
    omega
  · simp only [depth] at hroom
    exact chains_coalesce (ha.reaches (by omega) hleft (by omega)) (hb.chains (by omega) hright)

theorem readable_cond {test yes no : Expr} (span : Span) (htest : Readable test)
    (hyes : Readable yes) (hno : Readable no) (hrank : 2 ≤ rank test) :
    Readable (.cond span test yes no) := by
  refine .of_whole (by simp [rank]) fun {room} hroom t ht => ?_
  simp only [depth] at hroom
  refine Accepts.assignment ht ?_
  simp only [tokens]
  refine (htest.reaches (by omega) hrank (by omega) _ (stops_cons (by simp [joinRank]))).bind
    fun a ha => Accepts.eat_then ?_
  refine (hyes.nested (by omega) (stops_cons (by simp [joinRank]))).bind fun b hb => ?_
  refine Accepts.expect_then ((hno.nested (by omega) ht).andThen fun d hd => Accepts.pure ?_)
  simp only [Expr.bare, ha, hb, hd]

theorem assignOp?_symbol (op : AssignOp) : assignOp? (.symbol op.symbol) = some op := by
  rcases op with _ | op
  · rfl
  · cases op <;> rfl

theorem joinRank_assign (op : AssignOp) : joinRank (.symbol op.symbol) = some 0 := by
  rcases op with _ | op
  · rfl
  · cases op <;> rfl

theorem readable_assign {target value : Expr} (span : Span) (op : AssignOp) (htarget : Readable target)
    (hvalue : Readable value) (hrank : 2 ≤ rank target) :
    Readable (.assign span op target value) := by
  refine .of_whole (by simp [rank]) fun {room} hroom t ht => ?_
  simp only [depth] at hroom
  simp only [tokens]
  have hreach : Reaches room 2 target := htarget.reaches (by omega) hrank (by omega)
  refine (hreach.conditional _ (stops_cons fun s hs => ?_)).bind fun a ha => ?_
  · rw [joinRank_assign] at hs
    cases hs
    decide
  · refine Accepts.peek ?_
    rw [assignOp?_symbol]
    refine Accepts.advance_then ((hvalue.nested (by omega) ht).andThen fun b hb => Accepts.pure ?_)
    simp only [Expr.bare, ha, hb]

mutual

theorem readable : ∀ {e : Expr}, e.Fits → Readable e
  | .int .., _ | .double .., _ | .str .., _ | .null .., _ | .thisRef .., _ | .name .., _ =>
    readable_literal rfl rfl fun _ => ⟨_, rfl, rfl⟩
  | .bool _ b, _ => by
    cases b <;> exact readable_literal rfl rfl fun _ => ⟨_, rfl, rfl⟩
  | .paren span e, h => by
    simp only [Fits] at h
    exact readable_paren span (readable h)
  | .new span type args, h => by
    simp only [Fits] at h
    exact readable_new span h.1 (readable_all h.2)
  | .member span e id, h => by
    simp only [Fits] at h
    exact readable_member span id (readable h.2) h.1
  | .call span e args, h => by
    simp only [Fits] at h
    exact readable_call span (readable h.2.1) h.1 (readable_all h.2.2)
  | .step span op false e, h => by
    simp only [Fits] at h
    exact readable_stepped span op (readable h.2) h.1
  | .step span op true e, h => by
    simp only [Fits] at h
    exact readable_stepping span op (readable h.2) h.1
  | .unary span op e, h => by
    simp only [Fits] at h
    exact readable_unary span op (readable h.2) h.1
  | .binary span op a b, h => by
    simp only [Fits] at h
    obtain ⟨⟨hleft, ha⟩, hright, hb⟩ := h
    by_cases hop : op = .coalesce
    · subst hop
      exact readable_coalesce span (readable ha) (readable hb) hleft hright
    · rw [leftPlace, if_neg hop] at hleft
      rw [rightPlace, if_neg hop] at hright
      exact readable_left span hop (readable ha) (readable hb) hleft hright
  | .cond span test yes no, h => by
    simp only [Fits] at h
    exact readable_cond span (readable h.1.2) (readable h.2.1) (readable h.2.2) h.1.1
  | .assign span op target value, h => by
    simp only [Fits] at h
    exact readable_assign span op (readable h.1.2) (readable h.2) h.1.1

theorem readable_all : ∀ {es : List Expr}, FitsAll es → ∀ e ∈ es, Readable e
  | [], _, _, he => nomatch he
  | x :: xs, h, e, he => by
    simp only [FitsAll] at h
    rcases List.mem_cons.mp he with heq | he
    · exact heq ▸ readable h.1
    · exact readable_all h.2 e he

end

end Chunkwise.Parser
