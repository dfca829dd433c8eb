import Chunkwise.Parser.Expr
import Chunkwise.Proofs.Parser.Reading

namespace Chunkwise

namespace Grammar

variable {L M : Language TokenKind} {sep : Language TokenKind}

theorem sepBy_concat_le (sep : Language TokenKind) (ls : List (Language TokenKind))
    (l : Language TokenKind) :
    sepBy sep ls * sep * l ≤ sepBy sep (ls ++ [l]) := by
  induction ls with
  | nil => simp [sepBy]
  | cons x xs ih =>
    cases xs with
    | nil => simp [sepBy]
    | cons y ys =>
      simp only [sepBy, List.cons_append, mul_assoc] at ih ⊢
      exact mul_le_mul' le_rfl (mul_le_mul' le_rfl ih)

/-- Elements that are each followed by a separator. -/
def trailed (sep : Language TokenKind) (ls : List (Language TokenKind)) : Language TokenKind :=
  (ls.map fun l => l * sep).prod

theorem trailed_concat (ls : List (Language TokenKind)) (l : Language TokenKind) :
    trailed sep (ls ++ [l]) = trailed sep ls * (l * sep) := by
  simp [trailed]

theorem trailed_mul_le (sep : Language TokenKind) (ls : List (Language TokenKind))
    (l : Language TokenKind) :
    trailed sep ls * l ≤ sepBy sep (ls ++ [l]) := by
  induction ls with
  | nil => simp [trailed, sepBy]
  | cons x xs ih =>
    have hstep : trailed sep (x :: xs) * l = x * sep * (trailed sep xs * l) := by
      simp [trailed, mul_assoc]
    rw [hstep]
    cases xs with
    | nil => simp [trailed, sepBy]
    | cons y ys => exact mul_le_mul' le_rfl ih

theorem commaList_concat (ls : List (Language TokenKind)) (l : Language TokenKind) :
    commaList (ls ++ [l]) = sepBy (sign ",") (ls ++ [l]) := by
  simp [commaList]

theorem nil_notMem_sign (text : String) : [] ∉ sign text := by
  rintro ⟨s, -, h⟩
  cases h

theorem nil_notMem_word (text : String) : [] ∉ word text := by
  rintro ⟨k, -, h⟩
  cases h

theorem nil_notMem_token (k : TokenKind) : [] ∉ ({[k]} : Language TokenKind) := by
  intro h
  cases h

theorem nil_notMem_ident (id : Ident) : [] ∉ ident id := nil_notMem_token _

theorem exprAt_of_le {r : Nat} {e : Expr} (h : r ≤ rank e) : exprAt r e = produced e := if_pos h

theorem exprAt_anti {r s : Nat} (h : r ≤ s) (e : Expr) : exprAt s e ≤ exprAt r e := by
  unfold exprAt ranked
  by_cases hs : s ≤ rank e
  · rw [if_pos hs, if_pos (Nat.le_trans h hs)]
  · rw [if_neg hs]
    exact bot_le

theorem producedAll_eq (es : List Expr) : producedAll es = es.map expr := by
  induction es with
  | nil => rfl
  | cons e es ih =>
    rw [producedAll, ih]
    rfl

end Grammar

namespace Parser

open Grammar

variable {L : Language TokenKind} {operand nested : Parser Expr}

theorem qualifiedName_reads : Reads qualifiedName qualified := by
  intro L
  refine identifier_reads.bind fun first => ?_
  refine Parses.repeatFrom (I := fun q _ => L * qualified q) (fun n q => ?_) ⟨[first], first.span⟩
  refine eatSymbol_then .dot (identifier_reads.bind fun part => Parses.pure fun _ => ?_)
    (Parses.pure fun _ => sized_le _ _)
  rw [mul_assoc]
  refine sized_mul_le (nil_notMem_mul_left (nil_notMem_sign _)) ?_ n
  have hparts := sepBy_concat_le (sign ".") (q.parts.map ident) (ident part)
  simpa [qualified, mul_assoc, Symbol.text] using hparts

theorem builtinType?_sound {k : TokenKind} {t : TypeExpr} (h : builtinType? k = some t) (span : Span) :
    k ≠ .endOfInput ∧ [k] ∈ type ⟨t, span⟩ := by
  cases k with
  | keyword k =>
    refine ⟨by simp, ?_⟩
    cases k <;> cases h
    case doubleKw.refl => exact .inl (word_self .doubleKw)
    case floatKw.refl => exact .inr (word_self .floatKw)
    all_goals exact ⟨_, rfl, rfl⟩
  | _ => cases h

theorem typeRef_reads : Reads typeRef type := by
  intro L
  refine Parses.look fun span => Parses.peek fun k => ?_
  split
  · next t ht =>
    obtain ⟨hk, hmem⟩ := builtinType?_sound ht span
    refine (Parses.advance hk).bind fun _ => Parses.pure fun _ => ?_
    exact mul_le_mul' le_rfl (Set.singleton_subset_iff.mpr hmem)
  · split
    · refine Parses.anywhere (qualifiedName_reads.bind fun name => Parses.pure fun _ => le_rfl)
    · exact expected_parses _

theorem exprAt_binary {op : BinaryOp} (hop : op ≠ .coalesce) (a b : Expr) :
    exprAt (opRank op) a * sign op.text * exprAt (opRank op + 1) b ≤
      exprAt (opRank op) (binary op a b) := by
  have hrank : opRank op ≤ rank (binary op a b) := Nat.le_refl _
  rw [exprAt_of_le hrank]
  cases op with
  | coalesce => exact absurd rfl hop
  | _ => exact le_rfl

/-- The operators of a level of rank `r`. -/
def IsLevel (r : Nat) (ops : List (Symbol × BinaryOp)) : Prop :=
  ∀ x ∈ ops, x.1.text = x.2.text ∧ opRank x.2 = r ∧ x.2 ≠ .coalesce

instance (r : Nat) (ops : List (Symbol × BinaryOp)) : Decidable (IsLevel r ops) :=
  inferInstanceAs (Decidable (∀ x ∈ ops, x.1.text = x.2.text ∧ opRank x.2 = r ∧ x.2 ≠ .coalesce))

theorem operator?_sound {r : Nat} {ops : List (Symbol × BinaryOp)} (hops : IsLevel r ops)
    {k : TokenKind} {op : BinaryOp} (h : operator? ops k = some op) :
    k ≠ .endOfInput ∧ [k] ∈ sign op.text ∧ opRank op = r ∧ op ≠ .coalesce := by
  cases k with
  | symbol s =>
    have hmem : (s, op) ∈ ops := by
      obtain ⟨before, after, hops, -⟩ := List.lookup_eq_some_iff.mp h
      simp [hops]
    obtain ⟨htext, hrank, hne⟩ := hops _ hmem
    exact ⟨by simp, ⟨s, htext, rfl⟩, hrank, hne⟩
  | _ => cases h

theorem leftLevel_reads (r : Nat) (ops : List (Symbol × BinaryOp)) (hops : IsLevel r ops)
    (hoperand : Reads operand (exprAt (r + 1))) : Reads (leftLevel ops operand) (exprAt r) := by
  intro L
  refine hoperand.bind fun first => ?_
  refine (Parses.repeatFrom (I := fun e _ => L * exprAt r e) (fun n left => ?_) first).mono
    (fun _ => mul_le_mul' le_rfl (exprAt_anti (Nat.le_succ r) first)) fun _ _ => le_rfl
  refine Parses.peek fun k => ?_
  split
  · next op hop =>
    obtain ⟨hk, hsign, hrank, hne⟩ := operator?_sound hops hop
    refine (Parses.advance hk).bind fun _ => hoperand.bind fun right => Parses.pure fun _ => ?_
    subst hrank
    have hgrown : sized n (L * exprAt (opRank op) left) * (sign op.text * exprAt (opRank op + 1) right)
        ≤ longer n (L * exprAt (opRank op) (binary op left right)) := by
      refine sized_mul_le (nil_notMem_mul_left (nil_notMem_sign _)) ?_ n
      rw [← mul_assoc]
      exact exprAt_binary hne left right
    refine le_trans ?_ hgrown
    rw [mul_assoc]
    exact mul_le_mul' le_rfl (mul_le_mul' (Set.singleton_subset_iff.mpr hsign) le_rfl)
  · exact Parses.anywhere (Parses.pure fun _ => sized_le _ _)

theorem leftOperators_reads (hoperand : Reads operand (exprAt 9)) :
    Reads (leftOperators operand) (exprAt 3) := by
  have hproduct := leftLevel_reads 8 [(.star, .mul), (.slash, .div), (.percent, .rem)] (by decide)
    hoperand
  have hsum := leftLevel_reads 7 [(.plus, .add), (.minus, .sub)] (by decide) hproduct
  have hrelation := leftLevel_reads 6
    [(.less, .lt), (.lessEqual, .le), (.greater, .gt), (.greaterEqual, .ge)] (by decide) hsum
  have hequality := leftLevel_reads 5 [(.equal, .eq), (.notEqual, .ne)] (by decide) hrelation
  have hboth := leftLevel_reads 4 [(.both, .and)] (by decide) hequality
  exact leftLevel_reads 3 [(.either, .or)] (by decide) hboth

theorem coalesceRight_le (first : Expr) (es : List Expr) :
    sepBy (sign "??") ((first :: es).map (exprAt 3)) ≤ exprAt 2 (coalesceRight first es) := by
  induction es generalizing first with
  | nil => exact exprAt_anti (by decide) first
  | cons next rest ih =>
    have hrank : 2 ≤ rank (binary .coalesce first (coalesceRight next rest)) := Nat.le_refl 2
    rw [coalesceRight, exprAt_of_le hrank]
    exact mul_le_mul' le_rfl (ih next)

theorem coalesce_reads (hoperand : Reads operand (exprAt 3)) :
    Reads (coalesce operand) (exprAt 2) := by
  intro L
  refine hoperand.bind fun first => ?_
  have hrest : Parses (fun _ => L * exprAt 3 first) (repeatFrom (coalesceStep operand) [])
      fun es _ => L * sepBy (sign "??") ((first :: es).map (exprAt 3)) := by
    refine Parses.repeatFrom (I := fun es _ => L * sepBy (sign "??") ((first :: es).map (exprAt 3)))
      (fun n es => ?_) []
    refine eatSymbol_then .coalesce (hoperand.bind fun e => Parses.pure fun _ => ?_)
      (Parses.pure fun _ => sized_le _ _)
    rw [mul_assoc]
    refine sized_mul_le (nil_notMem_mul_left (nil_notMem_sign _)) ?_ n
    have hlist := sepBy_concat_le (sign "??") ((first :: es).map (exprAt 3)) (exprAt 3 e)
    simpa [mul_assoc, Symbol.text] using hlist
  refine hrest.bind fun es => Parses.pure fun _ => ?_
  exact mul_le_mul' le_rfl (coalesceRight_le first es)

theorem conditional_reads (hoperand : Reads operand (exprAt 3)) (hnested : Reads nested expr) :
    Reads (conditional operand nested) (exprAt 1) := by
  intro L
  refine (coalesce_reads hoperand).bind fun test => ?_
  refine eatSymbol_then .question ?_ (Parses.pure fun _ => ?_)
  · refine hnested.bind fun yes => (expectSymbol_reads .colon).bind fun _ => hnested.bind fun no => ?_
    have hrank : 1 ≤ rank (.cond (test.span.merge no.span) test yes no) := Nat.le_refl 1
    refine Parses.pure fun _ => le_of_eq ?_
    rw [exprAt_of_le hrank, produced]
    simp only [mul_assoc]
    rfl
  · exact mul_le_mul' le_rfl (exprAt_anti (by decide) test)

theorem assignOp?_sound {k : TokenKind} {op : AssignOp} (h : assignOp? k = some op) :
    k ≠ .endOfInput ∧ [k] ∈ sign op.text := by
  cases k with
  | symbol s =>
    refine ⟨by simp, ?_⟩
    cases s <;> cases h <;> exact ⟨_, by decide, rfl⟩
  | _ => cases h

theorem assignment_reads (hoperand : Reads operand (exprAt 3)) (hnested : Reads nested expr) :
    Reads (assignment operand nested) expr := by
  intro L
  refine (conditional_reads hoperand hnested).bind fun target => Parses.peek fun k => ?_
  split
  · next op hop =>
    obtain ⟨hk, hsign⟩ := assignOp?_sound hop
    refine (Parses.advance hk).bind fun _ => hnested.bind fun value => Parses.pure fun _ => ?_
    have hrank : 0 ≤ rank (.assign (target.span.merge value.span) op target value) := Nat.le_refl 0
    unfold expr
    rw [exprAt_of_le hrank, produced, mul_assoc L, mul_assoc L]
    exact mul_le_mul' le_rfl (mul_le_mul' (mul_le_mul' le_rfl
      (Set.singleton_subset_iff.mpr hsign)) le_rfl)
  · refine Parses.anywhere (Parses.pure fun _ => ?_)
    exact mul_le_mul' le_rfl (exprAt_anti (Nat.zero_le 1) target)

section Parenthesised

variable {α : Type} {G : α → Language TokenKind}

/-- The items after an opening parenthesis, each followed by a comma. -/
def openList (L : Language TokenKind) (G : α → Language TokenKind) (as : List α) :
    Language TokenKind :=
  L * (sign "(" * trailed (sign ",") (as.map G))

/-- A round of reading a list in parentheses. -/
def ListStep (L : Language TokenKind) (G : α → Language TokenKind) (n : Nat) :
    List α ⊕ List α → Cursor → Language TokenKind
  | .inl as, _ => longer n (openList L G as)
  | .inr as, _ => L * (sign "(" * commaList (as.map G) * sign ")")

/-- After an item comes a comma and another one, or the end of the list. -/
theorem item_then (n : Nat) (as : List α) (a : α) :
    Parses (fun _ => sized n (openList L G as) * G a) (do
      if ← eatSymbol .comma then return .inl (as ++ [a])
      expectSymbol .closeParen
      return .inr (as ++ [a])) (ListStep L G n) := by
  refine eatSymbol_then .comma (Parses.pure fun _ => ?_) ?_
  · rw [mul_assoc]
    refine sized_mul_le (nil_notMem_mul_right (nil_notMem_sign _)) (le_of_eq ?_) n
    simp [trailed_concat, mul_assoc, Symbol.text]
  · refine (expectSymbol_reads .closeParen).bind fun _ => Parses.pure fun _ => ?_
    have hlist := trailed_mul_le (sign ",") (as.map G) (G a)
    calc sized n (openList L G as) * G a * sign ")"
        ≤ openList L G as * G a * sign ")" := mul_le_mul' (mul_le_mul' (sized_le _ _) le_rfl) le_rfl
      _ = L * (sign "(" * (trailed (sign ",") (as.map G) * G a) * sign ")") := by
          simp only [openList, mul_assoc]
      _ ≤ L * (sign "(" * sepBy (sign ",") (as.map G ++ [G a]) * sign ")") :=
          mul_le_mul' le_rfl (mul_le_mul' (mul_le_mul' le_rfl hlist) le_rfl)
      _ = L * (sign "(" * commaList ((as ++ [a]).map G) * sign ")") := by
          rw [List.map_append, List.map_singleton, commaList_concat]

theorem parenthesised_reads {step : List α → Parser (List α ⊕ List α)}
    (hstep : ∀ L n as, Parses (fun _ => sized n (openList L G as)) (step as) (ListStep L G n)) :
    Reads (do
      expectSymbol .openParen
      if ← eatSymbol .closeParen then return []
      repeatFrom step []) fun as => sign "(" * commaList (as.map G) * sign ")" := by
  intro L
  refine (expectSymbol_reads .openParen).bind fun _ => ?_
  refine eatSymbol_then .closeParen (Parses.pure fun _ => le_of_eq ?_) ?_
  · simp [commaList, mul_assoc, Symbol.text]
  · have hstart : L * sign (Symbol.text .openParen) = openList L G [] := by
      simp [openList, trailed, Symbol.text]
    rw [hstart]
    refine Parses.repeatFrom (I := fun as _ => openList L G as) (fun n as => ?_) []
    refine (hstep L n as).mono (fun _ => le_rfl) fun r _ => ?_
    cases r <;> exact le_rfl

end Parenthesised

theorem arguments_reads (hnested : Reads nested expr) :
    Reads (Parser.arguments nested) Grammar.arguments :=
  parenthesised_reads fun _ n args => hnested.bind fun e => item_then n args e

theorem literal?_sound {k : TokenKind} {e : Expr} {span : Span} (h : literal? span k = some e) :
    k ≠ .endOfInput ∧ [k] ∈ exprAt 11 e := by
  cases k with
  | keyword k =>
    refine ⟨by simp, ?_⟩
    cases k <;> cases h <;> exact ⟨_, rfl, rfl⟩
  | int n | double x | str s | ident name =>
    cases h
    exact ⟨by simp, rfl⟩
  | _ => cases h

theorem unsupported_parses {α : Type} {A : Cursor → Language TokenKind}
    {B : α → Cursor → Language TokenKind} (k : Keyword) : Parses A (unsupported k) B :=
  .ofReports fun c hc => c.report_leads hc _ _

theorem primary_reads (hnested : Reads nested expr) : Reads (primary nested) (exprAt 11) := by
  intro L
  refine Parses.look fun span => Parses.peek fun k => ?_
  split
  · next e he =>
    obtain ⟨hk, hmem⟩ := literal?_sound he
    refine (Parses.advance hk).bind fun _ => Parses.pure fun _ => ?_
    exact mul_le_mul' le_rfl (Set.singleton_subset_iff.mpr hmem)
  · split
    · refine (Parses.advance (by simp)).bind fun _ => hnested.bind fun inner => ?_
      refine (expectSymbol_reads .closeParen).bind fun _ => Parses.span fun _ => Parses.pure fun _ => ?_
      rw [mul_assoc L, mul_assoc L]
      exact mul_le_mul' le_rfl (mul_le_mul' (mul_le_mul'
        (Set.singleton_subset_iff.mpr (sign_self .openParen)) le_rfl) le_rfl)
    · refine (Parses.advance (by simp)).bind fun _ => typeRef_reads.bind fun type => ?_
      refine (arguments_reads hnested).bind fun args => Parses.span fun span => Parses.pure fun _ => ?_
      have hnew : exprAt 11 (.new span type args) =
          word "new" * Grammar.type type * Grammar.arguments args := by
        have hrank : 11 ≤ rank (.new span type args) := Nat.le_refl 11
        rw [exprAt_of_le hrank, produced, producedAll_eq]
        rfl
      rw [hnew, mul_assoc L, mul_assoc L]
      exact mul_le_mul' le_rfl (mul_le_mul' (mul_le_mul'
        (Set.singleton_subset_iff.mpr (word_self .newKw)) le_rfl) le_rfl)
    · exact unsupported_parses _
    · exact unsupported_parses _
    · exact expected_parses _

theorem exprAt_call (span : Span) (e : Expr) (args : List Expr) :
    exprAt 10 (.call span e args) = exprAt 10 e * Grammar.arguments args := by
  have hrank : 10 ≤ rank (.call span e args) := Nat.le_refl 10
  rw [exprAt_of_le hrank, produced, producedAll_eq]
  rfl

theorem postfixExpr_reads (hnested : Reads nested expr) :
    Reads (postfixExpr nested) (exprAt 10) := by
  intro L
  refine (primary_reads hnested).bind fun first => ?_
  refine (Parses.repeatFrom (I := fun e _ => L * exprAt 10 e) (fun n e => ?_) first).mono
    (fun _ => mul_le_mul' le_rfl (exprAt_anti (by decide) first)) fun _ _ => le_rfl
  -- every step adds a piece of text to the expression before it
  have hgrown : ∀ {M : Language TokenKind} {e' : Expr}, [] ∉ M → exprAt 10 e * M ≤ exprAt 10 e' →
      sized n (L * exprAt 10 e) * M ≤ longer n (L * exprAt 10 e') :=
    fun hM hle => sized_mul_le hM hle n
  refine Parses.peek fun k => ?_
  split
  · refine (Parses.advance (by simp)).bind fun _ => identifier_reads.bind fun name => ?_
    refine Parses.pure fun _ => ?_
    rw [mul_assoc]
    refine hgrown (nil_notMem_mul_right (nil_notMem_ident _)) ?_
    rw [← mul_assoc]
    exact mul_le_mul' (mul_le_mul' le_rfl (Set.singleton_subset_iff.mpr (sign_self .dot))) le_rfl
  · refine Parses.anywhere ((arguments_reads hnested).bind fun args => Parses.span fun span => ?_)
    refine Parses.pure fun _ => hgrown ?_ (le_of_eq (exprAt_call span e args).symm)
    exact nil_notMem_mul_right (nil_notMem_sign _)
  · refine Parses.look fun span => (Parses.advance (by simp)).bind fun _ => Parses.pure fun _ => ?_
    refine hgrown (nil_notMem_token _) ?_
    exact mul_le_mul' le_rfl (Set.singleton_subset_iff.mpr (sign_self .plusPlus))
  · refine Parses.look fun span => (Parses.advance (by simp)).bind fun _ => Parses.pure fun _ => ?_
    refine hgrown (nil_notMem_token _) ?_
    exact mul_le_mul' le_rfl (Set.singleton_subset_iff.mpr (sign_self .minusMinus))
  · exact Parses.anywhere (Parses.pure fun _ => sized_le _ _)

theorem leadingOp?_sound {k : TokenKind} {op : LeadingOp} (h : leadingOp? k = some op) (span : Span)
    (e : Expr) : k ≠ .endOfInput ∧ {[k]} * exprAt 9 e ≤ exprAt 9 (op.apply span e) := by
  cases k with
  | symbol s =>
    refine ⟨by simp, ?_⟩
    cases s <;> cases h <;>
      exact mul_le_mul' (Set.singleton_subset_iff.mpr ⟨_, rfl, rfl⟩) le_rfl
  | _ => cases h

theorem leading_reads {other : Parser Expr} (hoperand : Reads operand (exprAt 9))
    (hother : Reads other (exprAt 10)) : Reads (leading operand other) (exprAt 9) := by
  intro L
  refine Parses.look fun start => Parses.peek fun k => ?_
  split
  · next op hop =>
    have hk : k ≠ .endOfInput := (leadingOp?_sound hop start (.null start)).1
    refine (Parses.advance hk).bind fun _ => hoperand.bind fun e => Parses.pure fun _ => ?_
    rw [mul_assoc]
    exact mul_le_mul' le_rfl (leadingOp?_sound hop _ e).2
  · refine Parses.anywhere ((hother L).mono (fun _ => le_rfl) fun e _ => ?_)
    exact mul_le_mul' le_rfl (exprAt_anti (by decide) e)

theorem tooDeep_reads {α : Type} (what : Nesting) (G : α → Language TokenKind) :
    Reads (tooDeep what : Parser α) G :=
  fun _ => .ofReports fun c hc => c.report_leads hc _ _

mutual

theorem expressionWithin_reads : ∀ room, Reads (expressionWithin room) expr
  | 0 => tooDeep_reads _ _
  | room + 1 => by
    unfold expressionWithin
    exact assignment_reads (leftOperators_reads (unaryWithin_reads room))
      (expressionWithin_reads room)

theorem unaryWithin_reads : ∀ room, Reads (unaryWithin room) (exprAt 9)
  | 0 => by
    unfold unaryWithin
    exact leading_reads (tooDeep_reads _ _) (postfixExpr_reads (tooDeep_reads _ _))
  | room + 1 => by
    unfold unaryWithin
    exact leading_reads (unaryWithin_reads room) (postfixExpr_reads
      (assignment_reads (leftOperators_reads (unaryWithin_reads room))
        (expressionWithin_reads room)))

end

theorem expression_reads : Reads expression expr := expressionWithin_reads maxNesting

end Parser

end Chunkwise
