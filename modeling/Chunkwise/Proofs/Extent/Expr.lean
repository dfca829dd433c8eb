import Chunkwise.Parser.Expr
import Chunkwise.Proofs.Extent.Contract

namespace Chunkwise

open Script

variable {T : Script} {i j k m : Nat}

theorem Expr.stands_spans {e : Expr} (h : T.Stands i j e.spanTree) : T.Spans i j e.span := by
  have hs := h.spans
  rwa [Expr.span_spanTree] at hs

/-- Two expressions under a node whose region reaches from the first one to the second one. -/
theorem Expr.stands_pair {l r : Expr} (hl : T.Stands i k l.spanTree) (hkm : k ≤ m)
    (hr : T.Stands m j r.spanTree) (hj : j ≤ T.body.length) :
    T.Stands i j (.node (l.span.merge r.span) [l.spanTree, r.spanTree]) := by
  have hnode := hl.join (Row.nil hkm) hr hj
  rwa [Expr.span_spanTree, Expr.span_spanTree] at hnode

namespace Parser

variable {α : Type}

/-- Wherever the parser starts, what it yields stands for the tokens it has passed. -/
def Builds (T : Script) (p : Parser α) (tree : α → SpanTree) : Prop :=
  ∀ i, Goes T True i p fun a j => T.Stands i j (tree a)

/-- Wherever the parser starts, it passes a token, and what it yields makes a row of trees. -/
def Lists (T : Script) (p : Parser α) (trees : α → List SpanTree) : Prop :=
  ∀ i, Goes T True i p fun a j => i < j ∧ T.Row i j (trees a)

/-- A round appends to a row of trees up to the position where it begins, or leaves it as it is. -/
def Appends (T : Script) (E : Prop) (step : List α → Parser (List α ⊕ List α)) (tree : α → SpanTree) :
    Prop :=
  ∀ i, Keeps T E step (fun as j => T.Row i j (as.map tree)) fun as j => T.Row i j (as.map tree)

theorem Appends.repeatFrom {E : Prop} {step : List α → Parser (List α ⊕ List α)} {tree : α → SpanTree}
    (h : Appends T E step tree) :
    Goes T E i (repeatFrom step []) fun as j => T.Row i j (as.map tree) :=
  (h i).repeatFrom fun _ => Row.nil (Nat.le_refl i)

theorem identifier_builds : Builds T identifier Ident.spanTree := by
  intro i
  apply Goes.kind
  split
  next name hname =>
    have hgoes : T.kindAt i ≠ .endOfInput := by simp [hname]
    apply Goes.span
    exact Goes.advance hgoes (Goes.pure fun _ => stands_token hgoes)
  · exact Goes.expected _

/-- The name so far reaches from `i` to the position of the cursor, with a row of all its parts. -/
theorem nameStep_keeps (i : Nat) : Keeps T True nameStep
    (fun q j => i < j ∧ T.Spans i j q.span ∧ T.Row i j (q.parts.map Ident.spanTree))
    fun q j => T.Stands i j q.spanTree := by
  intro q j
  apply Goes.eatThen (by simp)
  · intro _
    apply (identifier_builds _).bind
    intro part k hk hpart
    apply Goes.pure
    intro hlen
    refine ⟨hk, fun ⟨hlt, hspans, hrow⟩ => ?_⟩
    have hmerged := hspans.merge hpart.spans (by omega) (by omega) (by omega) hlen
    exact ⟨by omega, hmerged, (hrow.wait (Nat.le_succ j)).push hpart⟩
  · exact Goes.pure fun hlen ⟨hlt, hspans, hrow⟩ => hrow.stands hlt hspans hlen

theorem qualifiedName_builds : Builds T qualifiedName QualifiedName.spanTree := by
  intro i
  apply (identifier_builds i).bind
  intro first j _ hfirst
  exact (nameStep_keeps i).repeatFrom fun _ => ⟨hfirst.lt, hfirst.spans, hfirst.row⟩

theorem spanTree_of_builtinType? {l : TokenKind} {t : TypeExpr} (span : Span)
    (h : builtinType? l = some t) : (⟨t, span⟩ : TypeRef).spanTree = .node span [] ∧ l ≠ .endOfInput := by
  unfold builtinType? at h
  split at h <;> cases h <;> exact ⟨rfl, by simp⟩

theorem typeRef_builds : Builds T typeRef TypeRef.spanTree := by
  intro i
  apply Goes.span
  apply Goes.kind
  split
  next t ht =>
    obtain ⟨htree, hgoes⟩ := spanTree_of_builtinType? (T.spanAt i) ht
    apply Goes.advance hgoes
    apply Goes.pure
    intro _
    rw [htree]
    exact stands_token hgoes
  next =>
    split
    · apply (qualifiedName_builds i).bind
      intro name j _ hname
      exact Goes.pure fun hlen => hname.row.stands hname.lt hname.spans hlen
    · exact Goes.expected _

theorem operator?_ne_end {ops : List (Symbol × BinaryOp)} {l : TokenKind} {op : BinaryOp}
    (h : operator? ops l = some op) : l ≠ .endOfInput := by
  rintro rfl
  cases h

variable {operand nested other : Parser Expr}

theorem leftStep_keeps (ops : List (Symbol × BinaryOp)) (h : Builds T operand Expr.spanTree) (i : Nat) :
    Keeps T True (leftStep ops operand) (fun e j => T.Stands i j e.spanTree)
      fun e j => T.Stands i j e.spanTree := by
  intro left j
  apply Goes.kind
  split
  next op hop =>
    apply Goes.advance (operator?_ne_end hop)
    apply (h _).bind
    intro right k hk hright
    apply Goes.pure
    exact fun hlen => ⟨hk, fun hleft => Expr.stands_pair hleft (Nat.le_succ j) hright hlen⟩
  · exact Goes.pure fun _ => id

theorem leftLevel_builds (ops : List (Symbol × BinaryOp)) (h : Builds T operand Expr.spanTree) :
    Builds T (leftLevel ops operand) Expr.spanTree := by
  intro i
  apply (h i).bind
  intro first j _ hfirst
  exact (leftStep_keeps ops h i).repeatFrom fun _ => hfirst

theorem leftLevels_builds (levels : List (List (Symbol × BinaryOp))) (h : Builds T operand Expr.spanTree) :
    Builds T (levels.foldr leftLevel operand) Expr.spanTree := by
  induction levels with
  | nil => exact h
  | cons ops levels ih => exact leftLevel_builds ops ih

/-- Operands with gaps between them, from the start of the first to the end of the last. -/
inductive Joined (T : Script) : Nat → Nat → List Expr → Prop where
  | one {i j : Nat} {e : Expr} (he : T.Stands i j e.spanTree) : Joined T i j [e]
  | more {i j k m : Nat} {e : Expr} {es : List Expr} (he : T.Stands i k e.spanTree) (hkm : k ≤ m)
      (hes : Joined T m j es) : Joined T i j (e :: es)

theorem Joined.concat {es : List Expr} {e : Expr} (hes : Joined T i k es) (hkm : k ≤ m)
    (he : T.Stands m j e.spanTree) : Joined T i j (es ++ [e]) := by
  induction hes with
  | one hfirst => exact .more hfirst hkm (.one he)
  | more hfirst hgap _ ih => exact .more hfirst hgap (ih hkm)

theorem coalesceRight_stands {first : Expr} {rest : List Expr} (h : Joined T i j (first :: rest))
    (hj : j ≤ T.body.length) : T.Stands i j (coalesceRight first rest).spanTree := by
  induction rest generalizing first i with
  | nil =>
    cases h with
    | one he => exact he
    | more _ _ hes => cases hes
  | cons next rest ih =>
    cases h with
    | more he hgap hes => exact Expr.stands_pair he hgap (ih hes) hj

theorem coalesceStep_keeps (h : Builds T operand Expr.spanTree) (i : Nat) (first : Expr) :
    Keeps T True (coalesceStep operand) (fun es k => Joined T i k (first :: es))
      fun es k => Joined T i k (first :: es) := by
  intro es j
  apply Goes.eatThen (by simp)
  · intro _
    apply (h _).bind
    exact fun next k hk hnext => Goes.pure fun _ => ⟨hk, fun hes => hes.concat (Nat.le_succ j) hnext⟩
  · exact Goes.pure fun _ => id

theorem coalesce_builds (h : Builds T operand Expr.spanTree) :
    Builds T (coalesce operand) Expr.spanTree := by
  intro i
  apply (h i).bind
  intro first j _ hfirst
  apply ((coalesceStep_keeps h i first).repeatFrom fun _ => .one hfirst).bind
  exact fun es k _ hes => Goes.pure fun hlen => coalesceRight_stands hes hlen

theorem conditional_builds (h : Builds T operand Expr.spanTree) (hn : Builds T nested Expr.spanTree) :
    Builds T (conditional operand nested) Expr.spanTree := by
  intro i
  apply (coalesce_builds h i).bind
  intro test j _ htest
  apply Goes.eatThen (by simp)
  · intro _
    apply (hn _).bind
    intro yes k _ hyes
    apply Goes.expect (by simp)
    apply (hn _).bind
    intro no m hkm hno
    apply Goes.pure
    intro hlen
    have hrow : T.Row j (k + 1) [yes.spanTree] := (hyes.row.after (Nat.le_succ j)).wait (Nat.le_succ k)
    have hnode := htest.join hrow hno hlen
    rwa [Expr.span_spanTree, Expr.span_spanTree] at hnode
  · exact Goes.pure fun _ => htest

theorem assignOp?_ne_end {l : TokenKind} {op : AssignOp} (h : assignOp? l = some op) :
    l ≠ .endOfInput := by
  rintro rfl
  cases h

theorem assignment_builds (h : Builds T operand Expr.spanTree) (hn : Builds T nested Expr.spanTree) :
    Builds T (assignment operand nested) Expr.spanTree := by
  intro i
  apply (conditional_builds h hn i).bind
  intro target j _ htarget
  apply Goes.kind
  split
  next op hop =>
    apply Goes.advance (assignOp?_ne_end hop)
    apply (hn _).bind
    intro value k _ hvalue
    exact Goes.pure fun hlen => Expr.stands_pair htarget (Nat.le_succ j) hvalue hlen
  · exact Goes.pure fun _ => htarget

theorem argumentStep_appends (hn : Builds T nested Expr.spanTree) :
    Appends T True (argumentStep nested) Expr.spanTree := by
  intro i args j
  apply (hn j).bind
  intro arg k hjk harg
  have hmore : T.Row i j (args.map Expr.spanTree) → T.Row i (k + 1) ((args ++ [arg]).map Expr.spanTree) :=
    fun hargs => (hargs.push harg).wait (Nat.le_succ k)
  apply Goes.eatThen (by simp)
  · exact fun _ => Goes.pure fun _ => ⟨by omega, hmore⟩
  apply Goes.expect (by simp)
  exact Goes.pure fun _ => hmore

theorem arguments_lists (hn : Builds T nested Expr.spanTree) :
    Lists T (arguments nested) (·.map Expr.spanTree) := by
  intro i
  apply Goes.expect (by simp)
  apply Goes.eatThen (by simp)
  · exact fun _ => Goes.pure fun _ => ⟨by omega, Row.nil (by omega)⟩
  apply (argumentStep_appends hn).repeatFrom.mono
  exact fun args j hij hargs => ⟨hij, hargs.after (Nat.le_succ i)⟩

theorem spanTree_of_literal? {l : TokenKind} {span : Span} {e : Expr} (h : literal? span l = some e) :
    e.spanTree = .node span [] ∧ l ≠ .endOfInput := by
  cases l with
  | int | double | str | ident =>
    cases h
    exact ⟨rfl, by simp⟩
  | keyword k => cases k <;> cases h <;> exact ⟨rfl, by simp⟩
  | _ => cases h

theorem unsupported_goes (l : Keyword) {B : α → Nat → Prop} : Goes T True i (unsupported l) B :=
  fun _ hc => .givesUp trivial (Nat.le_refl i) ⟨hc.left, hc.previous⟩

theorem primary_builds (hn : Builds T nested Expr.spanTree) : Builds T (primary nested) Expr.spanTree := by
  intro i
  apply Goes.span
  apply Goes.kind
  split
  next e he =>
    obtain ⟨htree, hgoes⟩ := spanTree_of_literal? he
    apply Goes.advance hgoes
    apply Goes.pure
    intro _
    rw [htree]
    exact stands_token hgoes
  next =>
    split
    next hopen =>
      apply Goes.advance (by simp [hopen])
      apply (hn _).bind
      intro inner j hij hinner
      apply Goes.expect (by simp)
      apply Goes.spanFrom
      have hrow : T.Row i (j + 1) [inner.spanTree] :=
        (hinner.row.after (Nat.le_succ i)).wait (Nat.le_succ j)
      exact Goes.pure fun hlen => hrow.enclosed (by omega) hlen
    next hnew =>
      apply Goes.advance (by simp [hnew])
      apply (typeRef_builds _).bind
      intro type j _ htype
      apply (arguments_lists hn j).bind
      intro args k hjk ⟨hlt, hargs⟩
      apply Goes.spanFrom
      apply Goes.pure
      intro hlen
      have hrow : T.Row i k (type.spanTree :: args.map Expr.spanTree) :=
        (htype.row.after (Nat.le_succ i)).append hargs
      have hnode := hrow.enclosed (by omega) hlen
      rwa [← Expr.spanTrees_eq] at hnode
    · exact unsupported_goes _
    · exact unsupported_goes _
    · exact Goes.expected _

theorem Expr.stands_extended {e : Expr} (he : T.Stands i j e.spanTree) {trees : List SpanTree}
    (hrow : T.Row j k trees) (hjk : j < k) (hk : k ≤ T.body.length) :
    T.Stands i k (.node (e.span.merge (T.spanAt (k - 1))) (e.spanTree :: trees)) := by
  have hlt := he.lt
  exact (Row.cons he hrow).closed (Expr.stands_spans he) (by omega) (by omega) hk

/-- The operand of a round stands for the tokens from the start of the expression. -/
theorem postfixStep_keeps (hn : Builds T nested Expr.spanTree) (i : Nat) :
    Keeps T True (postfixStep nested) (fun e j => T.Stands i j e.spanTree)
      fun e j => T.Stands i j e.spanTree := by
  intro e j
  apply Goes.kind
  split
  next hdot =>
    apply Goes.advance (by simp [hdot])
    apply (identifier_builds _).bind
    intro name k hk hname
    apply Goes.pure
    refine fun hlen => ⟨hk, fun he => ?_⟩
    have hnode := he.join (Row.nil (Nat.le_succ j)) hname hlen
    rwa [Expr.span_spanTree] at hnode
  next hopen =>
    apply (arguments_lists hn j).bind
    intro args k _ ⟨hjk, hargs⟩
    apply Goes.spanFrom
    apply Goes.pure
    refine fun hlen => ⟨hjk, fun he => ?_⟩
    have hnode := Expr.stands_extended he hargs hjk hlen
    dsimp only at hnode
    rwa [← Expr.spanTrees_eq] at hnode
  next hplus =>
    apply Goes.span
    apply Goes.advance (by simp [hplus])
    apply Goes.pure
    exact fun hlen => ⟨Nat.lt_succ_self j, fun he =>
      Expr.stands_extended he (Row.nil (Nat.le_succ j)) (Nat.lt_succ_self j) hlen⟩
  next hminus =>
    apply Goes.span
    apply Goes.advance (by simp [hminus])
    apply Goes.pure
    exact fun hlen => ⟨Nat.lt_succ_self j, fun he =>
      Expr.stands_extended he (Row.nil (Nat.le_succ j)) (Nat.lt_succ_self j) hlen⟩
  · exact Goes.pure fun _ => id

theorem postfixExpr_builds (hn : Builds T nested Expr.spanTree) :
    Builds T (postfixExpr nested) Expr.spanTree := by
  intro i
  apply (primary_builds hn i).bind
  intro first j _ hfirst
  exact (postfixStep_keeps hn i).repeatFrom fun _ => hfirst

theorem leadingOp?_ne_end {l : TokenKind} {op : LeadingOp} (h : leadingOp? l = some op) :
    l ≠ .endOfInput := by
  rintro rfl
  cases h

theorem LeadingOp.apply_spanTree (op : LeadingOp) (span : Span) (e : Expr) :
    (op.apply span e).spanTree = .node span [e.spanTree] := by
  cases op <;> rw [LeadingOp.apply, Expr.spanTree]

theorem leading_builds (h : Builds T operand Expr.spanTree) (ho : Builds T other Expr.spanTree) :
    Builds T (leading operand other) Expr.spanTree := by
  intro i
  apply Goes.span
  apply Goes.kind
  split
  next op hop =>
    apply Goes.advance (leadingOp?_ne_end hop)
    apply (h _).bind
    intro e j hij he
    apply Goes.pure
    intro hlen
    have hspans := (T.spans_token i).merge (Expr.stands_spans he) (Nat.le_succ i) hij (by omega) hlen
    rw [LeadingOp.apply_spanTree]
    exact (he.row.after (Nat.le_succ i)).stands (by omega) hspans hlen
  · exact ho i

theorem tooDeep_goes (what : Nesting) {B : α → Nat → Prop} : Goes T True i (tooDeep what) B :=
  fun _ hc => .givesUp trivial (Nat.le_refl i) ⟨hc.left, hc.previous⟩

theorem within_builds (room : Nat) : Builds T (expressionWithin room) Expr.spanTree ∧
    Builds T (unaryWithin room) Expr.spanTree := by
  induction room with
  | zero =>
    have hdeep : Builds T (tooDeep .expression) Expr.spanTree := fun _ => tooDeep_goes _
    rw [expressionWithin, unaryWithin]
    exact ⟨hdeep, leading_builds hdeep (postfixExpr_builds hdeep)⟩
  | succ room ih =>
    obtain ⟨hexpr, hunary⟩ := ih
    have hassignment := assignment_builds (leftLevels_builds leftLevels hunary) hexpr
    rw [expressionWithin, unaryWithin]
    exact ⟨hassignment, leading_builds hunary (postfixExpr_builds hassignment)⟩

theorem expression_builds : Builds T expression Expr.spanTree := (within_builds maxNesting).1

end Parser

end Chunkwise
