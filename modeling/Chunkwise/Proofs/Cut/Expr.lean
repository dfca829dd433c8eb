import Chunkwise.Proofs.Cut.Tracks

/-!
Every parser of expressions runs in step with itself up to a cut. A dotted name that stops at the cut
may be the beginning of a type as well, so what the parsers make of such a name is part of the account.
-/
namespace Chunkwise

/-- What may stand between the first part of a dotted name and a cut. -/
inductive Dangling : List Token → Prop
  | nil : Dangling []
  | dot {t : Token} : t.kind = .symbol .dot → Dangling [t]
  | part {t u : Token} {name : String} {rest : List Token} : t.kind = .symbol .dot →
    u.kind = .ident name → Dangling rest → Dangling (t :: u :: rest)

/-- Only a dotted name stands before the cut. -/
structure Cut.Dotted (K : Cut) (d : Cursor) : Prop where
  named : ∃ name, d.current.kind = .ident name
  later : ∃ rest, d.later = rest ++ [K.stop] ∧ Dangling rest
  quiet : d.issues = Log.empty

namespace Parser

variable {α β : Type} {K : Cut} {e : Bool} {n : Nat} {d : Cursor}

/-- A loop that takes a dot and a name in each round goes through to the cut. -/
theorem Finishes.dangling {step : β → Parser (β ⊕ α)} (make : β → Ident → β)
    (hdot : ∀ b d, d.current.kind = .symbol .dot →
      step b d = (identifier >>= fun part => pure (.inl (make b part))) d.advance)
    (hidle : ∀ b, Idles K true (step b) (·.isRight = true)) {rest : List Token}
    (hrest : Dangling rest) (limit : Nat) (b : β) {d : Cursor} (htokens : d.tokens = rest ++ [K.stop])
    (hquiet : d.issues = Log.empty) :
    Finishes K true (Attempt.loop step (rest.length + 1 + limit) b) (fun _ => True) d := by
  induction hrest generalizing limit b d with
  | nil =>
    rw [List.length_nil, Nat.zero_add, Nat.add_comm]
    exact Idles.loop hidle limit b d ⟨htokens, hquiet⟩
  | @dot t ht =>
    obtain ⟨hcurrent, hlater⟩ := List.cons.inj htokens
    have hspent : K.Spent d.advance := by
      constructor
      · rw [Cursor.advance_tokens (by simp [hlater]), hlater]
        rfl
      · rw [Cursor.advance_issues, hquiet]
    rw [List.length_singleton, Nat.add_right_comm]
    apply Finishes.bind (e := false) (R := fun _ => True) _ nofun
    unfold Finishes
    rw [hdot b d (hcurrent ▸ ht)]
    exact Idles.identifier.andThen d.advance hspent
  | @part t u name rest ht hu hrest ih =>
    obtain ⟨hcurrent, hlater⟩ := List.cons.inj htokens
    have hnext : d.advance.tokens = u :: (rest ++ [K.stop]) := by
      rw [Cursor.advance_tokens (by simp [hlater]), hlater]
      rfl
    obtain ⟨hcurrent', hlater'⟩ := List.cons.inj hnext
    have hstep : step b d = (some (.inl (make b ⟨name, u.span⟩)), d.advance.advance) := by
      rw [hdot b d (hcurrent ▸ ht)]
      simp only [Bind.bind, Attempt.bind, identifier_run (hcurrent' ▸ hu), hcurrent', Pure.pure,
        Attempt.pure]
    have hrest' : d.advance.advance.tokens = rest ++ [K.stop] := by
      rw [Cursor.advance_tokens (by simp [hlater']), hlater']
    have hloop := ih (limit + 1) (make b ⟨name, u.span⟩) hrest'
      (by rw [Cursor.advance_issues, Cursor.advance_issues, hquiet])
    have hlimit : (t :: u :: rest).length + 1 + limit = rest.length + 1 + (limit + 1) + 1 := by
      simp only [List.length_cons]
      omega
    rw [hlimit]
    unfold Finishes at hloop ⊢
    simpa only [Attempt.loop, Bind.bind, Attempt.bind, hstep] using hloop

/-- The same for a parser that goes on with such a loop after the first part of the name. -/
theorem Finishes.dotted {step : β → Parser (β ⊕ α)} (make : β → Ident → β)
    (hdot : ∀ b d, d.current.kind = .symbol .dot →
      step b d = (identifier >>= fun part => pure (.inl (make b part))) d.advance)
    (hidle : ∀ b, Idles K true (step b) (·.isRight = true)) {γ : Type} {first : Parser γ} {x : γ}
    (start : γ → β) (hd : K.Dotted d) (hfirst : first d = (some x, d.advance)) :
    Finishes K true (first >>= fun x => repeatFrom step (start x)) (fun _ => True) d := by
  obtain ⟨rest, hlater, hrest⟩ := hd.later
  have htokens : d.advance.tokens = rest ++ [K.stop] := by
    rw [Cursor.advance_tokens (by simp [hlater]), hlater]
  have hremaining : d.advance.remaining = rest.length + 1 + 0 := by
    rw [Cursor.remaining_eq_tokens, htokens, List.length_append, List.length_singleton, Nat.add_zero]
  have hloop := Finishes.dangling make hdot hidle hrest 0 (start x) htokens
    (by rw [Cursor.advance_issues, hd.quiet])
  rw [← hremaining] at hloop
  unfold Finishes at hloop ⊢
  simpa only [Bind.bind, Attempt.bind, hfirst, repeatFrom] using hloop

theorem qualifiedName_strict : Strict K true qualifiedName := by
  apply identifier_strict.next
  intro first
  apply Steps.repeatFrom
  · intro n q
    apply Tracks.eat_then (by simp)
    · exact identifier_strict.loose.past.next fun part => Tracks.pure fun _ => id
    · exact Tracks.pure fun _ => id
    · exact fun _ => Idles.pure (Nat.zero_le n)
  · exact fun _ q => Idles.eat_then (by simp) (Idles.pure rfl)

theorem qualifiedName_stops : Idles K e qualifiedName fun _ => True :=
  Idles.identifier.andThen

theorem qualifiedName_dotted (hd : K.Dotted d) :
    Finishes K true qualifiedName (fun _ => True) d := by
  obtain ⟨name, hname⟩ := hd.named
  apply Finishes.dotted (fun q part => ⟨q.parts ++ [part], q.span.merge part.span⟩) _ _ _ hd
    (identifier_run hname)
  · intro q d hdot
    simp only [nameStep, eatSymbol, eat, check, Attempt.gets, advance, Attempt.modify, Bind.bind,
      Attempt.bind, Pure.pure, Attempt.pure, hdot, beq_self_eq_true, if_true]
  · exact fun q => Idles.eat_then (by simp) (Idles.pure rfl)

theorem typeRef_stops : Idles K e typeRef fun _ => True :=
  Idles.look fun _ => Idles.peek (Idles.expected _)

theorem typeRef_strict : Strict K true typeRef := by
  intro n
  apply Tracks.here _ fun _ _ => Idles.peek (Idles.expected _)
  intro span
  apply Tracks.peek _ fun _ => Idles.expected _
  intro k
  cases hb : builtinType? k with
  | some t =>
    have hk : k ≠ .endOfInput := by
      rintro rfl
      cases hb
    exact (Tracks.advance hk).next fun _ => Tracks.pure fun _ => after_upTo
  | none =>
    dsimp only
    split
    · apply Tracks.anywhere
      apply (qualifiedName_strict n).bind
      · exact fun name => Tracks.pure fun _ => id
      · exact fun _ name hn => Idles.pure hn
    · exact Tracks.expected _

theorem typeRef_dotted (hd : K.Dotted d) : Finishes K true typeRef (fun _ => True) d := by
  obtain ⟨name, hname⟩ := hd.named
  have hrun : typeRef d = (qualifiedName >>= fun name => pure ⟨.named name, name.span⟩) d := by
    simp only [typeRef, currentSpan, kind, Attempt.gets, Bind.bind, Attempt.bind, hname, builtinType?,
      TokenKind.isIdent]
    rfl
  unfold Finishes
  rw [hrun]
  exact (qualifiedName_dotted hd).bind fun _ _ _ => Idles.pure trivial

/-- Reads an expression and passes a token, gives up at the cut, and takes a dotted name for one. -/
structure Operand (K : Cut) (p : Parser Expr) : Prop where
  strict : Strict K true p
  stops : Idles K false p fun _ => True
  dotted : ∀ d, K.Dotted d → Finishes K true p (fun _ => True) d

variable {operand nested : Parser Expr}

theorem Operand.bind {f : Expr → Parser Expr} (h : Operand K operand) (hf : ∀ a, Loose K true (f a))
    (hidle : ∀ a, Idles K true (f a) fun _ => True) : Operand K (operand >>= f) where
  strict := h.strict.bind hf fun _ => hidle
  stops := h.stops.andThen
  dotted d hd := (h.dotted d hd).bind fun _ a _ => hidle a

theorem leftLevel_operand (ops : List (Symbol × BinaryOp)) (h : Operand K operand) :
    Operand K (leftLevel ops operand) := by
  apply h.bind
  · intro first
    apply Steps.repeatFrom
    · intro n left
      apply Tracks.peek
      · intro k
        cases hop : operator? ops k with
        | none => exact Tracks.anywhere (Tracks.pure fun _ => id)
        | some op =>
          have hk : k ≠ .endOfInput := by
            rintro rfl
            cases hop
          apply (Tracks.advance hk).next
          intro _
          apply h.strict.loose.past.bind
          · exact fun right => Tracks.pure fun _ => id
          · exact fun _ right hn => Idles.pure hn
      · exact fun _ => Idles.pure (Nat.zero_le n)
    · exact fun _ left => Idles.peek (Idles.pure rfl)
  · exact Idles.repeatFrom fun left => Idles.peek (Idles.pure rfl)

theorem leftOperators_operand (h : Operand K operand) : Operand K (leftOperators operand) := by
  unfold leftOperators
  induction leftLevels with
  | nil => exact h
  | cons ops levels ih => exact leftLevel_operand ops ih

theorem coalesce_operand (h : Operand K operand) : Operand K (coalesce operand) := by
  apply h.bind
  · intro first
    apply Loose.bind (e := true)
    · apply Steps.repeatFrom
      · intro n es
        apply Tracks.eat_then (by simp)
        · apply h.strict.loose.past.bind
          · exact fun right => Tracks.pure fun _ => id
          · exact fun _ right hn => Idles.pure hn
        · exact Tracks.pure fun _ => id
        · exact fun _ => Idles.pure (Nat.zero_le n)
      · exact fun _ es => Idles.eat_then (by simp) (Idles.pure rfl)
    · exact fun rest => Loose.pure _
    · exact fun _ rest => Idles.pure trivial
  · intro first
    apply Idles.bind (e := true)
    · exact Idles.repeatFrom (fun es => Idles.eat_then (by simp) (Idles.pure rfl)) []
    · exact fun _ rest _ => Idles.pure trivial

theorem conditional_operand (h : Operand K operand) (hnested : Strict K true nested) :
    Operand K (conditional operand nested) := by
  apply (coalesce_operand h).bind
  · intro test n
    apply Tracks.eat_then (by simp)
    · apply hnested.loose.past.bind _ fun _ _ _ => (Idles.expect (by simp)).andThen
      intro yes
      apply ((expect_strict (by simp)).loose.below n).next
      intro _
      apply (hnested.loose.below n).bind
      · exact fun no => Tracks.pure fun _ => Nat.le_of_lt
      · exact fun _ no _ => Idles.pure (Nat.zero_le n)
    · exact Tracks.pure fun _ => id
    · exact fun _ => Idles.pure (Nat.zero_le n)
  · exact fun test => Idles.eat_then (by simp) (Idles.pure trivial)

theorem assignment_operand (h : Operand K operand) (hnested : Strict K true nested) :
    Operand K (assignment operand nested) := by
  apply (conditional_operand h hnested).bind
  · intro target n
    apply Tracks.peek
    · intro k
      cases hop : assignOp? k with
      | none => exact Tracks.anywhere (Tracks.pure fun _ => id)
      | some op =>
        have hk : k ≠ .endOfInput := by
          rintro rfl
          cases hop
        apply (Tracks.advance hk).next
        intro _
        apply hnested.loose.past.bind
        · exact fun value => Tracks.pure fun _ => Nat.le_of_lt
        · exact fun _ value _ => Idles.pure (Nat.zero_le n)
    · exact fun _ => Idles.pure (Nat.zero_le n)
  · exact fun target => Idles.peek (Idles.pure trivial)

/-- Reads an expression inside another one. At the cut it need not ask for more text, unless an opening
parenthesis stands before the cut. -/
structure Nested (K : Cut) (p : Parser Expr) : Prop where
  strict : Strict K true p
  opened : K.OpensLast → Idles K false p fun _ => True

/-- After an item comes a comma and another one, or the end of the list. -/
theorem item_tracks (as : List α) :
    Tracks K (below n) false
      (do
        if ← eatSymbol .comma then return .inl as
        expectSymbol .closeParen
        return .inr as : Parser (List α ⊕ List α))
      (do
        if ← eatSymbol .comma then return .inl as
        expectSymbol .closeParen
        return .inr as) (rounds n) := by
  apply Tracks.eat_then (by simp)
  · exact Tracks.pure fun _ => after_below
  · apply ((expect_strict (by simp)).loose.below n).next
    exact fun _ => Tracks.pure fun _ => Nat.le_of_lt
  · exact fun _ => (Idles.expect (by simp)).andThen

theorem item_stops (as : List α) {R : List α ⊕ List α → Prop} :
    Idles K e (do
      if ← eatSymbol .comma then return .inl as
      expectSymbol .closeParen
      return .inr as) R :=
  Idles.eat_then (by simp) (Idles.expect (by simp)).andThen

/-- A list in parentheses. At the cut after the opening one, the first item decides. -/
theorem parenthesised_strict {step : List α → Parser (List α ⊕ List α)} (h : Steps K false step)
    (hopened : K.OpensLast → ∀ as, Idles K false (step as) (·.isRight = true)) :
    Strict K false (do
      expectSymbol .openParen
      if ← eatSymbol .closeParen then return []
      repeatFrom step []) := by
  intro n
  apply (Tracks.expect (by simp)).next
  intro _
  apply Tracks.eat_then (by simp)
  · exact Tracks.pure fun _ hw => after_below (after_mono (fun _ => after_upTo) hw)
  · exact (Steps.repeatFrom h nofun []).past
  · exact fun hnil => (Idles.repeatFrom (hopened (after_nil hnil)) []).stops

theorem arguments_strict (h : Nested K nested) : Strict K false (arguments nested) := by
  apply parenthesised_strict
  · intro n args
    apply (h.strict n).bind
    · exact fun e => item_tracks _
    · exact fun _ e _ => item_stops _
  · exact fun hopen args => (h.opened hopen).andThen

theorem arguments_stops : Idles K e (arguments nested) fun _ => True :=
  (Idles.expect (by simp)).andThen

theorem unsupported_tracks {A : List Token → Prop} {B : α → List Token → Prop} (k : Keyword) :
    Tracks K A e (unsupported k : Parser α) (unsupported k) B :=
  Tracks.ofReports ((Adds.reportHere _).bind fun _ => Adds.fail) fun _ _ => ⟨_, rfl⟩

theorem primary_stops : Idles K e (primary nested) fun _ => True :=
  Idles.look fun _ => Idles.peek (Idles.expected _)

theorem primary_strict (h : Nested K nested) : Strict K true (primary nested) := by
  intro n
  apply Tracks.here _ fun _ _ => Idles.peek (Idles.expected _)
  intro span
  apply Tracks.peek _ fun _ => Idles.expected _
  intro k
  split
  · next e he =>
    have hk : k ≠ .endOfInput := by
      rintro rfl
      cases he
    exact (Tracks.advance hk).next fun _ => Tracks.pure fun _ => after_upTo
  · split
    · apply (Tracks.advance (by simp)).next
      intro _
      apply h.strict.loose.past.bind
      · intro inner
        apply ((expect_strict (by simp)).loose.below n).next
        exact fun _ => Tracks.span fun _ => Tracks.pure fun _ => id
      · exact fun _ _ _ => (Idles.expect (by simp)).andThen
    · apply (Tracks.advance (by simp)).next
      intro _
      apply typeRef_strict.loose.past.bind
      · intro type
        apply ((arguments_strict h).loose.below n).next
        exact fun args => Tracks.span fun _ => Tracks.pure fun _ => id
      · exact fun _ _ _ => arguments_stops.andThen
    · exact unsupported_tracks _
    · exact unsupported_tracks _
    · exact Tracks.expected _

theorem postfixStep_steps (h : Nested K nested) : Steps K true (postfixStep nested) := by
  intro n e
  apply Tracks.peek
  · intro k
    split
    · apply (Tracks.advance (by simp)).next
      exact fun _ => identifier_strict.loose.past.next fun name => Tracks.pure fun _ => id
    · apply Tracks.anywhere
      apply (arguments_strict h n).next
      exact fun args => Tracks.span fun _ => Tracks.pure fun _ => id
    · apply Tracks.here _ fun hnil => absurd hnil (not_starts_nil _ _)
      exact fun span => (Tracks.advance (by simp)).next fun _ => Tracks.pure fun _ => after_upTo
    · apply Tracks.here _ fun hnil => absurd hnil (not_starts_nil _ _)
      exact fun span => (Tracks.advance (by simp)).next fun _ => Tracks.pure fun _ => after_upTo
    · exact Tracks.anywhere (Tracks.pure fun _ => id)
  · exact fun _ => Idles.pure (Nat.zero_le n)

theorem postfixStep_rests (x : Expr) : Idles K true (postfixStep nested x) (·.isRight = true) :=
  Idles.peek (Idles.pure rfl)

theorem postfixExpr_operand (h : Nested K nested) : Operand K (postfixExpr nested) where
  strict := (primary_strict h).bind (Steps.repeatFrom (postfixStep_steps h) fun _ => postfixStep_rests)
    fun _ => Idles.repeatFrom postfixStep_rests
  stops := primary_stops.andThen
  dotted d hd := by
    obtain ⟨name, hname⟩ := hd.named
    have hliteral : literal? d.current.span d.current.kind = some (.name d.current.span name) := by
      rw [hname]
      rfl
    have hfirst : primary nested d = (some (.name d.current.span name), d.advance) := by
      simp only [primary, currentSpan, kind, Attempt.gets, Bind.bind, Attempt.bind, hliteral]
      rfl
    apply Finishes.dotted (fun x part => .member (x.span.merge part.span) x part) _
      postfixStep_rests id hd hfirst
    intro x d hdot
    simp only [postfixStep, kind, advance, Attempt.gets, Attempt.modify, Bind.bind, Attempt.bind, hdot]

theorem leading_operand {other : Parser Expr} (h : Strict K true operand) (hother : Operand K other) :
    Operand K (leading operand other) where
  strict n := by
    apply Tracks.here _ fun _ _ => Idles.peek (hother.stops.stops)
    intro start
    apply Tracks.peek _ fun _ => hother.stops.stops
    intro k
    cases hop : leadingOp? k with
    | some op =>
      have hk : k ≠ .endOfInput := by
        rintro rfl
        cases hop
      apply (Tracks.advance hk).next
      intro _
      apply h.loose.past.bind
      · exact fun e => Tracks.pure fun _ => id
      · exact fun _ e hn => Idles.pure hn
    | none => exact Tracks.anywhere (hother.strict n)
  stops := Idles.look fun _ => Idles.peek hother.stops
  dotted d hd := by
    obtain ⟨name, hname⟩ := hd.named
    have hrun : leading operand other d = other d := by
      simp only [leading, currentSpan, kind, Attempt.gets, Bind.bind, Attempt.bind, hname, leadingOp?]
    unfold Finishes
    rw [hrun]
    exact hother.dotted d hd

theorem tooDeep_strict (what : Nesting) : Strict K true (tooDeep what : Parser α) :=
  fun _ => Tracks.ofReports ((Adds.reportHere _).bind fun _ => Adds.fail) fun _ _ => ⟨_, rfl⟩

theorem tooDeep_nested : Nested K (tooDeep .expression) where
  strict := tooDeep_strict _
  opened hopen d hd := by
    have hrun : (tooDeep .expression : Parser Expr) d =
        (none, d.report (.nestingLimit .expression maxNesting) d.current.span) := rfl
    rw [Finishes, hrun]
    refine .inl ⟨_, rfl, ⟨.nestingLimit .expression maxNesting, K.stop.span⟩, [],
      ⟨rfl, .inr ⟨rfl, hopen⟩⟩, ?_⟩
    rw [Cursor.report, hd.quiet, hd.current]
    rfl

theorem Operand.inside (h : Operand K operand) : Nested K operand := ⟨h.strict, fun _ => h.stops⟩

mutual

theorem expressionWithin_nested : ∀ room, Nested K (expressionWithin room)
  | 0 => by
    rw [expressionWithin]
    exact tooDeep_nested
  | room + 1 => by
    rw [expressionWithin]
    exact (assignment_operand (leftOperators_operand (unaryWithin_operand room))
      (expressionWithin_nested room).strict).inside

theorem unaryWithin_operand : ∀ room, Operand K (unaryWithin room)
  | 0 => by
    rw [unaryWithin]
    exact leading_operand (tooDeep_strict _) (postfixExpr_operand tooDeep_nested)
  | room + 1 => by
    rw [unaryWithin]
    apply leading_operand (unaryWithin_operand room).strict
    apply postfixExpr_operand
    exact (assignment_operand (leftOperators_operand (unaryWithin_operand room))
      (expressionWithin_nested room).strict).inside

end

theorem expression_operand : Operand K expression := by
  rw [expression, maxNesting, expressionWithin]
  exact assignment_operand (leftOperators_operand (unaryWithin_operand _))
    (expressionWithin_nested _).strict

end Parser

end Chunkwise
