import Chunkwise.Proofs.Attempt
import Chunkwise.Proofs.Extent.Script

/-!
The contract `Goes` says where a parser that starts at a position ends, whether it yields a value or
gives up, and what holds of the value there. Its rules follow the steps of a parser: each one names the
position that is reached, and what is left to show is about the rest of the parser from there on.

A loop whose rounds keep their contract ends by itself: `Marches` is the sequence of its rounds, each of
which but the last one passes a token, and no bound on their number is part of it.
-/
namespace Chunkwise.Parser

variable {α β γ : Type}

/-- Where a parser that started at `i` is now. Of what it yields `B` holds there, and it gives up only if
`E` holds. -/
inductive Lands (T : Script) (E : Prop) (i : Nat) (B : α → Nat → Prop) : Option α × Cursor → Prop where
  | yields {a : α} {c : Cursor} {j : Nat} (hij : i ≤ j) (hc : c.At T j) (ha : B a j) :
      Lands T E i B (some a, c)
  | givesUp {c : Cursor} {j : Nat} (hE : E) (hij : i ≤ j) (hc : c.At T j) : Lands T E i B (none, c)

/-- From the position `i` on, the parser never goes back. -/
def Goes (T : Script) (E : Prop) (i : Nat) (p : Parser α) (B : α → Nat → Prop) : Prop :=
  ∀ c, c.At T i → Lands T E i B (p c)

variable {T : Script} {E : Prop} {i j k : Nat} {p : Parser α} {f : α → Parser β} {B : α → Nat → Prop}
  {C : β → Nat → Prop}

theorem Lands.before {r : Option α × Cursor} (h : Lands T E j B r) (hij : i ≤ j) : Lands T E i B r := by
  cases h with
  | yields hjk hc ha => exact .yields (Nat.le_trans hij hjk) hc ha
  | givesUp hE hjk hc => exact .givesUp hE (Nat.le_trans hij hjk) hc

theorem Lands.mono {E' : Prop} {B' : α → Nat → Prop} {r : Option α × Cursor} (h : Lands T E i B r)
    (hE : E → E') (hB : ∀ a j, i ≤ j → B a j → B' a j) : Lands T E' i B' r := by
  cases h with
  | yields hij hc ha => exact .yields hij hc (hB _ _ hij ha)
  | givesUp h hij hc => exact .givesUp (hE h) hij hc

theorem currentSpan_run (c : Cursor) : currentSpan c = (some c.current.span, c) := rfl

namespace Goes

theorem mono {B' : α → Nat → Prop} (h : Goes T E i p B) (hB : ∀ a j, i ≤ j → B a j → B' a j) :
    Goes T E i p B' := fun c hc => (h c hc).mono id hB

theorem permit {E' : Prop} (h : Goes T E i p B) (hE : E → E') : Goes T E' i p B :=
  fun c hc => (h c hc).mono hE fun _ _ _ => id

theorem bind (hp : Goes T E i p B) (hf : ∀ a j, i ≤ j → B a j → Goes T E j (f a) C) :
    Goes T E i (p >>= f) C := by
  intro c hc
  have hp := hp c hc
  change Lands T E i C (Attempt.bind p f c)
  unfold Attempt.bind
  revert hp
  generalize p c = r
  intro hp
  cases hp with
  | yields hij hc' ha => exact (hf _ _ hij ha _ hc').before hij
  | givesUp hE hij hc' => exact .givesUp hE hij hc'

theorem pure {a : α} (h : i ≤ T.body.length → B a i) : Goes T E i (Pure.pure a) B :=
  fun _ hc => .yields (Nat.le_refl i) hc (h hc.le)

theorem fail : Goes T True i (Attempt.fail : Parser α) B :=
  fun _ hc => .givesUp trivial (Nat.le_refl i) hc

theorem look {g : Cursor → α} (h : ∀ a, Goes T E i (f a) C) : Goes T E i (Attempt.gets g >>= f) C :=
  fun c hc => h (g c) c hc

theorem known {g : Cursor → α} {a : α} (hg : ∀ c, c.At T i → g c = a) (h : Goes T E i (f a) C) :
    Goes T E i (Attempt.gets g >>= f) C := by
  intro c hc
  have hf := h c hc
  rw [← hg c hc] at hf
  exact hf

theorem kind {f : TokenKind → Parser β} (h : Goes T E i (f (T.kindAt i)) C) :
    Goes T E i (Parser.kind >>= f) C := known (fun _ hc => hc.kind) h

theorem span {f : Span → Parser β} (h : Goes T E i (f (T.spanAt i)) C) :
    Goes T E i (currentSpan >>= f) C := known (fun _ hc => hc.span) h

theorem spanFrom {f : Span → Parser β} {start : Span}
    (h : Goes T E i (f (start.merge (T.spanAt (i - 1)))) C) : Goes T E i (spanFrom start >>= f) C := by
  intro c hc
  have hf := h c hc
  rw [← hc.previous] at hf
  exact hf

theorem remaining {f : Nat → Parser β} (h : Goes T E i (f (T.body.length + 1 - i)) C) :
    Goes T E i (Attempt.gets Cursor.remaining >>= f) C := known (fun _ hc => hc.remaining) h

theorem atEnd {f : Bool → Parser β} (h : Goes T E i (f (T.kindAt i == .endOfInput)) C) :
    Goes T E i (Parser.atEnd >>= f) C := known (fun c hc => by rw [Cursor.atEnd, hc.kind]) h

theorem check {l : TokenKind} {f : Bool → Parser β} (h : Goes T E i (f (T.kindAt i == l)) C) :
    Goes T E i (Parser.check l >>= f) C := known (fun c hc => by rw [hc.kind]) h

theorem checkThen {l : TokenKind} {q r : Parser β} (hyes : T.kindAt i = l → Goes T E i q C)
    (hno : T.kindAt i ≠ l → Goes T E i r C) :
    Goes T E i (do if ← Parser.check l then q else r) C := by
  apply check
  by_cases hhere : T.kindAt i = l
  · rw [if_pos (beq_iff_eq.mpr hhere)]
    exact hyes hhere
  · rw [if_neg fun heq => hhere (beq_iff_eq.mp heq)]
    exact hno hhere

theorem atEndThen {q r : Parser β} (hyes : T.kindAt i = .endOfInput → Goes T E i q C)
    (hno : T.kindAt i ≠ .endOfInput → Goes T E i r C) :
    Goes T E i (do if ← Parser.atEnd then q else r) C := checkThen hyes hno

theorem advance {f : Unit → Parser β} (hk : T.kindAt i ≠ .endOfInput) (h : Goes T E (i + 1) (f ()) C) :
    Goes T E i (Parser.advance >>= f) C :=
  fun c hc => (h c.advance (hc.advance hk)).before (Nat.le_succ i)

theorem advanceAny {f : Unit → Parser β} (h : ∀ j, i ≤ j → Goes T E j (f ()) C) :
    Goes T E i (Parser.advance >>= f) C := by
  intro c hc
  by_cases hk : T.kindAt i = .endOfInput
  · have hf := h i (Nat.le_refl i) c hc
    rw [← hc.advance_end hk] at hf
    exact hf
  · exact advance hk (h (i + 1) (Nat.le_succ i)) c hc

theorem eatThen {l : TokenKind} {q r : Parser β} (hl : l ≠ .endOfInput)
    (hyes : T.kindAt i = l → Goes T E (i + 1) q C) (hno : Goes T E i r C) :
    Goes T E i (do if ← Parser.eat l then q else r) C := by
  have heat : Goes T E i (Parser.eat l) fun b j =>
      b = true ∧ T.kindAt i = l ∧ j = i + 1 ∨ b = false ∧ j = i := by
    apply checkThen
    · intro hhere
      have hgoes : T.kindAt i ≠ .endOfInput := fun hend => hl (hhere.symm.trans hend)
      exact advance hgoes (pure fun _ => .inl ⟨rfl, hhere, rfl⟩)
    · exact fun _ => pure fun _ => .inr ⟨rfl, rfl⟩
  apply heat.bind
  rintro b j - (⟨rfl, hhere, rfl⟩ | ⟨rfl, rfl⟩)
  · exact hyes hhere
  · exact hno

theorem eatAny {l : TokenKind} {f : Bool → Parser β} (hl : l ≠ .endOfInput)
    (h : ∀ b j, i ≤ j → Goes T E j (f b) C) : Goes T E i (Parser.eat l >>= f) C := by
  have heat : Goes T E i (Parser.eat l) fun _ _ => True := by
    apply checkThen
    · intro hhere
      have hgoes : T.kindAt i ≠ .endOfInput := fun hend => hl (hhere.symm.trans hend)
      exact advance hgoes (pure fun _ => trivial)
    · exact fun _ => pure fun _ => trivial
  exact heat.bind fun b j hij _ => h b j hij

theorem expected (what : String) : Goes T True i (Parser.expected what : Parser α) B := by
  have hreport : Goes T True i (reportUnexpected what) fun _ _ => True := by
    apply kind
    cases T.kindAt i with
    | unknown x => exact pure fun _ => trivial
    | _ => exact fun c hc => .yields (Nat.le_refl i) ⟨hc.left, hc.previous⟩ trivial
  exact hreport.bind fun _ _ _ _ => fail

theorem expected_token {l : TokenKind} (hl : l ≠ .endOfInput) :
    Goes T True i (Parser.expect l) fun _ j => j = i + 1 := by
  apply checkThen
  · intro hhere c hc
    have hgoes : T.kindAt i ≠ .endOfInput := fun hend => hl (hhere.symm.trans hend)
    exact .yields (Nat.le_succ i) (hc.advance hgoes) rfl
  · exact fun _ => expected _

theorem expect {l : TokenKind} {f : Unit → Parser β} (hl : l ≠ .endOfInput)
    (h : Goes T True (i + 1) (f ()) C) : Goes T True i (Parser.expect l >>= f) C := by
  apply (expected_token hl).bind
  rintro - j - rfl
  exact h

theorem optional_lands {f : Option α → Parser β} (hik : i ≤ k) (hp : ∀ c, c.At T i → Lands T True k B (p c))
    (hsome : ∀ a j, k ≤ j → B a j → Goes T E j (f (some a)) C)
    (hnone : ∀ j, k ≤ j → Goes T E j (f none) C) : Goes T E i (Attempt.optional p >>= f) C := by
  intro c hc
  have hlands := hp c hc
  change Lands T E i C (Attempt.bind (Attempt.optional p) f c)
  unfold Attempt.bind Attempt.optional
  revert hlands
  generalize p c = r
  intro hlands
  cases hlands with
  | yields hkj hc' ha => exact (hsome _ _ hkj ha _ hc').before (Nat.le_trans hik hkj)
  | givesUp _ hkj hc' => exact (hnone _ hkj _ hc').before (Nat.le_trans hik hkj)

theorem optional {f : Option α → Parser β} (hp : Goes T True i p B)
    (hsome : ∀ a j, i ≤ j → B a j → Goes T E j (f (some a)) C)
    (hnone : ∀ j, i ≤ j → Goes T E j (f none) C) : Goes T E i (Attempt.optional p >>= f) C :=
  optional_lands (Nat.le_refl i) hp hsome hnone

end Goes

theorem synchronizeFrom_at (limit depth : Nat) (moved : Bool) {c : Cursor} (hc : c.At T i) :
    ∃ j, i ≤ j ∧ (synchronizeFrom limit depth moved c).At T j := by
  induction limit generalizing depth moved c i with
  | zero => exact ⟨i, Nat.le_refl i, hc⟩
  | succ limit ih =>
    by_cases hend : T.kindAt i = .endOfInput
    · have hstay : synchronizeFrom (limit + 1) depth moved c = c := by
        rw [synchronizeFrom, hc.kind, hend]
      exact ⟨i, Nat.le_refl i, hstay.symm ▸ hc⟩
    have hnext := hc.advance hend
    have hgoOn : ∀ depth, ∃ j, i ≤ j ∧ (synchronizeFrom limit depth true c.advance).At T j := by
      intro depth
      obtain ⟨j, hij, hj⟩ := ih depth true hnext
      exact ⟨j, by omega, hj⟩
    have hnow : ∃ j, i ≤ j ∧ c.advance.At T j := ⟨i + 1, Nat.le_succ i, hnext⟩
    have hhere : ∃ j, i ≤ j ∧ c.At T j := ⟨i, Nat.le_refl i, hc⟩
    rw [synchronizeFrom]
    split
    · exact hhere
    · exact hgoOn _
    · split
      · exact hhere
      dsimp only
      split
      next hsemicolon =>
        rw [hnext.kind] at hsemicolon
        exact ⟨i + 2, by omega, hnext.advance (by simp [hsemicolon])⟩
      · exact hgoOn _
    · split
      · exact hnow
      · exact hgoOn _
    · split
      · exact hhere
      · exact hgoOn _

theorem Goes.synchronize {f : Unit → Parser β} (h : ∀ j, i ≤ j → Goes T E j (f ()) C) :
    Goes T E i (Parser.synchronize >>= f) C := by
  intro c hc
  obtain ⟨j, hij, hj⟩ := synchronizeFrom_at c.remaining 0 false hc
  exact (h j hij _ hj).before hij

/-- The rounds of a loop, one after the other. Every round ends at a token of the script, and one after
which the loop goes on ends further on than it began. -/
inductive Marches (T : Script) (step : β → Parser (β ⊕ α)) : β → Cursor → Option α → Cursor → Prop where
  | stops {b : β} {c c' : Cursor} {a : α} {j : Nat} (hrun : step b c = (some (.inr a), c'))
      (hc' : c'.At T j) : Marches T step b c (some a) c'
  | givesUp {b : β} {c c' : Cursor} {j : Nat} (hrun : step b c = (none, c')) (hc' : c'.At T j) :
      Marches T step b c none c'
  | goesOn {b b' : β} {c c' c'' : Cursor} {a? : Option α} {i j : Nat}
      (hrun : step b c = (some (.inl b'), c')) (hc : c.At T i) (hc' : c'.At T j) (hij : i < j)
      (hrest : Marches T step b' c' a? c'') : Marches T step b c a? c''

/-- What holds after a round that began at `j`. -/
def afterRound (I : β → Nat → Prop) (C : α → Nat → Prop) (j : Nat) : β ⊕ α → Nat → Prop
  | .inl b, k => j < k ∧ I b k
  | .inr a, k => C a k

/-- Wherever a round begins and whatever has been read by then, it passes a token if the loop goes on. It
keeps `I`, and where it stops the loop `I` gives `C`. -/
def Keeps (T : Script) (E : Prop) (step : β → Parser (β ⊕ α)) (I : β → Nat → Prop)
    (C : α → Nat → Prop) : Prop :=
  ∀ b j, Goes T E j (step b) (afterRound (fun b' k => I b j → I b' k) (fun a k => I b j → C a k) j)

/-- Wherever the loop is entered and with whatever has been read by then, it ends by itself. -/
def Advances (T : Script) (step : β → Parser (β ⊕ α)) : Prop :=
  ∀ b i c, c.At T i → Marches T step b c (repeatFrom step b c).1 (repeatFrom step b c).2

theorem Marches.last {step : β → Parser (β ⊕ α)} {b : β} {c c' : Cursor} {a : α}
    (h : Marches T step b c (some a) c') : ∃ b' c'', step b' c'' = (some (.inr a), c') := by
  generalize ha : some a = a? at h
  induction h with
  | stops hrun =>
    cases ha
    exact ⟨_, _, hrun⟩
  | givesUp => cases ha
  | goesOn _ _ _ _ _ ih => exact ih ha

namespace Keeps

variable {step : β → Parser (β ⊕ α)} {I : β → Nat → Prop} {b : β}

theorem loop_marches (h : Keeps T E step I B) {c : Cursor} (hc : c.At T j) {limit : Nat}
    (hlimit : c.remaining ≤ limit) :
    Marches T step b c (Attempt.loop step limit b c).1 (Attempt.loop step limit b c).2 := by
  induction limit generalizing b j c with
  | zero => exact absurd hlimit (by simp [Cursor.remaining])
  | succ limit ih =>
    have hround := h b j c hc
    generalize hrun : step b c = r at hround
    cases hround with
    | @yields r c' k hjk hc' hr =>
      cases r with
      | inl b' =>
        have hfewer : c'.remaining < c.remaining := by
          have hle := hc'.le
          have hlt := hr.1
          rw [hc.remaining, hc'.remaining]
          omega
        have hloop : Attempt.loop step (limit + 1) b c = Attempt.loop step limit b' c' :=
          Attempt.bind_eq_of_run hrun
        rw [hloop]
        exact .goesOn hrun hc hc' hr.1 (ih hc' (by omega))
      | inr a =>
        have hloop : Attempt.loop step (limit + 1) b c = (some a, c') := Attempt.bind_eq_of_run hrun
        rw [hloop]
        exact .stops hrun hc'
    | @givesUp c' k _ hjk hc' =>
      have hloop : Attempt.loop step (limit + 1) b c = (none, c') := by
        change Attempt.bind (step b) _ c = _
        rw [Attempt.bind, hrun]
      rw [hloop]
      exact .givesUp hrun hc'

theorem advances (h : Keeps T E step I B) : Advances T step :=
  fun _ _ _ hc => h.loop_marches hc (Nat.le_refl _)

theorem lands (h : Keeps T E step I B) {a? : Option α} {c c' : Cursor} (hmarch : Marches T step b c a? c')
    (hc : c.At T j) (hb : I b j) : Lands T E j B (a?, c') := by
  induction hmarch generalizing j with
  | @stops b c c' a _ hrun =>
    have hround := h b j c hc
    rw [hrun] at hround
    cases hround with
    | yields hjk hc' ha => exact .yields hjk hc' (ha hb)
  | @givesUp b c c' _ hrun =>
    have hround := h b j c hc
    rw [hrun] at hround
    cases hround with
    | givesUp hE hjk hc' => exact .givesUp hE hjk hc'
  | @goesOn b b' c c' c'' a? _ _ hrun _ _ _ _ ih =>
    have hround := h b j c hc
    rw [hrun] at hround
    cases hround with
    | yields hjk hc' hb' => exact (ih hc' (hb'.2 hb)).before hjk

theorem given (h : Keeps T E step I B) (P : Prop) :
    Keeps T E step (fun b j => P → I b j) fun a j => P → B a j := by
  intro b j
  apply (h b j).mono
  rintro (b' | a) k _ hr
  · exact ⟨hr.1, fun hb hP => hr.2 (hb hP)⟩
  · exact fun hb hP => hr (hb hP)

theorem repeatFrom (h : Keeps T E step I B) (hb : i ≤ T.body.length → I b i) :
    Goes T E i (Parser.repeatFrom step b) B :=
  fun c hc => h.lands (h.advances b i c hc) hc (hb hc.le)

end Keeps

end Chunkwise.Parser
