import Chunkwise.Proofs.Cut.Basic

/-!
The contract `Tracks` compares a run over all tokens that reports nothing with the run over those before
a cut. As long as tokens are left, the two runs are in step. From the cut on the second run is alone.
-/
namespace Chunkwise.Parser

variable {α β : Type} {K : Cut} {e e' : Bool} {R R' : α → Prop} {S : β → Prop} {d : Cursor}

/-- How two runs stand to each other afterwards: in step with the same value, or the second one at the
cut without an issue, or the second one after an excused issue. -/
inductive Outcome (K : Cut) (mayEnd : Bool) (B : α → List Token → Prop) :
    Option α × Cursor → Option α × Cursor → Prop
  | inStep {a : α} {c d : Cursor} {w : List Token} :
    K.At w c d → B a w → Outcome K mayEnd B (some a, c) (some a, d)
  | ended {r : Option α × Cursor} {b : α} {d : Cursor} :
    mayEnd = true → K.Spent d → B b [] → Outcome K mayEnd B r (some b, d)
  | broken {r : Option α × Cursor} {b? : Option α} {d : Cursor} :
    K.Broken d → Outcome K mayEnd B r (b?, d)

/-- If `p` reports nothing from a place with tokens in `A` left before the cut, then `q`, run over the
tokens before the cut, is in step with it at a place with tokens in `B`, or has reached the cut. -/
structure Tracks (K : Cut) (A : List Token → Prop) (mayEnd : Bool) (p q : Parser α)
    (B : α → List Token → Prop) : Prop where
  adds : Adds p
  adds' : Adds q
  run : ∀ w c d, K.At w c d → A w → (p c).2.issues = Log.empty → Outcome K mayEnd B (p c) (q d)

/-- At most `n` tokens are left before the cut. -/
def upTo (n : Nat) (w : List Token) : Prop := w.length ≤ n

/-- Fewer than `n` tokens are left before the cut. -/
def below (n : Nat) (w : List Token) : Prop := w.length < n

/-- The next token is of kind `k`. -/
def starts (k : TokenKind) (A : List Token → Prop) (w : List Token) : Prop :=
  A w ∧ ∃ t, w.head? = some t ∧ t.kind = k

theorem not_starts_nil (k : TokenKind) (A : List Token → Prop) : ¬ starts k A [] :=
  fun ⟨_, _, hnone, _⟩ => nomatch hnone

/-- After a round of a loop there are fewer than `n` tokens left, or no more than `n` if it was the
last round. -/
def rounds (n : Nat) (r : β ⊕ α) (w : List Token) : Prop :=
  match r with
  | .inl _ => below n w
  | .inr _ => upTo n w

/-- A token of kind `k` has been passed. -/
def after (K : Cut) (k : TokenKind) (A : List Token → Prop) (w : List Token) : Prop :=
  ∃ t, t.kind = k ∧ A (t :: w) ∧ (t :: w) <:+ K.kept

theorem after_upTo {k : TokenKind} {n : Nat} {w : List Token} (h : after K k (upTo n) w) :
    below n w := h.elim fun _ ht => ht.2.1

theorem after_below {k : TokenKind} {n : Nat} {w : List Token} (h : after K k (below n) w) :
    below n w := h.elim fun _ ht => Nat.lt_of_succ_lt ht.2.1

theorem after_mono {k : TokenKind} {A A' : List Token → Prop} (h : ∀ w, A w → A' w) {w : List Token} :
    after K k A w → after K k A' w := fun ⟨t, ht, hw, hpart⟩ => ⟨t, ht, h _ hw, hpart⟩

theorem after_nil {k : TokenKind} {A : List Token → Prop} (h : after K k A []) :
    ∃ t ∈ K.kept.getLast?, t.kind = k := by
  obtain ⟨t, hk, -, before, hbefore⟩ := h
  exact ⟨t, by rw [← hbefore, List.getLast?_concat]; rfl, hk⟩

variable {A A' : List Token → Prop} {B B' : α → List Token → Prop} {C : β → List Token → Prop}
  {p q : Parser α} {f g : α → Parser β} {k : TokenKind} {n : Nat}

theorem Finishes.outcome {r : Option α × Cursor} (h : Finishes K e q (B · []) d) :
    Outcome K e B r (q d) := by
  rcases h with ⟨d', hrun, hbroken⟩ | ⟨hmay, b, d', hrun, hspent, hb⟩
  · rw [hrun]
    exact .broken hbroken
  · rw [hrun]
    exact .ended hmay hspent hb

theorem Outcome.mono {r r' : Option α × Cursor} (h : Outcome K e B r r') (he : e = true → e' = true)
    (hB : ∀ a w, B a w → B' a w) : Outcome K e' B' r r' := by
  cases h with
  | inStep hat hb => exact .inStep hat (hB _ _ hb)
  | ended hmay hspent hb => exact .ended (he hmay) hspent (hB _ _ hb)
  | broken hbroken => exact .broken hbroken

/-- Passing a token that may stand here is looking and then passing it. -/
theorem eat_then_eq (k : TokenKind) (p q : Parser β) :
    (do if ← eat k then p else q) = (do
      if ← check k then
        advance
        p
      else q) := by
  funext c
  cases hfound : c.current.kind == k <;>
    simp only [eat, check, Attempt.gets, advance, Attempt.modify, Bind.bind, Attempt.bind,
      Pure.pure, Attempt.pure, hfound, if_true, Bool.false_eq_true, if_false]

namespace Tracks

theorem mono (h : Tracks K A e p q B) (hA : ∀ w, A' w → A w) (he : e = true → e' = true)
    (hB : ∀ a w, B a w → B' a w) : Tracks K A' e' p q B' where
  adds := h.adds
  adds' := h.adds'
  run w c d hat hw hquiet := (h.run w c d hat (hA w hw) hquiet).mono he hB

theorem pure {a : α} (h : ∀ w, A w → B a w) : Tracks K A e (Pure.pure a) (Pure.pure a) B where
  adds := Adds.pure a
  adds' := Adds.pure a
  run w _ _ hat hw _ := .inStep hat (h w hw)

theorem bind (hp : Tracks K A e p q B) (hf : ∀ a, Tracks K (B a) e' (f a) (g a) C)
    (hidle : e = true → ∀ b, B b [] → Idles K e' (g b) (C · [])) :
    Tracks K A e' (p >>= f) (q >>= g) C where
  adds := hp.adds.bind fun a => (hf a).adds
  adds' := hp.adds'.bind fun a => (hf a).adds'
  run w c d hat hw hquiet := by
    have houtcome := hp.run w c d hat hw
      (hp.adds.quiet_bind (fun a => (hf a).adds) hat.quiet hquiet)
    change (Attempt.bind p f c).2.issues = Log.empty at hquiet
    change Outcome K e' C (Attempt.bind p f c) (Attempt.bind q g d)
    unfold Attempt.bind at hquiet ⊢
    revert hquiet houtcome
    generalize p c = r
    generalize q d = r'
    intro houtcome hquiet
    cases houtcome with
    | inStep hat hb => exact (hf _).run _ _ _ hat hb hquiet
    | ended hmay hspent hb => exact (hidle hmay _ hb _ hspent).outcome
    | @broken _ b? d' hbroken =>
      cases b? with
      | none => exact .broken hbroken
      | some b => exact .broken ((hf b).adds'.broken hbroken)

theorem next (hp : Tracks K A false p q B) (hf : ∀ a, Tracks K (B a) e (f a) (g a) C) :
    Tracks K A e (p >>= f) (q >>= g) C := hp.bind hf nofun

theorem look {f : Cursor → α} {g g' : α → Parser β} (hsame : ∀ {w c d}, K.At w c d → f d = f c)
    (h : ∀ a, Tracks K A e (g a) (g' a) C) :
    Tracks K A e (Attempt.gets f >>= g) (Attempt.gets f >>= g') C where
  adds := (Adds.gets f).bind fun a => (h a).adds
  adds' := (Adds.gets f).bind fun a => (h a).adds'
  run w c d hat hw hquiet := by
    change Outcome K e C (g (f c) c) (g' (f d) d)
    rw [hsame hat]
    exact (h (f c)).run w c d hat hw hquiet

theorem span {start : Span} {g g' : Span → Parser β} (h : ∀ a, Tracks K A e (g a) (g' a) C) :
    Tracks K A e (spanFrom start >>= g) (spanFrom start >>= g') C :=
  look (f := fun c => start.merge c.previousSpan) (fun hat => by rw [hat.previousSpan]) h

/-- Looking at something that both runs see while tokens are left. At the cut the second run goes on
alone. -/
theorem see {f : Cursor → α} {g g' : α → Parser β} {D : α → List Token → Prop}
    (hsame : ∀ {t w c d}, K.At (t :: w) c d → f d = f c)
    (hD : ∀ {t w c d}, K.At (t :: w) c d → A (t :: w) → D (f c) (t :: w))
    (h : ∀ a, Tracks K (D a) e (g a) (g' a) C)
    (hidle : A [] → ∀ d, K.Spent d → Idles K e (g' (f d)) (C · [])) :
    Tracks K A e (Attempt.gets f >>= g) (Attempt.gets f >>= g') C where
  adds := (Adds.gets f).bind fun a => (h a).adds
  adds' := (Adds.gets f).bind fun a => (h a).adds'
  run w c d hat hw hquiet := by
    change Outcome K e C (g (f c) c) (g' (f d) d)
    cases w with
    | nil => exact (hidle hw d hat.spent d hat.spent).outcome
    | cons t w =>
      rw [hsame hat]
      exact (h (f c)).run _ c d hat (hD hat hw) hquiet

theorem here {g g' : Span → Parser β} (h : ∀ a, Tracks K A e (g a) (g' a) C)
    (hidle : A [] → ∀ a, Idles K e (g' a) (C · [])) :
    Tracks K A e (currentSpan >>= g) (currentSpan >>= g') C :=
  see (D := fun _ => A) (fun hat => by rw [hat.current, hat.current']) (fun _ hw => hw) h
    fun hw _ _ => hidle hw _

theorem peek {g g' : TokenKind → Parser β} (h : ∀ k, Tracks K (starts k A) e (g k) (g' k) C)
    (hidle : A [] → Idles K e (g' .endOfInput) (C · [])) :
    Tracks K A e (kind >>= g) (kind >>= g') C := by
  apply see (D := fun k => starts k A) _ _ h
  · intro hw d hd
    rw [hd.kind]
    exact hidle hw
  · intro t w c d hat
    rw [hat.current, hat.current']
  · intro t w c d hat hw
    exact ⟨hw, t, rfl, by rw [hat.current]⟩

theorem atEnd_then {p p' q q' : Parser β} (hp : Tracks K A e p p' C)
    (hq : Tracks K (fun w => A w ∧ w ≠ []) e q q' C) (hidle : A [] → Idles K e p' (C · [])) :
    Tracks K A e (do if ← atEnd then p else q) (do if ← atEnd then p' else q') C := by
  apply see (D := fun _ w => A w ∧ w ≠ [])
  · intro t w c d hat
    rw [Cursor.atEnd, Cursor.atEnd, hat.current, hat.current']
  · exact fun _ hw => ⟨hw, List.cons_ne_nil _ _⟩
  · intro ends
    cases ends with
    | true => exact hp.mono (fun _ hw => hw.1) id fun _ _ => id
    | false => exact hq
  · intro hw d hd
    have hends : d.atEnd = true := by simp [Cursor.atEnd, hd.kind]
    rw [hends]
    exact hidle hw

/-- While nothing has been reported, there are not too many errors. -/
theorem tooManyErrors_then {p p' q q' : Parser β} (hp : Tracks K A e p p' C)
    (hq : Tracks K A e q q' C) :
    Tracks K A e (do if ← tooManyErrors then p else q) (do if ← tooManyErrors then p' else q') C := by
  apply look fun hat => by rw [hat.quiet, hat.quiet']
  intro full
  cases full with
  | true => exact hp
  | false => exact hq

/-- Looking at something that may lie beyond the cut. Where the runs do not see the same, the second
one goes on alone. -/
theorem ahead_then {f : Cursor → Bool} {D : List Token → Prop} {p p' q q' : Parser β}
    (hp : Tracks K D e p p' C) (hq : Tracks K A e q q' C) (hcut : ∀ {w c d}, K.At w c d → A w →
      f d = f c ∧ (f c = true → D w) ∨ f d = false ∧ Finishes K e q' (C · []) d) :
    Tracks K A e (do if ← Attempt.gets f then p else q) (do if ← Attempt.gets f then p' else q') C where
  adds := (Adds.gets f).bind fun found => by cases found <;> simp [hp.adds, hq.adds]
  adds' := (Adds.gets f).bind fun found => by cases found <;> simp [hp.adds', hq.adds']
  run w c d hat hw hquiet := by
    change ((if f c then p else q) c).2.issues = Log.empty at hquiet
    change Outcome K e C ((if f c then p else q) c) ((if f d then p' else q') d)
    rcases hcut hat hw with ⟨hsame, hD⟩ | ⟨hfalse, hfinishes⟩
    · rw [hsame]
      cases hfound : f c with
      | true =>
        rw [hfound] at hquiet
        exact hp.run w c d hat (hD hfound) hquiet
      | false =>
        rw [hfound] at hquiet
        exact hq.run w c d hat hw hquiet
    · rw [hfalse]
      exact hfinishes.outcome

theorem anywhere (h : Tracks K A e p q B) : Tracks K (starts k A) e p q B :=
  h.mono (fun _ hw => hw.1) id fun _ _ => id

theorem advance (hk : k ≠ .endOfInput) :
    Tracks K (starts k A) e Parser.advance Parser.advance fun _ => after K k A where
  adds := Adds.advance
  adds' := Adds.advance
  run w c d hat hw _ := by
    obtain ⟨hw, t, ht, rfl⟩ := hw
    obtain ⟨w, rfl⟩ := List.head?_eq_some_iff.mp ht
    exact .inStep (hat.advance hk) ⟨t, rfl, hw, hat.part⟩

theorem ofReports (hadds : Adds p)
    (h : ∀ c, (∀ x, c.current.kind ≠ .unknown x) → ∃ i, (p c).2.issues = c.issues.push i) :
    Tracks K A e p p B where
  adds := hadds
  adds' := hadds
  run w c d hat _ hquiet := by
    obtain ⟨i, hi⟩ := h c hat.known
    rw [hquiet, hat.quiet] at hi
    cases hi

theorem expected (what : String) :
    Tracks K A e (Parser.expected what : Parser α) (Parser.expected what) B := by
  apply ofReports (Adds.expected what)
  intro c hknown
  cases hk : c.current.kind with
  | unknown x => exact absurd hk (hknown x)
  | _ =>
    simp only [Parser.expected, reportUnexpected, kind, Attempt.gets, reportHere, Attempt.modify,
      Attempt.fail, Bind.bind, Attempt.bind, hk]
    exact ⟨_, rfl⟩

theorem recover (hp : Adds p) (hq : Adds q) : Tracks K (fun _ => False) e p q B :=
  ⟨hp, hq, fun _ _ _ _ hw => hw.elim⟩

theorem check_then (hk : k ≠ .endOfInput) {p p' q q' : Parser β}
    (hp : Tracks K (starts k A) e p p' C) (hq : Tracks K A e q q' C)
    (hidle : A [] → Idles K e q' (C · [])) :
    Tracks K A e (do if ← check k then p else q) (do if ← check k then p' else q') C := by
  apply see (D := fun found w => if found then starts k A w else A w)
  · intro t w c d hat
    rw [hat.current, hat.current']
  · intro t w c d hat hw
    rw [hat.current]
    by_cases ht : t.kind = k
    · simpa [ht] using ⟨hw, t, rfl, ht⟩
    · simpa [ht] using hw
  · intro found
    cases found with
    | false => exact hq
    | true => exact hp
  · intro hw d hd
    have hfound : (d.current.kind == k) = false := by simpa [hd.kind] using hk.symm
    rw [hfound]
    exact hidle hw

/-- A token that may stand here, and what follows in either case. -/
theorem eat_then (hk : k ≠ .endOfInput) {p p' q q' : Parser β}
    (hp : Tracks K (after K k A) e p p' C) (hq : Tracks K A e q q' C)
    (hidle : A [] → Idles K e q' (C · [])) :
    Tracks K A e (do if ← eat k then p else q) (do if ← eat k then p' else q') C := by
  rw [eat_then_eq, eat_then_eq]
  exact check_then hk ((advance hk).next fun _ => hp) hq hidle

theorem expect (hk : k ≠ .endOfInput) :
    Tracks K A false (Parser.expect k) (Parser.expect k) fun _ => after K k A :=
  check_then hk (advance hk) (expected _) fun _ => Idles.expected _

theorem identifier : Tracks K A false Parser.identifier Parser.identifier
    fun x => after K (.ident x.name) A := by
  apply peek _ fun _ => Idles.expected _
  intro k
  cases k with
  | ident name =>
    apply here _ fun hnil => absurd hnil (not_starts_nil _ _)
    intro span
    exact (advance (by simp)).next fun _ => pure fun _ => id
  | _ => exact expected _

theorem optional (h : Tracks K A e p q B) :
    Tracks K A e (Attempt.optional p) (Attempt.optional q) fun a? w => match a? with
      | some a => B a w
      | none => False where
  adds := h.adds
  adds' := h.adds'
  run w c d hat hw hquiet := by
    have houtcome := h.run w c d hat hw hquiet
    unfold Attempt.optional
    revert houtcome
    generalize p c = r
    generalize q d = r'
    intro houtcome
    cases houtcome with
    | inStep hat hb => exact .inStep hat hb
    | ended hmay hspent hb => exact .ended hmay hspent hb
    | broken hbroken => exact .broken hbroken

/-- Every round that goes on passes a token, so neither loop runs out of rounds. -/
theorem loop {step step' : β → Parser (β ⊕ α)} {N : Nat}
    (hstep : ∀ n ≤ N, ∀ b, Tracks K (upTo n) e (step b) (step' b) (rounds n))
    (hidle : e = true → ∀ b, Idles K e (step' b) (·.isRight = true)) (limit limit' : Nat) (b : β)
    {w : List Token} {c d : Cursor} (hat : K.At w c d) (hw : upTo N w)
    (hlimit : c.remaining ≤ limit) (hlimit' : d.remaining ≤ limit')
    (hquiet : (Attempt.loop step limit b c).2.issues = Log.empty) :
    Outcome K e (fun _ => upTo N) (Attempt.loop step limit b c) (Attempt.loop step' limit' b d) := by
  induction limit generalizing limit' b w c d with
  | zero => exact absurd hlimit (by simp [Cursor.remaining])
  | succ limit ih =>
    obtain ⟨limit', rfl⟩ : ∃ m, limit' = m + 1 :=
      Nat.exists_eq_succ_of_ne_zero fun hzero => absurd hlimit' (by simp [hzero, Cursor.remaining])
    have hround := hstep w.length hw b
    have hadds : ∀ b, Adds (step b) := fun b => (hstep 0 (Nat.zero_le N) b).adds
    have hadds' : ∀ b, Adds (step' b) := fun b => (hstep 0 (Nat.zero_le N) b).adds'
    have houtcome := hround.run w c d hat (Nat.le_refl _)
      (hround.adds.quiet_bind (fun r => Adds.continue hadds limit r) hat.quiet hquiet)
    rw [hat.remaining] at hlimit
    rw [hat.remaining'] at hlimit'
    change (Attempt.bind (step b) _ c).2.issues = Log.empty at hquiet
    change Outcome K e _ (Attempt.bind (step b) _ c) (Attempt.bind (step' b) _ d)
    unfold Attempt.bind at hquiet ⊢
    revert hquiet houtcome
    generalize step b c = r
    generalize step' b d = r'
    intro houtcome hquiet
    cases houtcome with
    | @inStep r c' d' w' hat' hr =>
      cases r with
      | inl b' =>
        have hlt : w'.length < w.length := hr
        have hle : w'.length ≤ N := Nat.le_trans (Nat.le_of_lt hlt) hw
        apply ih limit' b' hat' hle _ _ hquiet
        · rw [hat'.remaining]
          omega
        · rw [hat'.remaining']
          omega
      | inr a => exact .inStep hat' (Nat.le_trans hr hw)
    | @ended _ r d' hmay hspent hr =>
      cases r with
      | inl b' =>
        have hlt : 0 < w.length := hr
        obtain ⟨limit', rfl⟩ : ∃ m, limit' = m + 1 := Nat.exists_eq_succ_of_ne_zero (by omega)
        have hrest := Idles.loop (hidle hmay) limit' b' d' hspent
        exact Finishes.outcome (hrest.mono id fun _ _ => Nat.zero_le N)
      | inr a => exact .ended hmay hspent (Nat.zero_le N)
    | @broken _ r? d' hbroken =>
      cases r? with
      | none => exact .broken hbroken
      | some r => exact .broken ((Adds.continue hadds' limit' r).broken hbroken)

theorem repeatFrom {step step' : β → Parser (β ⊕ α)}
    (hstep : ∀ m ≤ n, ∀ b, Tracks K (upTo m) e (step b) (step' b) (rounds m))
    (hidle : e = true → ∀ b, Idles K e (step' b) (·.isRight = true)) (b : β) :
    Tracks K (upTo n) e (Parser.repeatFrom step b) (Parser.repeatFrom step' b) fun _ => upTo n where
  adds c := Adds.loop (fun b => (hstep 0 (Nat.zero_le n) b).adds) _ _ c
  adds' d := Adds.loop (fun b => (hstep 0 (Nat.zero_le n) b).adds') _ _ d
  run _ c d hat hw hquiet :=
    loop hstep hidle c.remaining d.remaining b hat hw (Nat.le_refl _) (Nat.le_refl _) hquiet

theorem remaining {f f' : Nat → Parser α} (hadds : ∀ n, Adds (f n)) (hadds' : ∀ n, Adds (f' n))
    (h : ∀ w, A w → Tracks K (· = w) e (f (w.length + K.lost.length)) (f' (w.length + 1)) B) :
    Tracks K A e (Attempt.gets Cursor.remaining >>= f) (Attempt.gets Cursor.remaining >>= f') B where
  adds := (Adds.gets _).bind hadds
  adds' := (Adds.gets _).bind hadds'
  run w c d hat hw hquiet := by
    change Outcome K e B (f c.remaining c) (f' d.remaining d)
    change (f c.remaining c).2.issues = Log.empty at hquiet
    rw [hat.remaining] at hquiet ⊢
    rw [hat.remaining']
    exact (h w hw).run w c d hat rfl hquiet

end Tracks

/-- In step with itself, and a token is passed. -/
def Strict (K : Cut) (mayEnd : Bool) (p : Parser α) : Prop :=
  ∀ n, Tracks K (upTo n) mayEnd p p fun _ => below n

def Loose (K : Cut) (mayEnd : Bool) (p : Parser α) : Prop :=
  ∀ n, Tracks K (upTo n) mayEnd p p fun _ => upTo n

/-- A round of a loop is in step with itself, and one that goes on passes a token. -/
def Steps (K : Cut) (mayEnd : Bool) (step : β → Parser (β ⊕ α)) : Prop :=
  ∀ n b, Tracks K (upTo n) mayEnd (step b) (step b) (rounds n)

theorem Strict.loose (h : Strict K e p) : Loose K e p :=
  fun n => (h n).mono (fun _ => id) id fun _ _ => Nat.le_of_lt

/-- What is in step for at most `m` tokens, for every `m` below `n`, is in step for fewer than `n`. -/
theorem Tracks.fewer (hp : Adds p) (hq : Adds q)
    (h : ∀ m < n, Tracks K (upTo m) e p q fun _ => upTo m) :
    Tracks K (below n) e p q fun _ => below n := by
  cases n with
  | zero => exact (Tracks.recover hp hq).mono (fun _ => Nat.not_lt_zero _) id fun _ _ => id
  | succ n =>
    exact (h n (Nat.lt_succ_self n)).mono (fun _ => Nat.le_of_lt_succ) id fun _ _ => Nat.lt_succ_of_le

theorem Loose.below (h : Loose K e p) (n : Nat) :
    Tracks K (below n) e p p fun _ => Parser.below n :=
  Tracks.fewer (h 0).adds (h 0).adds fun m _ => h m

theorem Loose.past (h : Loose K e p) : Tracks K (after K k (upTo n)) e p p fun _ => Parser.below n :=
  (h.below n).mono (fun _ => after_upTo) id fun _ _ => id

theorem Loose.pure (a : α) : Loose K e (Pure.pure a) := fun _ => Tracks.pure fun _ => id

theorem Strict.bind {f : α → Parser β} (hp : Strict K e p) (hf : ∀ a, Loose K e' (f a))
    (hidle : e = true → ∀ a, Idles K e' (f a) fun _ => True) : Strict K e' (p >>= f) :=
  fun n => (hp n).bind (fun a => (hf a).below n) fun he a hn => (hidle he a).mono id fun _ _ => hn

theorem Strict.next {f : α → Parser β} (hp : Strict K false p) (hf : ∀ a, Loose K e (f a)) :
    Strict K e (p >>= f) := hp.bind hf nofun

theorem Loose.bind {f : α → Parser β} (hp : Loose K e p) (hf : ∀ a, Loose K e' (f a))
    (hidle : e = true → ∀ a, Idles K e' (f a) fun _ => True) : Loose K e' (p >>= f) :=
  fun n => (hp n).bind (fun a => hf a n) fun he a hn => (hidle he a).mono id fun _ _ => hn

theorem Loose.strict {f : α → Parser β} (hp : Loose K e p) (hf : ∀ a, Strict K e' (f a))
    (hidle : e = true → ∀ a, Idles K false (f a) fun _ => True) : Strict K e' (p >>= f) :=
  fun n => (hp n).bind (fun a => hf a n) fun he a _ => (hidle he a).stops

theorem Loose.next {f : α → Parser β} (hp : Loose K false p) (hf : ∀ a, Loose K e (f a)) :
    Loose K e (p >>= f) := hp.bind hf nofun

theorem Steps.repeatFrom {step : β → Parser (β ⊕ α)} (h : Steps K e step)
    (hidle : e = true → ∀ b, Idles K e (step b) (·.isRight = true)) (b : β) :
    Loose K e (Parser.repeatFrom step b) :=
  fun _ => Tracks.repeatFrom (fun m _ b => h m b) hidle b

theorem expect_strict (hk : k ≠ .endOfInput) : Strict K e (expect k) :=
  fun _ => (Tracks.expect hk).mono (fun _ => id) nofun fun _ _ => after_upTo

theorem eat_loose (hk : k ≠ .endOfInput) : Loose K true (eat k) := by
  intro n
  apply Tracks.check_then hk
  · exact (Tracks.advance hk).next fun _ => Tracks.pure fun _ hw => Nat.le_of_lt (after_upTo hw)
  · exact Tracks.pure fun _ => id
  · exact fun _ => Idles.pure (Nat.zero_le n)

theorem identifier_strict : Strict K e identifier :=
  fun _ => Tracks.identifier.mono (fun _ => id) nofun fun _ _ => after_upTo

end Chunkwise.Parser
