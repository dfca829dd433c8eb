import Chunkwise.Parser.Expr
import Chunkwise.Proofs.Parser.Reading

/-!
A list of tokens is cut in two, and the end of input takes the place of the second part. What a parser
does from the cut on is given by `Idles`: it ends there without an issue, or it gives up, and the first
thing it reports is that the text stops too early.
-/
namespace Chunkwise

namespace Log

variable {α : Type}

theorem pushAll_append (l : Log α) (as bs : List α) :
    l.pushAll (as ++ bs) = (l.pushAll as).pushAll bs := List.foldl_append

theorem pushAll_eq_empty {as : List α} (h : empty.pushAll as = empty) : as = [] := by
  have htotal := pushAll_total empty as
  rw [h] at htotal
  exact List.eq_nil_of_length_eq_zero (by simpa using htotal.symm)

end Log

namespace Cursor

/-- The tokens that are left, the current one included. -/
def tokens (c : Cursor) : List Token := c.current :: c.later

theorem remaining_eq_tokens (c : Cursor) : c.remaining = c.tokens.length := rfl

theorem advance_tokens {c : Cursor} (h : c.later ≠ []) : c.advance.tokens = c.later := by
  obtain ⟨t, rest, hlater⟩ := List.exists_cons_of_ne_nil h
  rw [advance, hlater]
  rfl

theorem advance_prior {c : Cursor} (h : c.later ≠ []) : c.advance.prior = some c.current.span := by
  obtain ⟨t, rest, hlater⟩ := List.exists_cons_of_ne_nil h
  rw [advance, hlater]

end Cursor

/-- Tokens in two parts, and an end of input in place of the second part. The first part does not
stop at a word that names a type, since such a word alone is no beginning of an expression. -/
structure Cut where
  kept : List Token
  lost : List Token
  stop : Token
  stop_ends : stop.kind = .endOfInput
  whole_ends : ∃ t ∈ (kept ++ lost).getLast?, t.kind = .endOfInput
  known : ∀ t ∈ kept ++ lost, ∀ x, t.kind ≠ .unknown x
  untyped : ∀ t ∈ kept.getLast?, t.kind.namesType = false

namespace Cut

/-- The last token before the cut opens a parenthesis. -/
def OpensLast (K : Cut) : Prop := ∃ t ∈ K.kept.getLast?, t.kind = .symbol .openParen

/-- What may be reported first: at the end of input, that the text stops too early, or, after an
opening parenthesis, that an expression there would be nested too deep. -/
structure Excuses (K : Cut) (i : Issue) : Prop where
  place : i.span = K.stop.span
  cause : (∃ what, i.problem = .unexpectedEnd what) ∨
    i.problem = .nestingLimit .expression maxNesting ∧ K.OpensLast

/-- Something has been reported, and what was reported first is excused. -/
def Broken (K : Cut) (d : Cursor) : Prop :=
  ∃ i is, K.Excuses i ∧ d.issues = Log.empty.pushAll (i :: is)

/-- Nothing is left before the cut, and nothing has been reported. -/
structure Spent (K : Cut) (d : Cursor) : Prop where
  tokens : d.tokens = [K.stop]
  quiet : d.issues = Log.empty

/-- The two runs are in step: nothing has been reported, and the tokens `w` are left before the cut. -/
structure At (K : Cut) (w : List Token) (c d : Cursor) : Prop where
  full : c.tokens = w ++ K.lost
  short : d.tokens = w ++ [K.stop]
  part : w <:+ K.kept
  prior : d.prior = c.prior
  passed : w = [] → c.prior.isSome = true
  quiet : c.issues = Log.empty
  quiet' : d.issues = Log.empty

variable {K : Cut} {c d : Cursor} {w : List Token} {t : Token}

theorem Spent.current (h : K.Spent d) : d.current = K.stop := (List.cons.inj h.tokens).1

theorem Spent.later (h : K.Spent d) : d.later = [] := (List.cons.inj h.tokens).2

theorem Spent.kind (h : K.Spent d) : d.current.kind = .endOfInput := by
  rw [h.current, K.stop_ends]

theorem Spent.remaining (h : K.Spent d) : d.remaining = 1 := by
  rw [Cursor.remaining, h.later, List.length_nil]

theorem Spent.advance (h : K.Spent d) : d.advance = d := by
  rw [Cursor.advance, h.later]

theorem At.spent (h : K.At [] c d) : K.Spent d := ⟨h.short, h.quiet'⟩

theorem At.current (h : K.At (t :: w) c d) : c.current = t := (List.cons.inj h.full).1

theorem At.current' (h : K.At (t :: w) c d) : d.current = t := (List.cons.inj h.short).1

theorem At.later (h : K.At (t :: w) c d) : c.later = w ++ K.lost := (List.cons.inj h.full).2

theorem At.later' (h : K.At (t :: w) c d) : d.later = w ++ [K.stop] := (List.cons.inj h.short).2

theorem At.remaining (h : K.At w c d) : c.remaining = w.length + K.lost.length := by
  rw [Cursor.remaining_eq_tokens, h.full, List.length_append]

theorem At.remaining' (h : K.At w c d) : d.remaining = w.length + 1 := by
  rw [Cursor.remaining_eq_tokens, h.short, List.length_append, List.length_singleton]

/-- Some token is left, since the whole list ends with one. -/
theorem At.left_pos (h : K.At w c d) : 0 < w.length + K.lost.length := by
  rw [← h.remaining]
  exact Nat.succ_pos _

theorem At.known (h : K.At w c d) (x : Char) : c.current.kind ≠ .unknown x := by
  refine K.known c.current ?_ x
  have hmem : c.current ∈ w ++ K.lost := h.full ▸ List.mem_cons_self
  rcases List.mem_append.mp hmem with hmem | hmem
  · exact List.mem_append_left _ (h.part.subset hmem)
  · exact List.mem_append_right _ hmem

theorem At.previousSpan (h : K.At w c d) : d.previousSpan = c.previousSpan := by
  unfold Cursor.previousSpan
  rw [h.prior]
  cases w with
  | nil =>
    obtain ⟨s, hs⟩ := Option.isSome_iff_exists.mp (h.passed rfl)
    rw [hs, Option.getD_some, Option.getD_some]
  | cons t w => rw [h.current, h.current']

/-- A last token of the whole list ends it, so before any other one there is a next one. -/
theorem At.later_ne_nil (h : K.At (t :: w) c d) (ht : t.kind ≠ .endOfInput) : w ++ K.lost ≠ [] := by
  intro hnil
  obtain ⟨hw, hlost⟩ := List.append_eq_nil_iff.mp hnil
  subst hw
  obtain ⟨last, hlast, hend⟩ := K.whole_ends
  obtain ⟨before, hbefore⟩ := h.part
  rw [hlost, List.append_nil, ← hbefore, List.getLast?_concat] at hlast
  cases hlast
  exact ht hend

theorem At.advance (h : K.At (t :: w) c d) (ht : t.kind ≠ .endOfInput) :
    K.At w c.advance d.advance := by
  have hlater : c.later ≠ [] := h.later ▸ h.later_ne_nil ht
  have hlater' : d.later ≠ [] := by simp [h.later']
  constructor
  · rw [Cursor.advance_tokens hlater, h.later]
  · rw [Cursor.advance_tokens hlater', h.later']
  · exact (List.suffix_cons t w).trans h.part
  · rw [Cursor.advance_prior hlater, Cursor.advance_prior hlater', h.current, h.current']
  · intro _
    rw [Cursor.advance_prior hlater, Option.isSome_some]
  · rw [Cursor.advance_issues, h.quiet]
  · rw [Cursor.advance_issues, h.quiet']

theorem At.getLast? (h : K.At (t :: w) c d) : K.kept.getLast? = (t :: w).getLast? := by
  obtain ⟨before, hbefore⟩ := h.part
  rw [← hbefore, List.getLast?_append_of_ne_nil _ (List.cons_ne_nil _ _)]

end Cut

namespace Parser

variable {α β : Type} {K : Cut}

/-- Issues are added, and none is taken back. -/
def Adds (p : Parser α) : Prop := ∀ c, ∃ is, (p c).2.issues = c.issues.pushAll is

theorem Adds.pure (a : α) : Adds (Pure.pure a) := fun _ => ⟨[], rfl⟩

theorem Adds.gets (f : Cursor → α) : Adds (Attempt.gets f) := fun _ => ⟨[], rfl⟩

theorem Adds.fail : Adds (Attempt.fail : Parser α) := fun _ => ⟨[], rfl⟩

theorem Adds.modify {f : Cursor → Cursor} (h : ∀ c, (f c).issues = c.issues) :
    Adds (Attempt.modify f) := fun c => ⟨[], h c⟩

theorem Adds.bind {p : Parser α} {f : α → Parser β} (hp : Adds p) (hf : ∀ a, Adds (f a)) :
    Adds (p >>= f) := by
  intro c
  change ∃ is, (Attempt.bind p f c).2.issues = c.issues.pushAll is
  unfold Attempt.bind
  have hp := hp c
  revert hp
  rcases p c with ⟨_ | a, c'⟩
  · exact id
  · rintro ⟨is, his⟩
    obtain ⟨js, hjs⟩ := hf a c'
    dsimp only at his ⊢
    exact ⟨is ++ js, by rw [hjs, his, Log.pushAll_append]⟩

theorem Adds.optional {p : Parser α} (h : Adds p) : Adds (Attempt.optional p) := h

theorem Adds.loop {step : β → Parser (β ⊕ α)} (h : ∀ b, Adds (step b)) (limit : Nat) (b : β) :
    Adds (Attempt.loop step limit b) := by
  induction limit generalizing b with
  | zero => exact Adds.fail
  | succ limit ih =>
    apply (h b).bind
    intro r
    cases r with
    | inl b' => exact ih b'
    | inr a => exact Adds.pure a

theorem Adds.continue {step : β → Parser (β ⊕ α)} (h : ∀ b, Adds (step b)) (limit : Nat)
    (r : β ⊕ α) : Adds (match r with
      | .inl b' => Attempt.loop step limit b'
      | .inr a => Pure.pure a) := by
  cases r with
  | inl b' => exact Adds.loop h limit b'
  | inr a => exact Adds.pure a

theorem Adds.reportHere (p : Problem) : Adds (Parser.reportHere p) :=
  fun c => ⟨[⟨p, c.current.span⟩], rfl⟩

theorem Adds.expected (what : String) : Adds (Parser.expected what : Parser α) := by
  apply Adds.bind _ fun _ => Adds.fail
  apply Adds.bind (Adds.gets _)
  intro k
  cases k with
  | unknown x => exact Adds.pure ()
  | _ => exact Adds.reportHere _

theorem Adds.advance : Adds Parser.advance := Adds.modify Cursor.advance_issues

theorem synchronizeFrom_issues (limit depth : Nat) (moved : Bool) (c : Cursor) :
    (synchronizeFrom limit depth moved c).issues = c.issues := by
  fun_induction synchronizeFrom limit depth moved c <;> simp_all +zetaDelta

theorem Adds.synchronize : Adds Parser.synchronize :=
  Adds.modify fun _ => synchronizeFrom_issues _ _ _ _

theorem Adds.quiet {p : Parser α} (h : Adds p) {c : Cursor} (hquiet : (p c).2.issues = Log.empty)
    {is : List Issue} (hc : c.issues = Log.empty.pushAll is) : c.issues = Log.empty := by
  obtain ⟨js, hjs⟩ := h c
  rw [hquiet, hc, ← Log.pushAll_append] at hjs
  have hnil := Log.pushAll_eq_empty hjs.symm
  rw [hc, (List.append_eq_nil_iff.mp hnil).1]
  rfl

theorem Adds.quiet_bind {p : Parser α} {f : α → Parser β} (hp : Adds p) (hf : ∀ a, Adds (f a))
    {c : Cursor} (hc : c.issues = Log.empty) (hquiet : ((p >>= f) c).2.issues = Log.empty) :
    (p c).2.issues = Log.empty := by
  change (Attempt.bind p f c).2.issues = Log.empty at hquiet
  obtain ⟨is, his⟩ := hp c
  rw [hc] at his
  unfold Attempt.bind at hquiet
  revert hquiet his
  rcases p c with ⟨_ | a, c'⟩
  · exact fun hquiet _ => hquiet
  · exact fun hquiet his => (hf a).quiet hquiet his

theorem Adds.broken {p : Parser α} (h : Adds p) {d : Cursor} (hd : K.Broken d) :
    K.Broken (p d).2 := by
  obtain ⟨i, is, hi, his⟩ := hd
  obtain ⟨js, hjs⟩ := h d
  exact ⟨i, is ++ js, hi, by rw [hjs, his, ← Log.pushAll_append, List.cons_append]⟩

/-- From `d` on, `q` gives up after an excused issue, or it reaches the cut without any if it may. -/
def Finishes (K : Cut) (mayEnd : Bool) (q : Parser α) (R : α → Prop) (d : Cursor) : Prop :=
  (∃ d', q d = (none, d') ∧ K.Broken d') ∨
    mayEnd = true ∧ ∃ b d', q d = (some b, d') ∧ K.Spent d' ∧ R b

/-- What `q` does when it starts at the cut. -/
def Idles (K : Cut) (mayEnd : Bool) (q : Parser α) (R : α → Prop) : Prop :=
  ∀ d, K.Spent d → Finishes K mayEnd q R d

variable {e e' : Bool} {R R' : α → Prop} {S : β → Prop} {d : Cursor}

theorem Finishes.mono {q : Parser α} (h : Finishes K e q R d) (he : e = true → e' = true)
    (hR : ∀ a, R a → R' a) : Finishes K e' q R' d := by
  rcases h with h | ⟨hmay, b, d', hrun, hspent, hb⟩
  · exact .inl h
  · exact .inr ⟨he hmay, b, d', hrun, hspent, hR b hb⟩

theorem Idles.mono {q : Parser α} (h : Idles K e q R) (he : e = true → e' = true)
    (hR : ∀ a, R a → R' a) : Idles K e' q R' := fun d hd => (h d hd).mono he hR

theorem Idles.stops {q : Parser α} (h : Idles K false q R) : Idles K e q R' := by
  intro d hd
  rcases h d hd with h | ⟨hmay, -⟩
  · exact .inl h
  · cases hmay

theorem Finishes.bind {q : Parser α} {g : α → Parser β} (h : Finishes K e q R d)
    (hg : e = true → ∀ b, R b → Idles K e' (g b) S) : Finishes K e' (q >>= g) S d := by
  change Finishes K e' (Attempt.bind q g) S d
  unfold Finishes Attempt.bind
  rcases h with ⟨d', hrun, hbroken⟩ | ⟨hmay, b, d', hrun, hspent, hb⟩
  · rw [hrun]
    exact .inl ⟨d', rfl, hbroken⟩
  · rw [hrun]
    exact hg hmay b hb d' hspent

theorem Idles.bind {q : Parser α} {g : α → Parser β} (h : Idles K e q R)
    (hg : e = true → ∀ b, R b → Idles K e' (g b) S) : Idles K e' (q >>= g) S :=
  fun d hd => (h d hd).bind hg

theorem Idles.andThen {q : Parser α} {g : α → Parser β} (h : Idles K false q R) :
    Idles K e (q >>= g) S := Idles.bind h nofun

theorem Idles.pure {a : α} (h : R a) : Idles K true (Pure.pure a) R :=
  fun d hd => .inr ⟨rfl, a, d, rfl, hd, h⟩

theorem Idles.gets {f : Cursor → α} (h : ∀ d, K.Spent d → R (f d)) : Idles K true (Attempt.gets f) R :=
  fun d hd => .inr ⟨rfl, f d, d, rfl, hd, h d hd⟩

theorem Idles.look {f : Cursor → α} {g : α → Parser β} (h : ∀ a, Idles K e (g a) S) :
    Idles K e (Attempt.gets f >>= g) S :=
  (Idles.gets (R := fun _ => True) fun _ _ => trivial).bind fun _ a _ => h a

theorem Idles.span {start : Span} {g : Span → Parser β} (h : ∀ a, Idles K e (g a) S) :
    Idles K e (spanFrom start >>= g) S :=
  Idles.look (f := fun d => start.merge d.previousSpan) h

theorem Idles.peek {f : TokenKind → Parser β} (h : Idles K e (f .endOfInput) S) :
    Idles K e (kind >>= f) S := by
  apply (Idles.gets (R := (· = .endOfInput)) fun _ hd => hd.kind).bind
  rintro - _ rfl
  exact h

theorem Idles.expected (what : String) : Idles K e (Parser.expected what : Parser α) R := by
  intro d hd
  apply Or.inl
  have hrun : (Parser.expected what d : Option α × Cursor) =
      (none, d.report (.unexpectedEnd what) d.current.span) := by
    simp only [Parser.expected, reportUnexpected, kind, Attempt.gets, reportHere, Attempt.modify,
      Attempt.fail, Bind.bind, Attempt.bind, hd.kind]
  rw [hrun]
  refine ⟨_, rfl, ⟨.unexpectedEnd what, K.stop.span⟩, [], ⟨rfl, .inl ⟨what, rfl⟩⟩, ?_⟩
  rw [Cursor.report, hd.quiet, hd.current]
  rfl

theorem Idles.atEnd_then {p q : Parser β} (hp : Idles K e p S) :
    Idles K e (do if ← atEnd then p else q) S := by
  apply (Idles.gets (R := (· = true)) fun d hd => by simp [Cursor.atEnd, hd.kind]).bind
  rintro - _ rfl
  exact hp

theorem Idles.check {k : TokenKind} (hk : k ≠ .endOfInput) :
    Idles K true (Parser.check k) (· = false) := by
  apply Idles.gets
  intro d hd
  simpa [hd.kind] using hk.symm

theorem Idles.eat {k : TokenKind} (hk : k ≠ .endOfInput) : Idles K true (Parser.eat k) (· = false) := by
  apply (Idles.check hk).bind
  rintro - _ rfl
  exact Idles.pure rfl

theorem Idles.eat_then {k : TokenKind} (hk : k ≠ .endOfInput) {p q : Parser β}
    (hq : Idles K e q S) : Idles K e (do if ← Parser.eat k then p else q) S := by
  apply (Idles.eat hk).bind
  rintro - _ rfl
  exact hq

theorem Idles.expect {k : TokenKind} (hk : k ≠ .endOfInput) : Idles K e (Parser.expect k) fun _ => True := by
  apply (Idles.check hk).bind
  rintro - _ rfl
  exact Idles.expected _

theorem Idles.identifier : Idles K e Parser.identifier fun _ => True :=
  Idles.peek (Idles.expected _)

theorem Idles.loop {step : β → Parser (β ⊕ α)} (h : ∀ b, Idles K e (step b) (·.isRight = true))
    (limit : Nat) (b : β) : Idles K e (Attempt.loop step (limit + 1) b) fun _ => True := by
  apply (h b).bind
  intro he r hr
  cases r with
  | inl b' => cases hr
  | inr a => exact he ▸ Idles.pure trivial

theorem Idles.repeatFrom {step : β → Parser (β ⊕ α)}
    (h : ∀ b, Idles K e (step b) (·.isRight = true)) (b : β) :
    Idles K e (Parser.repeatFrom step b) fun _ => True := by
  intro d hd
  have hloop := Idles.loop h 0 b d hd
  unfold Finishes Parser.repeatFrom at *
  rwa [hd.remaining]

end Parser

end Chunkwise
