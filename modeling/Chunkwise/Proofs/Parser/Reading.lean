import Chunkwise.Parser.Cursor
import Chunkwise.Proofs.Parser.Grammar

/-!
The contract `Parses` is about the tokens that a parser passes. Unless it reports an issue, it yields a
value, and the tokens passed so far make a sentence that the value stands for. A parser never takes an
issue back, so a parse that ends without issues is a parse in which every step kept its contract.
-/
namespace Chunkwise

theorem Log.pushAll_total {α : Type} (l : Log α) (as : List α) :
    (l.pushAll as).total = l.total + as.length := by
  induction as generalizing l with
  | nil => rfl
  | cons a as ih =>
    have hnext := ih (l.push a)
    simp only [pushAll, List.foldl_cons, List.length_cons] at hnext ⊢
    rw [hnext]
    simp only [push]
    omega

namespace Cursor

/-- The kinds of the tokens that are left, the current one included. -/
def rest (c : Cursor) : List TokenKind := c.current.kind :: c.later.map Token.kind

/-- The end of input comes last, and no token is unknown. -/
structure Clean (c : Cursor) : Prop where
  ended : c.rest.getLast? = some .endOfInput
  known : ∀ x, .unknown x ∉ c.rest

/-- These tokens lie between two cursors. -/
structure Passes (c : Cursor) (w : List TokenKind) (c' : Cursor) : Prop where
  rest : c.rest = w ++ c'.rest
  inside : .endOfInput ∉ w

/-- The cursor moved on and kept its issues. -/
structure Leads (c c' : Cursor) : Prop where
  clean : c'.Clean
  issues : c.issues.total ≤ c'.issues.total

variable {c c' c'' : Cursor} {w w' : List TokenKind}

theorem Passes.refl (c : Cursor) : c.Passes [] c := ⟨rfl, List.not_mem_nil⟩

theorem Passes.trans (h : c.Passes w c') (h' : c'.Passes w' c'') : c.Passes (w ++ w') c'' := by
  refine ⟨?_, fun hmem => ?_⟩
  · rw [h.rest, h'.rest, List.append_assoc]
  · rcases List.mem_append.mp hmem with hmem | hmem
    · exact h.inside hmem
    · exact h'.inside hmem

theorem remaining_eq (c : Cursor) : c.remaining = c.rest.length := by
  simp [remaining, rest]

theorem Passes.remaining (h : c.Passes w c') : c.remaining = w.length + c'.remaining := by
  rw [remaining_eq, remaining_eq, h.rest, List.length_append]

theorem Leads.refl (h : c.Clean) : c.Leads c := ⟨h, Nat.le_refl _⟩

theorem Leads.trans (h : c.Leads c') (h' : c'.Leads c'') : c.Leads c'' :=
  ⟨h'.clean, Nat.le_trans h.issues h'.issues⟩

theorem Clean.known_current (h : c.Clean) (x : Char) : c.current.kind ≠ .unknown x := by
  intro hk
  exact h.known x (by simp [rest, hk])

theorem advance_cases (h : c.Clean) :
    c.current.kind = .endOfInput ∧ c.advance = c ∨
      c.rest = c.current.kind :: c.advance.rest := by
  unfold advance
  cases hl : c.later with
  | nil =>
    have hended := h.ended
    simp only [rest, hl, List.map_nil, List.getLast?_singleton, Option.some.injEq] at hended
    exact .inl ⟨hended, rfl⟩
  | cons t ts => exact .inr (by simp [rest, hl])

theorem advance_leads (h : c.Clean) : c.Leads c.advance := by
  have hissues : c.advance.issues = c.issues := by
    unfold advance
    split <;> rfl
  refine ⟨?_, by rw [hissues]⟩
  rcases advance_cases h with ⟨-, hsame⟩ | hrest
  · rwa [hsame]
  · have hended := h.ended
    have hknown := h.known
    rw [hrest] at hended hknown
    refine ⟨?_, fun x hx => hknown x (List.mem_cons_of_mem _ hx)⟩
    have hne : c.advance.rest ≠ [] := by simp [rest]
    rwa [List.getLast?_cons_of_ne_nil hne] at hended

theorem advance_passes (h : c.Clean) (hk : c.current.kind ≠ .endOfInput) :
    c.Passes [c.current.kind] c.advance := by
  rcases advance_cases h with ⟨hend, -⟩ | hrest
  · exact absurd hend hk
  · exact ⟨hrest, by simpa using hk.symm⟩

@[simp] theorem advance_issues (c : Cursor) : c.advance.issues = c.issues := by
  unfold advance
  split <;> rfl

theorem report_leads (h : c.Clean) (p : Problem) (span : Span) :
    c.Leads (c.report p span) ∧ c.issues.total < (c.report p span).issues.total := by
  have hlt : c.issues.total < (c.report p span).issues.total := Nat.lt_succ_self _
  exact ⟨⟨⟨h.ended, h.known⟩, Nat.le_of_lt hlt⟩, hlt⟩

end Cursor

namespace Parser

variable {α β : Type}

/-- From a cursor with a sentence of `A` behind it, `p` reports an issue, or it yields a value with a
sentence of `B` behind it then. -/
def Parses (A : Cursor → Language TokenKind) (p : Parser α) (B : α → Cursor → Language TokenKind) :
    Prop :=
  ∀ c, c.Clean → c.Leads (p c).2 ∧ ∀ w ∈ A c, (p c).2.issues.total = c.issues.total →
    ∃ a v, (p c).1 = some a ∧ c.Passes v (p c).2 ∧ w ++ v ∈ B a (p c).2

/-- `p` reads a sentence of what it yields, whatever was read before. -/
def Reads (p : Parser α) (G : α → Language TokenKind) : Prop :=
  ∀ L : Language TokenKind, Parses (fun _ => L) p fun a _ => L * G a

/-- The sentences of `A` at cursors of which `S` holds. -/
def under (S : Cursor → Prop) (A : Cursor → Language TokenKind) (c : Cursor) : Language TokenKind :=
  {w | w ∈ A c ∧ S c}

/-- What holds of a cursor and of every cursor that it leads to. -/
def Onward (S : Cursor → Prop) : Prop := ∀ c w c', c.Passes w c' → S c → S c'

/-- The cursor is on a token of kind `k`. -/
def here (k : TokenKind) (L : Language TokenKind) (c : Cursor) : Language TokenKind :=
  {w | w ∈ L ∧ c.current.kind = k}

def sized (n : Nat) (L : Language TokenKind) : Language TokenKind := {w | w ∈ L ∧ w.length = n}

def longer (n : Nat) (L : Language TokenKind) : Language TokenKind := {w | w ∈ L ∧ n < w.length}

theorem sized_le (n : Nat) (L : Language TokenKind) : sized n L ≤ L := fun _ hw => hw.1

theorem sized_mul_longer {A M D : Language TokenKind} (hM : [] ∉ M) (h : A * M ≤ D) (n : Nat) :
    sized n A * M ≤ longer n D := by
  intro w hw
  obtain ⟨u, ⟨hu, hn⟩, v, hv, rfl⟩ := Language.mem_mul.mp hw
  have hne : v ≠ [] := fun hnil => hM (hnil ▸ hv)
  have hpos := List.length_pos_iff.mpr hne
  refine ⟨h (Language.append_mem_mul hu hv), ?_⟩
  rw [List.length_append]
  omega

theorem sized_mul_le {L A M D : Language TokenKind} (hM : [] ∉ M) (h : A * M ≤ D) (n : Nat) :
    sized n (L * A) * M ≤ longer n (L * D) := by
  refine sized_mul_longer hM ?_ n
  rw [mul_assoc]
  exact mul_le_mul' le_rfl h

theorem nil_notMem_mul_left {A B : Language TokenKind} (h : [] ∉ A) : [] ∉ A * B := by
  intro hmem
  obtain ⟨u, hu, v, hv, heq⟩ := Language.mem_mul.mp hmem
  obtain ⟨rfl, rfl⟩ := List.append_eq_nil_iff.mp heq
  exact h hu

theorem nil_notMem_mul_right {A B : Language TokenKind} (h : [] ∉ B) : [] ∉ A * B := by
  intro hmem
  obtain ⟨u, hu, v, hv, heq⟩ := Language.mem_mul.mp hmem
  obtain ⟨rfl, rfl⟩ := List.append_eq_nil_iff.mp heq
  exact h hv

namespace Parses

variable {A A' : Cursor → Language TokenKind} {B B' : α → Cursor → Language TokenKind}
  {C : β → Cursor → Language TokenKind} {L : Language TokenKind} {k : TokenKind}

theorem mono {p : Parser α} (h : Parses A p B) (hA : ∀ c, A' c ≤ A c) (hB : ∀ a c, B a c ≤ B' a c) :
    Parses A' p B' := by
  intro c hc
  obtain ⟨hleads, hp⟩ := h c hc
  refine ⟨hleads, fun w hw htotal => ?_⟩
  obtain ⟨a, v, ha, hv, hmem⟩ := hp w (hA c hw) htotal
  exact ⟨a, v, ha, hv, hB a _ hmem⟩

theorem pure {a : α} (h : ∀ c, A c ≤ B a c) : Parses A (Pure.pure a) B := by
  intro c hc
  refine ⟨.refl hc, fun w hw _ => ⟨a, [], rfl, .refl c, ?_⟩⟩
  rw [List.append_nil]
  exact h c hw

theorem bind {p : Parser α} {f : α → Parser β} (hp : Parses A p B)
    (hf : ∀ a, Parses (B a) (f a) C) : Parses A (p >>= f) C := by
  intro c hc
  obtain ⟨hleads, hp⟩ := hp c hc
  change c.Leads (Attempt.bind p f c).2 ∧ ∀ w ∈ A c,
    (Attempt.bind p f c).2.issues.total = c.issues.total →
    ∃ b v, (Attempt.bind p f c).1 = some b ∧ c.Passes v (Attempt.bind p f c).2 ∧
      w ++ v ∈ C b (Attempt.bind p f c).2
  unfold Attempt.bind
  revert hleads hp
  rcases p c with ⟨_ | a, c₁⟩
  · intro hleads hp
    refine ⟨hleads, fun w hw htotal => ?_⟩
    obtain ⟨a, v, ha, -⟩ := hp w hw htotal
    cases ha
  · intro hleads hp
    obtain ⟨hleads', hf⟩ := hf a c₁ hleads.clean
    refine ⟨hleads.trans hleads', fun w hw htotal => ?_⟩
    have hle := hleads.issues
    have hle' := hleads'.issues
    simp only at hle htotal hp
    obtain ⟨a', v, ha, hv, hmem⟩ := hp w hw (by omega)
    cases ha
    obtain ⟨b, v', hb, hv', hmem'⟩ := hf (w ++ v) hmem (by omega)
    refine ⟨b, v ++ v', hb, hv.trans hv', ?_⟩
    rwa [← List.append_assoc]

theorem gets {f : Cursor → α} :
    Parses A (Attempt.gets f) fun a c => {w | w ∈ A c ∧ f c = a} := by
  intro c hc
  refine ⟨.refl hc, fun w hw _ => ⟨f c, [], rfl, .refl c, ?_⟩⟩
  rw [List.append_nil]
  exact ⟨hw, rfl⟩

theorem look {f : Cursor → α} {g : α → Parser β} (h : ∀ a, Parses A (g a) C) :
    Parses A (Attempt.gets f >>= g) C :=
  gets.bind fun a => (h a).mono (fun _ _ hw => hw.1) fun _ _ => le_rfl

theorem span {start : Span} {g : Span → Parser β} (h : ∀ a, Parses A (g a) C) :
    Parses A (spanFrom start >>= g) C := look h

theorem peek {f : TokenKind → Parser β} (h : ∀ k, Parses (here k L) (f k) C) :
    Parses (fun _ => L) (kind >>= f) C := gets.bind h

theorem anywhere {p : Parser α} (h : Parses (fun _ => L) p B) : Parses (here k L) p B :=
  h.mono (fun _ _ hw => hw.1) fun _ _ => le_rfl

theorem advance (hk : k ≠ .endOfInput) :
    Parses (here k L) Parser.advance fun _ _ => L * {[k]} := by
  intro c hc
  refine ⟨Cursor.advance_leads hc, fun w ⟨hw, hhere⟩ _ => ?_⟩
  subst hhere
  exact ⟨(), _, rfl, Cursor.advance_passes hc hk, Language.append_mem_mul hw rfl⟩

theorem counted {p : Parser α} (h : Parses A p B) (total : Nat) :
    Parses (fun c => {w | w ∈ A c ∧ w.length + c.remaining = total}) p
      fun a c => {w | w ∈ B a c ∧ w.length + c.remaining = total} := by
  intro c hc
  obtain ⟨hleads, hp⟩ := h c hc
  refine ⟨hleads, fun w hw htotal => ?_⟩
  obtain ⟨a, v, ha, hv, hmem⟩ := hp w hw.1 htotal
  have hpassed := hv.remaining
  have hbefore := hw.2
  refine ⟨a, v, ha, hv, hmem, ?_⟩
  rw [List.length_append]
  omega

theorem onward {S : Cursor → Prop} (hS : Onward S) {p : Parser α} (h : Parses (under S A) p B) :
    Parses (under S A) p fun a => under S (B a) := by
  intro c hc
  obtain ⟨hleads, hp⟩ := h c hc
  refine ⟨hleads, fun w hw htotal => ?_⟩
  obtain ⟨a, v, ha, hv, hmem⟩ := hp w hw htotal
  exact ⟨a, v, ha, hv, hmem, hS c v _ hv hw.2⟩

theorem ofReports {p : Parser α}
    (h : ∀ c, c.Clean → c.Leads (p c).2 ∧ c.issues.total < (p c).2.issues.total) : Parses A p B := by
  intro c hc
  obtain ⟨hleads, hlt⟩ := h c hc
  refine ⟨hleads, fun w _ htotal => ?_⟩
  omega

theorem recover {f : Cursor → Cursor} (h : ∀ c : Cursor, c.Clean → c.Leads (f c))
    {B : Unit → Cursor → Language TokenKind} : Parses (fun _ => 0) (Attempt.modify f) B :=
  fun c hc => ⟨h c hc, fun _ hw => hw.elim⟩

theorem optional {p : Parser α} (h : Parses A p B) :
    Parses A (Attempt.optional p) fun a? c => match a? with
      | some a => B a c
      | none => 0 := by
  intro c hc
  obtain ⟨hleads, hp⟩ := h c hc
  refine ⟨hleads, fun w hw htotal => ?_⟩
  obtain ⟨a, v, ha, hv, hmem⟩ := hp w hw htotal
  refine ⟨some a, v, ?_, hv, hmem⟩
  change some (p c).1 = _
  rw [ha]

/-- Every round that goes on passes a token, so the rounds do not run out. -/
theorem loop {step : β → Parser (β ⊕ α)} {I : β → Cursor → Language TokenKind}
    (hstep : ∀ n b, Parses (fun c => sized n (I b c)) (step b) fun r c => match r with
      | .inl b' => longer n (I b' c)
      | .inr a => B a c) (limit : Nat) (b : β) :
    Parses (fun c => {w | w ∈ I b c ∧ c.remaining ≤ limit}) (Attempt.loop step limit b) B := by
  induction limit generalizing b with
  | zero =>
    intro c hc
    refine ⟨.refl hc, fun w hw _ => ?_⟩
    have hpos : 0 < c.remaining := Nat.succ_pos _
    exact absurd hw.2 (by omega)
  | succ limit ih =>
    intro c hc
    have hrun := fun n => hstep n b c hc
    change c.Leads (Attempt.bind (step b) _ c).2 ∧ ∀ w ∈ _,
      (Attempt.bind (step b) _ c).2.issues.total = c.issues.total →
      ∃ a v, (Attempt.bind (step b) _ c).1 = some a ∧ c.Passes v (Attempt.bind (step b) _ c).2 ∧
        w ++ v ∈ B a (Attempt.bind (step b) _ c).2
    unfold Attempt.bind
    revert hrun
    rcases step b c with ⟨_ | b' | a, c₁⟩
    · intro hrun
      refine ⟨(hrun 0).1, fun w hw htotal => ?_⟩
      obtain ⟨a, v, ha, -⟩ := (hrun w.length).2 w ⟨hw.1, rfl⟩ htotal
      cases ha
    · intro hrun
      obtain ⟨hleads, -⟩ := hrun 0
      obtain ⟨hleads', hloop⟩ := ih b' c₁ hleads.clean
      refine ⟨hleads.trans hleads', fun w hw htotal => ?_⟩
      have hle := hleads.issues
      have hle' := hleads'.issues
      dsimp only at hle hle' htotal
      obtain ⟨r, v, hr, hv, hmem⟩ := (hrun w.length).2 w ⟨hw.1, rfl⟩
        (by dsimp only; omega)
      cases hr
      obtain ⟨hmem, hlonger⟩ := hmem
      have hpassed := hv.remaining
      have hlimit := hw.2
      rw [List.length_append] at hlonger
      obtain ⟨a, v', ha, hv', hmem'⟩ := hloop (w ++ v) ⟨hmem, by dsimp only at hpassed; omega⟩
        (by omega)
      refine ⟨a, v ++ v', ha, hv.trans hv', ?_⟩
      rwa [← List.append_assoc]
    · intro hrun
      refine ⟨(hrun 0).1, fun w hw htotal => ?_⟩
      obtain ⟨r, v, hr, hv, hmem⟩ := (hrun w.length).2 w ⟨hw.1, rfl⟩ htotal
      cases hr
      exact ⟨a, v, rfl, hv, hmem⟩

theorem repeatFrom {step : β → Parser (β ⊕ α)} {I : β → Cursor → Language TokenKind}
    (hstep : ∀ n b, Parses (fun c => sized n (I b c)) (step b) fun r c => match r with
      | .inl b' => longer n (I b' c)
      | .inr a => B a c) (b : β) : Parses (I b) (repeatFrom step b) B := by
  intro c hc
  obtain ⟨hleads, hloop⟩ := loop hstep c.remaining b c hc
  exact ⟨hleads, fun w hw => hloop w ⟨hw, Nat.le_refl _⟩⟩

end Parses

variable {A : Cursor → Language TokenKind} {B : α → Cursor → Language TokenKind}
  {C : β → Cursor → Language TokenKind} {L : Language TokenKind}

theorem Reads.bind {p : Parser α} {G : α → Language TokenKind} {f : α → Parser β} (hp : Reads p G)
    (hf : ∀ a, Parses (fun _ => L * G a) (f a) C) : Parses (fun _ => L) (p >>= f) C :=
  (hp L).bind hf

theorem onward_remaining (m : Nat) : Onward fun c => c.remaining ≤ m := by
  intro c w c' hw hle
  have hpassed := hw.remaining
  omega

theorem Reads.under {p : Parser α} {G : α → Language TokenKind} (hp : Reads p G) {S : Cursor → Prop}
    (hS : Onward S) : Parses (under S fun _ => L) p fun a => Parser.under S fun _ => L * G a :=
  Parses.onward hS ((hp L).mono (fun _ _ hw => hw.1) fun _ _ => le_rfl)

theorem Reads.shrinks {p : Parser α} {G : α → Language TokenKind} (hp : Reads p G)
    (hG : ∀ a, [] ∉ G a) (m : Nat) : Parses (Parser.under (·.remaining ≤ m + 1) fun _ => L) p
      fun a => Parser.under (·.remaining ≤ m) fun _ => L * G a := by
  intro c hc
  refine ⟨(hp L c hc).1, fun w hw htotal => ?_⟩
  obtain ⟨a, v, ha, hv, hmem⟩ := (hp {w} c hc).2 w rfl htotal
  obtain ⟨u, rfl, v', hv', heq⟩ := Language.mem_mul.mp hmem
  have hread : v' = v := List.append_cancel_left heq
  subst hread
  have hne : v' ≠ [] := fun hnil => hG a (hnil ▸ hv')
  have hpos := List.length_pos_iff.mpr hne
  have hpassed := hv.remaining
  have hleft := hw.2
  exact ⟨a, v', ha, hv, Language.append_mem_mul hw.1 hv', by omega⟩

theorem expected_parses (what : String) : Parses A (expected what : Parser α) B := by
  refine .ofReports fun c hc => ?_
  have hreport : (expected what c : Option α × Cursor).2 =
      c.report (match c.current.kind with
        | .endOfInput => .unexpectedEnd what
        | other => .unexpectedToken other.text what) c.current.span := by
    cases hk : c.current.kind with
    | unknown x => exact absurd hk (hc.known_current x)
    | _ =>
      simp only [expected, reportUnexpected, kind, Attempt.gets, reportHere, Attempt.modify,
        Attempt.fail, bind, Attempt.bind, hk]
  rw [hreport]
  exact c.report_leads hc _ _

theorem sign_self (s : Symbol) : [.symbol s] ∈ Grammar.sign s.text := ⟨s, rfl, rfl⟩

theorem word_self (k : Keyword) : [.keyword k] ∈ Grammar.word k.text := ⟨k, rfl, rfl⟩

theorem eat_parses {k : TokenKind} {G : Language TokenKind} (hk : k ≠ .endOfInput) (hG : [k] ∈ G) :
    Parses (fun _ => L) (eat k) fun passed _ => if passed then L * G else L := by
  refine Parses.gets.bind fun found => ?_
  cases found with
  | false => exact Parses.pure fun _ _ hw => hw.1
  | true =>
    refine (Parses.advance (L := L) hk).mono (fun c w hw => ⟨hw.1, by simpa using hw.2⟩)
      (fun _ _ => le_rfl) |>.bind fun _ => Parses.pure fun _ => ?_
    exact mul_le_mul' le_rfl (Set.singleton_subset_iff.mpr hG)

/-- A token that may stand here, and what follows in either case. -/
theorem eat_then {k : TokenKind} {G : Language TokenKind} (hk : k ≠ .endOfInput) (hG : [k] ∈ G)
    {p q : Parser β} (hp : Parses (fun _ => L * G) p C) (hq : Parses (fun _ => L) q C) :
    Parses (fun _ => L) (do if ← eat k then p else q) C := by
  refine (eat_parses hk hG).bind fun found => ?_
  cases found with
  | false => exact hq
  | true => exact hp

theorem eatSymbol_then (s : Symbol) {p q : Parser β}
    (hp : Parses (fun _ => L * Grammar.sign s.text) p C) (hq : Parses (fun _ => L) q C) :
    Parses (fun _ => L) (do if ← eatSymbol s then p else q) C :=
  eat_then (by simp) (sign_self s) hp hq

theorem expect_reads {k : TokenKind} {G : Language TokenKind} (hk : k ≠ .endOfInput) (hG : [k] ∈ G) :
    Reads (expect k) fun _ => G := by
  intro L
  refine Parses.gets.bind fun found => ?_
  cases found with
  | false => exact expected_parses _
  | true =>
    refine (Parses.advance (L := L) hk).mono (fun c w hw => ⟨hw.1, by simpa using hw.2⟩) fun _ _ => ?_
    exact mul_le_mul' le_rfl (Set.singleton_subset_iff.mpr hG)

theorem expectSymbol_reads (s : Symbol) : Reads (expectSymbol s) fun _ => Grammar.sign s.text :=
  expect_reads (by simp) (sign_self s)

theorem expectKeyword_reads (k : Keyword) : Reads (expectKeyword k) fun _ => Grammar.word k.text :=
  expect_reads (by simp) (word_self k)

theorem identifier_reads : Reads identifier Grammar.ident := by
  intro L
  refine Parses.peek fun k => ?_
  cases k with
  | ident name =>
    refine Parses.look fun span => ?_
    exact (Parses.advance (by simp)).bind fun _ => Parses.pure fun _ => le_rfl
  | _ => exact expected_parses _

theorem identifier_run {c : Cursor} {name : String} (h : c.current.kind = .ident name) :
    identifier c = (some ⟨name, c.current.span⟩, c.advance) := by
  simp only [identifier, kind, currentSpan, advance, Attempt.gets, Attempt.modify, bind, Attempt.bind,
    pure, Attempt.pure, h]

theorem synchronizeFrom_leads (limit depth : Nat) (moved : Bool) {c : Cursor} (hc : c.Clean) :
    c.Leads (synchronizeFrom limit depth moved c) := by
  induction limit generalizing depth moved c with
  | zero => exact .refl hc
  | succ limit ih =>
    have hnext := c.advance_leads hc
    have hon : ∀ depth moved, c.Leads (synchronizeFrom limit depth moved c.advance) :=
      fun depth moved => hnext.trans (ih depth moved hnext.clean)
    unfold synchronizeFrom
    split
    · exact .refl hc
    · exact hon _ _
    · split
      · exact .refl hc
      · dsimp only
        split
        · exact hnext.trans (c.advance.advance_leads hnext.clean)
        · exact hon _ _
    · split
      · exact hnext
      · exact hon _ _
    · split
      · exact .refl hc
      · exact hon _ _

theorem synchronize_parses {D : Unit → Cursor → Language TokenKind} :
    Parses (fun _ => 0) synchronize D :=
  Parses.recover fun _ hc => synchronizeFrom_leads _ _ _ hc

end Parser

end Chunkwise
