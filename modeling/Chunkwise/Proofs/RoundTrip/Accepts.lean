import Chunkwise.Proofs.Parser.Reading

/-!
`Accepts p w t R` says that `p` passes exactly the tokens `w` when `t` follows them, reports nothing
and yields a value with `R`. What follows matters, since a parser takes all that continues what it
reads. A loop that extends one value round by round is described by `Enters`: the parser has read `w`
and is about to start a round.
-/
namespace Chunkwise.Parser

variable {α β : Type} {w v t : List TokenKind} {k : TokenKind} {Q : β → Prop} {R S : α → Prop}

def Accepts (p : Parser α) (w t : List TokenKind) (R : α → Prop) : Prop :=
  ∀ c : Cursor, c.rest = w ++ t → t ≠ [] →
    ∃ a c', p c = (some a, c') ∧ c'.rest = t ∧ c'.issues = c.issues ∧ R a

namespace Accepts

theorem mono {p : Parser α} (h : Accepts p w t R) (hR : ∀ a, R a → S a) : Accepts p w t S := by
  intro c hc ht
  obtain ⟨a, c', hrun, hrest, hissues, ha⟩ := h c hc ht
  exact ⟨a, c', hrun, hrest, hissues, hR a ha⟩

theorem of_cons {p : Parser α} (h : ∀ k t', t = k :: t' → Accepts p w t R) : Accepts p w t R := by
  intro c hc ht
  obtain ⟨k, t', hcons⟩ := List.exists_cons_of_ne_nil ht
  exact h k t' hcons c hc ht

theorem pure {a : α} (h : R a) : Accepts (Pure.pure a) [] t R :=
  fun c hc _ => ⟨a, c, rfl, hc, rfl, h⟩

theorem bind {p : Parser β} {f : β → Parser α} (hp : Accepts p w (v ++ t) Q)
    (hf : ∀ b, Q b → Accepts (f b) v t R) : Accepts (p >>= f) (w ++ v) t R := by
  intro c hc ht
  obtain ⟨b, c₁, hrun, hrest, hissues, hb⟩ := hp c (by rw [hc, List.append_assoc]) (by simp [ht])
  obtain ⟨a, c₂, hrun', hrest', hissues', ha⟩ := hf b hb c₁ hrest ht
  refine ⟨a, c₂, ?_, hrest', by rw [hissues', hissues], ha⟩
  change Attempt.bind p f c = _
  rw [Attempt.bind, hrun]
  exact hrun'

theorem andThen {p : Parser β} {f : β → Parser α} (hp : Accepts p w t Q)
    (hf : ∀ b, Q b → Accepts (f b) [] t R) : Accepts (p >>= f) w t R := by
  have h := bind (v := []) hp hf
  rwa [List.append_nil] at h

theorem look {g : Cursor → β} {f : β → Parser α} (h : ∀ b, Accepts (f b) w t R) :
    Accepts (Attempt.gets g >>= f) w t R := fun c hc ht => h (g c) c hc ht

theorem span {start : Span} {f : Span → Parser α} (h : ∀ s, Accepts (f s) w t R) :
    Accepts (spanFrom start >>= f) w t R := fun c hc ht => h _ c hc ht

theorem see {g : Cursor → β} {f : β → Parser α} (b : β) (hb : ∀ c : Cursor, c.rest = w ++ t → g c = b)
    (h : Accepts (f b) w t R) : Accepts (Attempt.gets g >>= f) w t R := by
  intro c hc ht
  obtain ⟨a, hrun⟩ := h c hc ht
  refine ⟨a, ?_⟩
  change ∃ c', f (g c) c = _ ∧ _
  rwa [hb c hc]

theorem current_of_rest {c : Cursor} (hc : c.rest = k :: w) : c.current.kind = k :=
  (List.cons.inj hc).1

theorem peek {f : TokenKind → Parser α} (h : Accepts (f k) (k :: w) t R) :
    Accepts (kind >>= f) (k :: w) t R := see k (fun _ hc => current_of_rest hc) h

theorem peekNext {f : TokenKind → Parser α} (h : Accepts (f k) [] (k :: t) R) :
    Accepts (kind >>= f) [] (k :: t) R := see k (fun _ hc => current_of_rest hc) h

theorem advance_then {f : Unit → Parser α} (h : Accepts (f ()) w t R) :
    Accepts (Parser.advance >>= f) (k :: w) t R := by
  intro c hc ht
  have hlater : c.later ≠ [] := by
    intro hnil
    have hlength := congrArg List.length hc
    have hpos := List.length_pos_iff.mpr ht
    simp only [Cursor.rest, hnil, List.map_nil, List.length_cons, List.length_nil,
      List.length_append] at hlength
    omega
  have hrest : c.advance.rest = w ++ t := by
    obtain ⟨x, xs, hl⟩ := List.exists_cons_of_ne_nil hlater
    have htail : c.later.map Token.kind = w ++ t := (List.cons.inj hc).2
    simpa [Cursor.advance, Cursor.rest, hl] using htail
  obtain ⟨a, c', hrun, hrest', hissues, ha⟩ := h c.advance hrest ht
  exact ⟨a, c', hrun, hrest', by rw [hissues, Cursor.advance_issues], ha⟩

theorem eat_then {f : Bool → Parser α} (h : Accepts (f true) w t R) :
    Accepts (eat k >>= f) (k :: w) t R := by
  have hrun : Accepts (eat k) ([k] ++ []) (w ++ t) (· = true) :=
    see true (fun c hc => by simp [current_of_rest hc]) (advance_then (pure rfl))
  exact bind (w := [k]) hrun fun b hb => hb ▸ h

theorem eat_other {f : Bool → Parser α} (hk : (w ++ t).head? ≠ some k)
    (h : Accepts (f false) w t R) : Accepts (eat k >>= f) w t R := by
  intro c hc ht
  have hrun : Accepts (eat k) [] (w ++ t) (· = false) := by
    refine see false (fun c hc => ?_) (pure rfl)
    have hne : c.current.kind ≠ k := by
      rintro rfl
      exact hk (by rw [← List.nil_append (w ++ t), ← hc]; rfl)
    simp [hne]
  exact bind (w := []) hrun (fun b hb => hb ▸ h) c hc ht

theorem expect_then {f : Unit → Parser α} (h : Accepts (f ()) w t R) :
    Accepts (expect k >>= f) (k :: w) t R := by
  have hrun : Accepts (expect k) ([k] ++ []) (w ++ t) fun _ => True :=
    see true (fun c hc => by simp [current_of_rest hc])
      (advance_then (f := Pure.pure) (pure trivial))
  exact bind (w := [k]) hrun fun _ _ => h

theorem identifier_then {f : Ident → Parser α} {name : String}
    (h : ∀ id : Ident, id.name = name → Accepts (f id) w t R) :
    Accepts (identifier >>= f) (.ident name :: w) t R := by
  have hrun : Accepts identifier [.ident name] (w ++ t) (·.name = name) :=
    peek (look fun _ => advance_then (pure rfl))
  exact bind (w := [.ident name]) hrun h

end Accepts

/-- After `w` the parser is about to start a round with a value of which `Q` holds, and there are
rounds enough for the tokens that are left. -/
def Enters (p : Parser α) (step : β → Parser (β ⊕ α)) (w t : List TokenKind) (Q : β → Prop) : Prop :=
  ∀ c : Cursor, c.rest = w ++ t → t ≠ [] →
    ∃ b c' limit, p c = Attempt.loop step limit b c' ∧ c'.rest = t ∧ c'.remaining ≤ limit ∧
      c'.issues = c.issues ∧ Q b

namespace Enters

variable {p : Parser α} {step : β → Parser (β ⊕ α)} {Q' : β → Prop}

theorem start {b : β} (h : Q b) : Enters (repeatFrom step b) step [] t Q :=
  fun c hc _ => ⟨b, c, c.remaining, rfl, hc, Nat.le_refl _, rfl, h⟩

theorem first {q : Parser β} (h : Accepts q w t Q) : Enters (q >>= repeatFrom step) step w t Q := by
  intro c hc ht
  obtain ⟨b, c', hrun, hrest, hissues, hb⟩ := h c hc ht
  refine ⟨b, c', c'.remaining, ?_, hrest, Nat.le_refl _, hissues, hb⟩
  change Attempt.bind q (repeatFrom step) c = _
  rw [Attempt.bind, hrun]
  rfl

theorem loop_run {limit : Nat} {b : β} {c c' : Cursor} {r : β ⊕ α} (hpos : 0 < limit)
    (h : step b c = (some r, c')) : Attempt.loop step limit b c =
      r.elim (Attempt.loop step (limit - 1) · c') fun a => (some a, c') := by
  cases limit with
  | zero => omega
  | succ limit =>
    rw [Attempt.loop]
    change Attempt.bind (step b) _ c = _
    rw [Attempt.bind, h]
    cases r <;> rfl

theorem again (h : Enters p step w (v ++ t) Q) (hw : v ≠ [])
    (hstep : ∀ b, Q b → Accepts (step b) v t fun r => ∃ b', r = .inl b' ∧ Q' b') :
    Enters p step (w ++ v) t Q' := by
  intro c hc ht
  obtain ⟨b, c₁, limit, hrun, hrest, hlimit, hissues, hb⟩ :=
    h c (by rw [hc, List.append_assoc]) (by simp [ht])
  obtain ⟨r, c₂, hrun', hrest', hissues', b', rfl, hb'⟩ := hstep b hb c₁ hrest ht
  have hpos := List.length_pos_iff.mpr hw
  rw [Cursor.remaining_eq, hrest, List.length_append] at hlimit
  refine ⟨b', c₂, limit - 1, ?_, hrest', ?_, by rw [hissues', hissues], hb'⟩
  · rw [hrun, loop_run (by omega) hrun', Sum.elim_inl]
  · rw [Cursor.remaining_eq, hrest']
    omega

theorem last (h : Enters p step w (v ++ t) Q)
    (hstep : ∀ b, Q b → Accepts (step b) v t fun r => ∃ a, r = .inr a ∧ R a) :
    Accepts p (w ++ v) t R := by
  intro c hc ht
  obtain ⟨b, c₁, limit, hrun, hrest, hlimit, hissues, hb⟩ :=
    h c (by rw [hc, List.append_assoc]) (by simp [ht])
  obtain ⟨r, c₂, hrun', hrest', hissues', a, rfl, ha⟩ := hstep b hb c₁ hrest ht
  have hpos : 0 < c₁.remaining := Nat.succ_pos _
  refine ⟨a, c₂, ?_, hrest', by rw [hissues', hissues], ha⟩
  rw [hrun, loop_run (by omega) hrun', Sum.elim_inr]

theorem stop (h : Enters p step w t Q)
    (hstep : ∀ b, Q b → Accepts (step b) [] t fun r => ∃ a, r = .inr a ∧ R a) : Accepts p w t R := by
  have hlast := last (v := []) h hstep
  rwa [List.append_nil] at hlast

end Enters

end Chunkwise.Parser
