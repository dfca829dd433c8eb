import Chunkwise.Attempt
import Mathlib.Data.List.Forall2

/-!
A contract says what a computation needs of the state it starts from, what holds when it yields a
value and what holds when it gives up. `Yields` is the common case of one invariant on the state
and one property of the value. `Parallel` is a contract for two computations side by side.
-/
namespace Chunkwise.Attempt

variable {σ α β γ : Type}

/-- From a state with `P`, either `p` yields a value and a state with `Q`, or it gives up in a state
with `E`. -/
def Triple (P : σ → Prop) (p : Attempt σ α) (Q : α → σ → Prop) (E : σ → Prop) : Prop :=
  ∀ s, P s → match p s with
    | (some a, s') => Q a s'
    | (none, s') => E s'

/-- `p` keeps the invariant `I`, also when it gives up, and what it yields has the property `Q`. -/
def Yields (I : σ → Prop) (p : Attempt σ α) (Q : α → Prop) : Prop :=
  Triple I p (fun a s => I s ∧ Q a) I

namespace Triple

variable {P P' E E' : σ → Prop} {Q Q' : α → σ → Prop} {R : β → σ → Prop}

theorem mono {p : Attempt σ α} (h : Triple P p Q E) (hP : ∀ s, P' s → P s)
    (hQ : ∀ a s, Q a s → Q' a s) (hE : ∀ s, E s → E' s) : Triple P' p Q' E' := by
  intro s hs
  have hp := h s (hP s hs)
  revert hp
  rcases p s with ⟨_ | a, s'⟩
  · exact hE s'
  · exact hQ a s'

theorem of_run {p : Attempt σ α} (h : Triple P p Q E) {s s' : σ} {a : α} (hs : P s)
    (hrun : p s = (some a, s')) : Q a s' := by
  have hp := h s hs
  rw [hrun] at hp
  exact hp

theorem exists_run {p : Attempt σ α} (h : Triple P p Q fun _ => False) {s : σ} (hs : P s) :
    ∃ a s', p s = (some a, s') ∧ Q a s' := by
  have hp := h s hs
  revert hp
  rcases p s with ⟨_ | a, s'⟩
  · exact False.elim
  · exact fun hq => ⟨a, s', rfl, hq⟩

theorem with_run {p : Attempt σ α} {s₀ : σ} (h : Triple (· = s₀) p Q E) :
    Triple (· = s₀) p (fun a s => p s₀ = (some a, s) ∧ Q a s) E := by
  rintro s rfl
  have hp := h s rfl
  revert hp
  rcases p s with ⟨_ | a, s'⟩
  · exact id
  · exact fun hq => ⟨rfl, hq⟩

theorem pure {a : α} (h : ∀ s, P s → Q a s) : Triple P (Pure.pure a : Attempt σ α) Q E :=
  fun s hs => h s hs

theorem bind {p : Attempt σ α} {f : α → Attempt σ β} (hp : Triple P p Q E)
    (hf : ∀ a, Triple (Q a) (f a) R E) : Triple P (p >>= f) R E := by
  intro s hs
  have h := hp s hs
  change match Attempt.bind p f s with
    | (some b, s') => R b s'
    | (none, s') => E s'
  unfold Attempt.bind
  revert h
  rcases p s with ⟨_ | a, s'⟩
  · exact id
  · exact hf a s'

theorem fail (h : ∀ s, P s → E s) : Triple P (Attempt.fail : Attempt σ α) Q E := fun s hs => h s hs

theorem gets {f : σ → α} (h : ∀ s, P s → Q (f s) s) : Triple P (Attempt.gets f) Q E :=
  fun s hs => h s hs

theorem modify {f : σ → σ} {Q : Unit → σ → Prop} (h : ∀ s, P s → Q () (f s)) :
    Triple P (Attempt.modify f) Q E := fun s hs => h s hs

theorem optional {p : Attempt σ α} {Q : Option α → σ → Prop}
    (hp : Triple P p (fun a s => Q (some a) s) (Q none)) : Triple P (Attempt.optional p) Q E := by
  intro s hs
  have h := hp s hs
  unfold Attempt.optional
  revert h
  rcases p s with ⟨_ | a, s'⟩ <;> exact id

theorem ofOption {a? : Option α} (hs : ∀ a s, a? = some a → P s → Q a s)
    (hn : ∀ s, a? = none → P s → E s) : Triple P (Attempt.ofOption a?) Q E := by
  intro s h
  cases a? with
  | none => exact hn s rfl h
  | some a => exact hs a s rfl h

end Triple

namespace Yields

variable {I : σ → Prop} {Q Q' : α → Prop} {R : β → Prop}

theorem mono {p : Attempt σ α} (h : Yields I p Q) (hQ : ∀ a, Q a → Q' a) : Yields I p Q' :=
  Triple.mono h (fun _ hs => hs) (fun a _ ha => ⟨ha.1, hQ a ha.2⟩) fun _ hs => hs

theorem keeps {p : Attempt σ α} (h : Yields I p Q) {s : σ} (hs : I s) : I (p s).2 := by
  have hp := h s hs
  revert hp
  rcases p s with ⟨_ | a, s'⟩
  · exact id
  · exact And.left

theorem pure {a : α} (h : Q a) : Yields I (Pure.pure a : Attempt σ α) Q :=
  Triple.pure fun _ hs => ⟨hs, h⟩

theorem bind {p : Attempt σ α} {f : α → Attempt σ β} (hp : Yields I p Q)
    (hf : ∀ a, Q a → Yields I (f a) R) : Yields I (p >>= f) R :=
  Triple.bind hp fun a s hs => hf a hs.2 s hs.1

theorem fail : Yields I (Attempt.fail : Attempt σ α) Q := Triple.fail fun _ hs => hs

theorem gets {f : σ → α} (h : ∀ s, I s → Q (f s)) : Yields I (Attempt.gets f) Q :=
  Triple.gets fun s hs => ⟨hs, h s hs⟩

theorem modify {f : σ → σ} (h : ∀ s, I s → I (f s)) :
    Yields I (Attempt.modify f) fun _ => True := Triple.modify fun s hs => ⟨h s hs, trivial⟩

theorem optional {p : Attempt σ α} (hp : Yields I p Q) :
    Yields I (Attempt.optional p) fun a? => ∀ a, a? = some a → Q a :=
  Triple.optional (Triple.mono hp (fun _ hs => hs)
    (fun a _ ha => ⟨ha.1, fun b hb => by cases hb; exact ha.2⟩) fun _ hs => ⟨hs, by simp⟩)

theorem ofOption {a? : Option α} (h : ∀ a, a? = some a → Q a) : Yields I (Attempt.ofOption a?) Q :=
  Triple.ofOption (fun a _ ha hs => ⟨hs, h a ha⟩) fun _ _ hs => hs

theorem forAll {f : α → Attempt σ β} {Q : α → β → Prop} {as : List α}
    (h : ∀ a ∈ as, Yields I (f a) (Q a)) :
    Yields I (Attempt.forAll f as) (List.Forall₂ (fun a b? => ∀ b, b? = some b → Q a b) as) := by
  induction as with
  | nil => exact Yields.pure .nil
  | cons a as ih =>
    unfold Attempt.forAll
    refine Yields.bind (optional (h a (by simp))) fun b? hb => ?_
    refine Yields.bind (ih fun x hx => h x (by simp [hx])) fun bs hbs => ?_
    exact Yields.pure (.cons hb hbs)

theorem keepSome {f : α → Attempt σ β} {as : List α}
    (h : ∀ a ∈ as, Yields I (f a) R) : Yields I (Attempt.keepSome f as) fun bs => ∀ b ∈ bs, R b := by
  unfold Attempt.keepSome
  refine Yields.bind (forAll h) fun bs hbs => Yields.pure ?_
  intro b hb
  obtain ⟨b?, hmem, rfl⟩ := List.mem_filterMap.mp hb
  obtain ⟨i, hi, hget⟩ := List.getElem_of_mem hmem
  exact (List.forall₂_iff_get.mp hbs).2 i (by have := hbs.length_eq; omega) hi b hget

end Yields

theorem bind_congr_run {p : Attempt σ α} {f g : α → Attempt σ β} {s : σ}
    (h : ∀ a s', p s = (some a, s') → f a s' = g a s') : (p >>= f) s = (p >>= g) s := by
  change Attempt.bind p f s = Attempt.bind p g s
  unfold Attempt.bind
  revert h
  rcases p s with ⟨_ | a, s'⟩
  · exact fun _ => rfl
  · exact fun h => h a s' rfl

theorem bind_run {p : Attempt σ α} {f : α → Attempt σ β} {s s' : σ} {b : β}
    (h : (p >>= f) s = (some b, s')) : ∃ a s₁, p s = (some a, s₁) ∧ f a s₁ = (some b, s') := by
  change Attempt.bind p f s = _ at h
  unfold Attempt.bind at h
  split at h
  · next a s₁ hp => exact ⟨a, s₁, hp, h⟩
  · cases h

theorem bind_eq_of_run {p : Attempt σ α} {f : α → Attempt σ β} {s s' : σ} {a : α}
    (h : p s = (some a, s')) : (p >>= f) s = f a s' := by
  change Attempt.bind p f s = _
  simp only [Attempt.bind, h]

theorem optional_of_run {p : Attempt σ α} {s s' : σ} {a? : Option α} (h : p s = (a?, s')) :
    optional p s = (some a?, s') := by
  simp only [optional, h]

theorem allSome_eq_some {os : List (Option α)} {as : List α} (h : allSome os = some as) :
    os = as.map some := by
  induction os generalizing as with
  | nil => simp_all [allSome]
  | cons o os ih =>
    cases o with
    | none => simp [allSome] at h
    | some a =>
      obtain ⟨rest, hr, rfl⟩ := Option.map_eq_some_iff.mp (by simpa [allSome] using h)
      simp [ih hr]

theorem allSome_map_some (as : List α) : allSome (as.map some) = some as := by
  induction as with
  | nil => rfl
  | cons a as ih => simp [allSome, ih]

/-- A loop whose steps all end with a value and leave the state alone. -/
theorem forAll_run {f : α → Attempt σ β} {g : α → β} {s : σ} {as : List α}
    (h : ∀ a ∈ as, f a s = (some (g a), s)) :
    forAll f as s = (some (as.map fun a => some (g a)), s) := by
  induction as with
  | nil => rfl
  | cons a as ih =>
    have hrest := ih fun x hx => h x (List.mem_cons_of_mem a hx)
    change Attempt.bind (optional (f a)) (fun b? => forAll f as >>= fun bs => pure (b? :: bs)) s = _
    simp only [Attempt.bind, optional, h a List.mem_cons_self]
    change Attempt.bind (forAll f as) (fun bs => pure (some (g a) :: bs)) s = _
    simp only [Attempt.bind, hrest]
    rfl

section Relational

variable {σ α α' β β' : Type} {R : σ → σ → Prop} {A A' : α → α' → Prop} {B : β → β' → Prop}

/-- From related states both give up or both yield something, which is related, and the states
afterwards are related. -/
def Parallel (R : σ → σ → Prop) (A : α → α' → Prop) (p : Attempt σ α) (q : Attempt σ α') : Prop :=
  ∀ s t, R s t → Option.Rel A (p s).1 (q t).1 ∧ R (p s).2 (q t).2

namespace Parallel

variable {p : Attempt σ α} {q : Attempt σ α'}

theorem mono (h : Parallel R A p q) (hA : ∀ a a', A a a' → A' a a') : Parallel R A' p q := by
  intro s t hst
  obtain ⟨hval, hafter⟩ := h s t hst
  refine ⟨?_, hafter⟩
  revert hval
  rcases (p s).1 with _ | a <;> rcases (q t).1 with _ | a'
  · exact fun _ => .none
  · nofun
  · nofun
  · exact fun hval => by cases hval with | some ha => exact .some (hA _ _ ha)

theorem pure {a : α} {a' : α'} (h : A a a') :
    Parallel R A (Pure.pure a : Attempt σ α) (Pure.pure a') := fun _ _ hst => ⟨.some h, hst⟩

theorem fail : Parallel R A (Attempt.fail : Attempt σ α) Attempt.fail := fun _ _ hst => ⟨.none, hst⟩

theorem bind {f : α → Attempt σ β} {g : α' → Attempt σ β'} (hp : Parallel R A p q)
    (hf : ∀ a a', A a a' → Parallel R B (f a) (g a')) : Parallel R B (p >>= f) (q >>= g) := by
  intro s t hst
  obtain ⟨hval, hafter⟩ := hp s t hst
  change Option.Rel B (Attempt.bind p f s).1 (Attempt.bind q g t).1 ∧
    R (Attempt.bind p f s).2 (Attempt.bind q g t).2
  unfold Attempt.bind
  rcases hps : p s with ⟨a?, s'⟩
  rcases hqt : q t with ⟨a'?, t'⟩
  rw [hps, hqt] at hval hafter
  dsimp only at hval hafter ⊢
  cases hval with
  | none => exact ⟨.none, hafter⟩
  | some ha => exact hf _ _ ha s' t' hafter

theorem gets {f : σ → α} {g : σ → α'} (h : ∀ s t, R s t → A (f s) (g t)) :
    Parallel R A (Attempt.gets f) (Attempt.gets g) := fun s t hst => ⟨.some (h s t hst), hst⟩

theorem modify {f g : σ → σ} (h : ∀ s t, R s t → R (f s) (g t)) :
    Parallel R (fun _ _ => True) (Attempt.modify f) (Attempt.modify g) :=
  fun s t hst => ⟨.some trivial, h s t hst⟩

theorem ofOption {a? : Option α} {a'? : Option α'} (h : Option.Rel A a? a'?) :
    Parallel R A (Attempt.ofOption a? : Attempt σ α) (Attempt.ofOption a'?) :=
  fun _ _ hst => ⟨h, hst⟩

theorem optional (h : Parallel R A p q) :
    Parallel R (Option.Rel A) (Attempt.optional p) (Attempt.optional q) := fun s t hst =>
  ⟨.some (h s t hst).1, (h s t hst).2⟩

theorem ite {c c' : Prop} [Decidable c] [Decidable c'] (hc : c ↔ c') {p' : Attempt σ α}
    {q' : Attempt σ α'} (h : Parallel R A p q) (h' : Parallel R A p' q') :
    Parallel R A (if c then p else p') (if c' then q else q') := by
  by_cases hyes : c
  · rw [if_pos hyes, if_pos (hc.mp hyes)]
    exact h
  · rw [if_neg hyes, if_neg fun hno => hyes (hc.mpr hno)]
    exact h'

theorem forAll {S : α → α' → Prop} {f : α → Attempt σ β} {g : α' → Attempt σ β'} {as : List α}
    {as' : List α'} (has : List.Forall₂ S as as') (h : ∀ a a', S a a' → Parallel R B (f a) (g a')) :
    Parallel R (List.Forall₂ (Option.Rel B)) (Attempt.forAll f as) (Attempt.forAll g as') := by
  induction has with
  | nil => exact pure .nil
  | cons ha _ ih =>
    exact (h _ _ ha).optional.bind fun b? b'? hb => ih.bind fun bs bs' hbs => pure (.cons hb hbs)

theorem forAll_map {f : α → Attempt σ β} {g : α' → Attempt σ β'} (e : α → α') {as : List α}
    (h : ∀ a ∈ as, Parallel R B (f a) (g (e a))) :
    Parallel R (List.Forall₂ (Option.Rel B)) (Attempt.forAll f as)
      (Attempt.forAll g (as.map e)) := by
  have hsame : List.Forall₂ (fun a a' => a ∈ as ∧ a' = e a) as (as.map e) :=
    List.forall₂_map_right_iff.mpr (List.forall₂_same.mpr fun a ha => ⟨ha, rfl⟩)
  exact forAll hsame fun a a' ⟨ha, heq⟩ => heq ▸ h a ha

theorem keepSome {f : α → Attempt σ β} {g : α' → Attempt σ β'} (e : α → α') {as : List α}
    (h : ∀ a ∈ as, Parallel R B (f a) (g (e a))) :
    Parallel R (List.Forall₂ B) (Attempt.keepSome f as) (Attempt.keepSome g (as.map e)) :=
  (forAll_map e h).bind fun _ _ hbs => pure (List.rel_filterMap (fun _ _ hb => hb) hbs)

theorem andThen {p' : Attempt σ β} {q' : Attempt σ β'} (h : Parallel R A p q)
    (h' : Parallel R B p' q') : Parallel R B (p >>= fun _ => p') (q >>= fun _ => q') :=
  h.bind fun _ _ _ => h'

/-- Both parts are tried before either of them is needed. -/
theorem both {γ γ' : Type} {C : γ → γ' → Prop} {p₂ : Attempt σ β} {q₂ : Attempt σ β'}
    {f : α → β → Attempt σ γ} {g : α' → β' → Attempt σ γ'} (h : Parallel R A p q)
    (h₂ : Parallel R B p₂ q₂) (hf : ∀ a a' b b', A a a' → B b b' → Parallel R C (f a b) (g a' b')) :
    Parallel R C
      (do
        let a? ← Attempt.optional p
        let b? ← Attempt.optional p₂
        let a ← Attempt.ofOption a?
        let b ← Attempt.ofOption b?
        f a b)
      (do
        let a? ← Attempt.optional q
        let b? ← Attempt.optional q₂
        let a ← Attempt.ofOption a?
        let b ← Attempt.ofOption b?
        g a b) := by
  refine h.optional.bind fun a? a'? ha => h₂.optional.bind fun b? b'? hb => ?_
  exact (ofOption ha).bind fun a a' ha => (ofOption hb).bind fun b b' hb => hf a a' b b' ha hb

end Parallel

theorem rel_allSome {as : List (Option α)} {bs : List (Option α')}
    (h : List.Forall₂ (Option.Rel A) as bs) :
    Option.Rel (List.Forall₂ A) (allSome as) (allSome bs) := by
  induction h with
  | nil => exact .some .nil
  | cons hab _ ih =>
    cases hab with
    | none => exact .none
    | some ha =>
      unfold allSome
      generalize allSome _ = cs? at ih ⊢
      generalize allSome _ = ds? at ih ⊢
      cases ih with
      | none => exact .none
      | some hcs => exact .some (.cons ha hcs)

end Relational

end Chunkwise.Attempt
