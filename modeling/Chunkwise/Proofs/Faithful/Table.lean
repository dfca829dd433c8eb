import Chunkwise.Proofs.Faithful.Member
import Mathlib.Logic.Function.Basic

namespace Chunkwise

open Attempt

/-- The tables that are as `T` but for one type, which has `R`. -/
def TypeTable.On (T : TypeTable) (path : Path) (R : TypeDef → Prop) : TypeTable → Prop :=
  fun T' => ∃ t, R t ∧ T' = Function.update T path (some t)

/-- A careful step that changes the types. -/
def Turns {α : Type} (J : TypeTable → Prop) (H : Prop) (p : Bind α) (K : α → TypeTable → Prop) : Prop :=
  Careful (fun s => J s.image.typeDef? ∧ H) p fun a s => K a s.image.typeDef?

variable {α β : Type} {J : TypeTable → Prop} {H : Prop} {T : TypeTable} {path : Path}
  {R S : TypeDef → Prop}

theorem TypeTable.On.mono {T' : TypeTable} (h : T.On path R T') (hR : ∀ t, R t → S t) :
    T.On path S T' := by
  obtain ⟨t, ht, rfl⟩ := h
  exact ⟨t, hR t ht, rfl⟩

theorem TypeTable.on_self {t : TypeDef} (ht : T path = some t) (h : R t) : T.On path R T :=
  ⟨t, h, by rw [← ht, Function.update_eq_self]⟩

theorem Sure.turns {p : Bind α} {f : α → Bind β} {Q : α → Prop} {K : β → TypeTable → Prop}
    (hp : Sure J H p Q) (hf : ∀ a, Turns J (H ∧ Q a) (f a) K) : Turns J H (p >>= f) K :=
  hp.keeping.bind fun a => Careful.mono (hf a) (fun _ hs => ⟨hs.1.1, hs.1.2, hs.2⟩) fun _ _ hb => hb

namespace Turns

variable {K : α → TypeTable → Prop} {K' : β → TypeTable → Prop}

theorem bind {p : Bind α} {f : α → Bind β} (hp : Turns J H p K) (hf : ∀ a, Turns (K a) H (f a) K') :
    Turns J H (p >>= f) K' := by
  refine Careful.bind (Q := fun a s => K a s.image.typeDef? ∧ H) ⟨hp.grows, fun s hs => ?_⟩ hf
  have hends := hp.ends s hs
  revert hends
  rcases p s with ⟨_ | a, s'⟩
  · exact id
  · exact fun hends hcount => ⟨hends hcount, hs.2⟩

theorem mono {p : Bind α} {J' : TypeTable → Prop} {H' : Prop} {K' : α → TypeTable → Prop}
    (h : Turns J H p K) (hJ : ∀ T, J' T → J T) (hH : H' → H) (hK : ∀ a T, K a T → K' a T) :
    Turns J' H' p K' :=
  Careful.mono h (fun _ hs => ⟨hJ _ hs.1, hH hs.2⟩) fun a _ ha => hK a _ ha

theorem refuse (problem : Problem) (span : Span) : Turns J H (Bind.refuse problem span) K :=
  Careful.refuse problem span

theorem pure {a : α} (h : ∀ T, J T → H → K a T) : Turns J H (Pure.pure a) K :=
  Careful.pure fun _ hs => h _ hs.1 hs.2

theorem optional {p : Bind α} (hp : Turns J H p K) :
    Turns J H (Attempt.optional p) fun a? T => ∃ a, a? = some a ∧ K a T :=
  Careful.optional hp

theorem updateType {f : TypeDef → TypeDef} (h : ∀ t, H → R t → S (f t)) :
    Turns (T.On path R) H (Bind.updateType path f) fun _ => T.On path S := by
  refine Careful.modify (fun _ => rfl) fun s hs => ?_
  obtain ⟨⟨t, ht, hT⟩, hH⟩ := hs
  refine ⟨f t, h t hH ht, funext fun p => ?_⟩
  rw [Image.typeDef?_updateType, hT]
  by_cases hp : p = path
  · rw [if_pos hp, hp, Function.update_self, Function.update_self, Option.map_some]
  · rw [if_neg hp, Function.update_of_ne hp, Function.update_of_ne hp]

/-- A loop over a list, with an invariant that follows how far it has come. -/
theorem steps {I : List α → TypeTable → Prop} {f : α → Bind β} {as : List α}
    (h : ∀ before a after, as = before ++ a :: after →
      Turns (I before) H (f a) fun _ => I (before ++ [a])) :
    Turns (I []) H (Attempt.forAll f as) fun _ => I as := by
  have hfrom : ∀ after before, as = before ++ after →
      Turns (I before) H (Attempt.forAll f after) fun _ => I as := by
    intro after
    induction after with
    | nil =>
      rintro before rfl
      rw [List.append_nil]
      exact pure fun T hT _ => hT
    | cons a after ih =>
      intro before has
      unfold Attempt.forAll
      have hstep := (h before a after has).optional
      refine bind (K := fun _ => I (before ++ [a])) (hstep.mono (fun _ hT => hT) id ?_) fun _ => ?_
      · rintro _ T ⟨-, -, hT⟩
        exact hT
      · have hrest := ih (before ++ [a]) (by rw [has, List.append_assoc]; rfl)
        exact hrest.bind fun _ => pure fun T hT _ => hT
  exact hfrom as [] rfl

theorem start {p : Bind α} (hgrows : Counts p)
    (h : ∀ T, J T → H → Turns (· = T) True p K) : Turns J H p K := by
  refine Careful.start hgrows fun s hs => ?_
  refine Careful.mono (h _ hs.1 hs.2) ?_ fun _ _ ha => ha
  rintro s' rfl
  exact ⟨rfl, trivial⟩

section Each

variable {k : α → Path} {B : α → TypeDef → Prop} {D : α → β → TypeDef → Prop}
  {f : α → Bind β} {as : List α}

theorem forEach (hdistinct : (as.map k).Nodup)
    (h : ∀ a ∈ as, ∀ T : TypeTable, Turns (T.On (k a) (B a)) True (f a) fun b =>
      T.On (k a) (D a b)) (T : TypeTable)
    (hT : ∀ a ∈ as, ∃ t, T (k a) = some t ∧ B a t) :
    Turns (· = T) True (Attempt.forAll f as) fun bs T' => ∃ cs, bs = cs.map some ∧
      (∀ p ∉ as.map k, T' p = T p) ∧
      List.Forall₂ (fun a c => ∃ t, T' (k a) = some t ∧ D a c t) as cs := by
  induction as generalizing T with
  | nil => exact pure fun T' hT' _ => ⟨[], rfl, fun p _ => by rw [hT'], .nil⟩
  | cons a as ih =>
    obtain ⟨hfresh, hnodup⟩ := List.nodup_cons.mp hdistinct
    have heach : ∀ x ∈ as, ∀ T : TypeTable, Turns (T.On (k x) (B x)) True (f x) fun b =>
        T.On (k x) (D x b) := fun x hx => h x (List.mem_cons_of_mem a hx)
    have hgrows : Counts (Attempt.forAll f as) := Counts.forAll fun x hx => (heach x hx T).grows
    have hfirst : Turns (· = T) True (f a) fun b => T.On (k a) (D a b) := by
      refine (h a List.mem_cons_self T).mono ?_ id fun _ _ hb => hb
      rintro T' rfl
      obtain ⟨t, ht, htodo⟩ := hT a List.mem_cons_self
      exact TypeTable.on_self ht htodo
    unfold Attempt.forAll
    refine hfirst.optional.bind fun b? => ?_
    refine bind (K := fun bs T' => ∃ b cs, b? = some b ∧ bs = cs.map some ∧
      (∀ p ∉ (a :: as).map k, T' p = T p) ∧
      List.Forall₂ (fun a c => ∃ t, T' (k a) = some t ∧ D a c t) (a :: as) (b :: cs))
      (start hgrows ?_) fun bs => pure ?_
    · rintro T₁ ⟨b, rfl, t, hdone, rfl⟩ -
      -- the step has left the other types as they were
      have hother : ∀ p, p ≠ k a → Function.update T (k a) (some t) p = T p :=
        fun p hp => Function.update_of_ne hp _ _
      have hrest := ih hnodup heach (Function.update T (k a) (some t)) fun x hx => by
        rw [hother _ fun heq => hfresh (heq ▸ List.mem_map_of_mem hx)]
        exact hT x (List.mem_cons_of_mem a hx)
      refine hrest.mono (fun _ hT' => hT') id ?_
      rintro bs T' ⟨cs, rfl, hframe, hcs⟩
      refine ⟨b, cs, rfl, rfl, fun p hp => ?_, .cons ⟨t, ?_, hdone⟩ hcs⟩
      · rw [List.map_cons, List.mem_cons, not_or] at hp
        rw [hframe p hp.2, hother p hp.1]
      · rw [hframe _ hfresh, Function.update_self]
    · rintro T' ⟨b, cs, rfl, rfl, hframe, hcs⟩ -
      exact ⟨b :: cs, rfl, hframe, hcs⟩

theorem each (hdistinct : (as.map k).Nodup)
    (h : ∀ a ∈ as, ∀ T : TypeTable, Turns (T.On (k a) (B a)) True (f a) fun b =>
      T.On (k a) (D a b)) :
    Turns (fun T => ∀ a ∈ as, ∃ t, T (k a) = some t ∧ B a t) True (Attempt.keepSome f as)
      fun bs T => List.Forall₂ (fun a b => ∃ t, T (k a) = some t ∧ D a b t) as bs := by
  have hcounts : Counts (Attempt.keepSome f as) :=
    Counts.keepSome fun a ha => (h a ha fun _ => none).grows
  refine start hcounts fun T hT _ => ?_
  unfold Attempt.keepSome
  refine (forEach hdistinct h T hT).bind fun bs => pure ?_
  rintro T' ⟨cs, rfl, -, hcs⟩ -
  rw [List.filterMap_map]
  simpa using hcs

end Each

end Turns

end Chunkwise
