import Chunkwise.Proofs.Order.Bodies
import Chunkwise.Proofs.Order.Populate

/-!
A loop over types does to each of them what the step alone does to it in one fixed state. What that is does
not depend on the types before, so a loop in another order comes to the same.
-/
namespace Chunkwise

open Attempt

namespace Attempt

variable {σ α β : Type}

theorem forAll_cons (f : α → Attempt σ β) (a : α) (as : List α) (s : σ) :
    Attempt.forAll f (a :: as) s = ((Attempt.forAll f as (f a s).2).1.map ((f a s).1 :: ·),
      (Attempt.forAll f as (f a s).2).2) := by
  change Attempt.bind (Attempt.forAll f as) (fun bs => Pure.pure ((f a s).1 :: bs)) (f a s).2 = _
  unfold Attempt.bind
  rcases Attempt.forAll f as (f a s).2 with ⟨_ | bs, s'⟩
  · rfl
  · rfl

theorem isSome_forAll (f : α → Attempt σ β) (as : List α) (s : σ) :
    (Attempt.forAll f as s).1.isSome := by
  induction as generalizing s with
  | nil => rfl
  | cons a as ih =>
    rw [forAll_cons, Option.isSome_map]
    exact ih _

theorem keepSome_eq (f : α → Attempt σ β) (as : List α) (s : σ) :
    Attempt.keepSome f as s = ((Attempt.forAll f as s).1.map (List.filterMap id),
      (Attempt.forAll f as s).2) := by
  change Attempt.bind (Attempt.forAll f as) (fun bs => Pure.pure (bs.filterMap id)) s = _
  unfold Attempt.bind
  rcases Attempt.forAll f as s with ⟨_ | bs, s'⟩
  · rfl
  · rfl

end Attempt

namespace Bind

variable {α β δ γ : Type} {seen : TypeDef → γ} {v : Overview γ} {s t : BindState}

def Silent (p : Bind α) (s : BindState) : Prop := (p s).2.count = s.count

/-- There are new issues in the second state unless `P`, and then there are none. -/
def AddsUnless (P : Prop) (s s' : BindState) : Prop := ∃ k, s'.count = s.count + k ∧ (k = 0 ↔ P)

theorem AddsUnless.congr {P Q : Prop} {s' : BindState} (h : AddsUnless P s s') (hPQ : P ↔ Q) :
    AddsUnless Q s s' := by
  obtain ⟨k, hk, hP⟩ := h
  exact ⟨k, hk, hP.trans hPQ⟩

theorem AddsUnless.and {P Q : Prop} {s' s'' : BindState} (h : AddsUnless P s s')
    (h' : AddsUnless Q s' s'') : AddsUnless (P ∧ Q) s s'' := by
  obtain ⟨k, hk, hP⟩ := h
  obtain ⟨k', hk', hQ⟩ := h'
  refine ⟨k + k', by omega, ?_⟩
  rw [← hP, ← hQ]
  omega

/-- There are new issues on the way from `s` to `s'` exactly if there are from `t` to `t'`. -/
def Alike (s s' t t' : BindState) : Prop := ∃ P, AddsUnless P s s' ∧ AddsUnless P t t'

theorem Alike.trans {s' s'' t' t'' : BindState} (h : Alike s s' t t') (h' : Alike s' s'' t' t'') :
    Alike s s'' t t'' := by
  obtain ⟨P, hs, ht⟩ := h
  obtain ⟨Q, hs', ht'⟩ := h'
  exact ⟨P ∧ Q, hs.and hs', ht.and ht'⟩

theorem Alike.count_eq_zero {s' t' : BindState} (h : Alike s s' t t') (ht : t.count = 0)
    (hs' : s'.count = 0) : t'.count = 0 := by
  obtain ⟨P, ⟨k, hk, hP⟩, k', hk', hP'⟩ := h
  have hzero : k' = 0 := hP'.mpr (hP.mp (by omega))
  omega

/-- A step adds an issue exactly if its counterpart does where code sees the same. -/
theorem addsUnless_of_count {p : Bind α} {q : Bind β}
    (h : ∃ k, (p s).2.count = s.count + k ∧ (q t).2.count = t.count + k) :
    AddsUnless (Silent q t) s (p s).2 := by
  obtain ⟨k, hk, hk'⟩ := h
  refine ⟨k, hk, ?_⟩
  unfold Silent
  omega

/-- Steps that leave the overview alone: each does what its counterpart does in one fixed state. -/
theorem forAll_abreast {A : β → δ → Prop} {f : α → Bind β} {g : α → Bind δ} {as : List α}
    (h : ∀ a ∈ as, ∀ m n, Parallel (Abreast seen v m n) A (f a) (g a)) (ht : t.overview seen = v)
    (hs : s.overview seen = v) : (Attempt.forAll f as s).2.overview seen = v ∧
      AddsUnless (∀ a ∈ as, Silent (g a) t) s (Attempt.forAll f as s).2 := by
  induction as generalizing s with
  | nil => exact ⟨hs, 0, rfl, by simp⟩
  | cons a as ih =>
    have hfirst := (h a List.mem_cons_self s.count t.count s t (.start hs ht)).2
    obtain ⟨hoverview, hrest⟩ := ih (fun x hx => h x (List.mem_cons_of_mem _ hx)) hfirst.left
    rw [forAll_cons]
    refine ⟨hoverview, ?_⟩
    rw [List.forall_mem_cons]
    exact (addsUnless_of_count hfirst.count).and hrest

theorem forall_mem_iff_of_perm {α' : Type} {e : α → α'} {P : α' → Prop} {as as' : List α}
    (hperm : (as.map e).Perm (as'.map e)) : (∀ a ∈ as, P (e a)) ↔ ∀ a ∈ as', P (e a) := by
  have hmap : ∀ l : List α, (∀ a ∈ l, P (e a)) ↔ ∀ x ∈ l.map e, P x :=
    fun _ => List.forall_mem_map.symm
  rw [hmap, hmap]
  exact forall_congr' fun x => by rw [hperm.mem_iff]

/-- In another order there are new issues or not as in this one. -/
theorem forAll_alike {α' : Type} {A : β → δ → Prop} {e : α → α'} {f : α → Bind β} {g : α' → Bind δ}
    (h : ∀ a m n, Parallel (Abreast seen v m n) A (f a) (g (e a))) {as as' : List α}
    (hperm : (as.map e).Perm (as'.map e)) (hs : s.overview seen = v) (ht : t.overview seen = v) :
    Alike s (Attempt.forAll f as s).2 t (Attempt.forAll f as' t).2 := by
  have hleft := (forAll_abreast (fun a (_ : a ∈ as) => h a) hs hs).2
  have hright := (forAll_abreast (fun a (_ : a ∈ as') => h a) hs ht).2
  exact ⟨_, hleft, hright.congr (forall_mem_iff_of_perm (P := fun x => Silent (g x) s) hperm).symm⟩

section Populating

variable [NameLookup]

/-- What populating these types comes to, told by what populating each of them alone in `t` comes to. -/
structure Rounds (t : BindState) (ds : List DeclaredType) (s : BindState) : Prop where
  overview : (Attempt.forAll populateType ds s).2.overview TypeDef.kind = s.overview TypeDef.kind
  adds : AddsUnless (∀ d ∈ ds, Silent (populateType d.unplaced) t) s
    (Attempt.forAll populateType ds s).2
  own : ∀ d ∈ ds, ((Attempt.forAll populateType ds s).2.image.typeDef? d.path).map TypeDef.outline =
    ((populateType d.unplaced t).2.image.typeDef? d.path).map TypeDef.outline
  others : ∀ p ∉ ds.map DeclaredType.path,
    (Attempt.forAll populateType ds s).2.image.typeDef? p = s.image.typeDef? p
  found : (Attempt.forAll populateType ds s).1.map (List.map (Option.map PopulatedType.unplaced)) =
    some (ds.map fun d => (populateType d.unplaced t).1)

variable {w : Overview TypeKind}
  (h : ∀ (path : Path) (T : TypeTable) (m n : Nat), Lenient (Beside path T w m n))
include h

theorem forAll_populateType {ds : List DeclaredType} (hdistinct : (ds.map DeclaredType.path).Nodup)
    (ht : t.overview TypeDef.kind = w) (hs : s.overview TypeDef.kind = w)
    (hsame : ∀ d ∈ ds, Option.Rel TypeDef.Resembles (s.image.typeDef? d.path)
      (t.image.typeDef? d.path)) : Rounds t ds s := by
  induction ds generalizing s with
  | nil => exact ⟨rfl, ⟨0, rfl, by simp⟩, by simp, fun _ _ => rfl, rfl⟩
  | cons d ds ih =>
    rw [List.map_cons, List.nodup_cons] at hdistinct
    obtain ⟨hval, hfirst⟩ := populateType_parallel (h d.path s.image.typeDef? s.count t.count) s t
      ⟨.start hs ht, hsame d List.mem_cons_self, fun _ _ => rfl⟩
    have hnot : ∀ x ∈ ds, x.path ≠ d.path := fun x hx heq =>
      hdistinct.1 (heq ▸ List.mem_map_of_mem hx)
    have hrest := ih hdistinct.2 hfirst.left fun x hx => by
      rw [hfirst.others _ (hnot x hx)]
      exact hsame x (List.mem_cons_of_mem _ hx)
    constructor
    · rw [forAll_cons]
      exact hrest.overview.trans (hfirst.left.trans hs.symm)
    · rw [forAll_cons, List.forall_mem_cons]
      exact (addsUnless_of_count hfirst.count).and hrest.adds
    · rw [forAll_cons, List.forall_mem_cons]
      refine ⟨?_, hrest.own⟩
      dsimp only
      rw [hrest.others _ hdistinct.1]
      exact Image.outline_of_rel hfirst.own
    · intro p hp
      rw [List.map_cons, List.mem_cons, not_or] at hp
      rw [forAll_cons]
      exact (hrest.others p hp.2).trans (hfirst.others p hp.1)
    · have hvalue : (populateType d s).1.map PopulatedType.unplaced = (populateType d.unplaced t).1 := by
        generalize (populateType d s).1 = p? at hval ⊢
        generalize (populateType d.unplaced t).1 = p'? at hval ⊢
        cases hval with
        | none => rfl
        | some hp => exact congrArg some hp
      have hfound := hrest.found
      rw [forAll_cons, List.map_cons, ← hvalue]
      generalize (Attempt.forAll populateType ds _).1 = ps? at hfound ⊢
      cases ps? with
      | none => cases hfound
      | some ps => exact congrArg some (congrArg _ (Option.some.inj hfound))

end Populating

section Stages

variable [NameLookup]

theorem populateTypes_eq (ds : List DeclaredType) (s : BindState) :
    populateTypes ds s = ((Attempt.forAll populateType ds s).1.map (List.filterMap id),
      (Attempt.forAll checkConformance ds (Attempt.forAll populateType ds s).2).2) := by
  obtain ⟨ps, hps⟩ := Option.isSome_iff_exists.mp (isSome_forAll populateType ds s)
  have hpopulate : Attempt.keepSome populateType ds s =
      (some (ps.filterMap id), (Attempt.forAll populateType ds s).2) := by
    rw [keepSome_eq, hps, Option.map_some]
  obtain ⟨us, hus⟩ := Option.isSome_iff_exists.mp
    (isSome_forAll checkConformance ds (Attempt.forAll populateType ds s).2)
  unfold populateTypes
  rw [bind_eq_of_run hpopulate, bind_eq_of_run (Prod.ext hus rfl), hps]
  rfl

theorem bindAllBodies_eq (ps : List PopulatedType) (s : BindState) :
    bindAllBodies ps s = ((Attempt.forAll bindBodies ps s).1.map fun cs => (cs.filterMap id).flatten,
      (Attempt.forAll bindBodies ps s).2) := by
  obtain ⟨cs, hcs⟩ := Option.isSome_iff_exists.mp (isSome_forAll bindBodies ps s)
  have hbodies : Attempt.keepSome bindBodies ps s =
      (some (cs.filterMap id), (Attempt.forAll bindBodies ps s).2) := by
    rw [keepSome_eq, hcs, Option.map_some]
  unfold bindAllBodies
  rw [bind_eq_of_run hbodies, hcs]
  rfl

variable {ds ds' : List DeclaredType}

theorem Rounds.overview_eq {r : BindState} (h : Rounds r ds s) (h' : Rounds r ds' t)
    (hperm : (ds.map DeclaredType.unplaced).Perm (ds'.map DeclaredType.unplaced))
    (hsame : s.overview TypeDef.outline = t.overview TypeDef.outline) :
    (Attempt.forAll populateType ds s).2.overview TypeDef.outline =
      (Attempt.forAll populateType ds' t).2.overview TypeDef.outline := by
  have hlookup : s.image.lookup = t.image.lookup := congrArg Overview.lookup hsame
  have husings : s.allUsings = t.allUsings := congrArg Overview.usings hsame
  have hlookup₁ := congrArg Overview.lookup h.overview
  have husings₁ := congrArg Overview.usings h.overview
  have hlookup₂ := congrArg Overview.lookup h'.overview
  have husings₂ := congrArg Overview.usings h'.overview
  have htypes : ∀ p, ((Attempt.forAll populateType ds s).2.image.typeDef? p).map TypeDef.outline =
      ((Attempt.forAll populateType ds' t).2.image.typeDef? p).map TypeDef.outline := by
    intro p
    have hpaths := hperm.map DeclaredType.path
    rw [List.map_map, List.map_map] at hpaths
    by_cases hp : p ∈ ds.map DeclaredType.path
    · obtain ⟨d, hd, rfl⟩ := List.mem_map.mp hp
      obtain ⟨e, he, heq⟩ := List.mem_map.mp (hperm.mem_iff.mp (List.mem_map_of_mem hd))
      have hpath : e.path = d.path := (congrArg DeclaredType.path heq :)
      have hown := h'.own e he
      rw [heq, hpath] at hown
      rw [h.own d hd, hown]
    · rw [h.others p hp, h'.others p fun hmem => hp (hpaths.mem_iff.mpr hmem)]
      exact congrFun (congrArg Overview.types hsame) p
  unfold BindState.overview at *
  dsimp only at *
  rw [hlookup₁, hlookup₂, husings₁, husings₂, hlookup, husings, funext htypes]

theorem Rounds.exists_found {r : BindState} (h : Rounds r ds s) :
    ∃ cs, (Attempt.forAll populateType ds s).1 = some cs ∧
      (cs.filterMap id).map PopulatedType.unplaced =
        (ds.map DeclaredType.unplaced).filterMap fun d => (populateType d r).1 := by
  have hfound := h.found
  obtain ⟨cs, hcs⟩ := Option.isSome_iff_exists.mp (isSome_forAll populateType ds s)
  rw [hcs, Option.map_some, Option.some_inj] at hfound
  refine ⟨cs, hcs, ?_⟩
  have hmap : (cs.filterMap id).map PopulatedType.unplaced =
      (cs.map (Option.map PopulatedType.unplaced)).filterMap id := by
    rw [List.map_filterMap, List.filterMap_map]
    rfl
  rw [hmap, hfound, List.filterMap_map, List.filterMap_map]
  rfl

/-- Populating the same types in another order, from states in which they look the same. -/
theorem populateTypes_alike
    (hbeside : ∀ (path : Path) (T : TypeTable) (w : Overview TypeKind) (m n : Nat),
      Lenient (Beside path T w m n))
    (habreast : ∀ (v : Overview TypeDef) (m n : Nat), Lenient (Abreast TypeDef.outline v m n))
    (hdistinct : (ds.map DeclaredType.path).Nodup)
    (hperm : (ds.map DeclaredType.unplaced).Perm (ds'.map DeclaredType.unplaced))
    (hsame : s.overview TypeDef.outline = t.overview TypeDef.outline) :
    ∃ ps ps', (populateTypes ds s).1 = some ps ∧ (populateTypes ds' t).1 = some ps' ∧
      (ps.map PopulatedType.unplaced).Perm (ps'.map PopulatedType.unplaced) ∧
      (populateTypes ds s).2.overview TypeDef.outline =
        (populateTypes ds' t).2.overview TypeDef.outline ∧
      Alike s (populateTypes ds s).2 t (populateTypes ds' t).2 := by
  have hpaths := hperm.map DeclaredType.path
  rw [List.map_map, List.map_map] at hpaths
  have htypes : ∀ p, (s.image.typeDef? p).map TypeDef.outline =
      (t.image.typeDef? p).map TypeDef.outline := congrFun (congrArg Overview.types hsame)
  have hkind : t.overview TypeDef.kind = s.overview TypeDef.kind := by
    have hkinds : (fun p => (t.image.typeDef? p).map TypeDef.kind) =
        fun p => (s.image.typeDef? p).map TypeDef.kind := by
      funext p
      have hp := congrArg (Option.map TypeDef.kind) (htypes p)
      rw [Option.map_map, Option.map_map] at hp
      exact hp.symm
    have hlookup : s.image.lookup = t.image.lookup := congrArg Overview.lookup hsame
    have husings : s.allUsings = t.allUsings := congrArg Overview.usings hsame
    unfold BindState.overview
    rw [hkinds, hlookup, husings]
  have hleft : Rounds s ds s := forAll_populateType (fun path T => hbeside path T _) hdistinct rfl rfl
    fun d _ => Image.rel_of_outline rfl
  have hright : Rounds s ds' t := forAll_populateType (fun path T => hbeside path T _)
    (hpaths.nodup_iff.mp hdistinct) rfl hkind fun d _ => Image.rel_of_outline (htypes d.path).symm
  obtain ⟨cs, hcs, hfound⟩ := hleft.exists_found
  obtain ⟨cs', hcs', hfound'⟩ := hright.exists_found
  have hmiddle := hleft.overview_eq hright hperm hsame
  have hpopulate : Alike s (Attempt.forAll populateType ds s).2 t (Attempt.forAll populateType ds' t).2 := by
    exact ⟨_, hleft.adds, hright.adds.congr
      (forall_mem_iff_of_perm (P := fun d => Silent (populateType d) s) hperm).symm⟩
  have hconform := fun d m n => checkConformance_parallel
    (habreast ((Attempt.forAll populateType ds' t).2.overview TypeDef.outline) m n) d
  refine ⟨cs.filterMap id, cs'.filterMap id, ?_, ?_, ?_, ?_, ?_⟩
  · rw [populateTypes_eq, hcs]
    rfl
  · rw [populateTypes_eq, hcs']
    rfl
  · rw [hfound, hfound']
    exact hperm.filterMap _
  · rw [populateTypes_eq, populateTypes_eq]
    exact (forAll_abreast (fun d _ => hconform d) rfl hmiddle).1.trans
      (forAll_abreast (fun d _ => hconform d) rfl rfl).1.symm
  · rw [populateTypes_eq, populateTypes_eq]
    exact hpopulate.trans (forAll_alike hconform hperm hmiddle rfl)

/-- Binding the bodies of the same types in another order. -/
theorem bindAllBodies_alike (hwithin : ∀ (v : Overview TypeDef) (m n : Nat), Lenient (Within v m n))
    {ps ps' : List PopulatedType}
    (hperm : (ps.map PopulatedType.unplaced).Perm (ps'.map PopulatedType.unplaced))
    (hsame : s.overview TypeDef.outline = t.overview TypeDef.outline) :
    (bindAllBodies ps s).2.overview TypeDef.outline =
        (bindAllBodies ps' t).2.overview TypeDef.outline ∧
      Alike s (bindAllBodies ps s).2 t (bindAllBodies ps' t).2 := by
  have hbodies := fun p m n => bindBodies_parallel (hwithin (t.overview TypeDef.outline) m n) p
  rw [bindAllBodies_eq, bindAllBodies_eq]
  refine ⟨?_, forAll_alike hbodies hperm hsame rfl⟩
  exact (forAll_abreast (fun p _ => hbodies p) rfl hsame).1.trans
    (forAll_abreast (fun p _ => hbodies p) rfl rfl).1.symm

end Stages

end Bind

end Chunkwise
