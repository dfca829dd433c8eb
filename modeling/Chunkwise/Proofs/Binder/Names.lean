import Chunkwise.Binder.Names
import Chunkwise.Proofs.Attempt
import Chunkwise.Proofs.Typing.Image

/-!
Looking names up changes nothing but the issues and the remembered names, and every type it finds
exists. `Quiet` is the invariant of all binding that only looks.
-/
namespace Chunkwise

open Attempt

theorem mem_of_lookup {α β : Type} [BEq α] [LawfulBEq α] {l : List (α × β)} {k : α} {b : β}
    (h : l.lookup k = some b) : (k, b) ∈ l := by
  obtain ⟨l₁, l₂, rfl, -⟩ := List.lookup_eq_some_iff.mp h
  simp

/-- An entity that is a type exists. -/
def Entity.Known (im : Image) : Entity → Prop
  | .space _ => True
  | .type p => im.Knows (.named p)

/-- Nothing but issues and remembered names has changed since `s₀`, and what is remembered exists. -/
structure BindState.Quiet (s₀ s : BindState) : Prop where
  image : s.image = s₀.image
  undo : s.undo = s₀.undo
  registry : s.registry = s₀.registry
  store : s.store = s₀.store
  usings : s.usings = s₀.usings
  newVariables : s.newVariables = s₀.newVariables
  declared : s.declared = s₀.declared
  body : s.body = s₀.body
  issues : s₀.issues.hasAny = true → s.issues.hasAny = true
  cache : ∀ x ∈ s.cache, x.2.Known s.image

/-- The directives in force stand for things that exist. -/
def BindState.UsingsKnown (s : BindState) : Prop := ∀ u ∈ s.allUsings, u.target.Known s.image

namespace BindState.Quiet

variable {s₀ s₁ s : BindState}

theorem refl (h : ∀ x ∈ s.cache, x.2.Known s.image) : s.Quiet s :=
  ⟨rfl, rfl, rfl, rfl, rfl, rfl, rfl, rfl, id, h⟩

theorem trans (h : s₀.Quiet s₁) (h' : s₁.Quiet s) : s₀.Quiet s where
  image := h'.image.trans h.image
  undo := h'.undo.trans h.undo
  registry := h'.registry.trans h.registry
  store := h'.store.trans h.store
  usings := h'.usings.trans h.usings
  newVariables := h'.newVariables.trans h.newVariables
  declared := h'.declared.trans h.declared
  body := h'.body.trans h.body
  issues hi := h'.issues (h.issues hi)
  cache := h'.cache

theorem allUsings (h : s₀.Quiet s) : s.allUsings = s₀.allUsings := by
  simp [BindState.allUsings, h.image, h.usings]

end BindState.Quiet

namespace Bind

variable {α : Type} {s₀ : BindState} {im : Image}

theorem hasAny_push (l : Log Issue) (i : Issue) : (l.push i).hasAny = true := by
  simp [Log.push, Log.hasAny]

theorem report_quiet (p : Problem) (span : Span) :
    Yields s₀.Quiet (report p span) fun _ => True :=
  Yields.modify fun _ h => ⟨h.image, h.undo, h.registry, h.store, h.usings, h.newVariables,
    h.declared, h.body, fun _ => hasAny_push _ _, h.cache⟩

theorem refuse_quiet {Q : α → Prop} (p : Problem) (span : Span) :
    Yields s₀.Quiet (refuse p span) Q :=
  (report_quiet p span).bind fun _ _ => Yields.fail

theorem image_quiet : Yields s₀.Quiet image fun im => im = s₀.image :=
  Yields.gets fun _ h => h.image

theorem body_quiet : Yields s₀.Quiet body fun b => b = s₀.body := Yields.gets fun _ h => h.body

theorem typeDef_quiet (p : Path) : Yields s₀.Quiet (typeDef p) fun d =>
    d = (s₀.image.typeDef? p).getD (.bare .classKind false false) :=
  Yields.gets fun _ h => by rw [h.image]

theorem known_of_lookup {p : Path} {e : Entity} (h : im.lookup p = some e) : e.Known im := by
  cases e with
  | space q => trivial
  | type q => exact Option.isSome_iff_exists.mp (Image.typeDef?_of_lookup h)

theorem known_of_child {parent e : Entity} {name : String} (h : im.child parent name = some e) :
    e.Known im := known_of_lookup h

theorem known_of_nested {outer p : Path} {name : String} (h : im.nestedType? outer name = some p) :
    im.Knows (.named p) := Option.isSome_iff_exists.mp (Image.typeDef?_of_nestedType? h)

theorem lookupUncached_known {s : BindState} (hu : s.UsingsKnown) {ctx : TypeContext}
    {name : String} {e : Entity} (h : s.lookupUncached ctx name = some e) : e.Known s.image := by
  simp only [BindState.lookupUncached, Option.orElse_eq_orElse, Option.orElse_eq_or,
    Option.or_eq_some_iff] at h
  rcases h with h | ⟨-, h | ⟨-, h | ⟨-, h⟩⟩⟩
  · obtain ⟨outer, -, hn⟩ := List.exists_of_findSome?_eq_some h
    obtain ⟨p, hp, rfl⟩ := Option.map_eq_some_iff.mp hn
    exact known_of_nested hp
  · obtain ⟨space, -, hc⟩ := List.exists_of_findSome?_eq_some h
    exact known_of_child hc
  · obtain ⟨u, hfound, rfl⟩ := Option.map_eq_some_iff.mp h
    exact hu u (List.mem_of_find?_eq_some hfound)
  · obtain ⟨u, -, ho⟩ := List.exists_of_findSome?_eq_some h
    unfold BindState.openType? at ho
    split at ho
    · split at ho
      · next hc =>
        cases ho
        exact known_of_child hc
      · cases ho
    · cases ho

theorem lookupEntity_quiet (hu : s₀.UsingsKnown) (ctx : TypeContext) (name : String) :
    Yields s₀.Quiet (lookupEntity ctx name) fun e? => ∀ e, e? = some e → e.Known s₀.image := by
  intro s h
  unfold lookupEntity
  split
  · next hfound =>
    split at hfound
    · next e hcache =>
      cases hfound
      refine ⟨h, fun e' he => ?_⟩
      cases he
      rw [← h.image]
      exact h.cache _ (mem_of_lookup hcache)
    · split at hfound
      · next e huncached =>
        cases hfound
        have hk := lookupUncached_known (fun u hm => by
          rw [h.image]
          exact hu u (h.allUsings ▸ hm)) huncached
        refine ⟨⟨h.image, h.undo, h.registry, h.store, h.usings, h.newVariables, h.declared,
          h.body, h.issues, fun x hx => ?_⟩, fun e' he => ?_⟩
        · rcases List.mem_cons.mp hx with rfl | hx
          · exact hk
          · exact h.cache x hx
        · cases he
          exact h.image ▸ hk
      · cases hfound
        exact ⟨h, by simp⟩
  · next hfound =>
    split at hfound
    · cases hfound
    · split at hfound <;> cases hfound

theorem descend_known {e e' : Entity} (he : e.Known im) : ∀ {names : List String},
    descend im e names = some e' → e'.Known im := by
  intro names
  induction names generalizing e with
  | nil =>
    intro h
    cases h
    exact he
  | cons name names ih =>
    intro h
    unfold descend at h
    split at h
    · next hc => exact ih (known_of_child hc) h
    · cases h

theorem lookupQualified_quiet (hu : s₀.UsingsKnown) (ctx : TypeContext) (q : QualifiedName) :
    Yields s₀.Quiet (lookupQualified ctx q) fun e? => ∀ e, e? = some e → e.Known s₀.image := by
  unfold lookupQualified
  split
  · exact Yields.pure (by simp)
  · refine (lookupEntity_quiet hu ctx _).bind fun e? he => ?_
    split
    · next e =>
      refine image_quiet.bind fun im him => Yields.pure fun e' he' => ?_
      subst him
      exact descend_known (he e rfl) he'
    · exact Yields.pure (by simp)

theorem resolveType_quiet (hu : s₀.UsingsKnown) (ctx : TypeContext) (ref : TypeRef) :
    Yields s₀.Quiet (resolveType ctx ref) fun t => s₀.image.Knows t := by
  unfold resolveType
  split
  case h_8 => exact refuse_quiet _ _
  case h_9 =>
    refine (lookupQualified_quiet hu ctx _).bind fun e? he => ?_
    split
    · exact Yields.pure (he _ rfl)
    · exact refuse_quiet _ _
    · exact refuse_quiet _ _
  all_goals exact Yields.pure trivial

theorem resolveValueType_quiet (hu : s₀.UsingsKnown) (ctx : TypeContext) (ref : TypeRef) :
    Yields s₀.Quiet (resolveValueType ctx ref) fun t => s₀.image.Knows t ∧ t ≠ .void := by
  unfold resolveValueType
  refine (resolveType_quiet hu ctx ref).bind fun t ht => ?_
  split
  · exact refuse_quiet _ _
  · next hv => exact Yields.pure ⟨ht, hv⟩

end Bind

end Chunkwise
