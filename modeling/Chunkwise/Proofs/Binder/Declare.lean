import Chunkwise.Binder.Declare
import Chunkwise.Proofs.Attempt
import Chunkwise.Proofs.Image.Rollback

/-!
The first stage adds one bare type for each type it returns and nothing else but namespaces, and it
records every addition. `Declares` says so about the states before and after.
-/
namespace Chunkwise

open Attempt

/-- The definition with which a type is declared. -/
def DeclaredType.bare (d : DeclaredType) : TypeDef :=
  .bare d.head.kind (d.head.modifiers.contains .staticMember)
    (d.head.modifiers.contains .abstractMember)

namespace Image

/-- The types of the second image are those of the first and the declared ones. -/
structure Gains (im im' : Image) (ds : List DeclaredType) : Prop where
  old : ∀ p d, im.typeDef? p = some d → im'.typeDef? p = some d
  new : ∀ p d, im'.typeDef? p = some d → im.typeDef? p = some d ∨ ∃ x ∈ ds, x.path = p
  found : ∀ x ∈ ds, im.typeDef? x.path = none ∧ im'.typeDef? x.path = some x.bare
  distinct : (ds.map DeclaredType.path).Nodup

variable {im im' im'' : Image} {ds es : List DeclaredType}

theorem Gains.ofSame (h : ∀ p, im'.typeDef? p = im.typeDef? p) : im.Gains im' [] :=
  ⟨fun p _ hd => (h p).trans hd, fun p _ hd => .inl ((h p).symm.trans hd), by simp, by simp⟩

theorem Gains.trans (h : im.Gains im' ds) (h' : im'.Gains im'' es) :
    im.Gains im'' (ds ++ es) where
  old p d hd := h'.old p d (h.old p d hd)
  new p d hd := by
    rcases h'.new p d hd with hd' | ⟨x, hx, hp⟩
    · rcases h.new p d hd' with hd'' | ⟨x, hx, hp⟩
      · exact .inl hd''
      · exact .inr ⟨x, List.mem_append_left _ hx, hp⟩
    · exact .inr ⟨x, List.mem_append_right _ hx, hp⟩
  found x hx := by
    rcases List.mem_append.mp hx with hx | hx
    · exact ⟨(h.found x hx).1, h'.old _ _ (h.found x hx).2⟩
    · refine ⟨?_, (h'.found x hx).2⟩
      cases hd : im.typeDef? x.path with
      | none => rfl
      | some d =>
        have := (h'.found x hx).1
        rw [h.old _ _ hd] at this
        cases this
  distinct := by
    rw [List.map_append, List.nodup_append]
    refine ⟨h.distinct, h'.distinct, fun p hp q hq heq => ?_⟩
    obtain ⟨x, hx, rfl⟩ := List.mem_map.mp hp
    obtain ⟨y, hy, rfl⟩ := List.mem_map.mp hq
    have hfound := (h.found x hx).2
    rw [heq, (h'.found y hy).1] at hfound
    cases hfound

theorem typeDef?_declareNamespaceUnder (names : List String) (parent : Path) (im : Image)
    (undo : UndoLog) (p : Path) :
    (declareNamespaceUnder parent names im undo).2.1.typeDef? p = im.typeDef? p := by
  induction names generalizing parent im undo with
  | nil => rfl
  | cons name names ih =>
    unfold declareNamespaceUnder
    split
    · rfl
    · exact ih _ _ _
    · next hl =>
      exact (ih _ _ _).trans (typeDef?_add undo ((lookup_eq_none (by simp)).mp hl) p)

theorem add_gains (undo : UndoLog) {x : DeclaredType} (h : im.find? x.path = none) :
    im.Gains (im.add undo x.ctx.container x.name (.type x.bare)).1 [x] := by
  have hadd := typeDef?_add undo (c := .type x.bare) h
  have hbefore : im.typeDef? x.path = none := by
    unfold typeDef?
    rw [h]
  refine ⟨fun p d hd => ?_, fun p d hd => ?_, fun y hy => ?_, by simp⟩
  · rw [hadd]
    change (if p = x.path then _ else _) = _
    split
    · next hp =>
      rw [hp, hbefore] at hd
      cases hd
    · exact hd
  · rw [hadd] at hd
    change (if p = x.path then _ else _) = _ at hd
    split at hd
    · next hp => exact .inr ⟨x, by simp, hp.symm⟩
    · exact .inl hd
  · obtain rfl := List.mem_singleton.mp hy
    refine ⟨hbefore, ?_⟩
    rw [hadd]
    exact if_pos rfl

/-- A type that cannot be declared leaves the image and the log as they are. -/
theorem declareType_cases (im : Image) (x : DeclaredType) (undo : UndoLog) :
    (∃ e, im.declareType x.ctx.container x.name x.bare undo = (.error e, im, undo)) ∨
    ∃ im' undo', im.declareType x.ctx.container x.name x.bare undo = (.ok (), im', undo') ∧
      im.Gains im' [x] := by
  unfold declareType
  split
  · exact .inl ⟨_, rfl⟩
  · split
    · exact .inl ⟨_, rfl⟩
    · next hfree =>
      have hnone : im.lookup x.path = none := Option.not_isSome_iff_eq_none.mp hfree
      have hfree : im.find? x.path = none :=
        (lookup_eq_none (by simp [DeclaredType.path])).mp hnone
      exact .inr ⟨_, _, rfl, add_gains undo hfree⟩

end Image

/-- From one state to the other these types were declared, and no stage after that has begun. -/
structure BindState.Declares (s s' : BindState) (ds : List DeclaredType) : Prop where
  gains : s.image.Gains s'.image ds
  extended : ∀ old : Image, old.Extends s.image s.undo → old.Extends s'.image s'.undo
  registry : s'.registry = s.registry
  store : s'.store = s.store
  usings : s'.usings = s.usings
  newVariables : s'.newVariables = s.newVariables
  cache : s'.cache = s.cache

namespace BindState.Declares

variable {s s' s'' : BindState} {ds es : List DeclaredType}

theorem refl (s : BindState) : s.Declares s [] :=
  ⟨.ofSame fun _ => rfl, fun _ h => h, rfl, rfl, rfl, rfl, rfl⟩

theorem trans (h : s.Declares s' ds) (h' : s'.Declares s'' es) : s.Declares s'' (ds ++ es) :=
  ⟨h.gains.trans h'.gains, fun old ho => h'.extended old (h.extended old ho),
    h'.registry.trans h.registry, h'.store.trans h.store, h'.usings.trans h.usings,
    h'.newVariables.trans h.newVariables, h'.cache.trans h.cache⟩

theorem still (h : s.Declares s' ds) {issues : Log Issue} {declared : List Path}
    {body : BodyContext} : s.Declares { s' with issues, declared, body } ds :=
  ⟨h.gains, h.extended, h.registry, h.store, h.usings, h.newVariables, h.cache⟩

end BindState.Declares

namespace Bind

variable {s : BindState}

/-- The contract of declaring: it never gives up, and what it returns is what it declared. -/
def Declaring (s₀ : BindState) (before : List DeclaredType) (p : Bind (List DeclaredType)) : Prop :=
  Triple (fun s => s₀.Declares s before) p (fun ds s => s₀.Declares s (before ++ ds))
    fun _ => False

variable {s₀ : BindState} {before : List DeclaredType}

theorem edit_triple {P : BindState → Prop} {Q : Except DeclareError Unit → BindState → Prop}
    {E : BindState → Prop} {f : Image → UndoLog → Except DeclareError Unit × Image × UndoLog}
    (h : ∀ s, P s → Q (f s.image s.undo).1
      { s with image := (f s.image s.undo).2.1, undo := (f s.image s.undo).2.2 }) :
    Triple P (edit f) Q E := fun s hs => h s hs

theorem refuse_declares {α : Type} {Q : α → BindState → Prop} (p : Problem) (span : Span) :
    Triple (fun s => s₀.Declares s before) (refuse p span) Q fun s => s₀.Declares s before :=
  fun _ h => h.still

theorem declareHead_declares (x : DeclaredType) :
    Triple (fun s => s₀.Declares s before) (declareHead x.ctx x.head)
      (fun _ s => s₀.Declares s (before ++ [x])) (fun s => s₀.Declares s before) := by
  refine Triple.bind (Q := fun r s => match r with
    | .ok () => s₀.Declares s (before ++ [x])
    | .error _ => s₀.Declares s before) (edit_triple fun s hs => ?_) fun r => ?_
  · have hext : ∀ old : Image, old.Extends s.image s.undo → _ := fun old h =>
      h.declareType x.ctx.container x.name x.bare
    change match (s.image.declareType x.ctx.container x.name x.bare s.undo).1 with
      | .ok () => s₀.Declares { s with
          image := (s.image.declareType x.ctx.container x.name x.bare s.undo).2.1
          undo := (s.image.declareType x.ctx.container x.name x.bare s.undo).2.2 } (before ++ [x])
      | .error _ => s₀.Declares { s with
          image := (s.image.declareType x.ctx.container x.name x.bare s.undo).2.1
          undo := (s.image.declareType x.ctx.container x.name x.bare s.undo).2.2 } before
    rcases Image.declareType_cases s.image x s.undo with ⟨e, he⟩ | ⟨im, undo, hok, hgains⟩
    · rw [he]
      exact hs
    · rw [hok]
      simp only [hok] at hext
      exact hs.trans ⟨hgains, hext, rfl, rfl, rfl, rfl, rfl⟩
  · match r with
    | .ok () => exact Triple.modify fun s h => h.still
    | .error (.duplicate _) => exact refuse_declares _ _
    | .error (.notANamespace _) => exact refuse_declares _ _
    | .error .missingParent => exact refuse_declares _ _

theorem declareSpace_declares (path : Path) (name : QualifiedName) :
    Triple (fun s => s₀.Declares s before) (declareSpace path name)
      (fun _ s => s₀.Declares s before) (fun s => s₀.Declares s before) := by
  refine Triple.bind (Q := fun _ s => s₀.Declares s before) (edit_triple fun s hs => ?_) fun r => ?_
  · have hstep : s.Declares { s with
        image := (s.image.declareNamespace path s.undo).2.1
        undo := (s.image.declareNamespace path s.undo).2.2 } [] :=
      ⟨.ofSame fun p => Image.typeDef?_declareNamespaceUnder path [] s.image s.undo p,
        fun old h => h.declareNamespaceUnder (.inl rfl) path, rfl, rfl, rfl, rfl, rfl⟩
    simpa using hs.trans hstep
  · match r with
    | .ok () => exact Triple.pure fun s h => h
    | .error (.duplicate _) => exact refuse_declares _ _
    | .error (.notANamespace _) => exact refuse_declares _ _
    | .error .missingParent => exact refuse_declares _ _

/-- What is declared after the types found so far. -/
theorem Declaring.andThen {p q : Bind (List DeclaredType)} (hp : Declaring s₀ before p)
    (hq : ∀ before, Declaring s₀ before q) :
    Declaring s₀ before (do
      let found ← p
      let more ← q
      return found ++ more) := by
  refine Triple.bind hp fun found => Triple.bind (hq _) fun more => Triple.pure fun s h => ?_
  rwa [← List.append_assoc]

theorem Declaring.nothing : Declaring s₀ before (pure []) := Triple.pure fun s h => by simpa using h

/-- The head of a type, and the types found in it if it can be declared. -/
theorem declareHead_optional (x : DeclaredType) :
    Triple (fun s => s₀.Declares s before) (Attempt.optional (declareHead x.ctx x.head))
      (fun r s => match r with
        | some () => s₀.Declares s (before ++ [x])
        | none => s₀.Declares s (before ++ [])) fun _ => False := by
  refine Triple.optional (declareHead_declares x |>.mono (fun _ h => h) (fun _ _ h => h) ?_)
  exact fun s h => by simpa using h

mutual

theorem declareInner_declares : ∀ (m : MemberDecl) (ctx : TypeContext)
    (before : List DeclaredType), Declaring s₀ before (declareInner ctx m)
  | .nested _ head members, ctx, before => by
    unfold declareInner
    refine Triple.bind (declareHead_optional ⟨head, members, ctx⟩) fun r => ?_
    cases r with
    | none => exact Triple.pure fun s h => h
    | some _ =>
      refine Triple.bind (declareNested_declares members _ _) fun inner => ?_
      exact Triple.pure fun s h => by simpa using h
  | .field _, _, _ | .method _, _, _ | .constructor _, _, _ | .enumMember _, _, _ => by
    unfold declareInner
    exact .nothing

theorem declareNested_declares : ∀ (ms : List MemberDecl) (ctx : TypeContext)
    (before : List DeclaredType), Declaring s₀ before (declareNested ctx ms)
  | [], _, _ => by
    unfold declareNested
    exact .nothing
  | m :: rest, ctx, before => by
    unfold declareNested
    exact (declareInner_declares m ctx before).andThen (declareNested_declares rest ctx)

end

theorem declareType_declares (space : Path) (decl : TypeDecl) (before : List DeclaredType) :
    Declaring s₀ before (declareType space decl) := by
  unfold declareType
  refine Triple.bind (declareHead_optional ⟨decl.head, decl.members, ⟨space, []⟩⟩) fun r => ?_
  cases r with
  | none => exact Triple.pure fun s h => h
  | some _ =>
    refine Triple.bind (declareNested_declares decl.members _ _) fun inner => ?_
    exact Triple.pure fun s h => by simpa using h

mutual

theorem declareMember_declares : ∀ (m : NamespaceMember) (space : Path)
    (before : List DeclaredType), Declaring s₀ before (declareMember space m)
  | .space _ name members, space, before => by
    unfold declareMember
    refine Triple.bind (Q := fun _ s => s₀.Declares s before)
      (Triple.optional (declareSpace_declares _ name)) fun r => ?_
    cases r with
    | none => exact Declaring.nothing
    | some _ => exact declareMembers_declares members _ before
  | .type decl, space, before => by
    unfold declareMember
    exact declareType_declares space decl before

theorem declareMembers_declares : ∀ (ms : List NamespaceMember) (space : Path)
    (before : List DeclaredType), Declaring s₀ before (declareMembers space ms)
  | [], _, _ => by
    unfold declareMembers
    exact .nothing
  | m :: rest, space, before => by
    unfold declareMembers
    exact (declareMember_declares m space before).andThen (declareMembers_declares rest space)

end

end Bind

end Chunkwise
