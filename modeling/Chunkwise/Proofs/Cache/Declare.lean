import Chunkwise.Proofs.Binder.Placement
import Chunkwise.Proofs.Cache.Key

/-!
A type is declared in a namespace or a type that exists, and what exists stays where it is. So the context
of the members of a declared type exists, and it still does when names are looked up in it.
-/
namespace Chunkwise

open Attempt

namespace Image

variable {im : Image} {parent : Path} {name : String}

theorem mem_shape_of_space {p q : Path} (hne : p ≠ []) (h : im.lookup p = some (.space q)) :
    (p, false) ∈ im.shape := by
  rw [lookup_eq, if_neg (by simpa using hne)] at h
  obtain ⟨⟨p', isType⟩, hx, hspace⟩ := Option.map_eq_some_iff.mp h
  obtain rfl : p' = p := by simpa using List.find?_some hx
  cases isType with
  | false => exact List.mem_of_find?_eq_some hx
  | true => cases hspace

theorem mem_add_shape (im : Image) (undo : UndoLog) (parent : Path) (name : String) (c : Container) :
    (parent ++ [name], c.isType) ∈ (im.add undo parent name c).1.shape := by
  rw [add_shape]
  exact List.mem_append_right _ (List.mem_singleton_self _)

theorem prefix_add_shape (im : Image) (undo : UndoLog) (parent : Path) (name : String) (c : Container) :
    im.shape <+: (im.add undo parent name c).1.shape := by
  rw [add_shape]
  exact List.prefix_append _ _

theorem prefix_declareNamespaceUnder (names : List String) (parent : Path) (im : Image)
    (undo : UndoLog) : im.shape <+: (declareNamespaceUnder parent names im undo).2.1.shape := by
  induction names generalizing parent im undo with
  | nil => exact List.prefix_rfl
  | cons name names ih =>
    unfold declareNamespaceUnder
    split
    · exact List.prefix_rfl
    · exact ih _ _ _
    · exact (prefix_add_shape im undo parent name .space).trans (ih _ _ _)

theorem mem_of_declareNamespaceUnder {names : List String} {undo : UndoLog}
    (hparent : parent = [] ∨ (parent, false) ∈ im.shape)
    (hok : (declareNamespaceUnder parent names im undo).1 = .ok ()) :
    parent ++ names = [] ∨
      (parent ++ names, false) ∈ (declareNamespaceUnder parent names im undo).2.1.shape := by
  induction names generalizing parent im undo with
  | nil => simpa [declareNamespaceUnder] using hparent
  | cons name names ih =>
    rw [List.append_cons]
    unfold declareNamespaceUnder at hok ⊢
    split at hok
    · cases hok
    · next hspace => exact ih (.inr (mem_shape_of_space (by simp) hspace)) hok
    · exact ih (.inr (mem_add_shape im undo parent name .space)) hok

theorem declareType_shape (im : Image) (parent : Path) (name : String) (d : TypeDef) (undo : UndoLog) :
    im.shape <+: (im.declareType parent name d undo).2.1.shape ∧
      ((im.declareType parent name d undo).1 = .ok () →
        (parent ++ [name], true) ∈ (im.declareType parent name d undo).2.1.shape) := by
  unfold declareType
  split
  · exact ⟨List.prefix_rfl, nofun⟩
  · split
    · exact ⟨List.prefix_rfl, nofun⟩
    · exact ⟨prefix_add_shape im undo parent name (.type d),
        fun _ => mem_add_shape im undo parent name (.type d)⟩

end Image

/-- Places were added, and neither the body nor what is remembered has changed. -/
structure BindState.Expands (s₀ s : BindState) : Prop where
  shape : s₀.image.shape <+: s.image.shape
  body : s.body = s₀.body
  cache : s.cache = s₀.cache

namespace BindState.Expands

variable {s s' s'' : BindState}

theorem refl (s : BindState) : s.Expands s := ⟨List.prefix_rfl, rfl, rfl⟩

theorem trans (h : s.Expands s') (h' : s'.Expands s'') : s.Expands s'' :=
  ⟨h.shape.trans h'.shape, h'.body.trans h.body, h'.cache.trans h.cache⟩

theorem located (h : s.Expands s') {ctx : TypeContext} (hctx : ctx.Located s.image.shape) :
    ctx.Located s'.image.shape := hctx.mono h.shape.subset

end BindState.Expands

namespace Bind

variable {s₀ : BindState} {ctx : TypeContext}

/-- The contract of declaring in a context that exists: the contexts of the declared types exist. -/
def Surveys (ctx : TypeContext) (p : Bind (List DeclaredType)) : Prop :=
  ∀ s₀ : BindState, ctx.Located s₀.image.shape → Triple (· = s₀) p
    (fun ds s => s₀.Expands s ∧ ∀ d ∈ ds, d.inside.Located s.image.shape)
    fun _ => False

theorem Surveys.nothing : Surveys ctx (pure []) := fun s₀ _ => Triple.pure fun s hs => by
  subst hs
  exact ⟨.refl _, by simp⟩

theorem Surveys.andThen {p q : Bind (List DeclaredType)} (hp : Surveys ctx p) (hq : Surveys ctx q) :
    Surveys ctx (do
      let found ← p
      let more ← q
      return found ++ more) := by
  intro s₀ hctx
  refine Triple.bind (hp s₀ hctx) fun found => ?_
  rintro s₁ ⟨hkept, hfound⟩
  refine Triple.bind (hq s₁ (hkept.located hctx)) (fun more => ?_) s₁ rfl
  refine Triple.pure fun s hs => ⟨hkept.trans hs.1, fun d hd => ?_⟩
  rcases List.mem_append.mp hd with hd | hd
  · exact hs.1.located (hfound d hd)
  · exact hs.2 d hd

theorem refuse_located {α : Type} {P : BindState → Prop}
    {Q : α → BindState → Prop} (p : Problem) (span : Span) :
    Triple (fun s => s₀.Expands s ∧ P s) (refuse p span) Q s₀.Expands :=
  fun _ h => ⟨h.1.shape, h.1.body, h.1.cache⟩

theorem declareHead_located (x : DeclaredType) (hctx : x.ctx.Located s₀.image.shape) :
    Triple (· = s₀) (declareHead x.ctx x.head)
      (fun _ s => s₀.Expands s ∧ x.inside.Located s.image.shape)
      s₀.Expands := by
  refine Triple.bind (Q := fun r s => s₀.Expands s ∧
    (r = (.ok () : Except DeclareError Unit) → x.inside.Located s.image.shape))
    (edit_triple ?_) fun r => ?_
  · rintro s rfl
    obtain ⟨hkept, hthere⟩ := Image.declareType_shape s.image x.ctx.container x.name x.bare s.undo
    exact ⟨⟨hkept, rfl, rfl⟩, fun hok => (hctx.mono hkept.subset).nested (hthere hok)⟩
  · match r with
    | .ok () => exact Triple.modify fun s h => ⟨⟨h.1.shape, h.1.body, h.1.cache⟩, h.2 rfl⟩
    | .error (.duplicate _) => exact refuse_located _ _
    | .error (.notANamespace _) => exact refuse_located _ _
    | .error .missingParent => exact refuse_located _ _

theorem declareSpace_located (path : Path) (name : QualifiedName) :
    Triple (· = s₀) (declareSpace path name)
      (fun _ s => s₀.Expands s ∧ TypeContext.Located s.image.shape ⟨path, []⟩)
      s₀.Expands := by
  refine Triple.bind (Q := fun r s => s₀.Expands s ∧
    (r = (.ok () : Except DeclareError Unit) → TypeContext.Located s.image.shape ⟨path, []⟩))
    (edit_triple ?_) fun r => ?_
  · rintro s rfl
    refine ⟨⟨Image.prefix_declareNamespaceUnder path [] s.image s.undo, rfl, rfl⟩, fun hok => ⟨?_, ?_⟩⟩
    · exact Image.mem_of_declareNamespaceUnder (.inl rfl) hok
    · simp [TypeContext.types]
  · cases r with
    | ok => exact Triple.pure fun s h => ⟨h.1, h.2 rfl⟩
    | error e => cases e <;> exact refuse_located _ _

theorem declareHead_surveys (x : DeclaredType) {inner : Bind (List DeclaredType)}
    (hinner : Surveys x.inside inner) : Surveys x.ctx (do
      match ← Attempt.optional (declareHead x.ctx x.head) with
      | some () =>
        let nested ← inner
        return x :: nested
      | none => return []) := by
  intro s₀ hctx
  refine Triple.bind (Q := fun r s => s₀.Expands s ∧
    (r = some () → x.inside.Located s.image.shape))
    (Triple.optional ((declareHead_located x hctx).mono (fun _ h => h) ?_ ?_)) fun r => ?_
  · exact fun _ s hs => ⟨hs.1, fun _ => hs.2⟩
  · exact fun s hs => ⟨hs, nofun⟩
  · cases r with
    | none => exact Triple.pure fun s hs => ⟨hs.1, by simp⟩
    | some _ =>
      rintro s₁ ⟨hkept, hx⟩
      refine Triple.bind (hinner s₁ (hx rfl)) (fun nested => Triple.pure fun s hs => ?_) s₁ rfl
      refine ⟨hkept.trans hs.1, List.forall_mem_cons.mpr ⟨?_, hs.2⟩⟩
      exact hs.1.located (hx rfl)

mutual

theorem declareInner_surveys : ∀ (m : MemberDecl) (ctx : TypeContext), Surveys ctx (declareInner ctx m)
  | .nested _ head members, ctx => by
    unfold declareInner
    exact declareHead_surveys ⟨head, members, ctx⟩ (declareNested_surveys members _)
  | .field _, _ | .method _, _ | .constructor _, _ | .enumMember _, _ => by
    unfold declareInner
    exact .nothing

theorem declareNested_surveys : ∀ (ms : List MemberDecl) (ctx : TypeContext),
    Surveys ctx (declareNested ctx ms)
  | [], _ => by
    unfold declareNested
    exact .nothing
  | m :: rest, ctx => by
    unfold declareNested
    exact (declareInner_surveys m ctx).andThen (declareNested_surveys rest ctx)

end

mutual

theorem declareMember_surveys : ∀ (m : NamespaceMember) (space : Path),
    Surveys ⟨space, []⟩ (declareMember space m)
  | .space _ name members, space => by
    unfold declareMember
    intro s₀ hctx
    refine Triple.bind (Q := fun r s => s₀.Expands s ∧
      (r = some () → TypeContext.Located s.image.shape ⟨space ++ name.segments, []⟩))
      (Triple.optional ((declareSpace_located _ name).mono (fun _ h => h) ?_ ?_)) fun r => ?_
    · exact fun _ s hs => ⟨hs.1, fun _ => hs.2⟩
    · exact fun s hs => ⟨hs, nofun⟩
    · cases r with
      | none => exact Triple.pure fun s hs => ⟨hs.1, by simp⟩
      | some _ =>
        rintro s₁ ⟨hkept, hspace⟩
        refine (declareMembers_surveys members _ s₁ (hspace rfl)).mono (fun _ h => h) ?_
          (fun _ h => h) s₁ rfl
        exact fun ds s hs => ⟨hkept.trans hs.1, hs.2⟩
  | .type decl, space => by
    unfold declareMember declareType
    exact declareHead_surveys ⟨decl.head, decl.members, ⟨space, []⟩⟩
      (declareNested_surveys decl.members _)

theorem declareMembers_surveys : ∀ (ms : List NamespaceMember) (space : Path),
    Surveys ⟨space, []⟩ (declareMembers space ms)
  | [], _ => by
    unfold declareMembers
    exact .nothing
  | m :: rest, space => by
    unfold declareMembers
    exact (declareMember_surveys m space).andThen (declareMembers_surveys rest space)

end

end Bind

end Chunkwise
