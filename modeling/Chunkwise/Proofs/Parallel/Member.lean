import Chunkwise.Proofs.Parallel.Accord

namespace Chunkwise.Bind

open Attempt

variable {l l' : NameLookup} (a : Accord l l') {n : Nat}

theorem body_parallel :
    Parallel (a.state n) (fun b b' => b.Agrees b' ∧ a.known b.ctx) body body :=
  .gets fun s t h => ⟨a.body n s t h, a.known_ctx n s t h⟩

theorem image_resembles : Parallel (a.state n) Image.Resembles image image := by
  refine .gets fun s t h => ⟨(a.steady n).lookup s t h, fun p => ?_⟩
  have hrel := a.types n s t h p
  generalize s.image.typeDef? p = d? at hrel ⊢
  generalize t.image.typeDef? p = d'? at hrel ⊢
  cases hrel with
  | none => rfl
  | some hd => exact congrArg some hd.resembles

theorem typeDef_parallel (path : Path) :
    Parallel (a.state n) (TypeDef.Same a.static) (typeDef path) (typeDef path) := by
  refine .gets fun s t h => ?_
  have hrel := a.types n s t h path
  generalize s.image.typeDef? path = d? at hrel ⊢
  generalize t.image.typeDef? path = d'? at hrel ⊢
  cases hrel with
  | none => exact ⟨rfl, .nil⟩
  | some hd => exact hd

section Names

/-- A registered variable is a static slot. -/
theorem registered_run (name : String) (s : BindState) : ∃ r?, registered name s = (some r?, s) ∧
    ∀ r, r? = some r → ∃ slot t isReadonly, r = .place (.static slot) t isReadonly := by
  unfold registered
  split
  · split
    · split
      · exact ⟨_, rfl, fun r hr => ⟨_, _, _, (Option.some.inj hr).symm⟩⟩
      · exact ⟨none, rfl, by simp⟩
    · exact ⟨none, rfl, by simp⟩
  · exact ⟨none, rfl, by simp⟩

/-- A name that is neither a local nor a registered variable is looked for in the types and spaces around. -/
theorem resolveName_eq [NameLookup] (id : Ident) : resolveName id = (do
    match ← variableNamed id.name with
    | some r => return r
    | none =>
      let b ← body
      match ← enclosingMembers id b.ctx.types with
      | some r => return r
      | none =>
        match ← hostHelper id.name with
        | some r => return r
        | none =>
          match ← NameLookup.find b.ctx id.name with
          | some e => return .ofEntity e
          | none => refuse (.unknownName id.name) id.span) := by
  funext s
  obtain ⟨r?, hregistered, -⟩ := registered_run id.name s
  simp only [resolveName, variableNamed, body, Bind.bind, Attempt.bind, Attempt.gets]
  cases s.body.scopes.lookup id.name with
  | some b => rfl
  | none =>
    simp only [Attempt.bind, hregistered]
    cases r? <;> rfl

theorem enclosingMember_parallel (outer : Path) (id : Ident) :
    Parallel (a.state n) (Option.Rel (Resolved.Same a.frame a.static)) (enclosingMember outer id)
      (enclosingMember outer (id.relocate a.view)) := by
  unfold enclosingMember
  refine (typeDef_parallel a outer).bind fun d d' hd => (body_parallel a).bind fun b b' hb => ?_
  have hr := hd.resembles
  rw [Ident.relocate_name, hr.field?, hb.1.thisType, hb.1.inConstructor]
  rcases d'.field? id.name with _ | ⟨index, f⟩
  · have hstatic := hd.ofStatic (F := a.frame) id.name
    dsimp only
    generalize d.static? id.name = f? at hstatic ⊢
    generalize d'.static? id.name = f'? at hstatic ⊢
    rcases f? with _ | f <;> rcases f'? with _ | f' <;> cases hstatic
    · dsimp only
      rw [hr.enumValue?]
      cases d'.enumValue? id.name with
      | some k => exact .pure (.some (.value _ (.const _)))
      | none =>
        have hmethods := hr.candidates outer id.name
        refine .ite (by rw [forall₂_isEmpty hmethods]) ?_ ?_
        · refine .pure (.some (.methods ⟨rfl, ?_, hmethods, rfl⟩))
          dsimp only
          split
          · exact .some .thisRef
          · exact .none
        · refine (image_parallel (a.steady n)).bind fun im im' hlookup => .pure ?_
          rw [Image.nestedType?_of_lookup hlookup]
          cases im'.nestedType? outer id.name with
          | none => exact .none
          | some path => exact .some (.type path)
    · next hf => exact .pure (.some hf)
  · exact .ite Iff.rfl (.pure (.some (.place _ _ (.field .thisRef index))))
      (refuse_parallel (a.steady n) _ _)

theorem enclosingMembers_parallel (id : Ident) (outers : List Path) :
    Parallel (a.state n) (Option.Rel (Resolved.Same a.frame a.static)) (enclosingMembers id outers)
      (enclosingMembers (id.relocate a.view) outers) := by
  induction outers with
  | nil => exact .pure .none
  | cons outer rest ih =>
    refine (enclosingMember_parallel a outer id).bind fun r? r'? hr => ?_
    cases hr with
    | none => exact ih
    | some hr => exact .pure (.some hr)

theorem hostHelper_parallel (name : String) :
    Parallel (a.state n) (Option.Rel (Resolved.Same a.frame a.static)) (hostHelper name)
      (hostHelper name) := by
  unfold hostHelper
  refine (body_parallel a).bind fun b b' hb => .ite ?_ (.pure (.some ?_)) (.pure .none)
  · rw [BodyContext.isHost, BodyContext.isHost, hb.1.returns]
  · exact .methods ⟨rfl, .none, List.forall₂_same.mpr fun _ _ => ⟨rfl, rfl⟩, rfl⟩

theorem resolveName_parallel (id : Ident) :
    Parallel (a.state n) (Resolved.Same a.frame a.static) (@resolveName l id)
      (@resolveName l' (id.relocate a.view)) := by
  rw [@resolveName_eq l, @resolveName_eq l', Ident.relocate_name]
  refine (a.variableNamed n id.name).bind fun r? r'? hr => ?_
  cases hr with
  | some hr => exact .pure hr
  | none =>
    refine (body_parallel a).bind fun b b' hb => ?_
    rw [← hb.1.ctx]
    refine (enclosingMembers_parallel a id _).bind fun r? r'? hr => ?_
    cases hr with
    | some hr => exact .pure hr
    | none =>
      refine (hostHelper_parallel a id.name).bind fun r? r'? hr => ?_
      cases hr with
      | some hr => exact .pure hr
      | none =>
        refine ((a.steady n).find _ id.name hb.2).bind fun e? _ he => ?_
        subst he
        cases e? with
        | some e => exact .pure (.ofEntity e)
        | none => exact refuse_parallel (a.steady n) _ _

end Names

theorem staticMember_parallel (path : Path) (id : Ident) :
    Parallel (a.state n) (Resolved.Same a.frame a.static) (staticMember path id)
      (staticMember path (id.relocate a.view)) := by
  unfold staticMember
  refine (typeDef_parallel a path).bind fun d d' hd => ?_
  have hr := hd.resembles
  rw [Ident.relocate_name, hr.kind, hr.enumValue?]
  rcases (if d'.kind = .enumKind then d'.enumValue? id.name else none) with _ | k
  · have hstatic := hd.ofStatic (F := a.frame) id.name
    dsimp only
    generalize d.static? id.name = f? at hstatic ⊢
    generalize d'.static? id.name = f'? at hstatic ⊢
    rcases f? with _ | f <;> rcases f'? with _ | f' <;> cases hstatic
    · refine (image_parallel (a.steady n)).bind fun im im' hlookup => ?_
      rw [Image.nestedType?_of_lookup hlookup]
      cases im'.nestedType? path id.name with
      | some nested => exact .pure (.type nested)
      | none =>
        have hmethods := hr.candidates path id.name
        refine .ite (by rw [forall₂_isEmpty hmethods]) ?_ ?_
        · exact .pure (.methods ⟨rfl, .none, hmethods, rfl⟩)
        · rw [hr.field?]
          exact .ite Iff.rfl (refuse_parallel (a.steady n) _ _) (refuse_parallel (a.steady n) _ _)
    · next hf => exact .pure hf
  · exact .pure (.value _ (.const _))

section Objects

variable {target target' : BoundExpr} (htarget : target.Same a.frame a.static target')
include htarget

theorem objectMember_parallel (path : Path) {d d' : TypeDef} (hd : d.Same a.static d') (id : Ident) :
    Parallel (a.state n) (Option.Rel (Resolved.Same a.frame a.static)) (objectMember target path d id)
      (objectMember target' path d' (id.relocate a.view)) := by
  have hr := hd.resembles
  unfold objectMember
  rw [Ident.relocate_name, hr.field?]
  rcases d'.field? id.name with _ | ⟨index, f⟩
  · have hmethods := hr.candidates path id.name
    have hofObject := filter_forall₂ (p := fun c : MethodRef × Method => !c.2.isStatic)
      (q := fun c : MethodRef × Method => !c.2.isStatic) (fun c c' hc => by rw [hc.2.isStatic]) hmethods
    refine .ite (by rw [forall₂_isEmpty hofObject]) ?_ ?_
    · exact .pure (.some (.methods ⟨rfl, .some htarget, hofObject, rfl⟩))
    · refine .ite ?_ (refuse_parallel (a.steady n) _ _) (.pure .none)
      rw [forall₂_isEmpty hmethods, rel_isSome (hr.static? id.name)]
  · refine (body_parallel a).bind fun b b' hb => .pure (.some ?_)
    have hfield := Place.Same.field htarget index
    rw [hb.1.inConstructor, hb.1.thisType]
    cases htarget <;> exact .place _ _ hfield

theorem namedMember_parallel (path : Path) (id : Ident) :
    Parallel (a.state n) (Option.Rel (Resolved.Same a.frame a.static)) (namedMember target path id)
      (namedMember target' path (id.relocate a.view)) := by
  unfold namedMember
  refine (typeDef_parallel a path).bind fun d d' hd => ?_
  rw [hd.resembles.kind]
  cases d'.kind with
  | classKind => exact objectMember_parallel a htarget path hd id
  | structKind => exact objectMember_parallel a htarget path hd id
  | interfaceKind =>
    have hmethods := hd.resembles.candidates path id.name
    refine .ite (by rw [Ident.relocate_name, forall₂_isEmpty hmethods]) (.pure .none) ?_
    exact .pure (.some (.methods ⟨rfl, .some htarget, hmethods, rfl⟩))
  | enumKind => exact .pure .none

theorem valueMember_parallel (type : Ty) (id : Ident) :
    Parallel (a.state n) (Resolved.Same a.frame a.static) (valueMember target type id)
      (valueMember target' type (id.relocate a.view)) := by
  unfold valueMember
  refine .ite Iff.rfl (.pure (.methods ⟨rfl, .some htarget, .nil, rfl⟩)) ?_
  refine .ite Iff.rfl (.pure (.value _ (.textLength htarget))) ?_
  cases type with
  | named path =>
    refine (namedMember_parallel a htarget path id).bind fun r? r'? hr => ?_
    cases hr with
    | some hr => exact .pure hr
    | none => exact refuse_parallel (a.steady n) _ _
  | _ => exact refuse_parallel (a.steady n) _ _

end Objects

theorem memberOf_parallel {target target' : Resolved} (htarget : target.Same a.frame a.static target')
    (id : Ident) :
    Parallel (a.state n) (Resolved.Same a.frame a.static) (memberOf target id)
      (memberOf target' (id.relocate a.view)) := by
  unfold memberOf
  cases htarget with
  | value t he => exact valueMember_parallel a he t id
  | place t isReadonly hp => exact valueMember_parallel a (.load hp) t id
  | type path => exact staticMember_parallel a path id
  | space path =>
    refine (image_parallel (a.steady n)).bind fun im im' hlookup => ?_
    rw [Ident.relocate_name, Image.child_of_lookup hlookup]
    cases im'.child (.space path) id.name with
    | some e => exact .pure (.ofEntity e)
    | none => exact refuse_parallel (a.steady n) _ _
  | methods hg =>
    dsimp only
    rw [hg.name]
    exact refuse_parallel (a.steady n) _ _

end Chunkwise.Bind
