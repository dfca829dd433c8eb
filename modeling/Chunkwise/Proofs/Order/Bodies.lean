import Chunkwise.Binder.Bodies
import Chunkwise.Proofs.Binder.Filling
import Chunkwise.Proofs.Order.Overview

/-!
Where code sees the same, binding the bodies of a type has a problem in both states or in none, whatever
body was bound before. All that it changes are bodies and initial values, which no code sees.
-/
namespace Chunkwise

namespace Bind

open Attempt

variable {α β : Type} {v : Overview TypeDef} {m n : Nat}

theorem setBody_parallel {A : α → β → Prop} {b : BodyContext} (hb : b.isHost = false) {p : Bind α}
    {q : Bind β} (h : Parallel (Within v m n) A p q) :
    Parallel (Abreast TypeDef.outline v m n) A (setBody b >>= fun _ => p)
      (setBody b >>= fun _ => q) := by
  intro s t hst
  obtain ⟨hval, hafter⟩ := h { s with body := b } { t with body := b } ⟨hst.keep rfl rfl rfl rfl, rfl, hb⟩
  exact ⟨hval, hafter.toAbreast⟩

theorem outline_withBody (ms : List Method) (i : Nat) (code : Code) :
    (withBody ms i code).map Method.outline = ms.map Method.outline := by
  ext1 j
  rw [List.getElem?_map, List.getElem?_map, withBody_getElem?]
  split
  · rw [Option.map_map]
    rfl
  · rfl

theorem updateType_parallel {path : Path} {f g : TypeDef → TypeDef} (hf : ∀ d, (f d).outline = d.outline)
    (hg : ∀ d, (g d).outline = d.outline) :
    Parallel (Abreast TypeDef.outline v m n) (fun _ _ => True) (updateType path f)
      (updateType path g) :=
  .modify fun s t hst => hst.keep (s.overview_updateType path hf) (t.overview_updateType path hg) rfl rfl

section Parts

variable [NameLookup] (h : Lenient (Within v m n))
include h

theorem staticInit_parallel (d : DeclaredType) (name : String) (init : Expr) :
    Parallel (Abreast TypeDef.outline v m n) (fun _ _ => True) (staticInit d name init)
      (staticInit d.unplaced name init.unplaced) := by
  unfold staticInit
  refine (typeDef_abreast d.path).bind fun t t' ht => (Parallel.ofOption (ht.static? name)).bind ?_
  intro f f' hf
  have htype : f.type = f'.type := (congrArg StaticField.type (show f.outline = f'.outline from hf) :)
  rw [htype]
  exact setBody_parallel rfl
    ((converted_parallel (n := 0) (Within.accord h) init _).bind fun _ _ _ => .pure trivial)

theorem objectInit_parallel (d : DeclaredType) (name : String) (init : Expr) :
    Parallel (Abreast TypeDef.outline v m n) (fun _ _ => True) (objectInit d name init)
      (objectInit d.unplaced name init.unplaced) := by
  unfold objectInit
  refine (typeDef_abreast d.path).bind fun t t' ht => ?_
  rw [ht.field?]
  have hsame : Option.Rel Eq (t'.field? name) (t'.field? name) := by
    cases t'.field? name with
    | none => exact .none
    | some x => exact .some rfl
  refine (Parallel.ofOption hsame).bind fun x _ hx => ?_
  subst hx
  exact setBody_parallel rfl
    ((converted_parallel (n := 0) (Within.accord h) init _).bind fun _ _ _ => .pure trivial)

theorem declaratorInit_parallel (d : DeclaredType) (field : FieldDecl) (w : Declarator) :
    Parallel (Abreast TypeDef.outline v m n) (fun _ _ => True) (declaratorInit d field w)
      (declaratorInit d.unplaced field.unplaced w.unplaced) := by
  have hinit : w.unplaced.init = w.init.map Expr.unplaced := rfl
  unfold declaratorInit
  rw [hinit]
  cases w.init with
  | none => exact .pure trivial
  | some init =>
    refine .ite Iff.rfl ?_ ?_
    · exact (staticInit_parallel h d w.name.name init).bind fun _ _ _ => .pure trivial
    · exact (objectInit_parallel h d w.name.name init).bind fun _ _ _ => .pure trivial

theorem fieldInits_parallel (d : DeclaredType) (ms : List MemberDecl) :
    Parallel (Abreast TypeDef.outline v m n) (fun _ _ => True) (fieldInits d ms)
      (fieldInits d.unplaced (MemberDecl.unplacedAll ms)) := by
  induction ms with
  | nil => exact .pure trivial
  | cons member rest ih =>
    unfold MemberDecl.unplacedAll
    cases member with
    | field f =>
      unfold MemberDecl.unplaced fieldInits
      refine (Parallel.keepSome (B := fun _ _ => True) Declarator.unplaced fun w _ =>
        declaratorInit_parallel h d f w).bind fun _ _ _ => ?_
      exact ih.bind fun _ _ _ => .pure trivial
    | _ =>
      unfold MemberDecl.unplaced fieldInits
      exact ih

theorem bindFieldInits_parallel (d : DeclaredType) :
    Parallel (Abreast TypeDef.outline v m n) (fun _ _ => True) (bindFieldInits d)
      (bindFieldInits d.unplaced) := by
  unfold bindFieldInits
  refine (fieldInits_parallel h d d.members).bind fun is is' _ => ?_
  refine Parallel.andThen (updateType_parallel (fun t => ?_) fun t => ?_) ?_
  · rfl
  · rfl
  · exact .pure trivial

theorem methodCode_parallel {context : BodyContext} (hcontext : context.isHost = false) {f f' : Method}
    (hf : f.Resembles f') (body : Block) (span span' : Span) :
    Parallel (Abreast TypeDef.outline v m n) (fun _ _ => True) (methodCode context f body span)
      (methodCode context f' body.unplaced span') := by
  unfold methodCode
  rw [hf.params, hf.returns]
  refine setBody_parallel hcontext ?_
  refine (Parallel.forAll (S := Eq) (B := fun _ _ => True) (List.forall₂_same.mpr fun _ _ => rfl)
    fun p _ hp => hp ▸ Within.updateScopes_parallel _).andThen ?_
  refine (stmts_parallel (n := 0) (Within.accord h) trivial body.stmts).bind fun code code' hcode => ?_
  refine .ite (by rw [BoundStmt.Same.allComplete hcode]) (h.refuse_parallel) ?_
  exact Within.body_parallel.bind fun _ _ _ => .pure trivial

theorem bindMethod_parallel (d : DeclaredType) (x : MethodDecl × Nat) :
    Parallel (Abreast TypeDef.outline v m n) (fun _ _ => True) (bindMethod d x)
      (bindMethod d.unplaced (x.1.unplaced, x.2)) := by
  have hbody : x.1.unplaced.body = x.1.body.map Block.unplaced := rfl
  unfold bindMethod
  dsimp only
  rw [hbody]
  cases x.1.body with
  | none => exact .pure trivial
  | some block =>
    refine (typeDef_abreast d.path).bind fun t t' ht => ?_
    refine (Parallel.ofOption (rel_getElem? ht.methods x.2)).bind fun f f' hf => ?_
    rw [hf.isStatic, hf.returns]
    refine (methodCode_parallel h rfl hf block _ _).bind fun code code' _ => ?_
    refine updateType_parallel (fun t => ?_) fun t => ?_
    · simp only [TypeDef.outline, outline_withBody]
    · simp only [TypeDef.outline, outline_withBody]

theorem bindConstructor_parallel (d : DeclaredType) (x : ConstructorDecl × Nat) :
    Parallel (Abreast TypeDef.outline v m n) (fun _ _ => True) (bindConstructor d x)
      (bindConstructor d.unplaced (x.1.unplaced, x.2)) := by
  unfold bindConstructor
  refine (typeDef_abreast d.path).bind fun t t' ht => ?_
  refine (Parallel.ofOption (rel_getElem? ht.constructors x.2)).bind fun f f' hf => ?_
  refine (methodCode_parallel h rfl hf x.1.body _ _).bind fun code code' _ => ?_
  refine updateType_parallel (fun t => ?_) fun t => ?_
  · simp only [TypeDef.outline, outline_withBody]
  · simp only [TypeDef.outline, outline_withBody]

theorem bindBodies_parallel (p : PopulatedType) :
    Parallel (Abreast TypeDef.outline v m n) (fun _ _ => True) (bindBodies p)
      (bindBodies p.unplaced) := by
  unfold bindBodies
  refine .ite Iff.rfl (.pure trivial) ((bindFieldInits_parallel h p.decl).bind fun _ _ _ => ?_)
  refine (Parallel.forAll_map (B := fun _ _ => True) (fun x => (x.1.unplaced, x.2)) fun x _ =>
    bindMethod_parallel h p.decl x).andThen ?_
  refine (Parallel.forAll_map (B := fun _ _ => True) (fun x => (x.1.unplaced, x.2)) fun x _ =>
    bindConstructor_parallel h p.decl x).andThen ?_
  exact .pure trivial

end Parts

end Bind

end Chunkwise
