import Chunkwise.Binder.Populate
import Chunkwise.Proofs.Faithful.Stmt

namespace Chunkwise

open Attempt

namespace Bind

variable {J : TypeTable → Prop} {H : Prop}

theorem edit_sure (f : Image → UndoLog → Except DeclareError Unit × Image × UndoLog) :
    Sure (fun _ => True) H (edit f) fun _ => True :=
  ⟨fun _ => .ofSame rfl, fun _ _ _ => ⟨trivial, trivial⟩⟩

theorem declareHead_sure (ctx : TypeContext) (head : TypeHead) :
    Sure (fun _ => True) H (declareHead ctx head) fun _ => True := by
  unfold declareHead
  refine (edit_sure _).bind fun r => ?_
  match r with
  | .ok () => exact Sure.modify (fun _ => rfl) fun _ => rfl
  | .error (.duplicate _) => exact Sure.refuse _ _
  | .error (.notANamespace _) => exact Sure.refuse _ _
  | .error .missingParent => exact Sure.refuse _ _

theorem declareSpace_sure (path : Path) (name : QualifiedName) :
    Sure (fun _ => True) H (declareSpace path name) fun _ => True := by
  unfold declareSpace
  refine (edit_sure _).bind fun r => ?_
  match r with
  | .ok () => exact Sure.pure fun _ => trivial
  | .error (.duplicate _) => exact Sure.refuse _ _
  | .error (.notANamespace _) => exact Sure.refuse _ _
  | .error .missingParent => exact Sure.refuse _ _

mutual

theorem declareInner_sure : ∀ (m : MemberDecl) (ctx : TypeContext) {H : Prop},
    Sure (fun _ => True) H (declareInner ctx m) fun ds => ds = m.types ctx
  | .nested _ head members, ctx, _ => by
    unfold declareInner MemberDecl.types
    refine (declareHead_sure ctx head).optional.bind fun r => ?_
    cases r with
    | none => exact Sure.pure fun hs => by simp at hs
    | some _ =>
      refine (declareNested_sure members _).bind fun inner => Sure.pure fun hs => ?_
      rw [hs.2]
  | .field _, _, _ | .method _, _, _ | .constructor _, _, _ | .enumMember _, _, _ => by
    unfold declareInner MemberDecl.types
    exact Sure.pure fun _ => rfl

theorem declareNested_sure : ∀ (ms : List MemberDecl) (ctx : TypeContext) {H : Prop},
    Sure (fun _ => True) H (declareNested ctx ms) fun ds => ds = MemberDecl.nestedTypes ctx ms
  | [], _, _ => by
    unfold declareNested MemberDecl.nestedTypes
    exact Sure.pure fun _ => rfl
  | m :: rest, ctx, _ => by
    unfold declareNested MemberDecl.nestedTypes
    refine (declareInner_sure m ctx).bind fun found => (declareNested_sure rest ctx).bind fun more => ?_
    exact Sure.pure fun hs => by rw [hs.1.2, hs.2]

end

theorem declareType_sure (space : Path) (decl : TypeDecl) :
    Sure (fun _ => True) H (declareType space decl) fun ds =>
      ds = NamespaceMember.types space (.type decl) := by
  unfold declareType NamespaceMember.types
  refine (declareHead_sure _ _).optional.bind fun r => ?_
  cases r with
  | none => exact Sure.pure fun hs => by simp at hs
  | some _ =>
    refine (declareNested_sure decl.members _).bind fun inner => Sure.pure fun hs => ?_
    rw [hs.2]

mutual

theorem declareMember_sure : ∀ (m : NamespaceMember) (space : Path) {H : Prop},
    Sure (fun _ => True) H (declareMember space m) fun ds => ds = m.types space
  | .space _ name members, space, _ => by
    unfold declareMember NamespaceMember.types
    refine (declareSpace_sure _ name).optional.bind fun r => ?_
    cases r with
    | none => exact Sure.pure fun hs => by simp at hs
    | some _ => exact declareMembers_sure members _
  | .type decl, space, _ => by
    unfold declareMember
    exact declareType_sure space decl

theorem declareMembers_sure : ∀ (ms : List NamespaceMember) (space : Path) {H : Prop},
    Sure (fun _ => True) H (declareMembers space ms) fun ds => ds = NamespaceMember.allTypes space ms
  | [], _, _ => by
    unfold declareMembers NamespaceMember.allTypes
    exact Sure.pure fun _ => rfl
  | m :: rest, space, _ => by
    unfold declareMembers NamespaceMember.allTypes
    refine (declareMember_sure m space).bind fun found => ?_
    refine (declareMembers_sure rest space).bind fun more => Sure.pure fun hs => ?_
    rw [hs.1.2, hs.2]

end

theorem usingTarget_sure (u : UsingDirective) : Sure J H (usingTarget u) fun _ => True := by
  unfold usingTarget
  refine image_sure.bind fun im => ?_
  split
  · exact Sure.pure fun _ => trivial
  · split
    · exact Sure.pure fun _ => trivial
    · exact Sure.refuse _ _
  · exact Sure.refuse _ _

theorem bindUsing_sure (u : UsingDirective) : Sure J H (bindUsing u) fun _ => True := by
  have hadd : ∀ {H : Prop} (v : Using), Sure J H (Attempt.modify fun s : BindState =>
      { s with usings := s.usings ++ [v] }) fun _ => True :=
    fun v => Sure.modify (fun _ => rfl) fun _ => rfl
  unfold bindUsing
  refine (usingTarget_sure u).bind fun target => ?_
  dsimp only
  split
  · refine Sure.bind (Q := fun _ => True) (Sure.gets _) fun taken => ?_
    split
    · exact Sure.bind (Q := fun _ => True) (Sure.refuse _ _) fun _ => hadd _
    · exact hadd _
  · exact hadd _

theorem bindUsings_sure (us : List UsingDirective) : Sure J H (bindUsings us) fun _ => True := by
  unfold bindUsings
  refine (Sure.forAll (Q := fun _ _ => True) fun u _ => bindUsing_sure u).bind fun _ => ?_
  exact Sure.pure fun _ => trivial

end Bind

end Chunkwise
