import Chunkwise.Proofs.Binder.Apart
import Chunkwise.Proofs.Binder.Stages
import Chunkwise.Proofs.Session.Directory

/-!
In every session the members of each type are apart, so a name means the same member inside the type and
through the name of the type. The one exception is a name that a nested type shares with methods: inside
the type it means the methods, and through the name of the type the nested type.
-/
namespace Chunkwise

open Attempt

/-- What is denoted, whatever the object through which methods are reached. -/
def Resolved.withoutReceiver : Resolved → Resolved
  | .methods g => .methods { g with receiver := none }
  | r => r

theorem Image.mem_nestedNames_of_nestedType? {im : Image} {p q : Path} {name : String}
    (h : im.nestedType? p name = some q) : name ∈ im.nestedNames p := by
  unfold nestedType? child at h
  split at h
  · next path hl =>
    obtain ⟨-, -, hd⟩ := lookup_eq_type.mp hl
    obtain ⟨d, hd⟩ := Option.isSome_iff_exists.mp hd
    exact mem_nestedNames.mpr (mem_typePaths.mpr (mem_shape_of_typeDef? hd))
  · cases h

namespace TypeDef.MembersApart

variable {d : TypeDef} {nested : List String} {name : String}

theorem candidates_of_mem (h : d.MembersApart nested) (hname : name ∈ d.fieldNames) (p : Path) :
    d.candidates p name = [] := by
  have hnone : d.methodsNamed name = [] := methodsNamed_eq_nil.mpr fun m hm hm' =>
    h.methods m hm (hm' ▸ hname)
  rw [candidates, hnone, List.map_nil]

theorem notMem_nested (h : d.MembersApart nested) (hname : name ∈ d.fieldNames) : name ∉ nested :=
  fun hn => (List.nodup_append.mp h.names).2.2 name hname name hn rfl

theorem static?_of_field (h : d.MembersApart nested) (hfield : (d.field? name).isSome = true) :
    d.static? name = none := by
  cases hs : d.static? name with
  | none => rfl
  | some f =>
    have hstatic : name ∈ d.statics.map StaticField.name := isSome_static?.mp (by rw [hs]; rfl)
    have hnodup := (List.nodup_append.mp h.names).1
    exact absurd rfl
      ((List.nodup_append.mp hnodup).2.2 name (isSome_field?.mp hfield) name hstatic)

theorem kind_of_field (h : d.MembersApart nested) (hname : name ∈ d.fieldNames) :
    d.kind ≠ .enumKind := by
  intro henum
  obtain ⟨hfields, hstatics, -⟩ := h.ofEnum henum
  simp [fieldNames, hfields, hstatics] at hname

theorem kind_of_enumValue? (h : d.MembersApart nested) {n : Int64} (hn : d.enumValue? name = some n) :
    d.kind = .enumKind := by
  by_contra hkind
  exact enumMembers_of_enumValue? hn (h.ofOthers hkind)

end TypeDef.MembersApart

namespace Bind

variable {s : BindState} {p : Path} {d : TypeDef} {id : Ident}

theorem typeDef_run (hd : s.image.typeDef? p = some d) : typeDef p s = (some d, s) := by
  simp [typeDef, Attempt.gets, hd]

/-- The order inside a type: shared fields, enum members, methods, nested types. -/
theorem enclosingMember_run (hd : s.image.typeDef? p = some d) (hfield : d.field? id.name = none) :
    (enclosingMember p id s).1 = some (match d.static? id.name with
      | some f => some (.ofStatic f)
      | none => match d.enumValue? id.name with
        | some n => some (.ofEnum p n)
        | none =>
          if (d.candidates p id.name).isEmpty then (s.image.nestedType? p id.name).map .type
          else some (.methods ⟨id.name, if s.body.thisType == some p then some .thisRef else none,
            d.candidates p id.name, .direct⟩)) := by
  simp only [enclosingMember, Bind.bind, Attempt.bind, typeDef_run hd, body, image, Attempt.gets, hfield]
  cases d.static? id.name with
  | some f => rfl
  | none =>
    cases d.enumValue? id.name with
    | some n => rfl
    | none => cases (d.candidates p id.name).isEmpty <;> rfl

/-- The order through the name of a type: enum members, shared fields, nested types, methods. -/
theorem staticMember_run (hd : s.image.typeDef? p = some d) :
    (staticMember p id s).1 = match if d.kind = .enumKind then d.enumValue? id.name else none with
      | some n => some (.ofEnum p n)
      | none => match d.static? id.name with
        | some f => some (.ofStatic f)
        | none => match s.image.nestedType? p id.name with
          | some nested => some (.type nested)
          | none =>
            if (d.candidates p id.name).isEmpty then none
            else some (.methods ⟨id.name, none, d.candidates p id.name, .direct⟩) := by
  simp only [staticMember, Bind.bind, Attempt.bind, typeDef_run hd, image]
  cases (if d.kind = .enumKind then d.enumValue? id.name else none) with
  | some n => rfl
  | none =>
    cases d.static? id.name with
    | some f => rfl
    | none =>
      simp only [Attempt.bind, Attempt.gets]
      cases s.image.nestedType? p id.name with
      | some nested => rfl
      | none =>
        cases (d.candidates p id.name).isEmpty with
        | false => rfl
        | true => cases (d.field? id.name).isSome <;> rfl

/-- A field of objects is not reached through the name of its type. -/
theorem staticMember_of_field (hd : s.image.typeDef? p = some d)
    (hapart : d.MembersApart (s.image.nestedNames p)) (hfield : (d.field? id.name).isSome = true) :
    (staticMember p id s).1 = none := by
  have hname : id.name ∈ d.fieldNames := List.mem_append_left _ (TypeDef.isSome_field?.mp hfield)
  have hnested : s.image.nestedType? p id.name = none := by
    cases hn : s.image.nestedType? p id.name with
    | none => rfl
    | some q => exact absurd (Image.mem_nestedNames_of_nestedType? hn) (hapart.notMem_nested hname)
  rw [staticMember_run hd, if_neg (hapart.kind_of_field hname), hapart.static?_of_field hfield, hnested,
    hapart.candidates_of_mem hname]
  rfl

/-- Any other name means the same both ways, unless a nested type shares it with methods. -/
theorem enclosingMember_eq_staticMember (hd : s.image.typeDef? p = some d)
    (hapart : d.MembersApart (s.image.nestedNames p)) (hfield : d.field? id.name = none) :
    (enclosingMember p id s).1.map (Option.map Resolved.withoutReceiver) = some (staticMember p id s).1 ↔
      ¬ ((s.image.nestedType? p id.name).isSome = true ∧ ∃ m ∈ d.methods, m.name = id.name) := by
  have hmethods : (∃ m ∈ d.methods, m.name = id.name) ↔ (d.candidates p id.name).isEmpty = false := by
    rw [← Bool.not_eq_true, List.isEmpty_iff, TypeDef.candidates, List.map_eq_nil_iff,
      TypeDef.methodsNamed_eq_nil]
    push Not
    rfl
  rw [enclosingMember_run hd hfield, staticMember_run hd, hmethods]
  cases hstatic : d.static? id.name with
  | some f =>
    have hname : id.name ∈ d.fieldNames :=
      List.mem_append_right _ (TypeDef.isSome_static?.mp (by rw [hstatic]; rfl))
    rw [if_neg (hapart.kind_of_field hname), hapart.candidates_of_mem hname]
    simp [Resolved.ofStatic, Resolved.withoutReceiver]
  | none =>
    cases henum : d.enumValue? id.name with
    | some n =>
      have hkind := hapart.kind_of_enumValue? henum
      obtain ⟨-, -, hnone⟩ := hapart.ofEnum hkind
      have hempty : d.candidates p id.name = [] := by
        simp [TypeDef.candidates, TypeDef.methodsNamed, hnone]
      rw [if_pos hkind, hempty]
      simp [Resolved.ofEnum, Resolved.withoutReceiver]
    | none =>
      rw [ite_self]
      cases s.image.nestedType? p id.name with
      | none => cases hc : (d.candidates p id.name).isEmpty <;> simp [Resolved.withoutReceiver]
      | some q => cases hc : (d.candidates p id.name).isEmpty <;> simp [Resolved.withoutReceiver]

end Bind

namespace Image

variable {old im im' : Image} {types : List Path} {ds : List DeclaredType}

theorem typeDef?_isSome (im : Image) (p : Path) :
    (im.typeDef? p).isSome = (im.shape.find? fun x => x.1 == p).any Prod.snd := by
  rw [← find?_shape]
  unfold typeDef?
  cases im.find? p with
  | none => rfl
  | some e =>
    obtain ⟨q, c⟩ := e
    cases c <;> rfl

theorem MembersApart.gains (h : old.MembersApart) (hgains : old.Gains im ds)
    (hplaces : old.Places im types) : im.MembersApart := by
  intro p d hd
  rcases hgains.new p d hd with hold | ⟨x, hx, rfl⟩
  · rw [hplaces.nestedNames (mem_shape_of_typeDef? hold)]
    exact h p d hold
  · obtain rfl : d = x.bare := by simpa [(hgains.found x hx).2] using hd.symm
    exact .bare (nestedNames_nodup hplaces.distinct _) _ _ _

theorem MembersApart.grow (h : im.MembersApart) (hgrows : im.Grows im')
    (hshape : im'.shape = im.shape) : im'.MembersApart := by
  intro p d' hd'
  have hsome : (im.typeDef? p).isSome = (im'.typeDef? p).isSome := by
    rw [typeDef?_isSome, typeDef?_isSome, hshape]
  obtain ⟨d, hd⟩ := Option.isSome_iff_exists.mp (hsome.trans (by rw [hd']; rfl))
  obtain ⟨e', he', herased⟩ := hgrows p d hd
  obtain rfl : e' = d' := by simpa [hd'] using he'.symm
  rw [nestedNames_congr hshape]
  exact (h p d hd).of_erased herased

theorem MembersApart.commit (h : im.MembersApart) (us : List Using) (paths : List Path) :
    (im.commit us paths).MembersApart := by
  intro p d hd
  rw [typeDef?_commit] at hd
  rw [nestedNames_congr (commit_shape im us paths)]
  exact h p d hd

end Image

namespace Session

variable {s : Session} {src : Source} {code : Code} {b : BindState} {chunkClass : ChunkClass}

theorem Bound.membersApart (h : s.Bound src code b chunkClass) (hs : s.Valid) (ho : s.image.Orderly)
    (hd : s.image.Directed) (hapart : s.image.MembersApart) : b.image.MembersApart := by
  have hplaces := (h.lists hs ho hd).places
  cases h with
  | statements _ hrun _ =>
    have hhosted := (Triple.of_run (Bind.statementUnit_hosted hs _) rfl hrun).2.2
    rw [hhosted.image]
    exact hapart
  | declarations hread hrun _ =>
    obtain ⟨ds, ps, s₁, s₂, s₃, hstages⟩ := Bind.exists_stages hs hrun
    obtain ⟨hdirected, himage⟩ := hstages.directed
    obtain ⟨-, hstays, -⟩ := hstages.populated
    have hfilled := hstages.filled
    have hshape : b.image.shape = s₁.image.shape := by
      rw [hfilled.stays.shape, hstays.shape, himage]
    have hplaces₁ : s.image.Places s₁.image b.declared := hplaces.congr hshape.symm
    have hstart : s₂.KeepsApart ds := by
      refine ⟨hdirected.cache, hdirected.usings, ?_, fun x hx => ?_, ?_⟩
      · rw [himage]
        exact hplaces₁.distinct
      · obtain ⟨-, d, hd, hhead⟩ := hdirected.found x hx
        exact ⟨d, hd, hhead.kind⟩
      · rw [himage]
        exact hapart.gains hstages.declares.gains hplaces₁
    have hpopulated := (Triple.of_run (Bind.populateTypes_apart ds) hstart hstages.populate).1
    exact hpopulated.apart.grow hfilled.grows hfilled.stays.shape

end Session

theorem Builtin.image_membersApart : image.MembersApart := by
  intro p d hd
  have hmem := Image.typeDef?_mem hd
  simp only [image, List.mem_cons, Entry.mk.injEq, Container.type.injEq, List.not_mem_nil,
    or_false, reduceCtorEq, and_false, false_or] at hmem
  rcases hmem with ⟨rfl, rfl⟩ | ⟨rfl, rfl⟩
  · refine ⟨?_, ?_, ?_, ?_, ?_, ?_, ?_⟩ <;> decide
  · refine ⟨?_, ?_, ?_, ?_, ?_, ?_, ?_⟩ <;> decide

namespace History

variable {h : History}

theorem Reachable.membersApart (hr : h.Reachable) : h.session.image.MembersApart := by
  induction hr with
  | start settings => exact Builtin.image_membersApart.commit _ _
  | @compile h hr src chunkClass mode ih =>
    change (h.session.compile src chunkClass mode).session.image.MembersApart
    rw [Session.compile_session hr.valid.session]
    cases hb : h.session.binding? src chunkClass with
    | none => exact ih
    | some x =>
      have hbound := Session.bound_of_binding? hb
      exact (hbound.membersApart hr.valid.session hr.directory.1 hr.directory.2 ih).commit _ _
  | run _ _ _ ih => exact ih

/-- Members have names of their own: in every session the fields of a type and the types nested in it have
different names, none of them but a nested type the name of a method, and the methods of one name, like the
constructors, have different parameter types. What a name that is no field of objects means through the
name of the type is what it means inside, exactly if a nested type does not share it with methods. -/
theorem Reachable.members_named_apart (hr : h.Reachable) {p : Path} {d : TypeDef}
    (hd : h.session.image.typeDef? p = some d) :
    d.MembersApart (h.session.image.nestedNames p) ∧
    ∀ (s : BindState) (id : Ident), s.image = h.session.image →
      ((d.field? id.name).isSome = true → (Bind.staticMember p id s).1 = none) ∧
      (d.field? id.name = none →
        ((Bind.enclosingMember p id s).1.map (Option.map Resolved.withoutReceiver) =
            some (Bind.staticMember p id s).1 ↔
          ¬ ((s.image.nestedType? p id.name).isSome = true ∧ ∃ m ∈ d.methods, m.name = id.name))) := by
  have hapart := hr.membersApart p d hd
  refine ⟨hapart, fun s id hs => ?_⟩
  rw [← hs] at hd hapart
  exact ⟨Bind.staticMember_of_field hd hapart, Bind.enclosingMember_eq_staticMember hd hapart⟩

/-- A session with a type in which a method has the name of a nested type. -/
def sharing : History :=
  blank.compile
    ⟨"test", "class C \x7b int x; static int y; class F \x7b \x7d static int F() \x7b return 1; \x7d \x7d"⟩
    .declarations .silent

theorem sharing_names :
    (sharing.session.image.typeDef? ["C"]).map (fun d =>
      (d.fields.map InstanceField.name, d.methods.map Method.name)) = some (["x"], ["F"]) ∧
    sharing.session.image.nestedNames ["C"] = ["F"] ∧
    (sharing.session.image.nestedType? ["C"] "F").isSome = true := by
  decide +kernel

theorem members_named_apart_sharing :
    ∃ d, sharing.session.image.typeDef? ["C"] = some d ∧ d.MembersApart ["F"] ∧
      ∀ (s : BindState) (id : Ident), s.image = sharing.session.image → id.name = "F" →
        (Bind.enclosingMember ["C"] id s).1.map (Option.map Resolved.withoutReceiver) ≠
          some (Bind.staticMember ["C"] id s).1 := by
  obtain ⟨hnames, hnested, hnestedType⟩ := sharing_names
  obtain ⟨d, hd, hmembers⟩ := Option.map_eq_some_iff.mp hnames
  obtain ⟨hfields, hmethods⟩ := Prod.mk.inj hmembers
  have hreachable : sharing.Reachable := .compile (.start _) _ _ _
  obtain ⟨hapart, hsame⟩ := hreachable.members_named_apart hd
  rw [hnested] at hapart
  refine ⟨d, hd, hapart, fun s id hs hid hagree => ?_⟩
  have hfield : d.field? id.name = none := by
    rw [← Option.not_isSome_iff_eq_none, TypeDef.isSome_field?, hfields, hid]
    decide
  refine (hsame s id hs).2 hfield |>.mp hagree ⟨?_, ?_⟩
  · rw [hs, hid]
    exact hnestedType
  · have hmem : "F" ∈ d.methods.map Method.name := by simp [hmethods]
    obtain ⟨m, hm, hname⟩ := List.mem_map.mp hmem
    exact ⟨m, hm, hname.trans hid.symm⟩

end History

end Chunkwise
