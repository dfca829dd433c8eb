import Chunkwise.Proofs.Binder.Populate
import Chunkwise.Proofs.Faithful.Declare
import Chunkwise.Proofs.Faithful.Host
import Chunkwise.Proofs.Faithful.Table

/-!
The second stage gives a type a field for each declarator, a method for each method and a constructor for
each constructor, in source order, and lists the positions of those that still lack their bodies.
-/
namespace Chunkwise

open Attempt

/-- The members of a type that have code, each kind in source order. -/
structure Outline where
  methods : List MethodDecl
  constructors : List ConstructorDecl
  /-- The declarators of fields that all objects have in common. -/
  shared : List Declarator
  /-- The declarators of fields that each object has for itself. -/
  own : List Declarator

namespace Outline

def empty : Outline := ⟨[], [], [], []⟩

def declare (o : Outline) (isShared : Bool) (vs : List Declarator) : Outline :=
  if isShared then { o with shared := o.shared ++ vs } else { o with own := o.own ++ vs }

def add (o : Outline) : MemberDecl → Outline
  | .field f => o.declare f.isShared f.declarators
  | .method m => { o with methods := o.methods ++ [m] }
  | .constructor c => { o with constructors := o.constructors ++ [c] }
  | _ => o

theorem declare_nil (o : Outline) (isShared : Bool) : o.declare isShared [] = o := by
  cases isShared <;> simp [declare]

theorem declare_declare (o : Outline) (isShared : Bool) (vs ws : List Declarator) :
    (o.declare isShared vs).declare isShared ws = o.declare isShared (vs ++ ws) := by
  cases isShared <;> simp [declare]

theorem foldl_add (o : Outline) (ms : List MemberDecl) : ms.foldl add o =
    ⟨o.methods ++ ms.filterMap MemberDecl.method?, o.constructors ++ ms.filterMap MemberDecl.constructor?,
      o.shared ++ MemberDecl.allDeclarators true ms, o.own ++ MemberDecl.allDeclarators false ms⟩ := by
  induction ms generalizing o with
  | nil => simp [MemberDecl.allDeclarators]
  | cons m ms ih =>
    rw [List.foldl_cons, ih]
    cases m with
    | field f =>
      cases hf : f.isShared <;>
        simp [add, declare, hf, MemberDecl.allDeclarators, MemberDecl.declarators, List.filterMap_cons,
          MemberDecl.method?, MemberDecl.constructor?]
    | _ =>
      simp [add, MemberDecl.allDeclarators, MemberDecl.declarators, List.filterMap_cons,
        MemberDecl.method?, MemberDecl.constructor?]

end Outline

/-- What a type has of members with code. -/
def DeclaredType.outline (d : DeclaredType) : Outline := d.members.foldl Outline.add .empty

/-- The declared type with the positions of all its methods and constructors. -/
def DeclaredType.populated (d : DeclaredType) : PopulatedType :=
  ⟨d, d.outline.methods.zipIdx, d.outline.constructors.zipIdx⟩

/-- Nothing in the type has code if it is an enum. -/
def DeclaredType.Plain (d : DeclaredType) : Prop :=
  d.head.kind = .enumKind → d.outline = .empty

/-- The method is there and has no code yet; it will have none if the declaration has no body. -/
structure MethodDecl.AwaitedBy (m : MethodDecl) (method : Method) : Prop where
  name : method.name = m.name.name
  abstracts : m.body = none → method.body = .abstractMember

/-- What an interface has: nothing but methods without bodies. -/
structure Outline.Bodiless (o : Outline) : Prop where
  methods : ∀ m ∈ o.methods, m.body = none
  constructors : o.constructors = []
  shared : o.shared = []
  own : o.own = []

/-- The members so far are in the definition, without their code. -/
structure Laid (d : DeclaredType) (o : Outline) (p : PopulatedType) (t : TypeDef) : Prop where
  kind : t.kind = d.head.kind
  listed : p = ⟨d, o.methods.zipIdx, o.constructors.zipIdx⟩
  methods : List.Forall₂ MethodDecl.AwaitedBy o.methods t.methods
  constructors : t.constructors.length = o.constructors.length
  shared : ∀ v ∈ o.shared, ∃ f ∈ t.statics, f.name = v.name.name
  own : ∀ v ∈ o.own, ∃ f ∈ t.fields, f.name = v.name.name
  inits : t.inits = []
  bodiless : d.head.kind = .interfaceKind → o.Bodiless

theorem laid_bare (d : DeclaredType) : Laid d .empty ⟨d, [], []⟩ d.bare where
  kind := rfl
  listed := rfl
  methods := .nil
  constructors := rfl
  shared := by simp [Outline.empty]
  own := by simp [Outline.empty]
  inits := rfl
  bodiless _ := ⟨by simp [Outline.empty], rfl, rfl, rfl⟩

namespace Laid

variable {d : DeclaredType} {o : Outline} {p : PopulatedType} {t : TypeDef}

theorem addStatic (h : Laid d o p t) (hkind : d.head.kind ≠ .interfaceKind) (v : Declarator)
    {f : StaticField} (hf : f.name = v.name.name) :
    Laid d (o.declare true [v]) p { t with statics := t.statics ++ [f] } := by
  refine ⟨h.kind, h.listed, h.methods, h.constructors, fun w hw => ?_, h.own, h.inits,
    fun hk => absurd hk hkind⟩
  rcases List.mem_append.mp hw with hw | hw
  · obtain ⟨g, hg, hname⟩ := h.shared w hw
    exact ⟨g, List.mem_append_left _ hg, hname⟩
  · rw [List.mem_singleton.mp hw]
    exact ⟨f, List.mem_append_right _ (List.mem_singleton.mpr rfl), hf⟩

theorem addField (h : Laid d o p t) (hkind : d.head.kind ≠ .interfaceKind) (v : Declarator)
    {f : InstanceField} (hf : f.name = v.name.name) :
    Laid d (o.declare false [v]) p { t with fields := t.fields ++ [f] } := by
  refine ⟨h.kind, h.listed, h.methods, h.constructors, h.shared, fun w hw => ?_, h.inits,
    fun hk => absurd hk hkind⟩
  rcases List.mem_append.mp hw with hw | hw
  · obtain ⟨g, hg, hname⟩ := h.own w hw
    exact ⟨g, List.mem_append_left _ hg, hname⟩
  · rw [List.mem_singleton.mp hw]
    exact ⟨f, List.mem_append_right _ (List.mem_singleton.mpr rfl), hf⟩

theorem addMethod (h : Laid d o p t) {m : MethodDecl} {method : Method} (hm : m.AwaitedBy method)
    (hbody : d.head.kind = .interfaceKind → m.body = none) :
    Laid d (o.add (.method m)) { p with methods := p.methods ++ [(m, o.methods.length)] }
      { t with methods := t.methods ++ [method] } := by
  refine ⟨h.kind, ?_, List.rel_append h.methods (.cons hm .nil), h.constructors, h.shared, h.own,
    h.inits, fun hk => ⟨fun n hn => ?_, ?_, ?_, ?_⟩⟩
  · rw [h.listed]
    simp [Outline.add, List.zipIdx_append]
  · rcases List.mem_append.mp hn with hn | hn
    · exact (h.bodiless hk).methods n hn
    · rw [List.mem_singleton.mp hn]
      exact hbody hk
  · exact (h.bodiless hk).constructors
  · exact (h.bodiless hk).shared
  · exact (h.bodiless hk).own

/-- One more constructor, at the position that comes next. -/
theorem addConstructor (h : Laid d o p t) (c : ConstructorDecl) (method : Method)
    (hkind : d.head.kind ≠ .interfaceKind) :
    Laid d (o.add (.constructor c))
      { p with constructors := p.constructors ++ [(c, o.constructors.length)] }
      { t with constructors := t.constructors ++ [method] } := by
  refine ⟨h.kind, ?_, h.methods, ?_, h.shared, h.own, h.inits, fun hk => absurd hk hkind⟩
  · rw [h.listed]
    simp [Outline.add, List.zipIdx_append]
  · simp [Outline.add, h.constructors]

end Laid

namespace Bind

variable {J : TypeTable → Prop} {H : Prop} {T : TypeTable} {d : DeclaredType} {o : Outline}
  {p : PopulatedType}

theorem typeDef_on {path : Path} {R : TypeDef → Prop} : Sure (T.On path R) H (typeDef path) R := by
  refine Careful.gets fun s hs => ⟨hs.1, ?_⟩
  obtain ⟨t, ht, hT⟩ := hs.1
  rw [hT, Function.update_self]
  exact ht

theorem resolveBase_sure (base : QualifiedName) : Sure J H (resolveBase d base) fun _ => True := by
  unfold resolveBase
  dsimp only
  split
  · exact Sure.pure fun _ => trivial
  · refine (lookupQualified_sure _ _).bind fun e? => ?_
    split
    · refine (typeDef_sure _).bind fun t => ?_
      split
      · split
        · exact Sure.refuse _ _
        · exact Sure.pure fun _ => trivial
      · exact Sure.refuse _ _
    · exact Sure.refuse _ _

theorem populateBases_turns : Turns (T.On d.path (Laid d o p)) True (populateBases d)
    fun _ => T.On d.path (Laid d o p) := by
  unfold populateBases
  refine Sure.turns (Sure.keepSome (Q := fun _ _ => True) fun base _ => resolveBase_sure base)
    fun found => ?_
  refine Turns.updateType fun t _ h => ?_
  exact ⟨h.kind, h.listed, h.methods, h.constructors, h.shared, h.own, h.inits, h.bodiless⟩

theorem memberTaken_sure (path : Path) (name : String) :
    Sure J H (memberTaken path name) fun _ => True := by
  unfold memberTaken
  exact (typeDef_sure path).bind fun t => image_sure.bind fun im => Sure.pure fun _ => trivial

theorem populateDeclarator_turns (f : FieldDecl) (type : Ty) (v : Declarator)
    (hkind : H → d.head.kind ≠ .interfaceKind) :
    Turns (T.On d.path (Laid d o p)) H (populateDeclarator d f type v)
      fun _ => T.On d.path (Laid d (o.declare f.isShared [v]) p) := by
  have hshared : (f.modifiers.contains .constField || f.modifiers.contains .staticMember) =
      f.isShared := Bool.or_comm _ _
  unfold populateDeclarator
  dsimp only
  rw [hshared]
  refine (memberTaken_sure _ _).turns fun taken => ?_
  split
  · exact Turns.refuse _ _
  · split
    · exact Turns.refuse _ _
    · split
      · next hstatic =>
        rw [hstatic]
        exact (addSlot_sure _ _).turns fun slot => Turns.updateType fun t hs h =>
          h.addStatic (hkind hs.1.1) v rfl
      · next hstatic =>
        rw [Bool.eq_false_iff.mpr hstatic]
        exact Turns.updateType fun t hs h => h.addField (hkind hs.1) v rfl

theorem populateDeclarators_turns (f : FieldDecl) (type : Ty)
    (hkind : H → d.head.kind ≠ .interfaceKind) :
    Turns (T.On d.path (Laid d o p)) H (Attempt.forAll (populateDeclarator d f type) f.declarators)
      fun _ => T.On d.path (Laid d (o.add (.field f)) p) := by
  have hsteps : Turns _ H (Attempt.forAll (populateDeclarator d f type) f.declarators) _ := Turns.steps
    (I := fun before => T.On d.path (Laid d (o.declare f.isShared before) p)) fun before v after _ => by
      rw [← Outline.declare_declare]
      exact populateDeclarator_turns f type v hkind
  rw [Outline.declare_nil] at hsteps
  exact hsteps

theorem populateField_turns (f : FieldDecl) :
    Turns (T.On d.path (Laid d o p)) True (populateField d f)
      fun _ => T.On d.path (Laid d (o.add (.field f)) p) := by
  unfold populateField
  refine typeDef_on.turns fun t => ?_
  dsimp only
  split
  · exact Turns.refuse _ _
  · next hinterface =>
    split
    · exact Turns.refuse _ _
    · refine (resolveValueType_sure _ _).turns fun type => ?_
      have hkind : (True ∧ Laid d o p t) ∧ True → d.head.kind ≠ .interfaceKind :=
        fun hs => hs.1.2.kind ▸ hinterface
      exact (populateDeclarators_turns f type hkind).bind fun _ => Turns.pure fun _ hT _ => hT

theorem resolveParams_sure (ctx : TypeContext) : ∀ (ps : List Param) (seen : List (String × Ty))
    {H : Prop}, Sure J H (resolveParams ctx seen ps) fun _ => True
  | [], _, _ => by
    unfold resolveParams
    exact Sure.pure fun _ => trivial
  | x :: rest, seen, _ => by
    unfold resolveParams
    split
    · refine Sure.bind (Q := fun _ => False) (Careful.report _ _) fun _ => ?_
      refine (resolveParams_sure ctx rest seen).bind fun _ => Sure.fail fun hs => ?_
      exact hs.1.2
    · refine (resolveValueType_sure ctx x.type).optional.bind fun t? => ?_
      split
      · exact (resolveParams_sure ctx rest _).bind fun _ => Sure.pure fun _ => trivial
      · refine (resolveParams_sure ctx rest seen).bind fun _ => Sure.fail fun hs => ?_
        simp at hs

theorem checkMethod_sure (t : TypeDef) (m : MethodDecl) :
    Sure J H (checkMethod d t m) fun _ => Checked t m := by
  rcases checkMethod_cases d t m with ⟨hrun, hchecked⟩ | ⟨problem, hrun⟩
  · rw [hrun]
    exact Sure.pure fun _ => hchecked
  · rw [hrun]
    exact Sure.refuse _ _

/-- A method whose declaration has no body is abstract. -/
theorem awaited_of_checked {t : TypeDef} {m : MethodDecl} (h : Checked t m) (owner : String)
    (params : List (String × Ty)) (returns : Ty) (isStatic : Bool) :
    m.AwaitedBy ⟨m.name.name, owner, params, returns, isStatic,
      if t.kind == .interfaceKind || m.modifiers.contains .abstractMember then .abstractMember
        else .missing⟩ := by
  refine ⟨rfl, fun hnone => if_pos ?_⟩
  by_cases hkind : t.kind = .interfaceKind
  · simp [hkind]
  · cases habstract : m.modifiers.contains .abstractMember with
    | true => exact Bool.or_true _
    | false =>
      have hsome := h.concrete hkind habstract
      simp [hnone] at hsome

theorem populateMethod_turns (m : MethodDecl) :
    Turns (T.On d.path (Laid d o p)) True (populateMethod d m) fun i =>
      T.On d.path (Laid d (o.add (.method m)) { p with methods := p.methods ++ [(m, i)] }) := by
  unfold populateMethod
  refine typeDef_on.turns fun t => ?_
  dsimp only
  refine (checkMethod_sure t m).turns fun _ => (resolveType_sure _ _).turns fun returns => ?_
  refine (resolveParams_sure _ _ _).turns fun params => ?_
  split
  · exact Turns.refuse _ _
  · refine Turns.bind (Turns.updateType (S := Laid d (o.add (.method m))
      { p with methods := p.methods ++ [(m, o.methods.length)] }) fun t' hs h' => ?_) fun _ =>
      Turns.pure fun T' hT hs => ?_
    · obtain ⟨⟨⟨⟨-, ht⟩, hchecked⟩, -⟩, -⟩ := hs
      refine h'.addMethod (awaited_of_checked hchecked _ _ _ _) fun hk => ?_
      exact Option.not_isSome_iff_eq_none.mp (by simp [(hchecked.ofInterface (ht.kind.trans hk)).1])
    · have hlength : t.methods.length = o.methods.length := hs.1.1.1.2.methods.length_eq.symm
      rw [hlength]
      exact hT

theorem populateConstructor_turns (c : ConstructorDecl) :
    Turns (T.On d.path (Laid d o p)) True (populateConstructor d c) fun i =>
      T.On d.path (Laid d (o.add (.constructor c))
        { p with constructors := p.constructors ++ [(c, i)] }) := by
  unfold populateConstructor
  refine typeDef_on.turns fun t => ?_
  split
  · exact Turns.refuse _ _
  · next hinterface =>
    split
    · exact Turns.refuse _ _
    · split
      · exact Turns.refuse _ _
      · refine (resolveParams_sure _ _ _).turns fun params => ?_
        split
        · exact Turns.refuse _ _
        · refine Turns.bind (Turns.updateType (S := Laid d (o.add (.constructor c))
            { p with constructors := p.constructors ++ [(c, o.constructors.length)] })
            fun t' hs h' => ?_) fun _ => Turns.pure fun T' hT hs => ?_
          · exact h'.addConstructor c _ (hs.1.2.kind ▸ hinterface)
          · rw [hs.1.2.constructors]
            exact hT

theorem populateMembers_turns : ∀ (ms : List MemberDecl) (o : Outline) (p : PopulatedType),
    Turns (T.On d.path (Laid d o p)) True (populateMembers d p ms) fun p' =>
      T.On d.path (Laid d (ms.foldl Outline.add o) p')
  | [], _, _ => Turns.pure fun _ hT _ => hT
  | m :: rest, o, p => by
    cases m with
    | field f =>
      unfold populateMembers
      refine (populateField_turns f).optional.bind fun _ => ?_
      refine (populateMembers_turns rest _ p).mono (fun _ hT => ?_) id fun _ _ hT => hT
      obtain ⟨-, -, hT⟩ := hT
      exact hT
    | method m =>
      unfold populateMembers
      refine (populateMethod_turns m).optional.bind fun i? => ?_
      cases i? with
      | none =>
        exact (populateMembers_turns rest _ p).mono (fun _ hT => by simp at hT) id fun _ _ hT => hT
      | some i =>
        refine (populateMembers_turns rest _ _).mono (fun _ hT => ?_) id fun _ _ hT => hT
        obtain ⟨_, hi, hT⟩ := hT
        cases hi
        exact hT
    | constructor c =>
      unfold populateMembers
      refine (populateConstructor_turns c).optional.bind fun i? => ?_
      cases i? with
      | none =>
        exact (populateMembers_turns rest _ p).mono (fun _ hT => by simp at hT) id fun _ _ hT => hT
      | some i =>
        refine (populateMembers_turns rest _ _).mono (fun _ hT => ?_) id fun _ _ hT => hT
        obtain ⟨_, hi, hT⟩ := hT
        cases hi
        exact hT
    | enumMember _ => exact populateMembers_turns rest o p
    | nested _ _ _ => exact populateMembers_turns rest o p

theorem enumMember_sure (type : String) (values : List (String × Int64)) (next : Int64)
    (m : EnumMemberDecl) : Sure J H (enumMember type values next m) fun _ => True := by
  unfold enumMember
  split
  · exact Sure.refuse _ _
  · split
    · exact Sure.pure fun _ => trivial
    · split
      · exact Sure.pure fun _ => trivial
      · exact Sure.refuse _ _

theorem enumMembers_sure (type : String) : ∀ (ms : List MemberDecl) (values : List (String × Int64))
    (next : Int64) {H : Prop}, Sure J H (enumMembers type values next ms) fun _ => True
  | [], _, _, _ => Sure.pure fun _ => trivial
  | .enumMember m :: rest, values, next, _ => by
    unfold enumMembers
    refine (enumMember_sure type values next m).optional.bind fun n? => ?_
    cases n? with
    | none => exact enumMembers_sure type rest values next
    | some n => exact enumMembers_sure type rest _ _
  | .field _ :: rest, values, next, _ | .method _ :: rest, values, next, _
  | .constructor _ :: rest, values, next, _ | .nested _ _ _ :: rest, values, next, _ =>
    enumMembers_sure type rest values next

theorem populateEnum_turns : Turns (T.On d.path (Laid d o p)) True (populateEnum d)
    fun _ => T.On d.path (Laid d o p) := by
  unfold populateEnum
  refine (enumMembers_sure d.name d.members [] 0).turns fun values => Turns.updateType fun t _ h => ?_
  exact ⟨h.kind, h.listed, h.methods, h.constructors, h.shared, h.own, h.inits, h.bodiless⟩

theorem populateType_turns (h : d.Plain) :
    Turns (T.On d.path (· = d.bare)) True (populateType d) fun p =>
      T.On d.path (Laid d d.outline p) := by
  have hbases : Turns (T.On d.path (· = d.bare)) True (populateBases d) fun _ =>
      T.On d.path (Laid d .empty ⟨d, [], []⟩) :=
    populateBases_turns.mono (fun _ hT => hT.mono fun t ht => ht ▸ laid_bare d) id fun _ _ hT => hT
  unfold populateType
  refine hbases.bind fun _ => ?_
  split
  · next henum =>
    rw [h henum]
    exact populateEnum_turns.bind fun _ => Turns.pure fun _ hT _ => hT
  · exact populateMembers_turns d.members .empty ⟨d, [], []⟩

theorem checkInterface_sure (interface : Path) :
    Sure J H (checkInterface d interface) fun _ => True := by
  unfold checkInterface
  refine (typeDef_sure _).bind fun required => (typeDef_sure _).bind fun t => ?_
  refine Sure.bind (Sure.forAll (Q := fun _ _ => True) fun m _ => Careful.report _ _) fun _ => ?_
  exact Sure.pure fun _ => trivial

theorem checkConformance_sure (d : DeclaredType) : Sure J H (checkConformance d) fun _ => True := by
  unfold checkConformance
  refine (typeDef_sure _).bind fun t => ?_
  split
  · refine (Sure.forAll (Q := fun _ _ => True) fun path _ => checkInterface_sure path).bind fun _ => ?_
    exact Sure.pure fun _ => trivial
  · exact Sure.pure fun _ => trivial

theorem populateTypes_turns {ds : List DeclaredType} (hdistinct : (ds.map DeclaredType.path).Nodup)
    (hplain : ∀ d ∈ ds, d.Plain) :
    Turns (fun T => ∀ d ∈ ds, T d.path = some d.bare) True (populateTypes ds) fun ps T =>
      List.Forall₂ (fun d p => ∃ t, T d.path = some t ∧ Laid d d.outline p t) ds ps := by
  unfold populateTypes
  have hall := Turns.each hdistinct fun d hd T => populateType_turns (T := T) (hplain d hd)
  refine Turns.bind (hall.mono (fun T hT d hd => ⟨d.bare, hT d hd, rfl⟩) id fun _ _ hT => hT)
    fun ps => ?_
  refine Sure.turns (Sure.forAll (Q := fun _ _ => True) fun d _ => checkConformance_sure d) fun _ => ?_
  exact Turns.pure fun _ hT _ => hT

end Bind

end Chunkwise
