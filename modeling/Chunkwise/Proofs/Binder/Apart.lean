import Chunkwise.Proofs.Binder.Placement
import Chunkwise.Proofs.Binder.Populate

/-!
Populating a type keeps its members apart: fields and nested types have names of their own, no method
has the name of a field, and methods of one name differ in their parameters. The name of a nested type
is not checked when a method is added, so it may be the name of methods as well.
-/
namespace Chunkwise

open Attempt

namespace Image

variable {im im' : Image} {p : Path} {name : String}

/-- The names of the types nested directly in a container, in order of declaration. -/
def nestedNames (im : Image) (p : Path) : List String :=
  im.typePaths.filterMap fun q => if q.dropLast = p then q.getLast? else none

theorem getLast?_eq_some_of_dropLast {q : Path} :
    (if q.dropLast = p then q.getLast? else none) = some name ↔ q = p ++ [name] := by
  constructor
  · intro h
    split at h
    · next hp =>
      rw [← hp]
      exact (List.dropLast_append_getLast? name h).symm
    · cases h
  · rintro rfl
    simp

theorem mem_nestedNames : name ∈ im.nestedNames p ↔ p ++ [name] ∈ im.typePaths := by
  simp only [nestedNames, List.mem_filterMap, getLast?_eq_some_of_dropLast, exists_eq_right]

theorem mem_typePaths : p ∈ im.typePaths ↔ (p, true) ∈ im.shape := by
  simp [typePaths]

theorem nestedNames_nodup (h : (im.shape.map Prod.fst).Nodup) (p : Path) :
    (im.nestedNames p).Nodup := by
  have htypes : im.typePaths.Nodup := (List.filter_sublist.map Prod.fst).nodup h
  refine htypes.filterMap fun q r name hq hr => ?_
  rw [getLast?_eq_some_of_dropLast.mp hq, getLast?_eq_some_of_dropLast.mp hr]

theorem nestedNames_congr (h : im'.shape = im.shape) : im'.nestedNames = im.nestedNames := by
  funext p
  rw [nestedNames, nestedNames, typePaths, typePaths, h]

theorem nestedType?_of_mem (hdistinct : (im.shape.map Prod.fst).Nodup)
    (h : name ∈ im.nestedNames p) : im.nestedType? p name = some (p ++ [name]) := by
  have hmem := mem_typePaths.mp (mem_nestedNames.mp h)
  have hchild : im.child (.type p) name = some (.type (p ++ [name])) :=
    lookup_of_mem hdistinct (by simp) hmem
  unfold nestedType?
  rw [hchild]

theorem Places.nestedNames {old im : Image} {types : List Path} (h : old.Places im types)
    (hp : (p, true) ∈ old.shape) : im.nestedNames p = old.nestedNames p := by
  obtain ⟨new, hshape, -, hnew⟩ := h.added
  have hnone : ((new.filter Prod.snd).map Prod.fst).filterMap
      (fun q => if q.dropLast = p then q.getLast? else none) = [] := by
    refine List.filterMap_eq_nil_iff.mpr fun q hq => ?_
    obtain ⟨x, hx, rfl⟩ := List.mem_map.mp hq
    obtain ⟨parent, n, hpath, hopen, -⟩ := hnew x (List.mem_of_mem_filter hx)
    have hparent : x.1.dropLast = parent := by simp [hpath]
    rw [hparent, if_neg]
    rintro rfl
    exact hopen.notType hp
  rw [Image.nestedNames, typePaths, hshape, List.filter_append, List.map_append,
    List.filterMap_append, hnone, List.append_nil]
  rfl

end Image

/-- Members are told apart by their names, methods and constructors also by their parameters. Only an
enum has enum members, and it has neither fields nor methods. -/
structure TypeDef.MembersApart (d : TypeDef) (nested : List String) : Prop where
  names : (d.fieldNames ++ nested).Nodup
  methods : ∀ m ∈ d.methods, m.name ∉ d.fieldNames
  overloads : d.methods.Pairwise fun m n => m.name = n.name → m.paramTypes ≠ n.paramTypes
  constructors : d.constructors.Pairwise fun m n => m.paramTypes ≠ n.paramTypes
  enumMembers : (d.enumMembers.map Prod.fst).Nodup
  ofEnum : d.kind = .enumKind → d.fields = [] ∧ d.statics = [] ∧ d.methods = []
  ofOthers : d.kind ≠ .enumKind → d.enumMembers = []

namespace TypeDef.MembersApart

variable {d d' : TypeDef} {nested : List String}

theorem bare (h : nested.Nodup) (kind : TypeKind) (isStatic isAbstract : Bool) :
    (TypeDef.bare kind isStatic isAbstract).MembersApart nested := by
  refine ⟨?_, ?_, ?_, ?_, ?_, ?_, ?_⟩ <;> simp [TypeDef.bare, fieldNames, h]

theorem addField (h : d.MembersApart nested) (hkind : d.kind ≠ .enumKind) {f : InstanceField}
    (hfields : f.name ∉ d.fieldNames) (hnested : f.name ∉ nested)
    (hmethods : ∀ m ∈ d.methods, m.name ≠ f.name) :
    ({ d with fields := d.fields ++ [f] } : TypeDef).MembersApart nested where
  names := by
    have hnew : f.name ∉ d.fieldNames ++ nested := by simp [hfields, hnested]
    have hnodup := List.nodup_cons.mpr ⟨hnew, h.names⟩
    rw [fieldNames, List.append_assoc] at hnodup
    simpa [fieldNames] using List.nodup_middle.mpr hnodup
  methods m hm := by
    have hold := h.methods m hm
    have hname := hmethods m hm
    simp only [fieldNames, List.map_append, List.map_cons, List.map_nil, List.mem_append,
      List.mem_singleton, not_or] at hold ⊢
    exact ⟨⟨hold.1, hname⟩, hold.2⟩
  overloads := h.overloads
  constructors := h.constructors
  enumMembers := h.enumMembers
  ofEnum henum := absurd henum hkind
  ofOthers := h.ofOthers

theorem addStatic (h : d.MembersApart nested) (hkind : d.kind ≠ .enumKind) {f : StaticField}
    (hfields : f.name ∉ d.fieldNames) (hnested : f.name ∉ nested)
    (hmethods : ∀ m ∈ d.methods, m.name ≠ f.name) :
    ({ d with statics := d.statics ++ [f] } : TypeDef).MembersApart nested where
  names := by
    have hnew : f.name ∉ d.fieldNames ++ nested := by simp [hfields, hnested]
    have hnodup := List.nodup_middle.mpr (List.nodup_cons.mpr ⟨hnew, h.names⟩)
    simpa [fieldNames] using hnodup
  methods m hm := by
    have hold := h.methods m hm
    have hname := hmethods m hm
    simp only [fieldNames, List.map_append, List.map_cons, List.map_nil, List.mem_append,
      List.mem_singleton, not_or] at hold ⊢
    exact ⟨hold.1, hold.2, hname⟩
  overloads := h.overloads
  constructors := h.constructors
  enumMembers := h.enumMembers
  ofEnum henum := absurd henum hkind
  ofOthers := h.ofOthers

theorem addMethod (h : d.MembersApart nested) (hkind : d.kind ≠ .enumKind) {m : Method}
    (hfields : m.name ∉ d.fieldNames) (hnew : ∀ n ∈ d.methods, n.sameSignature m = false) :
    ({ d with methods := d.methods ++ [m] } : TypeDef).MembersApart nested where
  names := h.names
  methods n hn := by
    rcases List.mem_append.mp hn with hn | hn
    · exact h.methods n hn
    · rwa [List.mem_singleton.mp hn]
  overloads := by
    refine List.pairwise_append.mpr ⟨h.overloads, List.pairwise_singleton _ _, fun n hn k hk => ?_⟩
    rw [List.mem_singleton.mp hk]
    intro hname hparams
    simpa [Method.sameSignature, hname, hparams] using hnew n hn
  constructors := h.constructors
  enumMembers := h.enumMembers
  ofEnum henum := absurd henum hkind
  ofOthers := h.ofOthers

theorem addConstructor (h : d.MembersApart nested) {m : Method}
    (hnew : ∀ n ∈ d.constructors, n.paramTypes ≠ m.paramTypes) :
    ({ d with constructors := d.constructors ++ [m] } : TypeDef).MembersApart nested where
  names := h.names
  methods := h.methods
  overloads := h.overloads
  constructors := by
    refine List.pairwise_append.mpr ⟨h.constructors, List.pairwise_singleton _ _, fun n hn k hk => ?_⟩
    rw [List.mem_singleton.mp hk]
    exact hnew n hn
  enumMembers := h.enumMembers
  ofEnum := h.ofEnum
  ofOthers := h.ofOthers

theorem of_erased (h : d.MembersApart nested) (he : d'.erased = d.erased) :
    d'.MembersApart nested := by
  have hsame : ∀ e : TypeDef, e.erased.MembersApart nested ↔ e.MembersApart nested := by
    intro e
    have hparams : ∀ m : Method, m.erased.paramTypes = m.paramTypes := fun _ => rfl
    have hname : ∀ m : Method, m.erased.name = m.name := fun _ => rfl
    constructor
    · rintro ⟨h₁, h₂, h₃, h₄, h₅, h₆, h₇⟩
      refine ⟨h₁, fun m hm => h₂ m.erased (List.mem_map_of_mem hm), ?_, ?_, h₅, fun hk => ?_, h₇⟩
      · simpa only [hname, hparams] using List.pairwise_map.mp h₃
      · simpa only [hparams] using List.pairwise_map.mp h₄
      · obtain ⟨hfields, hstatics, hmethods⟩ := h₆ hk
        exact ⟨hfields, hstatics, List.map_eq_nil_iff.mp hmethods⟩
    · rintro ⟨h₁, h₂, h₃, h₄, h₅, h₆, h₇⟩
      refine ⟨h₁, fun m hm => ?_, List.pairwise_map.mpr ?_, List.pairwise_map.mpr ?_, h₅,
        fun hk => ?_, h₇⟩
      · obtain ⟨n, hn, rfl⟩ := List.mem_map.mp hm
        exact h₂ n hn
      · simpa only [hname, hparams] using h₃
      · simpa only [hparams] using h₄
      · obtain ⟨hfields, hstatics, hmethods⟩ := h₆ hk
        exact ⟨hfields, hstatics, List.map_eq_nil_iff.mpr hmethods⟩
  exact (hsame d').mp (he ▸ (hsame d).mpr h)

end TypeDef.MembersApart

/-- The members of every type are apart. -/
def Image.MembersApart (im : Image) : Prop :=
  ∀ p d, im.typeDef? p = some d → d.MembersApart (im.nestedNames p)

/-- The state is one on the way through the members of the declared types, which are apart so far. -/
structure BindState.KeepsApart (ds : List DeclaredType) (s : BindState) : Prop where
  cache : ∀ x ∈ s.cache, x.2.Known s.image
  usings : s.UsingsKnown
  distinct : (s.image.shape.map Prod.fst).Nodup
  found : ∀ x ∈ ds, ∃ d, s.image.typeDef? x.path = some d ∧ d.kind = x.head.kind
  apart : s.image.MembersApart

namespace BindState.KeepsApart

variable {ds : List DeclaredType} {s s' : BindState} {x : DeclaredType}

theorem quiet (h : s.KeepsApart ds) (hq : s.Quiet s') : s'.KeepsApart ds where
  cache := hq.cache
  usings := by
    have := h.usings
    unfold UsingsKnown at this ⊢
    rwa [hq.allUsings, hq.image]
  distinct := by rw [hq.image]; exact h.distinct
  found := by rw [hq.image]; exact h.found
  apart := by rw [hq.image]; exact h.apart

theorem withStore (h : s.KeepsApart ds) (store : Store) :
    ({ s with store } : BindState).KeepsApart ds := ⟨h.cache, h.usings, h.distinct, h.found, h.apart⟩

theorem kind (h : s.KeepsApart ds) (hx : x ∈ ds) {d : TypeDef}
    (hd : s.image.typeDef? x.path = some d) : d.kind = x.head.kind := by
  obtain ⟨e, he, hkind⟩ := h.found x hx
  obtain rfl : d = e := by simpa [hd] using he
  exact hkind

theorem update (h : s.KeepsApart ds) {p : Path} {f : TypeDef → TypeDef}
    (hf : ∀ d, s.image.typeDef? p = some d → d.MembersApart (s.image.nestedNames p) →
      (f d).kind = d.kind ∧ (f d).MembersApart (s.image.nestedNames p)) :
    ({ s with image := s.image.updateType p f } : BindState).KeepsApart ds := by
  have hkeeps : s.image.Keeps (s.image.updateType p f) :=
    Image.updateType_keeps fun d hd => (hf d hd (h.apart p d hd)).1
  have hshape := s.image.updateType_shape p f
  refine ⟨fun y hy => (h.cache y hy).keep hkeeps, fun u hu => (h.usings u hu).keep hkeeps, ?_,
    fun y hy => ?_, fun q e he => ?_⟩
  · change ((s.image.updateType p f).shape.map Prod.fst).Nodup
    rw [hshape]
    exact h.distinct
  · obtain ⟨d, hd, hkind⟩ := h.found y hy
    change ∃ e, (s.image.updateType p f).typeDef? y.path = some e ∧ _
    rw [Image.typeDef?_updateType]
    split
    · next hp =>
      rw [hp] at hd
      exact ⟨f d, by simp [hp, hd], (hf d hd (h.apart p d hd)).1.trans hkind⟩
    · exact ⟨d, hd, hkind⟩
  · change e.MembersApart ((s.image.updateType p f).nestedNames q)
    rw [Image.nestedNames_congr hshape]
    change (s.image.updateType p f).typeDef? q = some e at he
    rw [Image.typeDef?_updateType] at he
    split at he
    · next hp =>
      obtain ⟨d, hd, rfl⟩ := Option.map_eq_some_iff.mp he
      rw [hp] at hd ⊢
      exact (hf d hd (h.apart p d hd)).2
    · exact h.apart q e he

end BindState.KeepsApart

namespace Bind

variable {ds : List DeclaredType} {x : DeclaredType}

theorem populateBases_apart (x : DeclaredType) :
    Yields (fun s => s.KeepsApart ds) (populateBases x) fun _ => True := by
  intro s hs
  unfold populateBases
  refine quietThen hs.cache (Yields.keepSome fun base _ => resolveBase_quiet hs.usings x base)
    (fun found s₁ hq _ => ?_) (fun s' hq => hs.quiet hq) s rfl
  rintro s₂ rfl
  refine ⟨(hs.quiet hq).update fun d _ h => ⟨rfl, ?_⟩, trivial⟩
  exact ⟨h.names, h.methods, h.overloads, h.constructors, h.enumMembers, h.ofEnum, h.ofOthers⟩

theorem populateDeclarator_apart (hx : x ∈ ds) (hkind : x.head.kind ≠ .enumKind) (field : FieldDecl)
    (t : Ty) (v : Declarator) :
    Yields (fun s => s.KeepsApart ds) (populateDeclarator x field t v) fun _ => True := by
  intro s hs
  have hquiet : ∀ s', s.Quiet s' → s'.KeepsApart ds := fun s' hq => hs.quiet hq
  unfold populateDeclarator
  refine quietThen hs.cache (memberTaken_quiet _ _) (fun taken s₁ hq htaken => ?_) hquiet s rfl
  split
  · exact refuse_then hq.cache (fun s' hq' => hquiet s' (hq.trans hq')) _ _
  next hfree =>
  split
  · exact refuse_then hq.cache (fun s' hq' => hquiet s' (hq.trans hq')) _ _
  have hs₁ := hquiet s₁ hq
  have hnew : ∀ d, s₁.image.typeDef? x.path = some d → v.name.name ∉ d.fieldNames ∧
      v.name.name ∉ s₁.image.nestedNames x.path ∧ ∀ m ∈ d.methods, m.name ≠ v.name.name := by
    intro d hd
    rw [hq.image] at hd ⊢
    obtain ⟨hfields, hnested, hmethods⟩ := htaken (Bool.eq_false_iff.mpr hfree) d hd
    refine ⟨hfields, fun hmem => ?_, hmethods⟩
    rw [Image.nestedType?_of_mem hs.distinct hmem] at hnested
    cases hnested
  split
  · rintro s₂ rfl
    refine ⟨(hs₁.withStore _).update fun d hd h => ⟨rfl, ?_⟩, trivial⟩
    obtain ⟨hfields, hnested, hmethods⟩ := hnew d hd
    exact h.addStatic (hs₁.kind hx hd ▸ hkind) hfields hnested hmethods
  · rintro s₂ rfl
    refine ⟨hs₁.update fun d hd h => ⟨rfl, ?_⟩, trivial⟩
    obtain ⟨hfields, hnested, hmethods⟩ := hnew d hd
    exact h.addField (hs₁.kind hx hd ▸ hkind) hfields hnested hmethods

theorem populateField_apart (hx : x ∈ ds) (hkind : x.head.kind ≠ .enumKind) (field : FieldDecl) :
    Yields (fun s => s.KeepsApart ds) (populateField x field) fun _ => True := by
  intro s hs
  have hquiet : ∀ s', s.Quiet s' → s'.KeepsApart ds := fun s' hq => hs.quiet hq
  unfold populateField
  refine quietThen hs.cache (typeDef_quiet _) (fun d s₁ hq _ => ?_) hquiet s rfl
  have hquiet₁ : ∀ s', s₁.Quiet s' → s'.KeepsApart ds := fun s' hq' => hquiet s' (hq.trans hq')
  dsimp only
  split
  · exact refuse_then hq.cache hquiet₁ _ _
  split
  · exact refuse_then hq.cache hquiet₁ _ _
  refine quietThen hq.cache (resolveValueType_quiet (hquiet s₁ hq).usings _ _) (fun t s₂ hq₂ _ => ?_)
    hquiet₁
  rintro s₃ rfl
  exact (Yields.forAll fun v _ => populateDeclarator_apart hx hkind field t v).bind
    (fun _ _ => Yields.pure trivial) s₃ (hquiet₁ s₃ hq₂)

theorem populateMethod_apart (hx : x ∈ ds) (hkind : x.head.kind ≠ .enumKind) (m : MethodDecl) :
    Yields (fun s => s.KeepsApart ds) (populateMethod x m) fun _ => True := by
  intro s hs
  have hquiet : ∀ s', s.Quiet s' → s'.KeepsApart ds := fun s' hq => hs.quiet hq
  unfold populateMethod
  refine quietThen hs.cache (typeDef_quiet _) (fun t s₁ hq₁ ht => ?_) hquiet s rfl
  dsimp only
  refine quietThen hq₁.cache (checkMethod_quiet x t m) (fun _ s₂ hq₂ _ => ?_)
    fun s' hq => hquiet s' (hq₁.trans hq)
  have hq₂' := hq₁.trans hq₂
  refine quietThen hq₂.cache (resolveType_quiet (hquiet s₂ hq₂').usings _ _)
    (fun returns s₃ hq₃ _ => ?_) fun s' hq => hquiet s' (hq₂'.trans hq)
  have hq₃' := hq₂'.trans hq₃
  refine quietThen hq₃.cache (resolveParams_quiet (hquiet s₃ hq₃').usings _ _ _)
    (fun params s₄ hq₄ _ => ?_) fun s' hq => hquiet s' (hq₃'.trans hq)
  have hq₄' := hq₃'.trans hq₄
  split
  · exact refuse_then hq₄.cache (fun s' hq => hquiet s' (hq₄'.trans hq)) _ _
  next hclash =>
  rintro s₅ rfl
  have hs₅ := hquiet s₅ hq₄'
  refine ⟨hs₅.update fun d hd h => ⟨rfl, ?_⟩, trivial⟩
  -- nothing has changed since the definition was read
  have hkind' : d.kind ≠ .enumKind := hs₅.kind hx hd ▸ hkind
  obtain rfl : t = d := by
    rw [hq₄'.image] at hd
    simpa [hd] using ht
  simp only [Bool.or_eq_true, not_or, Bool.not_eq_true] at hclash
  obtain ⟨⟨hfield, hstatic⟩, hsame⟩ := hclash
  refine h.addMethod hkind' (fun hmem => ?_) (sameSignature_of_methodsNamed hsame)
  rcases List.mem_append.mp hmem with hmem | hmem
  · rw [TypeDef.isSome_field?.mpr hmem] at hfield
    cases hfield
  · rw [TypeDef.isSome_static?.mpr hmem] at hstatic
    cases hstatic

theorem populateConstructor_apart (x : DeclaredType) (c : ConstructorDecl) :
    Yields (fun s => s.KeepsApart ds) (populateConstructor x c) fun _ => True := by
  intro s hs
  have hquiet : ∀ s', s.Quiet s' → s'.KeepsApart ds := fun s' hq => hs.quiet hq
  unfold populateConstructor
  refine quietThen hs.cache (typeDef_quiet _) (fun t s₁ hq₁ ht => ?_) hquiet s rfl
  have hquiet₁ : ∀ s', s₁.Quiet s' → s'.KeepsApart ds := fun s' hq' => hquiet s' (hq₁.trans hq')
  split
  · exact refuse_then hq₁.cache hquiet₁ _ _
  split
  · exact refuse_then hq₁.cache hquiet₁ _ _
  split
  · exact refuse_then hq₁.cache hquiet₁ _ _
  refine quietThen hq₁.cache (resolveParams_quiet (hquiet s₁ hq₁).usings _ _ _)
    (fun params s₂ hq₂ _ => ?_) hquiet₁
  split
  · exact refuse_then hq₂.cache (fun s' hq => hquiet₁ s' (hq₂.trans hq)) _ _
  next hnew =>
  rintro s₃ rfl
  refine ⟨(hquiet₁ s₃ hq₂).update fun d hd h => ⟨rfl, h.addConstructor fun n hn hparams => ?_⟩, trivial⟩
  obtain rfl : t = d := by
    rw [hq₂.image, hq₁.image] at hd
    simpa [hd] using ht
  refine hnew (List.any_eq_true.mpr ⟨n, hn, ?_⟩)
  simpa [sameParams, Method.paramTypes] using hparams

theorem populateEnum_apart (hx : x ∈ ds) (hkind : x.head.kind = .enumKind) :
    Yields (fun s => s.KeepsApart ds) (populateEnum x) fun _ => True := by
  intro s hs
  unfold populateEnum
  refine quietThen hs.cache (enumMembers_quiet _ _ _ _) (fun values s₁ hq hvalues => ?_)
    (fun s' hq => hs.quiet hq) s rfl
  rintro s₂ rfl
  have hs₂ := hs.quiet hq
  refine ⟨hs₂.update fun d hd h => ⟨rfl, ?_⟩, trivial⟩
  have hkind' : d.kind = .enumKind := (hs₂.kind hx hd).trans hkind
  exact ⟨h.names, h.methods, h.overloads, h.constructors, hvalues List.nodup_nil, h.ofEnum,
    fun hother => absurd hkind' hother⟩

theorem populateMembers_apart (hx : x ∈ ds) (hkind : x.head.kind ≠ .enumKind) :
    ∀ (ms : List MemberDecl) (p : PopulatedType),
      Yields (fun s => s.KeepsApart ds) (populateMembers x p ms) fun _ => True
  | [], _ => Yields.pure trivial
  | .field f :: ms, p => by
    unfold populateMembers
    exact (populateField_apart hx hkind f).optional.bind fun _ _ => populateMembers_apart hx hkind ms _
  | .method m :: ms, p => by
    unfold populateMembers
    refine (populateMethod_apart hx hkind m).optional.bind fun i? _ => ?_
    cases i? <;> exact populateMembers_apart hx hkind ms _
  | .constructor c :: ms, p => by
    unfold populateMembers
    refine (populateConstructor_apart x c).optional.bind fun i? _ => ?_
    cases i? <;> exact populateMembers_apart hx hkind ms _
  | .enumMember _ :: ms, p | .nested _ _ _ :: ms, p => by
    unfold populateMembers
    exact populateMembers_apart hx hkind ms _

theorem populateType_apart (hx : x ∈ ds) :
    Yields (fun s => s.KeepsApart ds) (populateType x) fun _ => True := by
  unfold populateType
  refine (populateBases_apart x).bind fun _ _ => ?_
  split
  · next henum => exact (populateEnum_apart hx henum).bind fun _ _ => Yields.pure trivial
  · next henum => exact populateMembers_apart hx henum x.members _

theorem populateTypes_apart (ds : List DeclaredType) :
    Yields (fun s => s.KeepsApart ds) (populateTypes ds) fun _ => True := by
  unfold populateTypes
  refine (Yields.keepSome fun x hx => populateType_apart hx).bind fun ps _ => ?_
  intro s hs
  have hchecks : Checks s (Attempt.forAll checkConformance ds) (∀ x ∈ ds, ∀ d,
      s.image.typeDef? x.path = some d → s.image.Conforming d) :=
    Checks.forAll fun x _ => checkConformance_checks x
  refine Triple.bind (hchecks s (.refl hs.cache) |>.mono (fun _ h => h)
    (fun _ s' h => hs.quiet h.1) fun s' h => hs.quiet h.1) (fun _ => ?_) s rfl
  exact Triple.pure fun s' hs' => ⟨hs', trivial⟩

end Bind

end Chunkwise
