import Chunkwise.Proofs.Binder.Declare
import Chunkwise.Proofs.Image.Shape
import Chunkwise.Proofs.Parser.Names

namespace Chunkwise

open Attempt

namespace Image

/-- A place at which a chunk may declare something: no type of the old image. -/
structure Open (old : Image) (p : Path) : Prop where
  notType : (p, true) ∉ old.shape
  segments : ∀ n ∈ p, IsSegment n

/-- The image is the old one and some additions at open places, `types` are the types among them, and
no path is taken twice. -/
structure Places (old im : Image) (types : List Path) : Prop where
  added : ∃ new, im.shape = old.shape ++ new ∧ types = (new.filter Prod.snd).map Prod.fst ∧
    ∀ x ∈ new, ∃ parent name, x.1 = parent ++ [name] ∧ old.Open parent ∧ IsSegment name
  distinct : (im.shape.map Prod.fst).Nodup

variable {old im : Image} {types : List Path} {parent : Path} {name : String}

theorem lookup_of_mem {p : Path} {b : Bool} (hdistinct : (im.shape.map Prod.fst).Nodup)
    (hne : p ≠ []) (h : (p, b) ∈ im.shape) :
    im.lookup p = some (if b then .type p else .space p) := by
  have hfind : (im.shape.find? fun x => x.1 == p) = some (p, b) := by
    cases hf : im.shape.find? fun x => x.1 == p with
    | none => simpa using List.find?_eq_none.mp hf (p, b) h
    | some x =>
      have hpath : x.1 = p := by simpa using List.find?_some hf
      have hmem := List.mem_of_find?_eq_some hf
      rw [List.inj_on_of_nodup_map hdistinct hmem h hpath]
  rw [lookup_eq, if_neg (by simpa using hne), hfind, Option.map_some]

theorem notMem_of_lookup (h : im.lookup (parent ++ [name]) = none) :
    parent ++ [name] ∉ im.shape.map Prod.fst := by
  intro hmem
  obtain ⟨x, hx, hpath⟩ := List.mem_map.mp hmem
  have hnone := (lookup_eq_none (by simp)).mp h
  obtain ⟨e, he, rfl⟩ := List.mem_map.mp hx
  exact find?_eq_none.mp hnone e he hpath

theorem add_shape (im : Image) (undo : UndoLog) (parent : Path) (name : String) (c : Container) :
    (im.add undo parent name c).1.shape = im.shape ++ [(parent ++ [name], c.isType)] := by
  simp [shape, add_entries, Entry.place]

namespace Places

theorem refl (h : (old.shape.map Prod.fst).Nodup) : old.Places old [] :=
  ⟨⟨[], by simp, rfl, by simp⟩, h⟩

theorem congr (h : old.Places im types) {im' : Image} (hshape : im'.shape = im.shape) :
    old.Places im' types := by
  obtain ⟨new, hnew⟩ := h.added
  exact ⟨⟨new, hshape ▸ hnew⟩, hshape ▸ h.distinct⟩

theorem add (h : old.Places im types) (hopen : old.Open parent) (hname : IsSegment name)
    (hfree : im.lookup (parent ++ [name]) = none) (undo : UndoLog) (c : Container) :
    old.Places (im.add undo parent name c).1
      (if c.isType then types ++ [parent ++ [name]] else types) := by
  obtain ⟨new, hshape, htypes, hnew⟩ := h.added
  refine ⟨⟨new ++ [(parent ++ [name], c.isType)], ?_, ?_, ?_⟩, ?_⟩
  · rw [add_shape, hshape, List.append_assoc]
  · cases hc : c.isType <;> simp [htypes]
  · intro x hx
    rcases List.mem_append.mp hx with hx | hx
    · exact hnew x hx
    · rw [List.mem_singleton.mp hx]
      exact ⟨parent, name, rfl, hopen, hname⟩
  · rw [add_shape, List.map_append, List.map_singleton]
    exact List.concat_eq_append ▸ h.distinct.concat (notMem_of_lookup hfree)

theorem open_of_free (h : old.Places im types) (hopen : old.Open parent) (hname : IsSegment name)
    (hfree : im.lookup (parent ++ [name]) = none) : old.Open (parent ++ [name]) := by
  obtain ⟨new, hshape, -⟩ := h.added
  refine ⟨fun hmem => notMem_of_lookup hfree ?_, ?_⟩
  · rw [hshape, List.map_append]
    exact List.mem_append_left _ (List.mem_map_of_mem hmem)
  · intro n hn
    rcases List.mem_append.mp hn with hn | hn
    · exact hopen.segments n hn
    · rwa [List.mem_singleton.mp hn]

theorem open_of_space (h : old.Places im types) (hopen : old.Open parent) (hname : IsSegment name)
    {q : Path} (hspace : im.lookup (parent ++ [name]) = some (.space q)) :
    old.Open (parent ++ [name]) := by
  obtain ⟨new, hshape, -⟩ := h.added
  refine ⟨fun hmem => ?_, ?_⟩
  · have hmem' : (parent ++ [name], true) ∈ im.shape := by
      rw [hshape]
      exact List.mem_append_left _ hmem
    rw [lookup_of_mem h.distinct (by simp) hmem'] at hspace
    cases hspace
  · intro n hn
    rcases List.mem_append.mp hn with hn | hn
    · exact hopen.segments n hn
    · rwa [List.mem_singleton.mp hn]

theorem declareNamespaceUnder (h : old.Places im types) (hopen : old.Open parent) {names : List String}
    (hnames : ∀ n ∈ names, IsSegment n) (undo : UndoLog) :
    old.Places (Image.declareNamespaceUnder parent names im undo).2.1 types ∧
      ((Image.declareNamespaceUnder parent names im undo).1 = .ok () → old.Open (parent ++ names)) := by
  induction names generalizing parent im undo with
  | nil => exact ⟨h, fun _ => by simpa using hopen⟩
  | cons name names ih =>
    have hname := hnames name List.mem_cons_self
    have hrest : ∀ n ∈ names, IsSegment n := fun n hn => hnames n (List.mem_cons_of_mem _ hn)
    rw [List.append_cons]
    unfold Image.declareNamespaceUnder
    split
    · exact ⟨h, nofun⟩
    · next hspace => exact ih h (h.open_of_space hopen hname hspace) hrest undo
    · next hfree =>
      have hadd := h.add hopen hname hfree undo .space
      exact ih hadd (h.open_of_free hopen hname hfree) hrest _

/-- A type is declared at an open place, or nothing changes. -/
theorem declareType (h : old.Places im types) (hopen : old.Open parent) (hname : IsSegment name)
    (d : TypeDef) (undo : UndoLog) :
    (∃ e, im.declareType parent name d undo = (.error e, im, undo)) ∨
    (im.declareType parent name d undo).1 = .ok () ∧
      old.Places (im.declareType parent name d undo).2.1 (types ++ [parent ++ [name]]) ∧
      old.Open (parent ++ [name]) := by
  unfold Image.declareType
  split
  · exact .inl ⟨_, rfl⟩
  · split
    · exact .inl ⟨_, rfl⟩
    · next htaken =>
      have hfree : im.lookup (parent ++ [name]) = none := Option.not_isSome_iff_eq_none.mp htaken
      exact .inr ⟨rfl, h.add hopen hname hfree undo (.type d), h.open_of_free hopen hname hfree⟩

end Places

end Image

namespace Bind

variable {old : Image}

/-- The invariant of the first stage. -/
def Placed (old : Image) (s : BindState) : Prop := old.Places s.image s.declared

theorem refuse_placed {α : Type} {Q : α → Prop} (p : Problem) (span : Span) :
    Yields (Placed old) (refuse p span : Bind α) Q :=
  fun _ h => h

theorem declareHead_placed (head : TypeHead) {ctx : TypeContext} (hopen : old.Open ctx.container)
    (hname : IsSegment head.name.name) :
    Yields (Placed old) (declareHead ctx head)
      fun _ => old.Open (ctx.nested head.name.name).container := by
  have hnested : (ctx.nested head.name.name).container = ctx.container ++ [head.name.name] := by
    simp [TypeContext.nested, TypeContext.container]
  rw [hnested]
  -- between the edit and its note in the list of types, the list lags behind
  refine Triple.bind (Q := fun r s => match r with
    | .ok () => old.Places s.image (s.declared ++ [ctx.container ++ [head.name.name]]) ∧
        old.Open (ctx.container ++ [head.name.name])
    | .error _ => Placed old s) (edit_triple fun s hs => ?_) fun r => ?_
  · have hdeclare := hs.declareType hopen hname (.bare head.kind
      (head.modifiers.contains .staticMember) (head.modifiers.contains .abstractMember)) s.undo
    dsimp only
    rcases hdeclare with ⟨e, he⟩ | ⟨hok, hplaces, hinner⟩
    · rw [he]
      exact hs
    · rw [hok]
      exact ⟨hplaces, hinner⟩
  · match r with
    | .ok () => exact Triple.modify fun s h => h
    | .error (.duplicate _) => exact refuse_placed _ _
    | .error (.notANamespace _) => exact refuse_placed _ _
    | .error .missingParent => exact refuse_placed _ _

theorem declareSpace_placed (hroot : old.Open []) {path : Path} (name : QualifiedName)
    (hnames : ∀ n ∈ path, IsSegment n) :
    Yields (Placed old) (declareSpace path name) fun _ => old.Open path := by
  refine Triple.bind
    (Q := fun r s => Placed old s ∧ (r = (.ok () : Except DeclareError Unit) → old.Open path))
    (edit_triple fun s hs => hs.declareNamespaceUnder hroot hnames s.undo) fun r => ?_
  have hrefuse : ∀ p, Triple (fun s => Placed old s ∧ (r = .ok () → old.Open path))
      (refuse p name.span : Bind Unit) (fun _ s => Placed old s ∧ old.Open path) (Placed old) := fun p =>
    Triple.mono (refuse_placed p name.span) (fun _ h => h.1) (fun _ _ h => h) fun _ h => h
  match r with
  | .ok () => exact Triple.pure fun s h => ⟨h.1, h.2 rfl⟩
  | .error (.duplicate _) => exact hrefuse _
  | .error (.notANamespace _) => exact hrefuse _
  | .error .missingParent => exact hrefuse _

theorem andThen_placed {p q : Bind (List DeclaredType)} (hp : Yields (Placed old) p fun _ => True)
    (hq : Yields (Placed old) q fun _ => True) :
    Yields (Placed old) (do
      let found ← p
      let more ← q
      return found ++ more) fun _ => True :=
  hp.bind fun _ _ => hq.bind fun _ _ => Yields.pure trivial

mutual

theorem declareInner_placed : ∀ (m : MemberDecl) {ctx : TypeContext}, old.Open ctx.container →
    (∀ n ∈ m.typeNames, IsSegment n) → Yields (Placed old) (declareInner ctx m) fun _ => True
  | .nested _ head members, ctx, hopen, hnames => by
    unfold declareInner
    rw [MemberDecl.typeNames] at hnames
    have hhead := declareHead_placed head hopen (hnames _ List.mem_cons_self)
    refine hhead.optional.bind fun r hr => ?_
    cases r with
    | none => exact Yields.pure trivial
    | some _ =>
      have hinner := declareNested_placed members (hr () rfl)
        fun n hn => hnames n (List.mem_cons_of_mem _ hn)
      exact hinner.bind fun _ _ => Yields.pure trivial
  | .field _, _, _, _ | .method _, _, _, _ | .constructor _, _, _, _ | .enumMember _, _, _, _ => by
    unfold declareInner
    exact Yields.pure trivial

theorem declareNested_placed : ∀ (ms : List MemberDecl) {ctx : TypeContext}, old.Open ctx.container →
    (∀ n ∈ MemberDecl.typeNamesAll ms, IsSegment n) →
    Yields (Placed old) (declareNested ctx ms) fun _ => True
  | [], _, _, _ => by
    unfold declareNested
    exact Yields.pure trivial
  | m :: rest, ctx, hopen, hnames => by
    unfold declareNested
    rw [MemberDecl.typeNamesAll] at hnames
    exact andThen_placed (declareInner_placed m hopen fun n hn => hnames n (List.mem_append_left _ hn))
      (declareNested_placed rest hopen fun n hn => hnames n (List.mem_append_right _ hn))

end

theorem declareType_placed {space : Path} (hopen : old.Open space) (decl : TypeDecl)
    (hnames : ∀ n ∈ decl.head.name.name :: MemberDecl.typeNamesAll decl.members, IsSegment n) :
    Yields (Placed old) (declareType space decl) fun _ => True := by
  unfold declareType
  have hcontainer : old.Open (TypeContext.container ⟨space, []⟩) := by
    simpa [TypeContext.container] using hopen
  have hhead := declareHead_placed decl.head hcontainer (hnames _ List.mem_cons_self)
  refine hhead.optional.bind fun r hr => ?_
  cases r with
  | none => exact Yields.pure trivial
  | some _ =>
    have hinner := declareNested_placed decl.members (hr () rfl)
      fun n hn => hnames n (List.mem_cons_of_mem _ hn)
    exact hinner.bind fun _ _ => Yields.pure trivial

mutual

theorem declareMember_placed (hroot : old.Open []) : ∀ (m : NamespaceMember) {space : Path},
    old.Open space → (∀ n ∈ m.names, IsSegment n) →
    Yields (Placed old) (declareMember space m) fun _ => True
  | .space _ name members, space, hopen, hnames => by
    unfold declareMember
    rw [NamespaceMember.names] at hnames
    have hpath : ∀ n ∈ space ++ name.segments, IsSegment n := by
      intro n hn
      rcases List.mem_append.mp hn with hn | hn
      · exact hopen.segments n hn
      · exact hnames n (List.mem_append_left _ hn)
    refine (declareSpace_placed hroot name hpath).optional.bind fun r hr => ?_
    cases r with
    | none => exact Yields.pure trivial
    | some _ =>
      exact declareMembers_placed hroot members (hr () rfl)
        fun n hn => hnames n (List.mem_append_right _ hn)
  | .type decl, space, hopen, hnames => by
    unfold declareMember
    exact declareType_placed hopen decl hnames

theorem declareMembers_placed (hroot : old.Open []) : ∀ (ms : List NamespaceMember) {space : Path},
    old.Open space → (∀ n ∈ NamespaceMember.namesAll ms, IsSegment n) →
    Yields (Placed old) (declareMembers space ms) fun _ => True
  | [], _, _, _ => by
    unfold declareMembers
    exact Yields.pure trivial
  | m :: rest, space, hopen, hnames => by
    unfold declareMembers
    rw [NamespaceMember.namesAll] at hnames
    exact andThen_placed
      (declareMember_placed hroot m hopen fun n hn => hnames n (List.mem_append_left _ hn))
      (declareMembers_placed hroot rest hopen fun n hn => hnames n (List.mem_append_right _ hn))

end

end Bind

end Chunkwise
