import Chunkwise.Proofs.Binder.Placement
import Chunkwise.Proofs.Faithful.Declare
import Chunkwise.Proofs.Order.Unplaced

/-!
Types can be declared together if no two of them have the same path and each path is free before. Neither
depends on their order. If they can, `laid` is the state afterwards; if not, there is an issue.
-/
namespace Chunkwise

open Attempt

/-- No path is taken twice, by these types or by what is there before. -/
structure Image.Admits (im : Image) (ds : List DeclaredType) : Prop where
  distinct : (ds.map DeclaredType.path).Nodup
  free : ∀ d ∈ ds, im.lookup d.path = none

def DeclaredType.entry (d : DeclaredType) : Entry := ⟨d.path, .type d.bare⟩

/-- The state with these types declared. -/
def BindState.laid (s : BindState) (ds : List DeclaredType) : BindState :=
  { s with
    image := { s.image with entries := s.image.entries ++ ds.map DeclaredType.entry }
    undo := ⟨(ds.map fun d => ⟨d.ctx.container, d.name⟩).reverse ++ s.undo.additions⟩
    declared := s.declared ++ ds.map DeclaredType.path }

namespace BindState

variable {s : BindState} {ds es : List DeclaredType} {p : Path}

theorem laid_nil (s : BindState) : s.laid [] = s := by
  simp [laid]

theorem laid_append (s : BindState) (ds es : List DeclaredType) :
    s.laid (ds ++ es) = (s.laid ds).laid es := by
  simp [laid]

theorem find?_laid (s : BindState) (ds : List DeclaredType) (p : Path) :
    (s.laid ds).image.find? p =
      (s.image.find? p).or ((ds.find? fun d => d.path == p).map DeclaredType.entry) := by
  unfold Image.find? laid
  rw [List.find?_append, List.find?_map]
  rfl

theorem find?_path_of_notMem (hp : p ∉ ds.map DeclaredType.path) :
    (ds.find? fun d => d.path == p) = none := by
  rw [List.find?_eq_none]
  intro d hd hpath
  exact hp (List.mem_map.mpr ⟨d, hd, by simpa using hpath⟩)

theorem find?_laid_of_notMem (hp : p ∉ ds.map DeclaredType.path) :
    (s.laid ds).image.find? p = s.image.find? p := by
  rw [find?_laid, find?_path_of_notMem hp, Option.map_none, Option.or_none]

theorem find?_laid_of_mem (h : s.image.Admits ds) {d : DeclaredType} (hd : d ∈ ds) :
    (s.laid ds).image.find? d.path = some d.entry := by
  have hfree : s.image.find? d.path = none :=
    (Image.lookup_eq_none (by simp [DeclaredType.path])).mp (h.free d hd)
  have hfind : (ds.find? fun x => x.path == d.path) = some d := by
    cases hx : ds.find? fun x => x.path == d.path with
    | none => simpa using List.find?_eq_none.mp hx d hd
    | some x =>
      have hpath : x.path = d.path := by simpa using List.find?_some hx
      rw [List.inj_on_of_nodup_map h.distinct (List.mem_of_find?_eq_some hx) hd hpath]
  rw [find?_laid, hfree, hfind]
  rfl

theorem typeDef?_laid_of_mem (h : s.image.Admits ds) {d : DeclaredType} (hd : d ∈ ds) :
    (s.laid ds).image.typeDef? d.path = some d.bare := by
  unfold Image.typeDef?
  rw [find?_laid_of_mem h hd]
  rfl

theorem typeDef?_laid_of_notMem (hp : p ∉ ds.map DeclaredType.path) :
    (s.laid ds).image.typeDef? p = s.image.typeDef? p := by
  unfold Image.typeDef?
  rw [find?_laid_of_notMem hp]

theorem lookup_laid_of_mem (h : s.image.Admits ds) {d : DeclaredType} (hd : d ∈ ds) :
    (s.laid ds).image.lookup d.path = some (.type d.path) := by
  rw [Image.lookup_eq_type]
  exact ⟨rfl, by simp [DeclaredType.path], by rw [typeDef?_laid_of_mem h hd]; rfl⟩

theorem lookup_laid_of_notMem (hp : p ∉ ds.map DeclaredType.path) :
    (s.laid ds).image.lookup p = s.image.lookup p := by
  unfold Image.lookup
  rw [find?_laid_of_notMem hp]

end BindState

namespace Image.Admits

variable {s : BindState} {ds es : List DeclaredType}

theorem append_iff :
    s.image.Admits (ds ++ es) ↔ s.image.Admits ds ∧ (s.laid ds).image.Admits es := by
  have hapart : ∀ {p}, p ∉ ds.map DeclaredType.path → ((s.laid ds).image.lookup p = none ↔
      s.image.lookup p = none) := fun hp => by rw [BindState.lookup_laid_of_notMem hp]
  constructor
  · intro h
    have hdistinct := h.distinct
    rw [List.map_append, List.nodup_append] at hdistinct
    refine ⟨⟨hdistinct.1, fun d hd => h.free d (List.mem_append_left _ hd)⟩, hdistinct.2.1, ?_⟩
    intro e he
    have hnot : e.path ∉ ds.map DeclaredType.path := fun hmem =>
      hdistinct.2.2 _ hmem _ (List.mem_map_of_mem he) rfl
    exact (hapart hnot).mpr (h.free e (List.mem_append_right _ he))
  · rintro ⟨h, h'⟩
    have hnot : ∀ e ∈ es, e.path ∉ ds.map DeclaredType.path := by
      intro e he hmem
      obtain ⟨d, hd, hpath⟩ := List.mem_map.mp hmem
      have hfree := h'.free e he
      rw [← hpath, BindState.lookup_laid_of_mem h hd] at hfree
      cases hfree
    constructor
    · rw [List.map_append, List.nodup_append]
      refine ⟨h.distinct, h'.distinct, fun p hp q hq heq => ?_⟩
      obtain ⟨e, he, rfl⟩ := List.mem_map.mp hq
      exact hnot e he (heq ▸ hp)
    · intro d hd
      rcases List.mem_append.mp hd with hd | hd
      · exact h.free d hd
      · exact (hapart (hnot d hd)).mp (h'.free d hd)

theorem perm {im : Image} (h : im.Admits ds)
    (hperm : (ds.map DeclaredType.path).Perm (es.map DeclaredType.path)) : im.Admits es where
  distinct := hperm.nodup_iff.mp h.distinct
  free e he := by
    obtain ⟨d, hd, hpath⟩ := List.mem_map.mp (hperm.mem_iff.mpr (List.mem_map_of_mem he))
    rw [← hpath]
    exact h.free d hd

end Image.Admits

/-- The same types in another order lie at the same places. -/
theorem BindState.laid_perm {s : BindState} {ds es : List DeclaredType} (h : s.image.Admits ds)
    (h' : s.image.Admits es)
    (hperm : (ds.map DeclaredType.unplaced).Perm (es.map DeclaredType.unplaced)) :
    (s.laid ds).image.lookup = (s.laid es).image.lookup ∧
      (s.laid ds).image.typeDef? = (s.laid es).image.typeDef? := by
  have hwhere : ∀ p, (∃ d ∈ ds, ∃ e ∈ es, d.path = p ∧ e.path = p ∧ d.bare = e.bare) ∨
      p ∉ ds.map DeclaredType.path ∧ p ∉ es.map DeclaredType.path := by
    have hpaths := hperm.map DeclaredType.path
    rw [List.map_map, List.map_map] at hpaths
    intro p
    by_cases hp : p ∈ ds.map DeclaredType.path
    · obtain ⟨d, hd, rfl⟩ := List.mem_map.mp hp
      obtain ⟨e, he, hsame⟩ := List.mem_map.mp (hperm.mem_iff.mp (List.mem_map_of_mem hd))
      exact .inl ⟨d, hd, e, he, rfl, (congrArg DeclaredType.path hsame :),
        (congrArg DeclaredType.bare hsame.symm :)⟩
    · exact .inr ⟨hp, fun hmem => hp (hpaths.mem_iff.mpr hmem)⟩
  constructor
  · funext p
    rcases hwhere p with ⟨d, hd, e, he, rfl, hpath, -⟩ | ⟨hp, hp'⟩
    · rw [lookup_laid_of_mem h hd, ← hpath, lookup_laid_of_mem h' he]
    · rw [lookup_laid_of_notMem hp, lookup_laid_of_notMem hp']
  · funext p
    rcases hwhere p with ⟨d, hd, e, he, rfl, hpath, hbare⟩ | ⟨hp, hp'⟩
    · rw [typeDef?_laid_of_mem h hd, ← hpath, typeDef?_laid_of_mem h' he, hbare]
    · rw [typeDef?_laid_of_notMem hp, typeDef?_laid_of_notMem hp']

namespace Bind

/-- In a container that exists, the step declares exactly these types, or there is an issue if they cannot
be declared. -/
structure Lays (ctx : TypeContext) (p : Bind (List DeclaredType)) (ds : List DeclaredType) : Prop where
  counts : Counts p
  done : ∀ s, (s.image.lookup ctx.container).isSome → s.image.Admits ds → p s = (some ds, s.laid ds)
  refused : ∀ s, (s.image.lookup ctx.container).isSome → ¬s.image.Admits ds → s.count < (p s).2.count

theorem isSome_lookup_laid {s : BindState} {p : Path} (h : (s.image.lookup p).isSome)
    {ds : List DeclaredType} (hds : s.image.Admits ds) : ((s.laid ds).image.lookup p).isSome := by
  by_cases hp : p ∈ ds.map DeclaredType.path
  · obtain ⟨d, hd, rfl⟩ := List.mem_map.mp hp
    rw [BindState.lookup_laid_of_mem hds hd]
    rfl
  · rwa [BindState.lookup_laid_of_notMem hp]

namespace Lays

variable {ctx : TypeContext} {p q : Bind (List DeclaredType)} {ds es : List DeclaredType}

theorem nothing : Lays ctx (pure []) [] where
  counts := Counts.pure []
  done s _ _ := by
    rw [BindState.laid_nil]
    rfl
  refused s _ h := absurd ⟨List.nodup_nil, by simp⟩ h

theorem andThen (hp : Lays ctx p ds) (hq : Lays ctx q es) :
    Lays ctx (do
      let found ← p
      let more ← q
      return found ++ more) (ds ++ es) where
  counts := hp.counts.bind fun _ => hq.counts.bind fun _ => Counts.pure _
  done s hs h := by
    obtain ⟨hfirst, hsecond⟩ := Image.Admits.append_iff.mp h
    have hrest := hq.done _ (isSome_lookup_laid hs hfirst) hsecond
    rw [bind_eq_of_run (hp.done s hs hfirst), bind_eq_of_run hrest, BindState.laid_append]
    rfl
  refused s hs h := by
    have hrest : ∀ found, Counts (do
        let more ← q
        return found ++ more) := fun _ => hq.counts.bind fun _ => Counts.pure _
    by_cases hfirst : s.image.Admits ds
    · have hsecond : ¬(s.laid ds).image.Admits es := fun h' => h (Image.Admits.append_iff.mpr ⟨hfirst, h'⟩)
      have hcount := hq.refused _ (isSome_lookup_laid hs hfirst) hsecond
      rw [bind_eq_of_run (hp.done s hs hfirst)]
      exact Nat.lt_of_lt_of_le hcount (Counts.le_bind q _ fun _ => Counts.pure _)
    · exact Nat.lt_of_lt_of_le (hp.refused s hs hfirst) (Counts.le_bind p s hrest)

end Lays

theorem declareHead_done (x : DeclaredType) {s : BindState}
    (hparent : (s.image.lookup x.ctx.container).isSome) (hfree : s.image.lookup x.path = none) :
    declareHead x.ctx x.head s = (some (), s.laid [x]) := by
  obtain ⟨e, he⟩ := Option.isSome_iff_exists.mp hparent
  have hadd : s.image.declareType x.ctx.container x.name x.bare s.undo =
      (.ok (), (s.laid [x]).image, (s.laid [x]).undo) := by
    unfold Image.declareType
    rw [he, show s.image.lookup (x.ctx.container ++ [x.name]) = none from hfree]
    rfl
  have hedit : edit (fun im undo => im.declareType x.ctx.container x.name x.bare undo) s =
      (some (.ok ()), { s with image := (s.laid [x]).image, undo := (s.laid [x]).undo }) := by
    simp only [edit, hadd]
  exact bind_eq_of_run hedit

theorem declareHead_refused (x : DeclaredType) {s : BindState}
    (hparent : (s.image.lookup x.ctx.container).isSome) (htaken : s.image.lookup x.path ≠ none) :
    ∃ i, declareHead x.ctx x.head s = (none, { s with issues := s.issues.push i }) := by
  obtain ⟨e, he⟩ := Option.isSome_iff_exists.mp hparent
  have hadd : s.image.declareType x.ctx.container x.name x.bare s.undo =
      (.error (.duplicate x.name), s.image, s.undo) := by
    unfold Image.declareType
    rw [he]
    exact if_pos (Option.isSome_iff_ne_none.mpr htaken)
  have hedit : edit (fun im undo => im.declareType x.ctx.container x.name x.bare undo) s =
      (some (.error (.duplicate x.name)), s) := by
    simp only [edit, hadd]
  exact ⟨_, bind_eq_of_run hedit⟩

theorem Lays.head {x : DeclaredType} {p q : Bind (List DeclaredType)} {es : List DeclaredType}
    (hcounts : Counts p) (hq : Lays x.inside q es)
    (hdone : ∀ s s', declareHead x.ctx x.head s = (some (), s') →
      p s = (q >>= fun inner => pure (x :: inner)) s')
    (hrefused : ∀ s s', declareHead x.ctx x.head s = (none, s') → p s = (some [], s')) :
    Lays x.ctx p (x :: es) := by
  have hsplit : ∀ s : BindState, s.image.Admits (x :: es) ↔
      s.image.lookup x.path = none ∧ (s.laid [x]).image.Admits es := by
    intro s
    rw [← List.singleton_append, Image.Admits.append_iff]
    refine and_congr_left fun _ => ⟨fun h => h.free x List.mem_cons_self, fun h => ⟨by simp, ?_⟩⟩
    intro d hd
    rwa [List.mem_singleton.mp hd]
  have hinside : ∀ s : BindState, s.image.lookup x.path = none →
      ((s.laid [x]).image.lookup x.inside.container).isSome := by
    intro s hfree
    have hone : s.image.Admits [x] := by
      refine ⟨by simp, fun d hd => ?_⟩
      rwa [List.mem_singleton.mp hd]
    have hpath : x.inside.container = x.path := by
      simp [DeclaredType.inside, DeclaredType.path, TypeContext.nested, TypeContext.container]
    rw [hpath, BindState.lookup_laid_of_mem hone List.mem_cons_self]
    rfl
  refine ⟨hcounts, fun s hs h => ?_, fun s hs h => ?_⟩
  · obtain ⟨hfree, hrest⟩ := (hsplit s).mp h
    rw [hdone s _ (declareHead_done x hs hfree), bind_eq_of_run (hq.done _ (hinside s hfree) hrest),
      ← List.singleton_append, BindState.laid_append]
    rfl
  · by_cases hfree : s.image.lookup x.path = none
    · have hrest : ¬(s.laid [x]).image.Admits es := fun h' => h ((hsplit s).mpr ⟨hfree, h'⟩)
      rw [hdone s _ (declareHead_done x hs hfree)]
      have hcount : (s.laid [x]).count < _ := hq.refused _ (hinside s hfree) hrest
      exact Nat.lt_of_lt_of_le hcount (Counts.le_bind q _ fun _ => Counts.pure _)
    · obtain ⟨i, hi⟩ := declareHead_refused x hs hfree
      rw [hrefused s _ hi]
      exact Nat.lt_succ_self _

mutual

theorem declareInner_lays : ∀ (m : MemberDecl) (ctx : TypeContext),
    Lays ctx (declareInner ctx m) (m.types ctx)
  | .nested span head members, ctx => by
    have hcounts : Counts (declareInner ctx (.nested span head members)) :=
      (declareInner_sure (.nested span head members) ctx (H := True)).grows
    unfold MemberDecl.types
    refine Lays.head (x := ⟨head, members, ctx⟩) hcounts (declareNested_lays members _) ?_ ?_
    · intro s s' h
      unfold declareInner
      exact bind_eq_of_run (optional_of_run h)
    · intro s s' h
      unfold declareInner
      exact bind_eq_of_run (optional_of_run h)
  | .field _, _ | .method _, _ | .constructor _, _ | .enumMember _, _ => by
    unfold declareInner MemberDecl.types
    exact .nothing

theorem declareNested_lays : ∀ (ms : List MemberDecl) (ctx : TypeContext),
    Lays ctx (declareNested ctx ms) (MemberDecl.nestedTypes ctx ms)
  | [], _ => by
    unfold declareNested MemberDecl.nestedTypes
    exact .nothing
  | m :: rest, ctx => by
    unfold declareNested MemberDecl.nestedTypes
    exact (declareInner_lays m ctx).andThen (declareNested_lays rest ctx)

end

theorem declareType_lays (d : TypeDecl) : Lays .top (declareType [] d) d.types := by
  have hcounts : Counts (declareType [] d) := (declareType_sure [] d (H := True)).grows
  unfold TypeDecl.types NamespaceMember.types
  refine Lays.head (x := ⟨d.head, d.members, .top⟩) hcounts (declareNested_lays d.members _) ?_ ?_
  · intro s s' h
    unfold declareType
    exact bind_eq_of_run (optional_of_run h)
  · intro s s' h
    unfold declareType
    exact bind_eq_of_run (optional_of_run h)

theorem declareMembers_lays (ds : List TypeDecl) :
    Lays .top (declareMembers [] (ds.map .type)) (ds.flatMap TypeDecl.types) := by
  induction ds with
  | nil => exact .nothing
  | cons d ds ih =>
    rw [List.map_cons, List.flatMap_cons]
    unfold declareMembers
    exact (declareType_lays d).andThen ih

end Bind

end Chunkwise
