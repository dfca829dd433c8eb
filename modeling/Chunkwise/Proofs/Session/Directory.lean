import Chunkwise.Proofs.Binder.Directives
import Chunkwise.Proofs.Binder.Placement
import Chunkwise.Proofs.Session.Variables

/-!
In every session each path is taken once, the types are the built-in ones and those listed as declared,
and every directive denotes what it says. A chunk adds to all of this and changes nothing: paths go on
denoting what they denoted, types keep their members and the types nested in them, and the lists of a
session are continued at their ends.
-/
namespace Chunkwise

open Attempt

namespace Image

variable {im : Image}

theorem usings_prefix_addUsing (im : Image) (u : Using) : im.usings <+: (im.addUsing u).usings := by
  unfold addUsing
  split
  · exact List.prefix_rfl
  · exact List.prefix_append _ _

theorem usings_prefix_foldl (us : List Using) (im : Image) :
    im.usings <+: (us.foldl addUsing im).usings := by
  induction us generalizing im with
  | nil => exact List.prefix_rfl
  | cons u us ih => exact (usings_prefix_addUsing im u).trans (ih (im.addUsing u))

/-- No directive stands twice in a list. -/
def Once (us : List Using) : Prop :=
  us.Pairwise fun u v => ¬ (u.aliasName = v.aliasName ∧ u.targetName = v.targetName)

theorem once_addUsing (h : Once im.usings) (u : Using) : Once (im.addUsing u).usings := by
  unfold addUsing
  split
  · exact h
  · next hnew =>
    refine List.pairwise_append.mpr ⟨h, List.pairwise_singleton _ _, fun v hv w hw => ?_⟩
    rw [List.mem_singleton.mp hw]
    rintro ⟨halias, htarget⟩
    have hdiffers := List.any_eq_false.mp (Bool.eq_false_iff.mpr hnew) v hv
    simp [Using.sameDirective, halias, htarget] at hdiffers

theorem once_foldl (us : List Using) (h : Once im.usings) : Once (us.foldl addUsing im).usings := by
  induction us generalizing im with
  | nil => exact h
  | cons u us ih => exact ih (once_addUsing h u)

theorem commit_shape (im : Image) (us : List Using) (paths : List Path) :
    (im.commit us paths).shape = im.shape := by
  rw [shape, commit_entries, shape]

theorem foldl_addUsing_declared (us : List Using) (im : Image) :
    (us.foldl addUsing im).declared = im.declared := by
  induction us generalizing im with
  | nil => rfl
  | cons u us ih =>
    have hadd : (im.addUsing u).declared = im.declared := by
      unfold addUsing
      split <;> rfl
    exact (ih (im.addUsing u)).trans hadd

theorem commit_declared (im : Image) (us : List Using) (paths : List Path) :
    (im.commit us paths).declared = im.declared ++ paths := by
  simp only [commit, foldl_addUsing_declared]

/-- No path is taken twice, all names can stand between dots, and the types in order are the built-in ones
and those listed as declared. -/
structure Orderly (im : Image) : Prop where
  distinct : (im.shape.map Prod.fst).Nodup
  nonempty : ∀ x ∈ im.shape, x.1 ≠ []
  segments : ∀ x ∈ im.shape, ∀ n ∈ x.1, IsSegment n
  types : im.typePaths = Builtin.image.typePaths ++ im.declared

/-- Directives are not repeated, no alias stands for two targets, and every directive is resolved. -/
structure Directed (im : Image) : Prop where
  once : Once im.usings
  agree : AliasesAgree im.usings
  resolved : ∀ u ∈ im.usings, u.Resolved im

end Image

namespace Session

variable {s : Session} {src : Source} {code : Code} {b : BindState} {chunkClass : ChunkClass}

/-- What a bound chunk adds to the directory: containers at open places and resolved directives. -/
structure Lists (s : Session) (b : BindState) : Prop where
  places : s.image.Places b.image b.declared
  usings : b.image.usings = s.image.usings
  declared : b.image.declared = s.image.declared
  resolved : ∀ u ∈ b.usings, u.Resolved b.image
  agree : AliasesAgree (s.image.usings ++ b.usings)

theorem lists_of_hosted (h : b.Hosted s) (ho : s.image.Orderly) (hd : s.image.Directed) :
    s.Lists b where
  places := by
    rw [h.image, h.declared]
    exact .refl ho.distinct
  usings := by rw [h.image]
  declared := by rw [h.image]
  resolved := by simp [h.usings]
  agree := by simpa [h.usings] using hd.agree

theorem lists_of_staged {unit : DeclarationUnit} (hs : s.Valid) (hstaged : Bind.Staged s unit b)
    (hnamed : unit.Named) (hb : b.Delivers s code) (ho : s.image.Orderly) (hd : s.image.Directed) :
    s.Lists b := by
  obtain ⟨ds, s₁, s₂, hrun₁, hrun₂, hstays⟩ := hstaged
  have hroot : s.image.Open [] := ⟨fun hmem => ho.nonempty _ hmem rfl, by simp⟩
  have hmembers : ∀ n ∈ NamespaceMember.namesAll unit.members, IsSegment n :=
    fun n hn => hnamed.segments n (List.mem_append_right _ hn)
  have htargets : ∀ u ∈ unit.usings, ∀ n ∈ u.target.segments, IsSegment n := fun u hu n hn =>
    hnamed.segments n (List.mem_append_left _ (List.mem_flatMap.mpr ⟨u, hu, hn⟩))
  -- the first stage declares, and it leaves the directives alone
  have hstart : Bind.Placed s.image (.start s.image s.registry s.store) := .refl ho.distinct
  have hplaced := Triple.of_run (Bind.declareMembers_placed hroot unit.members hroot hmembers) hstart hrun₁
  have hdeclares := Triple.of_run (Bind.declareMembers_declares unit.members [] []) (.refl _) hrun₁
  have husings₁ := (hdeclares.extended s.image (.refl hs.closed)).usings
  have hnone : s₁.usings = [] := hdeclares.usings
  -- the second one binds the directives, and it leaves the image alone
  have hdirects₁ : s₁.Directs s₁ := by
    refine ⟨rfl, rfl, by simp [hnone], ?_⟩
    simpa [BindState.allUsings, hnone, husings₁] using hd.agree
  have hdirects := (Triple.of_run (Bind.bindUsings_directs htargets hnamed.targets) hdirects₁ hrun₂).1
  have hshape : b.image.shape = s₁.image.shape := by rw [hstays.shape, hdirects.image]
  have hagree := hdirects.agree
  rw [BindState.allUsings, hdirects.image, husings₁] at hagree
  refine ⟨?_, hb.extended.usings, hb.extended.declared, fun u hu => ?_, ?_⟩
  · rw [hstays.declared, hdirects.declared]
    exact hplaced.1.congr hshape
  · rw [hstays.usings] at hu
    have hresolved := hdirects.resolved u hu
    exact ⟨hresolved.space, (Image.lookup_congr hstays.shape _).trans hresolved.target⟩
  · rwa [hstays.usings]

theorem Bound.lists (h : s.Bound src code b chunkClass) (hs : s.Valid) (ho : s.image.Orderly)
    (hd : s.image.Directed) : s.Lists b := by
  cases h with
  | statements _ hrun _ =>
    have hhosted := (Triple.of_run (Bind.statementUnit_hosted hs _) rfl hrun).2.2
    exact lists_of_hosted hhosted ho hd
  | declarations hread hrun _ =>
    obtain ⟨-, hdelivers, hstaged⟩ := Triple.of_run (Bind.declarationUnit_stages hs _) rfl hrun
    unfold Parsed.clean? at hread
    split at hread
    · cases hread
    · next hclean =>
      exact lists_of_staged hs hstaged (named_of_read (Bool.eq_false_iff.mpr hclean) hread) hdelivers ho hd

theorem Lists.orderly (h : s.Lists b) (ho : s.image.Orderly) : (s.commit b).image.Orderly := by
  obtain ⟨new, hshape, htypes, hnew⟩ := h.places.added
  have hcommit : (s.commit b).image.shape = s.image.shape ++ new := by
    rw [← hshape]
    exact Image.commit_shape _ _ _
  refine ⟨?_, fun x hx => ?_, fun x hx => ?_, ?_⟩
  · rw [hcommit, ← hshape]
    exact h.places.distinct
  · rw [hcommit] at hx
    rcases List.mem_append.mp hx with hx | hx
    · exact ho.nonempty x hx
    · obtain ⟨parent, name, hpath, -⟩ := hnew x hx
      simp [hpath]
  · rw [hcommit] at hx
    rcases List.mem_append.mp hx with hx | hx
    · exact ho.segments x hx
    · obtain ⟨parent, name, hpath, hopen, hname⟩ := hnew x hx
      intro n hn
      rw [hpath] at hn
      rcases List.mem_append.mp hn with hn | hn
      · exact hopen.segments n hn
      · rwa [List.mem_singleton.mp hn]
  · have hdeclared : (s.commit b).image.declared = s.image.declared ++ b.declared := by
      rw [← h.declared]
      exact Image.commit_declared _ _ _
    rw [Image.typePaths, hcommit, hdeclared, List.filter_append, List.map_append, ← htypes,
      ← List.append_assoc, ← ho.types, Image.typePaths]

theorem Lists.directed (h : s.Lists b) (hd : s.image.Directed) : (s.commit b).image.Directed := by
  obtain ⟨new, hshape, -⟩ := h.places.added
  have hlookup : ∀ p, (s.commit b).image.lookup p = b.image.lookup p :=
    Image.lookup_congr (Image.commit_shape _ _ _)
  have hmem : ∀ u ∈ (s.commit b).image.usings, u ∈ s.image.usings ++ b.usings := by
    intro u hu
    rw [← h.usings]
    exact List.mem_append.mpr (Image.mem_foldl_addUsing hu)
  refine ⟨?_, fun u hu v hv => h.agree u (hmem u hu) v (hmem v hv), fun u hu => ?_⟩
  · exact Image.once_foldl b.usings (h.usings ▸ hd.once)
  · rcases List.mem_append.mp (hmem u hu) with hu | hu
    · have hold := hd.resolved u hu
      exact ⟨hold.space, (hlookup _).trans (Image.lookup_append hshape hold.target)⟩
    · have hnew := h.resolved u hu
      exact ⟨hnew.space, (hlookup _).trans hnew.target⟩

end Session

namespace Builtin

theorem image_orderly : image.Orderly where
  distinct := by decide
  nonempty := by decide
  segments := by decide
  types := rfl

end Builtin

namespace Evaluator

theorem ofSettings_orderly (settings : Settings) : (ofSettings settings).session.image.Orderly := by
  have hshape : (ofSettings settings).session.image.shape = Builtin.image.shape :=
    Image.commit_shape _ _ _
  have hdeclared : (ofSettings settings).session.image.declared = Builtin.image.declared :=
    Image.commit_declared _ _ _
  obtain ⟨hdistinct, hnonempty, hsegments, htypes⟩ := Builtin.image_orderly
  refine ⟨hshape ▸ hdistinct, hshape ▸ hnonempty, hshape ▸ hsegments, ?_⟩
  rw [Image.typePaths, hshape, hdeclared]
  exact htypes

theorem ofSettings_directed (settings : Settings) : (ofSettings settings).session.image.Directed := by
  have hlookup : ∀ p, (ofSettings settings).session.image.lookup p = Builtin.image.lookup p :=
    Image.lookup_congr (Image.commit_shape _ _ _)
  have hdefault : ∀ u ∈ (ofSettings settings).session.image.usings, ∃ p, u.aliasName = none ∧
      u.target = .space p ∧ Builtin.image.lookup (Path.ofText u.targetName) = some (.space p) := by
    intro u hu
    rcases Image.mem_foldl_addUsing hu with hu | hu
    · cases hu
    · obtain ⟨name, -, hname⟩ := List.mem_filterMap.mp hu
      split at hname
      · next path hpath =>
        cases hname
        exact ⟨path, rfl, rfl, hpath⟩
      · cases hname
  refine ⟨Image.once_foldl _ List.Pairwise.nil, fun u hu v hv name hname => ?_, fun u hu => ?_⟩
  · obtain ⟨p, hnone, -⟩ := hdefault u hu
    rw [hnone] at hname
    cases hname
  · obtain ⟨p, -, htarget, hp⟩ := hdefault u hu
    exact ⟨fun _ => ⟨p, htarget⟩, by rw [hlookup, hp, htarget]⟩

end Evaluator

namespace History

variable {h : History}

theorem Reachable.directory (hr : h.Reachable) :
    h.session.image.Orderly ∧ h.session.image.Directed := by
  induction hr with
  | start settings =>
    exact ⟨Evaluator.ofSettings_orderly settings, Evaluator.ofSettings_directed settings⟩
  | @compile h hr src chunkClass mode ih =>
    obtain ⟨ho, hd⟩ := ih
    change (h.session.compile src chunkClass mode).session.image.Orderly ∧
      (h.session.compile src chunkClass mode).session.image.Directed
    rw [Session.compile_session hr.valid.session]
    cases hb : h.session.binding? src chunkClass with
    | none => exact ⟨ho, hd⟩
    | some x =>
      have hlists := (Session.bound_of_binding? hb).lists hr.valid.session ho hd
      exact ⟨hlists.orderly ho, hlists.directed hd⟩
  | run _ _ _ ih => exact ih

/-- The tree of namespaces and types is consistent: no container has two children of one name, the
types in it are the built-in ones and the declared ones in order, their full names differ, and the full
name of a declared type denotes that type. -/
theorem Reachable.directory_consistent (hr : h.Reachable) :
    (h.session.image.entries.map Entry.path).Nodup ∧
    h.session.image.typePaths = Builtin.image.typePaths ++ h.session.image.declared ∧
    (h.session.image.typePaths.map Path.text).Nodup ∧
    ∀ p ∈ h.session.image.declared, h.session.image.lookup (Path.ofText p.text) = some (.type p) := by
  obtain ⟨ho, -⟩ := hr.directory
  have hpaths : h.session.image.shape.map Prod.fst = h.session.image.entries.map Entry.path := by
    simp [Image.shape, Entry.place, Function.comp_def]
  have hmem : ∀ p ∈ h.session.image.typePaths, (p, true) ∈ h.session.image.shape := by
    intro p hp
    obtain ⟨x, hx, rfl⟩ := List.mem_map.mp hp
    obtain ⟨hx, htype⟩ := List.mem_filter.mp hx
    rwa [← htype]
  have htext : ∀ p ∈ h.session.image.typePaths, Path.ofText p.text = p := fun p hp =>
    Path.ofText_text (ho.nonempty _ (hmem p hp)) (ho.segments _ (hmem p hp))
  refine ⟨hpaths ▸ ho.distinct, ho.types, ?_, fun p hp => ?_⟩
  · have hnodup : h.session.image.typePaths.Nodup :=
      (List.filter_sublist.map Prod.fst).nodup ho.distinct
    refine List.Nodup.map_on (fun p hp q hq heq => ?_) hnodup
    rw [← htext p hp, heq, htext q hq]
  · have hp' : p ∈ h.session.image.typePaths := by
      rw [ho.types]
      exact List.mem_append_right _ hp
    rw [htext p hp', Image.lookup_of_mem ho.distinct (ho.nonempty _ (hmem p hp')) (hmem p hp')]
    rfl

/-- A session that opens a namespace twice and gives a nested type another name. -/
def reopened : History :=
  ((start Settings.default).compile
    ⟨"test", "namespace N \x7b class A \x7b class B \x7b \x7d \x7d \x7d"⟩ .declarations .silent).compile
    ⟨"test", "using X = N.A.B; using System; namespace N \x7b class C \x7b \x7d \x7d"⟩ .declarations .silent

theorem reopened_reachable : reopened.Reachable := .compile (.compile (.start _) _ _ _) _ _ _

theorem reopened_image :
    reopened.session.image.declared = [["N", "A"], ["N", "A", "B"], ["N", "C"]] ∧
      reopened.session.image.usings = [⟨none, .space ["System"], "System"⟩,
        ⟨some "X", .type ["N", "A", "B"], "N.A.B"⟩] ∧
      reopened.session.image.lookup ["N", "A", "B"] = some (.type ["N", "A", "B"]) := by
  decide +kernel

theorem directory_consistent_reopened :
    reopened.session.image.lookup (Path.ofText "N.A.B") = some (.type ["N", "A", "B"]) ∧
      reopened.session.image.typePaths =
        Builtin.image.typePaths ++ [["N", "A"], ["N", "A", "B"], ["N", "C"]] := by
  obtain ⟨-, htypes, -, hlookup⟩ := reopened_reachable.directory_consistent
  rw [reopened_image.1] at htypes hlookup
  exact ⟨hlookup ["N", "A", "B"] (by simp), htypes⟩

/-- Directives stay functional and resolved, from whatever directives the settings give: none is
repeated, an alias has one target, only an alias stands for a type, and the text of a target still
denotes what was recorded. -/
theorem Reachable.directives_resolved (hr : h.Reachable) :
    (h.session.image.usings.Pairwise fun u v =>
      ¬ (u.aliasName = v.aliasName ∧ u.targetName = v.targetName)) ∧
    (∀ u ∈ h.session.image.usings, ∀ v ∈ h.session.image.usings, ∀ name,
      u.aliasName = some name → v.aliasName = some name → u.target = v.target) ∧
    (∀ u ∈ h.session.image.usings, u.aliasName = none → ∃ p, u.target = .space p) ∧
    ∀ u ∈ h.session.image.usings,
      h.session.image.lookup (Path.ofText u.targetName) = some u.target := by
  obtain ⟨-, hd⟩ := hr.directory
  refine ⟨hd.once, fun u hu v hv name hun hvn => ?_, fun u hu => (hd.resolved u hu).space,
    fun u hu => (hd.resolved u hu).target⟩
  have hu' := (hd.resolved u hu).target
  rw [hd.agree u hu v hv name hun hvn, (hd.resolved v hv).target] at hu'
  exact (Option.some.inj hu').symm

theorem directives_resolved_reopened :
    reopened.session.image.usings = [⟨none, .space ["System"], "System"⟩,
      ⟨some "X", .type ["N", "A", "B"], "N.A.B"⟩] ∧
    ∀ u ∈ reopened.session.image.usings,
      reopened.session.image.lookup (Path.ofText u.targetName) = some u.target :=
  ⟨reopened_image.2.1, reopened_reachable.directives_resolved.2.2.2⟩

end History

namespace Image

variable {old im : Image} {undo : UndoLog} {types : List Path}

theorem Extends.typeDef? (h : old.Extends im undo) {p : Path} {d : TypeDef}
    (hd : old.typeDef? p = some d) : im.typeDef? p = some d := by
  obtain ⟨new, hnew, -⟩ := h.entries
  unfold Image.typeDef? at hd ⊢
  have hfind : im.find? p = (old.find? p).or (new.find? fun e => e.path == p) := by
    unfold find?
    rw [hnew, List.find?_append]
  cases ho : old.find? p with
  | none => simp [ho] at hd
  | some e => rwa [hfind, ho, Option.some_or, ← ho]

theorem mem_shape_of_typeDef? {p : Path} {d : TypeDef} (h : im.typeDef? p = some d) :
    (p, true) ∈ im.shape :=
  List.mem_map.mpr ⟨⟨p, .type d⟩, typeDef?_mem h, rfl⟩

theorem Places.lookup_inside (h : old.Places im types) {p : Path} (hp : (p, true) ∈ old.shape)
    (name : String) : im.lookup (p ++ [name]) = old.lookup (p ++ [name]) := by
  obtain ⟨new, hshape, -, hnew⟩ := h.added
  cases hold : old.lookup (p ++ [name]) with
  | some e => exact lookup_append hshape hold
  | none =>
    rw [lookup_eq_none (by simp), find?_eq_none]
    intro e he hpath
    have hplace : e.place ∈ old.shape ++ new := hshape ▸ List.mem_map_of_mem he
    rcases List.mem_append.mp hplace with hplace | hplace
    · have htaken := List.mem_map_of_mem (f := Prod.fst) hplace
      exact notMem_of_lookup hold (hpath ▸ htaken)
    · obtain ⟨parent, n, hparent, hopen, -⟩ := hnew _ hplace
      have hsame : p ++ [name] = parent ++ [n] := hpath.symm.trans hparent
      obtain ⟨rfl, -⟩ := List.append_inj' hsame rfl
      exact hopen.notType hp

end Image

namespace Session

/-- The second session has what the first one has, and its lists go on where those of the first end. -/
structure Continues (s s' : Session) : Prop where
  paths : ∀ p e, s.image.lookup p = some e → s'.image.lookup p = some e
  types : ∀ p d, s.image.typeDef? p = some d → s'.image.typeDef? p = some d ∧
    ∀ name, s'.image.lookup (p ++ [name]) = s.image.lookup (p ++ [name])
  usings : s.image.usings <+: s'.image.usings
  declared : s.image.declared <+: s'.image.declared
  names : s.registry.names <+: s'.registry.names

variable {s : Session} {b : BindState} {code : Code} {log : List PendingVariable}

theorem Continues.refl (s : Session) : s.Continues s :=
  ⟨fun _ _ h => h, fun _ _ h => ⟨h, fun _ => rfl⟩, List.prefix_rfl, List.prefix_rfl, List.prefix_rfl⟩

theorem continues_commit (hlists : s.Lists b) (hb : b.Delivers s code) (hrecords : s.Records log) :
    s.Continues (s.commit b) := by
  have hlookup : ∀ p, (s.commit b).image.lookup p = b.image.lookup p :=
    Image.lookup_congr (Image.commit_shape _ _ _)
  obtain ⟨new, hshape, -⟩ := hlists.places.added
  refine ⟨fun p e he => ?_, fun p d hd => ⟨?_, fun name => ?_⟩, ?_, ?_, ?_⟩
  · rw [hlookup]
    exact Image.lookup_append hshape he
  · exact (Image.typeDef?_commit _ _ _ p).trans (hb.extended.typeDef? hd)
  · rw [hlookup]
    exact hlists.places.lookup_inside (Image.mem_shape_of_typeDef? hd) name
  · rw [← hlists.usings]
    exact Image.usings_prefix_foldl b.usings b.image
  · have hdeclared : (s.commit b).image.declared = s.image.declared ++ b.declared := by
      rw [← hlists.declared]
      exact Image.commit_declared _ _ _
    rw [hdeclared]
    exact List.prefix_append _ _
  · have hnames : (s.commit b).registry.names =
        (log.map PendingVariable.name ++ b.newVariables.map PendingVariable.name).eraseDups :=
      names_registerAll hrecords.names b.store b.newVariables
    rw [hnames, hrecords.names, List.eraseDups_append]
    exact List.prefix_append _ _

end Session

namespace History

variable {h : History}

/-- Whatever comes of compiling a chunk, the session only grows. -/
theorem Reachable.chunk_continues (hr : h.Reachable) (src : Source) (chunkClass : ChunkClass)
    (mode : ParseMode) :
    h.session.Continues (h.session.compile src chunkClass mode).session := by
  have hs := hr.valid.session
  rw [Session.compile_session hs]
  cases hb : h.session.binding? src chunkClass with
  | none => exact .refl _
  | some x =>
    have hbound := Session.bound_of_binding? hb
    obtain ⟨ho, hd⟩ := hr.directory
    obtain ⟨log, hlog⟩ := hr.declared
    exact Session.continues_commit (hbound.lists hs ho hd) (hbound.delivers hs) hlog.records

/-- A chunk that opens a namespace again. -/
theorem chunk_continues_reopened :
    reopened.session.image.lookup ["N", "A", "B"] = some (.type ["N", "A", "B"]) ∧
      (reopened.session.compile ⟨"test", "namespace N.A2 \x7b class B \x7b \x7d \x7d"⟩ .declarations
        .silent).session.image.lookup ["N", "A", "B"] = some (.type ["N", "A", "B"]) :=
  ⟨reopened_image.2.2, (reopened_reachable.chunk_continues _ _ _).paths _ _ reopened_image.2.2⟩

end History

end Chunkwise
