import Chunkwise.Proofs.Image.Lookup

/-!
`Extends old im undo` says that `im` is `old` and the additions in the log, in order, and that no
addition covers anything old. Declaring keeps it, and so does replacing the definition of an added
type. Taking the log back from such an image gives exactly the old one.
-/
namespace Chunkwise

def Addition.path (a : Addition) : Path := a.parent ++ [a.child]

def UndoLog.paths (u : UndoLog) : List Path := u.additions.reverse.map Addition.path

namespace Image

/-- Every container lies in a container. -/
def Closed (im : Image) : Prop :=
  ∀ e ∈ im.entries, ∀ p, p ≠ [] → p <+: e.path → ∃ e' ∈ im.entries, e'.path = p

structure Extends (old im : Image) (undo : UndoLog) : Prop where
  usings : im.usings = old.usings
  declared : im.declared = old.declared
  entries : ∃ new, im.entries = old.entries ++ new ∧ new.map Entry.path = undo.paths
  fresh : ∀ a ∈ undo.additions, ∀ e ∈ old.entries, ¬ a.path <+: e.path
  closed : im.Closed

theorem undoAll_usings (im : Image) (undo : UndoLog) : (im.undoAll undo).usings = im.usings := by
  obtain ⟨as⟩ := undo
  induction as generalizing im with
  | nil => rfl
  | cons a as ih => exact ih (im.removeChild a.parent a.child)

theorem undoAll_declared (im : Image) (undo : UndoLog) :
    (im.undoAll undo).declared = im.declared := by
  obtain ⟨as⟩ := undo
  induction as generalizing im with
  | nil => rfl
  | cons a as ih => exact ih (im.removeChild a.parent a.child)

/-- Undoing leaves the entries that no addition covers, in their order. -/
theorem undoAll_entries (im : Image) (undo : UndoLog) :
    (im.undoAll undo).entries =
      im.entries.filter fun e => undo.additions.all fun a => !a.path.isPrefixOf e.path := by
  obtain ⟨as⟩ := undo
  induction as generalizing im with
  | nil => exact (List.filter_eq_self.mpr (by simp)).symm
  | cons a as ih =>
    refine (ih (im.removeChild a.parent a.child)).trans ?_
    simp [removeChild, Addition.path, List.filter_filter, Bool.and_comm]

theorem Extends.undoAll {old im : Image} {undo : UndoLog} (h : Extends old im undo) :
    im.undoAll undo = old := by
  obtain ⟨new, hnew, hpaths⟩ := h.entries
  have hold : old.entries.filter
      (fun e => undo.additions.all fun a => !a.path.isPrefixOf e.path) = old.entries := by
    rw [List.filter_eq_self]
    intro e he
    simp only [List.all_eq_true, Bool.not_eq_true', Bool.eq_false_iff, ne_eq,
      List.isPrefixOf_iff_prefix]
    exact fun a ha => h.fresh a ha e he
  have hgone : new.filter
      (fun e => undo.additions.all fun a => !a.path.isPrefixOf e.path) = [] := by
    rw [List.filter_eq_nil_iff]
    intro e he hall
    have hmem : e.path ∈ undo.paths := hpaths ▸ List.mem_map_of_mem he
    obtain ⟨a, ha, hpath⟩ := List.mem_map.mp hmem
    have hnot := List.all_eq_true.mp hall a (List.mem_reverse.mp ha)
    rw [hpath, List.isPrefixOf_iff_prefix.mpr (List.prefix_refl e.path)] at hnot
    cases hnot
  have hentries : (im.undoAll undo).entries = old.entries := by
    rw [undoAll_entries, hnew, List.filter_append, hold, hgone, List.append_nil]
  have husings := (undoAll_usings im undo).trans h.usings
  have hdeclared := (undoAll_declared im undo).trans h.declared
  cases hu : im.undoAll undo
  cases old
  simp_all

theorem Extends.refl {old : Image} (h : old.Closed) : Extends old old .empty where
  usings := rfl
  declared := rfl
  entries := ⟨[], by simp, rfl⟩
  fresh := by simp [UndoLog.empty]
  closed := h

theorem Closed.add {im : Image} (h : im.Closed) (undo : UndoLog) {parent : Path} (name : String)
    (c : Container) (hp : parent = [] ∨ ∃ e ∈ im.entries, e.path = parent) :
    (im.add undo parent name c).1.Closed := by
  intro e he p hne hpre
  simp only [add_entries, List.mem_append, List.mem_singleton] at he ⊢
  rcases he with he | rfl
  · obtain ⟨e', he', rfl⟩ := h e he p hne hpre
    exact ⟨e', .inl he', rfl⟩
  · rcases List.prefix_concat_iff.mp hpre with rfl | hpre
    · exact ⟨_, .inr rfl, rfl⟩
    · rcases hp with rfl | ⟨e', he', rfl⟩
      · exact absurd (List.prefix_nil.mp hpre) hne
      · obtain ⟨e'', he'', rfl⟩ := h e' he' p hne hpre
        exact ⟨e'', .inl he'', rfl⟩

/-- A path that was free and lies in a container can be added. -/
theorem Extends.add {old im : Image} {undo : UndoLog} (h : Extends old im undo) {parent : Path}
    (name : String) (c : Container) (hp : parent = [] ∨ ∃ e ∈ im.entries, e.path = parent)
    (hfree : im.find? (parent ++ [name]) = none) :
    Extends old (im.add undo parent name c).1 (im.add undo parent name c).2 := by
  obtain ⟨new, hnew, hpaths⟩ := h.entries
  refine ⟨h.usings, h.declared, ⟨new ++ [⟨parent ++ [name], c⟩], ?_, ?_⟩, ?_,
    h.closed.add undo name c hp⟩
  · rw [add_entries, hnew, List.append_assoc]
  · change _ = (undo.record ⟨parent, name⟩).paths
    simp [hpaths, UndoLog.record, UndoLog.paths, Addition.path]
  · intro a ha e he hpre
    rcases List.mem_cons.mp ha with rfl | ha
    · obtain ⟨e', he', hpath⟩ :=
        h.closed e (hnew ▸ List.mem_append_left _ he) _ (by simp [Addition.path]) hpre
      exact find?_eq_none.mp hfree e' he' hpath
    · exact h.fresh a ha e he hpre

theorem Extends.updateType {old im : Image} {undo : UndoLog} (h : Extends old im undo) {p : Path}
    (f : TypeDef → TypeDef) (hp : p ∈ undo.paths) : Extends old (im.updateType p f) undo := by
  obtain ⟨new, hnew, hpaths⟩ := h.entries
  obtain ⟨a, ha, rfl⟩ := List.mem_map.mp hp
  have hold : old.entries.map (replaced a.path f) = old.entries := by
    refine (List.map_congr_left fun e he => replaced_of_ne ?_).trans (List.map_id' _)
    intro heq
    exact h.fresh a (List.mem_reverse.mp ha) e he (heq ▸ List.prefix_refl _)
  refine ⟨h.usings, h.declared, ⟨new.map (replaced a.path f), ?_, ?_⟩, h.fresh, ?_⟩
  · rw [updateType_entries, hnew, List.map_append, hold]
  · rw [List.map_map, ← hpaths]
    exact List.map_congr_left fun e _ => replaced_path _ _ e
  · intro e he q hne hpre
    rw [updateType_entries] at he ⊢
    obtain ⟨e₀, he₀, rfl⟩ := List.mem_map.mp he
    rw [replaced_path] at hpre
    obtain ⟨e', he', rfl⟩ := h.closed e₀ he₀ q hne hpre
    exact ⟨_, List.mem_map_of_mem he', replaced_path _ _ _⟩

/-- The chain of namespaces added by a declaration keeps the record, also if it stops halfway. -/
theorem Extends.declareNamespaceUnder {old im : Image} {undo : UndoLog} {parent : Path}
    (h : Extends old im undo) (hp : parent = [] ∨ ∃ e ∈ im.entries, e.path = parent)
    (names : List String) :
    Extends old (Image.declareNamespaceUnder parent names im undo).2.1
      (Image.declareNamespaceUnder parent names im undo).2.2 := by
  induction names generalizing im undo parent with
  | nil => exact h
  | cons name names ih =>
    unfold Image.declareNamespaceUnder
    split
    · exact h
    · next hl =>
      refine ih h (.inr ((lookup_ne_none (by simp)).mp ?_))
      rw [hl]
      simp
    · next hl =>
      have hfree := (lookup_eq_none (by simp)).mp hl
      refine ih (h.add name .space hp hfree) (.inr ⟨⟨parent ++ [name], .space⟩, ?_, rfl⟩)
      simp

theorem Extends.declareType {old im : Image} {undo : UndoLog} (h : Extends old im undo)
    (parent : Path) (name : String) (d : TypeDef) :
    Extends old (im.declareType parent name d undo).2.1 (im.declareType parent name d undo).2.2 := by
  unfold Image.declareType
  split
  · exact h
  · next hl =>
    split
    · exact h
    · next hfree =>
      refine h.add name (.type d) ?_ ((lookup_eq_none (by simp)).mp (by simpa using hfree))
      by_cases hpar : parent = []
      · exact .inl hpar
      · refine .inr ((lookup_ne_none hpar).mp ?_)
        rw [hl]
        simp

end Image

end Chunkwise
