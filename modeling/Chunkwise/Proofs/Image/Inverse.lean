import Chunkwise.Proofs.Image.Rollback

/-!
Any number of declarations, whether they succeed, fail or fail halfway, is recorded in one log.
Executing the log gives back the image from before and leaves the log empty. The log is as long as
the list of containers that were added.
-/
namespace Chunkwise

/-- One call that declares into an image. -/
inductive Declaration where
  | space (path : Path)
  | type (parent : Path) (name : String) (definition : TypeDef)

namespace Image

variable {old im : Image} {undo : UndoLog}

/-- The image and the log after a call, whatever it answers. -/
def declare (im : Image) (undo : UndoLog) : Declaration → Image × UndoLog
  | .space path => (im.declareNamespace path undo).2
  | .type parent name definition => (im.declareType parent name definition undo).2

def declareAll (im : Image) (undo : UndoLog) : List Declaration → Image × UndoLog
  | [] => (im, undo)
  | call :: rest => declareAll (im.declare undo call).1 (im.declare undo call).2 rest

theorem Extends.declare (h : Extends old im undo) (call : Declaration) :
    Extends old (im.declare undo call).1 (im.declare undo call).2 := by
  cases call with
  | space path => exact h.declareNamespaceUnder (.inl rfl) path
  | type parent name definition => exact h.declareType parent name definition

theorem Extends.declareAll (h : Extends old im undo) (calls : List Declaration) :
    Extends old (im.declareAll undo calls).1 (im.declareAll undo calls).2 := by
  induction calls generalizing im undo with
  | nil => exact h
  | cons call rest ih => exact ih (h.declare call)

theorem executeUndo_log (im : Image) (undo : UndoLog) : (im.executeUndo undo).2 = .empty := by
  obtain ⟨additions⟩ := undo
  induction additions generalizing im with
  | nil => rfl
  | cons a rest ih => exact ih (im.removeChild a.parent a.child)

theorem Extends.executeUndo (h : Extends old im undo) :
    im.executeUndo undo = (old, .empty) :=
  Prod.ext h.undoAll (executeUndo_log im undo)

theorem Extends.size_eq (h : Extends old im undo) :
    ∃ new, im.entries = old.entries ++ new ∧ new.length = undo.size := by
  obtain ⟨new, hnew, hpaths⟩ := h.entries
  have hlength := congrArg List.length hpaths
  simp only [UndoLog.paths, List.length_map, List.length_reverse] at hlength
  exact ⟨new, hnew, hlength⟩

/-- Executing the log of any declarations restores the image, with the order of all containers, and
executing it again changes nothing. -/
theorem declareAll_undone (h : im.Closed) (calls : List Declaration) :
    (∃ new, (im.declareAll .empty calls).1.entries = im.entries ++ new ∧
      new.length = (im.declareAll .empty calls).2.size) ∧
    (im.declareAll .empty calls).1.executeUndo (im.declareAll .empty calls).2 = (im, .empty) ∧
    im.executeUndo .empty = (im, .empty) := by
  have hextends := (Extends.refl h).declareAll calls
  exact ⟨hextends.size_eq, hextends.executeUndo, rfl⟩

/-- A namespace with a class in it. -/
def smallImage : Image :=
  ((⟨[], [], []⟩ : Image).declareAll .empty
    [.space ["N"], .type ["N"] "C" (.bare .classKind false false)]).1

/-- A nested type and a namespace are added; a path through a type, a name that is taken and a
parent that is missing add nothing. -/
def mixedCalls : List Declaration :=
  let d := TypeDef.bare .classKind false false
  [.type ["N", "C"] "D" d, .space ["N", "C", "X"], .type ["N"] "C" d, .space ["N", "M"],
    .type ["Q"] "T" d]

theorem declareAll_undone_mixed : (smallImage.declareAll .empty mixedCalls).2.size = 2 ∧
    (smallImage.declareAll .empty mixedCalls).1.executeUndo
      (smallImage.declareAll .empty mixedCalls).2 = (smallImage, .empty) := by
  have hempty : (⟨[], [], []⟩ : Image).Closed := fun e he => by cases he
  have hclosed : smallImage.Closed := ((Extends.refl hempty).declareAll _).closed
  exact ⟨by decide, (declareAll_undone hclosed mixedCalls).2.1⟩

end Image

end Chunkwise
