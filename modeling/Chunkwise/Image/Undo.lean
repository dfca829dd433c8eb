import Chunkwise.Image.Basic

/-!
Namespaces and types are declared straight into the image. Each addition is recorded, and
replaying the record backwards removes the additions again.
-/
namespace Chunkwise

/-- A container that was added under another. -/
structure Addition where
  parent : Path
  child : String
  deriving DecidableEq, Repr

/-- The additions of one attempt, the latest first. -/
structure UndoLog where
  additions : List Addition
  deriving DecidableEq, Repr

namespace UndoLog

def empty : UndoLog := ⟨[]⟩

def record (u : UndoLog) (a : Addition) : UndoLog := ⟨a :: u.additions⟩

def size (u : UndoLog) : Nat := u.additions.length

def isEmpty (u : UndoLog) : Bool := u.additions.isEmpty

end UndoLog

/-- Why a container could not be declared. -/
inductive DeclareError where
  | duplicate (name : String)
  | notANamespace (name : String)
  | missingParent
  deriving DecidableEq, Repr

namespace Image

/-- Appends a container and records it. -/
def add (im : Image) (undo : UndoLog) (parent : Path) (name : String) (c : Container) :
    Image × UndoLog :=
  ({ im with entries := im.entries ++ [⟨parent ++ [name], c⟩] }, undo.record ⟨parent, name⟩)

/-- Makes sure that the namespaces `names` exist one inside the other below `parent`. It stops at
the first name that is a type; the namespaces added before stay and are recorded. -/
def declareNamespaceUnder (parent : Path) :
    List String → Image → UndoLog → Except DeclareError Unit × Image × UndoLog
  | [], im, undo => (.ok (), im, undo)
  | name :: names, im, undo =>
    match im.lookup (parent ++ [name]) with
    | some (.type _) => (.error (.notANamespace name), im, undo)
    | some (.space _) => declareNamespaceUnder (parent ++ [name]) names im undo
    | none =>
      let (im, undo) := im.add undo parent name .space
      declareNamespaceUnder (parent ++ [name]) names im undo

def declareNamespace (im : Image) (path : Path) (undo : UndoLog) :
    Except DeclareError Unit × Image × UndoLog :=
  declareNamespaceUnder [] path im undo

/-- Adds a type under a namespace or a type that has no child of its name yet. -/
def declareType (im : Image) (parent : Path) (name : String) (d : TypeDef) (undo : UndoLog) :
    Except DeclareError Unit × Image × UndoLog :=
  match im.lookup parent with
  | none => (.error .missingParent, im, undo)
  | some _ =>
    if (im.lookup (parent ++ [name])).isSome then (.error (.duplicate name), im, undo)
    else
      let (im, undo) := im.add undo parent name (.type d)
      (.ok (), im, undo)

/-- Removes a container and everything inside it. -/
def removeChild (im : Image) (parent : Path) (name : String) : Image :=
  { im with entries := im.entries.filter fun e => !(parent ++ [name]).isPrefixOf e.path }

/-- Takes additions back one by one; none are left to take back then. -/
def takeBack (im : Image) : List Addition → Image × UndoLog
  | [] => (im, .empty)
  | a :: rest => takeBack (im.removeChild a.parent a.child) rest

/-- Takes the recorded additions back, the latest first, and empties the record. -/
def executeUndo (im : Image) (undo : UndoLog) : Image × UndoLog := im.takeBack undo.additions

/-- The image with the recorded additions taken back. -/
def undoAll (im : Image) (undo : UndoLog) : Image := (im.executeUndo undo).1

end Image

end Chunkwise
