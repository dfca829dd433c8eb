import Chunkwise.Json.Read

namespace Chunkwise

structure Settings where
  /-- The file name shown in diagnostics. -/
  fileName : String
  /-- The namespaces in use before the first chunk. -/
  defaultUsings : List String
  /-- The greatest nesting of calls. -/
  maxCallDepth : Nat
  executorStackSize : Nat
  executorThreadName : String
  snapshotTimeoutMs : Nat
  deriving DecidableEq, Repr

namespace Settings

def default : Settings :=
  ⟨"\x7binteractive\x7d", ["System"], 1000, 256 * 1024 * 1024, "cinder-exec", 50⟩

def word64? (j : Json) : Option Nat :=
  match j.nat? with
  | some n => if n < 18446744073709551616 then some n else none
  | none => none

def texts? : List Json → Option (List String)
  | [] => some []
  | .str s :: rest => (texts? rest).map (s :: ·)
  | _ :: _ => none

def list? : Json → Option (List String)
  | .arr items => texts? items
  | _ => none

/-- The settings in order of declaration: a key, and how its value changes the settings. -/
def fields : List (String × (Json → Settings → Option Settings)) :=
  [("file_name", fun j s => j.str?.map fun v => { s with fileName := v }),
    ("default_usings", fun j s => (list? j).map fun v => { s with defaultUsings := v }),
    ("max_call_depth", fun j s => (word64? j).map fun v => { s with maxCallDepth := v }),
    ("executor_stack_size", fun j s => (word64? j).map fun v => { s with executorStackSize := v }),
    ("executor_thread_name", fun j s => j.str?.map fun v => { s with executorThreadName := v }),
    ("snapshot_timeout_ms", fun j s => (word64? j).map fun v => { s with snapshotTimeoutMs := v })]

/-- Reads members one by one; `seen` holds the known keys read so far. -/
def readMembers (seen : List String) (s : Settings) : List (String × Json) → Option Settings
  | [] => some s
  | (key, j) :: rest =>
    match fields.lookup key with
    | none => readMembers seen s rest
    | some set =>
      if seen.contains key then none
      else match set j s with
        | some s' => readMembers (key :: seen) s' rest
        | none => none

/-- Reads values for the fields in order; values left over are refused. -/
def readItems (s : Settings) :
    List (Json → Settings → Option Settings) → List Json → Option Settings
  | _, [] => some s
  | [], _ :: _ => none
  | set :: sets, j :: rest =>
    match set j s with
    | some s' => readItems s' sets rest
    | none => none

def ofJson? : Json → Option Settings
  | .obj members => readMembers [] default members
  | .arr items => readItems default (fields.map Prod.snd) items
  | _ => none

def parse? (text : String) : Option Settings := (Json.parse? text).bind ofJson?

/-- The message for a settings file that cannot be read. -/
def unreadableFile (path reason : String) : String :=
  s!"cannot read settings file {path}: {reason}"

/-- The reason for a file that does not exist. -/
def noSuchFile : String := "No such file or directory (os error 2)"

end Settings

end Chunkwise
