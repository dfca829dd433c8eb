import Chunkwise.Diagnostic.Log
import Chunkwise.Json.Basic

namespace Chunkwise

def Severity.ofText? : String → Option Severity
  | "error" => some .error
  | "warning" => some .warning
  | _ => none

def Category.ofText? : String → Option Category
  | "syntax" => some .reading
  | "resolution" => some .resolution
  | "type" => some .typing
  | "structure" => some .structural
  | _ => none

namespace Diagnostic

def toJson (d : Diagnostic) : Json :=
  .obj ([("file", .str d.file), ("code", Json.ofNat d.code), ("severity", .str d.severity.text),
    ("category", .str d.category.text), ("message", .str d.message),
    ("line", Json.ofNat d.span.startLine.toNat), ("column", Json.ofNat d.span.startCol.toNat),
    ("end_line", Json.ofNat d.span.endLine.toNat), ("end_column", Json.ofNat d.span.endCol.toNat),
    ("source_line", .str d.sourceLine)] ++
    match d.suggestion with
    | some s => [("suggestion", .str s)]
    | none => [])

def keys : List String :=
  ["file", "code", "severity", "category", "message", "line", "column", "end_line", "end_column",
    "source_line", "suggestion"]

/-- A natural number below a bound. -/
def below? (bound : Nat) (j : Json) : Option Nat :=
  match j.nat? with
  | some n => if n < bound then some n else none
  | none => none

/-- A choice is written as its name, or as an object that maps its name to null. -/
def choice? : Json → Option String
  | .str s => some s
  | .obj [(s, .null)] => some s
  | _ => none

/-- A suggestion may be absent or null. -/
def suggestion? : Option Json → Option (Option String)
  | none | some .null => some none
  | some (.str s) => some (some s)
  | some _ => none

def repeatsKey (members : List (String × Json)) : Bool :=
  keys.any fun key => 1 < (members.filter fun m => m.1 == key).length

def ofMembers? (members : List (String × Json)) : Option Diagnostic := do
  let file ← (members.lookup "file").bind Json.str?
  let code ← (members.lookup "code").bind (below? 65536)
  let severity ← ((members.lookup "severity").bind choice?).bind Severity.ofText?
  let category ← ((members.lookup "category").bind choice?).bind Category.ofText?
  let message ← (members.lookup "message").bind Json.str?
  let line ← (members.lookup "line").bind (below? 4294967296)
  let column ← (members.lookup "column").bind (below? 4294967296)
  let endLine ← (members.lookup "end_line").bind (below? 4294967296)
  let endColumn ← (members.lookup "end_column").bind (below? 4294967296)
  let sourceLine ← (members.lookup "source_line").bind Json.str?
  let suggestion ← suggestion? (members.lookup "suggestion")
  return ⟨file, code, severity, category, message, ⟨line, column, endLine, endColumn⟩, sourceLine,
    suggestion⟩

def ofJson? : Json → Option Diagnostic
  | .obj members => if repeatsKey members then none else ofMembers? members
  | _ => none

end Diagnostic

def Diagnostics.toJson (ds : Diagnostics) : Json :=
  .obj [("errors", .arr (ds.errors.stored.map Diagnostic.toJson)),
    ("warnings", .arr (ds.warnings.map Diagnostic.toJson)),
    ("total_errors", Json.ofNat ds.totalErrors), ("total_warnings", Json.ofNat ds.totalWarnings)]

end Chunkwise
