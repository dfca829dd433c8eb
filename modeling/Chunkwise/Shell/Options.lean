/-!
The options of the shell: `-c FILE` or `--config FILE`, `-e CHUNK` or `--eval CHUNK`, `-q` or
`--quiet`, and `-h` or `--help`. Short options may share one dash. A value stands in the next
argument, after `=`, or directly after a short option; in the next argument it may not start with a
dash, unless it is a lone dash.
-/
namespace Chunkwise

structure Options where
  /-- The settings file. -/
  config : Option String
  /-- The chunks to evaluate instead of reading lines. -/
  chunks : List String
  /-- Whether prompts are left out. -/
  quiet : Bool
  deriving DecidableEq, Repr

inductive UsageError where
  | unexpected (arg : String)
  | missingValue (option : String)
  | unexpectedValue (option : String)
  | repeated (option : String)
  | emptyValue (option : String)
  deriving DecidableEq, Repr

def UsageError.message : UsageError → String
  | unexpected arg => s!"unexpected argument '{arg}' found"
  | missingValue option => s!"a value is required for '{option}' but none was supplied"
  | unexpectedValue option => s!"unexpected value for '{option}' found"
  | repeated option => s!"the argument '{option}' cannot be used multiple times"
  | emptyValue option => s!"a value is required for '{option}' but none was supplied"

inductive Request where
  | run (options : Options)
  | help
  deriving DecidableEq, Repr

namespace Options

def initial : Options := ⟨none, [], false⟩

/-- An option that takes a value. -/
inductive Valued where
  | config
  | eval
  deriving DecidableEq, Repr

def Valued.text : Valued → String
  | config => "--config <FILE>"
  | eval => "--eval <CHUNK>"

def setValue (o : Options) (v : Valued) (value : String) : Except UsageError Options :=
  match v with
  | .eval => .ok { o with chunks := o.chunks ++ [value] }
  | .config =>
    if o.config.isSome then .error (.repeated v.text)
    else if value.isEmpty then .error (.emptyValue v.text)
    else .ok { o with config := some value }

def setQuiet (o : Options) : Except UsageError Options :=
  if o.quiet then .error (.repeated "--quiet") else .ok { o with quiet := true }

/-- What an argument asks for. -/
inductive Outcome where
  | next (options : Options)
  /-- The next argument is the value. -/
  | wants (options : Options) (option : Valued)
  | help
  deriving DecidableEq, Repr

/-- Reads the short options behind one dash. -/
def shorts (o : Options) : List Char → Except UsageError Outcome
  | [] => .ok (.next o)
  | 'q' :: rest => do shorts (← o.setQuiet) rest
  | 'h' :: _ => .ok .help
  | 'e' :: rest => attached o .eval rest
  | 'c' :: rest => attached o .config rest
  | c :: _ => .error (.unexpected s!"-{c}")
where
  attached (o : Options) (v : Valued) : List Char → Except UsageError Outcome
    | [] => .ok (.wants o v)
    | '=' :: value => (o.setValue v (String.ofList value)).map .next
    | value => (o.setValue v (String.ofList value)).map .next

/-- Reads a long option; `value` is what stands after the equals sign. -/
def long (o : Options) (name : String) (value : Option String) : Except UsageError Outcome :=
  let valued (v : Valued) : Except UsageError Outcome :=
    match value with
    | some text => (o.setValue v text).map .next
    | none => .ok (.wants o v)
  match name with
  | "eval" => valued .eval
  | "config" => valued .config
  | "quiet" => if value.isSome then .error (.unexpectedValue "--quiet") else o.setQuiet.map .next
  | "help" => if value.isSome then .error (.unexpectedValue "--help") else .ok .help
  | _ => .error (.unexpected s!"--{name}")

/-- The name of a long option and the value after its equals sign. -/
def splitValue (cs : List Char) : String × Option String :=
  let name := cs.takeWhile (· != '=')
  (String.ofList name,
    match cs.drop name.length with
    | _ :: value => some (String.ofList value)
    | [] => none)

/-- Whether an argument reads as an option, so that it is no value. -/
def looksLikeOption : List Char → Bool
  | '-' :: _ :: _ => true
  | _ => false

/-- Reads arguments; `wanted` is the option that waits for its value. -/
def readArgs (o : Options) (wanted : Option Valued) : List String → Except UsageError Request
  | [] => match wanted with
    | some v => .error (.missingValue v.text)
    | none => .ok (.run o)
  | arg :: rest =>
    match wanted with
    | some v =>
      if looksLikeOption arg.toList then .error (.missingValue v.text)
      else do readArgs (← o.setValue v arg) none rest
    | none => do
      let outcome ← match arg.toList with
        | ['-', '-'] => match rest with
          | [] => .ok (.next o)
          | extra :: _ => .error (.unexpected extra)
        | '-' :: '-' :: cs => let (name, value) := splitValue cs; o.long name value
        | ['-'] => .error (.unexpected arg)
        | '-' :: cs => o.shorts cs
        | _ => .error (.unexpected arg)
      match outcome with
      | .next o => readArgs o none rest
      | .wants o v => readArgs o (some v) rest
      | .help => .ok .help

/-- Reads the arguments of the command line. -/
def parse (args : List String) : Except UsageError Request := readArgs initial none args

end Options

end Chunkwise
