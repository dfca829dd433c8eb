import Chunkwise.Shell.Console

namespace Chunkwise

def Screen.print (s : Screen) : IO Unit := do
  let out ← IO.getStdout
  out.putStr s.out
  out.flush
  IO.eprint s.err

/-- Reads lines until the input ends or the shell is left. -/
partial def Console.loop (quiet : Bool) (r : Repl) : IO Unit := do
  Screen.print ⟨Console.promptText quiet r, ""⟩
  let line ← (← IO.getStdin).getLine
  match Console.inputLines line with
  | text :: _ =>
    let (screen, next) := Console.takeLine r text
    screen.print
    match next with
    | some r => Console.loop quiet r
    | none => return
  | [] => (Console.discard r).print

def Exit.finish (e : Exit) : IO UInt32 := do
  e.screen.print
  return e.code

/-- The settings of a file, or how the shell exits without them. -/
def Console.loadSettings (path : String) : IO (Except Exit Settings) := do
  try
    let text ← IO.FS.readFile path
    match Settings.parse? text with
    | some settings => return .ok settings
    | none => return .error (Console.settingsFailure path ["invalid settings"])
  catch _ =>
    return .error (Console.settingsFailure path
      [Settings.unreadableFile path Settings.noSuchFile, Settings.noSuchFile])

def Console.start (options : Options) (settings : Settings) : IO UInt32 := do
  if options.chunks.isEmpty then
    Console.loop options.quiet (.ofSettings settings)
    return 0
  else (Console.run options settings "").finish

end Chunkwise

def main (args : List String) : IO UInt32 := do
  match Chunkwise.Options.parse args with
  | .error e => (Chunkwise.Console.usageExit e).finish
  | .ok .help => (⟨0, ⟨Chunkwise.Console.helpText, ""⟩⟩ : Chunkwise.Exit).finish
  | .ok (.run options) =>
    match options.config with
    | none => Chunkwise.Console.start options .default
    | some path =>
      match ← Chunkwise.Console.loadSettings path with
      | .ok settings => Chunkwise.Console.start options settings
      | .error e => e.finish
