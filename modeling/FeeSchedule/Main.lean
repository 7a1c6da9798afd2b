import FeeSchedule.Cli.Session

/-!
# `FeeSchedule.Main`: the `ipflang` program

The program reads its command line, gathers the files it names and the `IPFLANG_*`
environment variables, runs `Cli.runProgram` on them, and writes what the run wrote to
standard output and standard error. A failure the program does not report itself is
written as `class: message` on standard error, with exit code 1. A schedule whose reading
never ends keeps the program running, writing nothing.
-/

namespace FeeSchedule.Program

open FeeSchedule.Cli

/-- The environment variables the program reads. -/
def settingNames : List String :=
  ["IPFLANG_MAX_COMBINATIONS", "IPFLANG_MAX_GAPS", "IPFLANG_SAMPLE_POINTS",
   "IPFLANG_MULTILIST_SUBSET_SIZE", "IPFLANG_LOG_LEVEL"]

/-- Why a file cannot be read, as the system describes it. -/
def readFailure : IO.Error → String
  | .noFileOrDirectory .. => "No such file or directory"
  | .inappropriateType .. => "Is a directory"
  | .permissionDenied .. => "Permission denied"
  | e => toString e

/-- The text of a file, or why it cannot be read. -/
def readPath (path : String) : IO (Except String String) := do
  try
    let bytes ← IO.FS.readBinFile path
    match String.fromUTF8? bytes with
    | some text => pure (.ok text)
    | none => pure (.error "invalid UTF-8")
  catch e => pure (.error (readFailure e))

end FeeSchedule.Program

open FeeSchedule FeeSchedule.Cli FeeSchedule.Program

/-- Runs the program. -/
def main (args : List String) : IO UInt32 := do
  let mut env : Environment := []
  for name in settingNames do
    if let some v ← IO.getEnv name then env := env ++ [(name, v)]
  let paths := match readCommandLine args with
    | .ok inv => inv.paths
    | .error _ => []
  let mut files : FileTable := []
  for p in paths do
    files := files ++ [(p, ← readPath p)]
  match runProgram args env files with
  | .ok t =>
    IO.print t.out
    IO.eprint t.err
    pure t.exit.toUInt32
  | .error (.raised kind message) =>
    IO.eprintln (kind ++ ": " ++ message)
    pure 1
  | .error .loops =>
    repeat IO.sleep 1000
    pure 1
