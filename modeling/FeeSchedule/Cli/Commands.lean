import FeeSchedule.Cli.Arguments

/-!
# `FeeSchedule.Cli.Commands`: the commands of the `ipflang` program

The program takes `--verbose` (`-v`) and one of five commands:

* `parse FILE...` checks schedules and lists their diagnostics;
* `info FILE` summarizes a schedule;
* `run FILE` computes the fees, with the values of `--inputs JSON`, as an audit trail with
  `--provenance` (`-p`), with what-if totals with `--counterfactuals` (`-c`), as JSON with
  `--json`;
* `verify FILE` runs the verify directives, and the completeness sweep unless
  `--monotonicity` is given (`--completeness` keeps it; the two exclude each other);
* `compose FILE...` composes the schedules as a chain, parent first, and computes the last,
  with `--inputs`, `--provenance`, `--analysis` (`-a`) and `--json`.

`readCommandLine` reads the strings of a command line into an `Invocation`.
-/

namespace FeeSchedule.Cli

/-- A flag option with its help. -/
def flagArgument (flags : List String) (dest help : String) : Argument :=
  ⟨flags, dest, none, .flag, help⟩

/-- The `--json` option. -/
def jsonArgument : Argument := flagArgument ["--json"] "json" "Emit JSON instead of text."

/-- The `--provenance` option. -/
def provenanceArgument : Argument :=
  flagArgument ["--provenance", "-p"] "provenance" "Show the per-case audit trail."

/-- A positional argument for one schedule file. -/
def fileArgument : Argument := ⟨[], "file", some "FILE", .value, "IPFLang script file."⟩

/-- The commands with their help. -/
def commandChoices : List (String × String) :=
  [("parse", "Parse and type-check script file(s)."),
   ("info", "Summarize a script's declarations."),
   ("run", "Compute fees for a script."),
   ("verify", "Run the script's VERIFY directives and an all-fees completeness sweep."),
   ("compose", "Compose scripts in inheritance order (parent first) and evaluate the last.")]

/-- The parser of the program. -/
def mainParser : ArgumentParser :=
  ⟨"ipflang", some "Parse, evaluate, compose and verify IPFLang fee schedules",
    [helpArgument, flagArgument ["--verbose", "-v"] "verbose" "Enable debug logging.",
     ⟨[], "command", none, .command commandChoices, "Available commands"⟩], []⟩

/-- The parser of `parse`. -/
def parseParser : ArgumentParser :=
  ⟨"ipflang parse", none,
    [helpArgument, ⟨[], "files", some "FILE", .values, "IPFLang script file(s)."⟩], []⟩

/-- The parser of `info`. -/
def infoParser : ArgumentParser := ⟨"ipflang info", none, [helpArgument, fileArgument], []⟩

/-- The parser of `run`. -/
def runParser : ArgumentParser :=
  ⟨"ipflang run", none,
    [helpArgument, fileArgument,
     ⟨["--inputs"], "inputs", some "JSON", .value,
       "JSON file of input values. Missing inputs use their defaults."⟩,
     provenanceArgument,
     flagArgument ["--counterfactuals", "-c"] "counterfactuals"
       "Show what-if totals for alternative input values (implies --provenance).",
     jsonArgument], []⟩

/-- The parser of `verify`. -/
def verifyParser : ArgumentParser :=
  ⟨"ipflang verify", none,
    [helpArgument, fileArgument,
     flagArgument ["--completeness"] "completeness"
       "Directives plus the completeness sweep (default).",
     flagArgument ["--monotonicity"] "monotonicity"
       "Directives only; skip the completeness sweep.",
     jsonArgument], [["completeness", "monotonicity"]]⟩

/-- The parser of `compose`. -/
def composeParser : ArgumentParser :=
  ⟨"ipflang compose", none,
    [helpArgument, ⟨[], "files", some "FILE", .values, "IPFLang script files."⟩,
     ⟨["--inputs"], "inputs", some "JSON", .value, "JSON file of input values."⟩,
     provenanceArgument,
     flagArgument ["--analysis", "-a"] "analysis" "Show inherited vs. overridden entities.",
     jsonArgument], []⟩

/-- The parser of a command. -/
def commandParser : String → Option ArgumentParser
  | "parse" => some parseParser
  | "info" => some infoParser
  | "run" => some runParser
  | "verify" => some verifyParser
  | "compose" => some composeParser
  | _ => none

/-- The `--inputs` option: the path of a values file, or an empty list when `--` was the
option's only string (no file can be opened by a list). -/
inductive ValuesFile where
  | path (p : String)
  | emptyList
  deriving Repr, Inhabited

/-- What the command line asks for. -/
inductive Command where
  | parse (files : List String)
  | info (file : String)
  | run (file : String) (inputs : Option ValuesFile) (provenance counterfactuals json : Bool)
  | verify (file : String) (monotonicity json : Bool)
  | compose (files : List String) (inputs : Option ValuesFile) (provenance analysis json : Bool)
  deriving Repr, Inhabited

/-- A command line read: whether debug logging is asked for, and the command, if any. -/
structure Invocation where
  verbose : Bool
  command : Option Command
  deriving Repr, Inhabited

/-- The path of a values file, if it is one. -/
def ValuesFile.path? : ValuesFile → Option String
  | .path p => some p
  | .emptyList => none

/-- The `--inputs` option recorded, if it was given. -/
def ValuesFile.ofNamespace (ns : Namespace) : Option ValuesFile :=
  match ns.lookup "inputs" with
  | some (.text p) => some (.path p)
  | some (.texts _) => some .emptyList
  | _ => none

/-- The command the recorded values ask for. -/
def Command.ofNamespace (ns : Namespace) : Option Command :=
  let file := (ns.text? "file").getD ""
  match ns.text? "command" with
  | some "parse" => some (.parse (ns.texts "files"))
  | some "info" => some (.info file)
  | some "run" =>
    some (.run file (ValuesFile.ofNamespace ns) (ns.given "provenance") (ns.given "counterfactuals")
      (ns.given "json"))
  | some "verify" => some (.verify file (ns.given "monotonicity") (ns.given "json"))
  | some "compose" =>
    some (.compose (ns.texts "files") (ValuesFile.ofNamespace ns) (ns.given "provenance")
      (ns.given "analysis") (ns.given "json"))
  | _ => none

/-- Reads the strings of a command line. -/
def readCommandLine (args : List String) : Except ParseStop Invocation := do
  let ns ← parseArgs commandParser mainParser args
  pure ⟨ns.given "verbose", Command.ofNamespace ns⟩

end FeeSchedule.Cli
