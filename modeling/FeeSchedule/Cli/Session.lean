import FeeSchedule.Cli.Commands
import FeeSchedule.Schedule.Parse
import FeeSchedule.Report.Info
import FeeSchedule.Report.Compute
import FeeSchedule.Report.Verification
import FeeSchedule.Report.Composition
import FeeSchedule.Ingest
import FeeSchedule.Json.Read
import FeeSchedule.Json.Write
import FeeSchedule.Settings

/-!
# `FeeSchedule.Cli.Session`: running the `ipflang` program

`runProgram` runs a command line against a table of files and the environment variables,
and gives the exit code with what was written on standard output and standard error.

* A command line that cannot be read writes the usage and the error on standard error and
  exits with 2; the help goes to standard output and exits with 0. Without a command the
  program writes its help and exits with 1.
* The log level comes from `IPFLANG_LOG_LEVEL` (see `FeeSchedule.Settings`), or is debug
  with `--verbose`; an unknown level is reported and warnings are shown. Events at or above
  the level go to standard error as `LEVEL source: message`.
* A schedule that cannot be read, or has errors, is reported with its diagnostics on
  standard error (exit 1). Values for inputs come from a JSON object in the `--inputs` file;
  their problems are reported one per line, after the file name.
* `verify` exits with 1 when the verification fails; `parse` when a file is missing or has
  errors.

Files are read as text, with `\r\n` and `\r` read as new lines. A failure that the program
does not report itself (a decimal signal, a failure of a built-in function outside an
arithmetic error) ends the session as a `Crash`; so does a schedule whose reading never ends
(`Halt.loops`), as `Crash.loops`: the program then never ends.
-/

namespace FeeSchedule.Cli

/-- The files a session can read: for each path, its text or why it cannot be read. -/
abbrev FileTable := List (String × Except String String)

/-- What a session has written, and the level from which events are shown. -/
structure Console where
  out : String
  err : String
  threshold : Nat
  deriving Inhabited

/-- How a run stops short of an exit code: a failure that the program does not report itself,
with its class and message, or the reading of a schedule that never ends. -/
inductive Crash where
  | raised (kind message : String)
  | loops
  deriving Inhabited

/-- A run of the program: it reads files, writes to the console, and may crash. -/
abbrev Session := ReaderT FileTable (ExceptT Crash (StateM Console))

/-- What a finished run gives: the exit code and the two outputs. -/
structure Transcript where
  exit : Nat
  out : String
  err : String
  deriving Inhabited

/-- The parts of a path, without empty parts and `.`. -/
def pathParts (path : String) : List String :=
  (path.splitOn "/").filter fun p => !p.isEmpty && p != "."

/-- The last part of a path without its suffix: `dir/base.ipf` gives `base`. A leading or
trailing point is not a suffix. -/
def pathStem (path : String) : String :=
  let name := (pathParts path).getLast?.getD ""
  let cs := name.toList
  match (cs.zipIdx.filter (·.1 == '.')).getLast? with
  | some (_, i) => if 0 < i && i + 1 < cs.length then String.ofList (cs.take i) else name
  | none => name

/-- A text with `\r\n` and `\r` turned into `\n`. -/
def universalNewlines (s : String) : String :=
  let rec go : List Char → List Char
    | '\r' :: '\n' :: rest => '\n' :: go rest
    | '\r' :: rest => '\n' :: go rest
    | c :: rest => c :: go rest
    | [] => []
  String.ofList (go s.toList)

/-- Looks a path up in a file table: a file's text, or why it cannot be read. -/
def FileTable.read (t : FileTable) (path : String) : Except String String :=
  let parts := pathParts path
  let entries := t.map fun (p, v) => (pathParts p, v)
  match entries.find? (·.1 == parts) with
  | some (_, v) => v.map universalNewlines
  | none =>
    if parts.isEmpty || entries.any (fun e => e.1.length > parts.length && e.1.take parts.length == parts)
    then .error "Is a directory"
    else if (List.range parts.length).any (fun k => entries.any (·.1 == parts.take k) && k > 0)
    then .error "Not a directory"
    else .error "No such file or directory"

namespace Session

/-- Writes on standard output. -/
def say (s : String) : Session Unit := modify fun c => { c with out := c.out ++ s }

/-- Writes on standard error. -/
def complain (s : String) : Session Unit := modify fun c => { c with err := c.err ++ s }

/-- Writes the events at or above the level on standard error. -/
def record (events : Array Event) : Session Unit := do
  let c ← get
  let shown := events.toList.filter (·.level.value ≥ c.threshold)
  complain (String.join (shown.map (·.line ++ "\n")))

/-- Runs a computation that notes events, and writes those at or above the level. -/
def traced {α : Type} (m : Traced α) : Session α := do
  let (a, events) := m.run'
  record events
  pure a

/-- Stops the run with a failure the program does not report. -/
def crash {α : Type} (kind message : String) : Session α := throw (.raised kind message)

/-- A reading of a schedule without a result: its signal is a crash, and a reading that never
ends does not let the run end. -/
def halted {α : Type} : Halt → Session α
  | .signal sig => crash sig.kind sig.report
  | .loops _ => throw .loops

/-- Reads a file. -/
def readText (path : String) : Session (Except String String) := do
  pure ((← read).read path)

end Session

open Session

/-- The diagnostics of a file as reported: their count and texts, or that it is fine. -/
def diagnosticsText (path : String) (ds : List Diagnostic) : String :=
  if ds.isEmpty then path ++ ": OK\n"
  else path ++ ": " ++ toString ds.length ++ " problem(s)\n"
    ++ String.join (ds.map fun d => "  " ++ d.text ++ "\n")

/-- A text without the white space at its end. -/
def trimEnd (s : String) : String :=
  String.ofList (s.toList.reverse.dropWhile Unicode.isBlank).reverse

/-- Reads and checks a schedule file: the schedule, or the report of why it is not usable. -/
def loadSchedule (path : String) : Session (Except String Schedule) := do
  match ← readText path with
  | .error reason => pure (.error (path ++ ": " ++ reason))
  | .ok source =>
    match ← traced (Schedule.parse (CodePoint.ofString source)) with
    | .error h => halted h
    | .ok r =>
      match r.schedule with
      | some s => if r.isValid then pure (.ok s) else pure (.error (trimEnd (diagnosticsText path r.diagnostics)))
      | none => pure (.error (trimEnd (diagnosticsText path r.diagnostics)))

/-- The values of the `--inputs` file for a schedule, or the report of their problems. -/
def loadValues (s : Schedule) : Option ValuesFile → Session (Except String (List (String × BoundValue)))
  | none => pure (.ok [])
  | some .emptyList => crash "TypeError" "expected str, bytes or os.PathLike object, not list"
  | some (.path path) => do
    match ← readText path with
    | .error reason => pure (.error (path ++ ": " ++ reason))
    | .ok text =>
      match Json.parse text with
      | .error (.digitLimit n) => crash "ValueError" (digitLimitMessage n)
      | .error e => pure (.error (path ++ ": " ++ path ++ ": invalid JSON: " ++ e.text text))
      | .ok (.object members) =>
        match ← traced (s.ingest members) with
        | .ok vs => pure (.ok vs)
        | .error (.misfits ps) => pure (.error ("\n".intercalate (ps.map ((path ++ ": ") ++ ·))))
        | .error (.signal sig) => crash sig.kind sig.report
      | .ok _ => pure (.error (path ++ ": " ++ path ++ ": expected a JSON object keyed by input name"))

/-- The result of an evaluation: the bound values and a computation or an audit trail. -/
inductive Outcome where
  | computed (b : Bindings) (r : ComputeResult)
  | traced (t : Provenance)

/-- A computation's result, or its failure: an evaluation error is reported, any other
failure is a crash. -/
def settle {α : Type} (m : Traced (Except EvalFault α)) : Session (Except String α) := do
  match ← traced m with
  | .ok a => pure (.ok a)
  | .error f =>
    if f.kind == "EvaluationError" then pure (.error ("Evaluation error: " ++ f.message))
    else crash f.kind f.message

/-- Evaluates a schedule with the values of the `--inputs` file. -/
def evaluateSchedule (s : Schedule) (inputs : Option ValuesFile) (provenance counterfactuals : Bool) :
    Session (Except String Outcome) := do
  match ← loadValues s inputs with
  | .error m => pure (.error m)
  | .ok values =>
    match ← settle (s.bind values) with
    | .error m => pure (.error m)
    | .ok b =>
      if counterfactuals then return (← settle (s.whatIf b)).map .traced
      if provenance then return (← settle (s.trace b)).map .traced
      return (← settle (s.compute b)).map (.computed b)

/-- A value that may carry a decimal signal; the signal is a crash. -/
def orCrash {α : Type} : Except Signal α → Session α
  | .ok a => pure a
  | .error sig => crash sig.kind sig.report

/-- The JSON report of an outcome. -/
def Outcome.toJson : Outcome → Except Signal Json
  | .computed _ r => r.toJson
  | .traced t => t.toJson

/-- The text report of an outcome. -/
def Outcome.text : Outcome → Except Signal String
  | .computed b r => r.text b
  | .traced t => t.text

/-- Writes a JSON value with an indentation of two, in ASCII, and a new line. -/
def dump (j : Json) : Session Unit := say (j.write true (some 2) ++ "\n")

/-- `parse`: the diagnostics of each file; fails when a file is missing or has errors. -/
def runParse (files : List String) : Session Nat := do
  let mut failed := false
  for path in files do
    match ← readText path with
    | .error reason =>
      complain (path ++ ": " ++ reason ++ "\n")
      failed := true
    | .ok source =>
      match ← traced (Schedule.parse (CodePoint.ofString source)) with
      | .error h => halted h
      | .ok r =>
        say (diagnosticsText path r.diagnostics)
        failed := failed || r.diagnostics.any (·.isError)
  return if failed then 1 else 0

/-- `info`: the summary of a schedule. -/
def runInfo (path : String) : Session Nat := do
  match ← loadSchedule path with
  | .error m => complain (m ++ "\n"); return 1
  | .ok s => say s.info; return 0

/-- `run`: computes the fees of a schedule. -/
def runRun (path : String) (inputs : Option ValuesFile) (provenance counterfactuals json : Bool) :
    Session Nat := do
  match ← loadSchedule path with
  | .error m => complain (m ++ "\n"); return 1
  | .ok s =>
    match ← evaluateSchedule s inputs provenance counterfactuals with
    | .error m => complain (m ++ "\n"); return 1
    | .ok o =>
      if json then dump (← orCrash o.toJson) else say (← orCrash o.text)
      return 0

/-- `verify`: runs the verify directives and, unless only monotonicity is asked for, the
completeness sweep; fails when the verification does. -/
def runVerify (env : Environment) (path : String) (monotonicity json : Bool) : Session Nat := do
  match ← loadSchedule path with
  | .error m => complain (m ++ "\n"); return 1
  | .ok s =>
    match VerifySettings.ofEnvironment env with
    | .error e => complain ("Invalid verifier settings: " ++ e ++ "\n"); return 1
    | .ok settings =>
      let results ← match ← traced (s.verify settings) with
        | .ok r => pure r
        | .error f => crash f.kind f.message
      let sweep ← if monotonicity then pure none else
        match ← traced (s.checkAllCompleteness settings) with
        | .ok r => pure (some r)
        | .error f => crash f.kind f.message
      if json then
        let data := results.toJson
        let data := match data, sweep with
          | .object ms, some reports =>
            Json.object (ms ++ [(CodePoint.ofString "analysis", .arr (reports.map (·.toJson)))])
          | other, _ => other
        dump data
      else
        if s.directives.isEmpty then say "No VERIFY directives in script.\n"
        else say ("Embedded verification directives:\n" ++ results.text)
        match sweep with
        | some reports =>
          say (verificationText "Completeness analysis (informational)" reports [] [])
        | none => pure ()
        say (if results.passed then "All verification checks passed.\n"
          else "Verification completed with errors.\n")
      return if results.passed then 0 else 1

/-- `compose`: composes the schedules as a chain, parent first, and computes the last. -/
def runCompose (files : List String) (inputs : Option ValuesFile) (provenance analysis json : Bool) :
    Session Nat := do
  let mut scripts := #[]
  for path in files do
    match ← loadSchedule path with
    | .error m => complain (m ++ "\n"); return 1
    | .ok s => scripts := scripts.push (pathStem path, s)
  let composed ← traced (composeChain scripts.toList)
  let found : Except CompositionError (Composed × List Inheritance × Option CompositionMetrics) := do
    let (r, c) ← composed
    if analysis then
      let analyses ← (scripts.toList.drop 1).mapM fun (id, _) => r.analyze id
      let m ← r.metrics
      pure (c, analyses, some m)
    else pure (c, [], none)
  match found with
  | .error e =>
    complain (String.join (e.problems.map fun p => "Composition error: " ++ p ++ "\n"))
    return 1
  | .ok (c, analyses, metrics) =>
    match ← evaluateSchedule c.schedule inputs provenance false with
    | .error m => complain (m ++ "\n"); return 1
    | .ok o =>
      if json then
        let report := match metrics with
          | some m => [("analysis", Json.arr (analyses.map (·.toJson))), ("metrics", m.toJson)]
          | none => []
        dump (.obj ([("applied_jurisdictions", .arr (c.applied.map .str))] ++ report
          ++ [("result", ← orCrash o.toJson)]))
      else
        say (c.text analyses metrics ++ "\n")
        say (← orCrash o.text)
      return 0

/-- Runs a command. -/
def runCommand (env : Environment) : Command → Session Nat
  | .parse files => runParse files
  | .info file => runInfo file
  | .run file inputs provenance counterfactuals json =>
    runRun file inputs provenance counterfactuals json
  | .verify file monotonicity json => runVerify env file monotonicity json
  | .compose files inputs provenance analysis json => runCompose files inputs provenance analysis json

/-- Runs a read command line: sets the log level, then runs the command, or writes the help
when there is none. -/
def runInvocation (env : Environment) (inv : Invocation) : Session Nat := do
  match logLevelOfEnvironment env with
  | .error e =>
    modify fun c => { c with threshold := LogLevel.warning.value }
    record #[.badLogLevel e]
  | .ok level =>
    modify fun c => { c with threshold := if inv.verbose then LogLevel.debug.value else level }
  match inv.command with
  | none => say mainParser.helpText; return 1
  | some cmd => runCommand env cmd

/-- Runs the program on a command line, as described in the module header. -/
def runProgram (args : List String) (env : Environment) (files : FileTable) :
    Except Crash Transcript :=
  match readCommandLine args with
  | .error (.help text) => .ok ⟨0, text, ""⟩
  | .error (.error usage prog message) => .ok ⟨2, "", usage ++ prog ++ ": error: " ++ message ++ "\n"⟩
  | .ok inv =>
    let start : Console := ⟨"", "", LogLevel.warning.value⟩
    match ((runInvocation env inv).run files).run.run start with
    | (.ok code, c) => .ok ⟨code, c.out, c.err⟩
    | (.error e, _) => .error e

/-- The files a command line reads, so that they can be gathered before a run. -/
def Invocation.paths (inv : Invocation) : List String :=
  match inv.command with
  | some (.parse files) => files
  | some (.info file) => [file]
  | some (.run file inputs _ _ _) => file :: inputs.toList.filterMap ValuesFile.path?
  | some (.verify file _ _) => [file]
  | some (.compose files inputs _ _ _) => files ++ inputs.toList.filterMap ValuesFile.path?
  | none => []

end FeeSchedule.Cli
