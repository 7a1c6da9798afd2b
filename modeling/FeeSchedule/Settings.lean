import FeeSchedule.Unicode.Blank
import FeeSchedule.Unicode.Upper
import FeeSchedule.Text.Integer
import FeeSchedule.Text.Quoted

/-!
# `FeeSchedule.Settings`: limits and log level from the environment

The limits of a verification (`VerifySettings`) and the log level of the command line can
be set by environment variables:

* `IPFLANG_MAX_COMBINATIONS`, at least 1 (10000 when unset);
* `IPFLANG_MAX_GAPS`, at least 0 (50);
* `IPFLANG_SAMPLE_POINTS`, at least 0 (0);
* `IPFLANG_MULTILIST_SUBSET_SIZE`, at least 0 (1);
* `IPFLANG_LOG_LEVEL`, a level name in any case (`WARNING`).

A limit that is unset or blank keeps its default; otherwise, without the white space around
it, it must be an integer (`readInteger?`) no smaller than its minimum. The variables are
read in the order above, and the first one that fails is the error. A level name is
uppercased; `CRITICAL` and `FATAL` are 50, `ERROR` 40, `WARNING` and `WARN` 30, `INFO` 20,
`DEBUG` 10 and `NOTSET` 0.
-/

namespace FeeSchedule

/-- The limits of a verification. -/
structure VerifySettings where
  /-- The most combinations checked for one fee. -/
  maxCombinations : Int := 10000
  /-- The most gaps kept for one fee. -/
  maxGaps : Int := 50
  /-- The number of inner points of a numeric domain. -/
  samplePoints : Int := 0
  /-- The largest subset of a selection tried. -/
  subsetSize : Int := 1
  deriving DecidableEq, Repr, Inhabited

/-- Environment variables: names and values. -/
abbrev Environment := List (String × String)

/-- A limit read from the environment, as described in the module header. -/
def intSetting (env : Environment) (name : String) (default minimum : Int) :
    Except String Int :=
  match env.lookup name with
  | none => .ok default
  | some text =>
    let t := Unicode.strip text
    if t.isEmpty then .ok default
    else
      match readInteger? t with
      | none => .error (name ++ " must be an integer, got " ++ Text.quoted text)
      | some v =>
        if v < minimum then
          .error (name ++ " must be at least " ++ toString minimum ++ ", got " ++ toString v)
        else .ok v

/-- The limits of a verification from the environment. -/
def VerifySettings.ofEnvironment (env : Environment) : Except String VerifySettings := do
  let d : VerifySettings := {}
  let c ← intSetting env "IPFLANG_MAX_COMBINATIONS" d.maxCombinations 1
  let g ← intSetting env "IPFLANG_MAX_GAPS" d.maxGaps 0
  let p ← intSetting env "IPFLANG_SAMPLE_POINTS" d.samplePoints 0
  let k ← intSetting env "IPFLANG_MULTILIST_SUBSET_SIZE" d.subsetSize 0
  pure ⟨c, g, p, k⟩

/-- The numeric value of a level name. -/
def levelValue? : String → Option Nat
  | "CRITICAL" | "FATAL" => some 50
  | "ERROR" => some 40
  | "WARNING" | "WARN" => some 30
  | "INFO" => some 20
  | "DEBUG" => some 10
  | "NOTSET" => some 0
  | _ => none

/-- The log level from the environment, as described in the module header. -/
def logLevelOfEnvironment (env : Environment) : Except String Nat :=
  let given := (env.lookup "IPFLANG_LOG_LEVEL").getD ""
  let name := Unicode.upper (Unicode.strip (if given.isEmpty then "WARNING" else given))
  match levelValue? name with
  | some v => .ok v
  | none => .error ("IPFLANG_LOG_LEVEL is not a logging level: " ++ Text.quoted name)

end FeeSchedule
