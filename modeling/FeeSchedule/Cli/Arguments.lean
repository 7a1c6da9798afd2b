import FeeSchedule.Cli.Help
import FeeSchedule.Text.Quoted

/-!
# `FeeSchedule.Cli.Arguments`: reading a command line

`parseArgs` reads the strings of a command line against an `ArgumentParser`.

Each string is first classified. After `--` everything is positional. A string that does not
start with `-`, or is `-` alone, is positional. An option string of the parser is an option,
and so is `--name=value` for an option string `--name`. Otherwise the string may abbreviate
option strings: `--pre` (or `--pre=value`) stands for every option string that starts with
it, and `-xrest` for the option `-x` with `rest` attached, or for every option string that
starts with the whole string. Several candidates are an error (an ambiguous option); none
leaves a negative number or a string with a space positional, and anything else an unknown
option.

Then the strings are consumed from left to right. Positional arguments take the runs of
positional strings before each option, as many as they can: one value, one or more values,
or for a command everything that follows, which the command's own parser then reads. An
option takes its attached value, or the next string when it needs one. A short option that
takes no value reads what is attached to it as more short options (`-pc` and `-p=c` are both
`-p -c` when `=` is no option letter, since only the option string decides); when a letter
names no option, the option before it ignored its attached text, which is an error. The help
option stops everything with the help. An option of an exclusive group may not follow another
of its group. Unknown options and strings that no argument takes are unrecognized, which is an
error at the end, as is a required positional argument that was not given. Every argument but
a command loses the first `--` of its strings, so that a value option given only `--` holds
an empty list.
-/

namespace FeeSchedule.Cli

/-- A value recorded for an argument. -/
inductive ArgValue where
  /-- An option without a value was given. -/
  | given
  | text (s : String)
  | texts (ss : List String)
  deriving Repr, Inhabited

/-- The recorded values by destination. -/
abbrev Namespace := List (String × ArgValue)

namespace Namespace

/-- Records a value, replacing an earlier one. -/
def set (ns : Namespace) (k : String) (v : ArgValue) : Namespace :=
  (k, v) :: ns.filter (·.1 != k)

/-- Whether an option without a value was given. -/
def given (ns : Namespace) (k : String) : Bool :=
  match ns.lookup k with
  | some .given => true
  | _ => false

/-- The single value recorded, if any. -/
def text? (ns : Namespace) (k : String) : Option String :=
  match ns.lookup k with
  | some (.text s) => some s
  | _ => none

/-- The values recorded, if any. -/
def texts (ns : Namespace) (k : String) : List String :=
  match ns.lookup k with
  | some (.texts ss) => ss
  | some (.text s) => [s]
  | _ => []

end Namespace

/-- Why reading a command line stopped. -/
inductive ParseStop where
  /-- The help was asked for: its text. -/
  | help (text : String)
  /-- The command line is wrong: the usage of the parser that found it, its program name
  and the message. -/
  | error (usage prog message : String)
  deriving Repr, Inhabited

/-- An error of a parser. -/
def ArgumentParser.fail (p : ArgumentParser) (message : String) : ParseStop :=
  .error p.usage p.prog message

/-- An error about one argument of a parser. -/
def ArgumentParser.argumentError (p : ArgumentParser) (a : Argument) (message : String) :
    ParseStop :=
  p.fail ("argument " ++ a.name ++ ": " ++ message)

/-- What a string of the command line is, as the parser sees it. -/
inductive Slot where
  | positional
  /-- The `--` that makes every later string positional. -/
  | separator
  /-- An option: the argument, the option string and the attached value, when known. -/
  | option (found : Option (Argument × String × Option String))
  deriving Inhabited

/-- The code of a slot in the pattern of a command line. -/
def Slot.code : Slot → Char
  | .positional => 'A'
  | .separator => '-'
  | .option _ => 'O'

/-- Whether a string reads as a negative number: `-` and digits, or `-`, digits, a point
and digits (a new line may end it). -/
def isNegativeNumber (s : String) : Bool :=
  let cs := s.toList
  let cs := if cs.getLast? == some '\n' then cs.dropLast else cs
  let isDigit (c : Char) : Bool := (Unicode.decimalValue? c).isSome
  match cs with
  | '-' :: rest =>
    let ds := rest.takeWhile isDigit
    match rest.drop ds.length with
    | [] => !ds.isEmpty
    | '.' :: fs => !fs.isEmpty && fs.all isDigit
    | _ => false
  | _ => false

/-- A string split at its first `=`. -/
def splitAtEquals (s : String) : Option (String × String) :=
  let cs := s.toList
  match cs.findIdx? (· == '=') with
  | some i => some (String.ofList (cs.take i), String.ofList (cs.drop (i + 1)))
  | none => none

namespace ArgumentParser

/-- The option strings of a parser with their arguments, in order. -/
def optionTable (p : ArgumentParser) : List (String × Argument) :=
  p.options.flatMap fun a => a.flags.map (·, a)

/-- The argument of an option string. -/
def option? (p : ArgumentParser) (s : String) : Option Argument := p.optionTable.lookup s

/-- The options a string may abbreviate, with the option string and attached value. -/
def candidates (p : ArgumentParser) (arg : String) : List (Argument × String × Option String) :=
  match arg.toList with
  | '-' :: '-' :: _ =>
    let (pre, attached) := match splitAtEquals arg with
      | some (o, v) => (o, some v)
      | none => (arg, none)
    p.optionTable.filterMap fun (o, a) => if o.startsWith pre then some (a, o, attached) else none
  | '-' :: c :: rest =>
    let short := String.ofList ['-', c]
    p.optionTable.filterMap fun (o, a) =>
      if o == short then some (a, o, some (String.ofList rest))
      else if o.startsWith arg then some (a, o, none)
      else none
  | _ => []

/-- The slot of one string (not `--`), or the message of an ambiguous option. -/
def classify (p : ArgumentParser) (arg : String) : Except String Slot :=
  match arg.toList with
  | [] => .ok .positional
  | c :: rest =>
    if c != '-' then .ok .positional
    else
      match p.option? arg with
      | some a => .ok (.option (some (a, arg, none)))
      | none =>
        if rest.isEmpty then .ok .positional
        else
          let byEquals := match splitAtEquals arg with
            | some (o, v) => (p.option? o).map fun a => (a, o, some v)
            | none => none
          match byEquals with
          | some t => .ok (.option (some t))
          | none =>
            match p.candidates arg with
            | [t] => .ok (.option (some t))
            | [] =>
              if isNegativeNumber arg && !p.optionTable.any (isNegativeNumber ·.1) then
                .ok .positional
              else if arg.contains ' ' then .ok .positional
              else .ok (.option none)
            | ts =>
              .error ("ambiguous option: " ++ arg ++ " could match "
                ++ ", ".intercalate (ts.map (·.2.1)))

/-- The slots of all strings: after `--`, every string is positional. -/
def classifyAll (p : ArgumentParser) : List String → Except String (List Slot)
  | [] => .ok []
  | a :: rest =>
    if a == "--" then .ok (.separator :: rest.map fun _ => .positional)
    else do
      let s ← p.classify a
      let ss ← p.classifyAll rest
      pure (s :: ss)

end ArgumentParser

/-- The numbers of pattern codes a positional argument of kind `k` may take from the start
of `pat`, most first: leading separators, a positional string, then what may follow it. -/
def takeCounts (k : ArgumentKind) (pat : List Char) : List Nat :=
  let lead := (pat.takeWhile (· == '-')).length
  match pat.drop lead with
  | 'A' :: rest =>
    let follows : Char → Bool := match k with
      | .value => (· == '-')
      | .values => fun c => c == 'A' || c == '-'
      | .command _ => fun _ => true
      | _ => fun _ => false
    let tail := (rest.takeWhile follows).length
    (List.range (tail + 1)).reverse.map (lead + 1 + ·)
  | _ => []

/-- Counts for each of `ks` that together match the start of `pat`, the earlier ones taking
as much as they can. -/
def matchKinds : List ArgumentKind → List Char → Option (List Nat)
  | [], _ => some []
  | k :: ks, pat => (takeCounts k pat).findSome? fun n => (matchKinds ks (pat.drop n)).map (n :: ·)

/-- Counts for the longest prefix of `ks` that matches the start of `pat`. -/
def matchPrefix (ks : List ArgumentKind) (pat : List Char) : List Nat :=
  ((List.range ks.length).reverse.findSome? fun i => matchKinds (ks.take (i + 1)) pat).getD []

/-- What has been read so far. -/
structure Progress where
  ns : Namespace
  /-- Strings this parser did not recognize. -/
  extras : List String
  /-- Strings a command's parser did not recognize. -/
  later : List String
  /-- The destinations given, for the exclusive groups. -/
  taken : List String
  /-- The positional arguments not yet given. -/
  pending : List Argument
  deriving Inhabited

/-- The strings from `i` up to `j`. -/
def slice (args : List String) (i j : Nat) : List String := (args.drop i).take (j - i)

namespace ArgumentParser

/-- Gives an argument its strings: checks a command's choice and the exclusive groups, then
records the value, shows the help, or lets the command's parser (`sub`) read the rest. -/
def takeAction (p : ArgumentParser)
    (sub : String → List String → Except ParseStop (Namespace × List String))
    (st : Progress) (a : Argument) (strs : List String) : Except ParseStop Progress := do
  let vals := match a.kind with
    | .command _ => strs
    | _ => strs.erase "--"
  match a.kind, vals with
  | .command choices, name :: _ =>
    if !(choices.any (·.1 == name)) then
      throw (p.argumentError a ("invalid choice: " ++ Text.quoted name ++ " (choose from "
        ++ ", ".intercalate (choices.map fun (c : String × String) => Text.quoted c.1) ++ ")"))
  | _, _ => pure ()
  let rivals := (p.exclusive.filter (·.contains a.dest)).flatMap (·.filter (· != a.dest))
  match rivals.find? st.taken.contains with
  | some d =>
    let other := ((p.arguments.find? (·.dest == d)).map Argument.name).getD d
    throw (p.argumentError a ("not allowed with argument " ++ other))
  | none => pure ()
  let st := { st with taken := a.dest :: st.taken }
  match a.kind with
  | .help => throw (.help p.helpText)
  | .flag => pure { st with ns := st.ns.set a.dest .given }
  | .value =>
    match vals with
    | [v] => pure { st with ns := st.ns.set a.dest (.text v) }
    | vs => pure { st with ns := st.ns.set a.dest (.texts vs) }
  | .values => pure { st with ns := st.ns.set a.dest (.texts vals) }
  | .command _ =>
    match vals with
    | name :: rest =>
      let (inner, unknown) ← sub name rest
      let ns := inner.foldr (fun (k, v) acc => acc.set k v) (st.ns.set a.dest (.text name))
      pure { st with ns := ns, later := st.later ++ unknown }
    | [] => pure st

/-- Reads the option at index `start`, with its attached value if any, into the arguments it
stands for with their strings and the index after them; `fuel` bounds the options clustered
in one string. -/
def optionActions (p : ArgumentParser) (slots : List Slot) (args : List String) (start : Nat) :
    Argument → String → Option String → Nat → Except ParseStop (List (Argument × List String) × Nat)
  | _, _, _, 0 => pure ([], start + 1)
  | a, os, some v, fuel + 1 =>
    let single := os.toList.length ≥ 2 && os.toList[1]? != some '-'
    if a.takesNoValue && single && !v.isEmpty then
      let rest := String.ofList v.toList.tail
      match p.option? (String.ofList ['-', v.toList.headD '-']) with
      | some b => do
        let (acts, stop) ← p.optionActions slots args start b (String.ofList ['-', v.toList.headD '-'])
          (if rest.isEmpty then none else some rest) fuel
        pure ((a, []) :: acts, stop)
      | none => throw (p.argumentError a ("ignored explicit argument " ++ Text.quoted v))
    else if !a.takesNoValue then pure ([(a, [v])], start + 1)
    else throw (p.argumentError a ("ignored explicit argument " ++ Text.quoted v))
  | a, _, none, _ + 1 =>
    let pat := (slots.drop (start + 1)).map Slot.code
    match a.kind with
    | .value =>
      if pat.head? == some 'A' then pure ([(a, slice args (start + 1) (start + 2))], start + 2)
      else throw (p.argumentError a "expected one argument")
    | .values =>
      let n := (pat.takeWhile (· == 'A')).length
      if n = 0 then throw (p.argumentError a "expected at least one argument")
      else pure ([(a, slice args (start + 1) (start + 1 + n))], start + 1 + n)
    | _ => pure ([(a, [])], start + 1)

/-- Gives the positional arguments still pending the run of strings from `i`, as many as
match; returns the index after what they took. -/
def consumePositionals (p : ArgumentParser)
    (sub : String → List String → Except ParseStop (Namespace × List String))
    (slots : List Slot) (args : List String) (st : Progress) (i : Nat) :
    Except ParseStop (Progress × Nat) := do
  let counts := matchPrefix (st.pending.map (·.kind)) ((slots.drop i).map Slot.code)
  let taking := st.pending.zip counts
  let st := { st with pending := st.pending.drop counts.length }
  taking.foldlM (fun (acc : Progress × Nat) (an : Argument × Nat) => do
    let (st, j) := acc
    let st ← p.takeAction sub st an.1 (slice args j (j + an.2))
    pure (st, j + an.2)) (st, i)

/-- Reads the option at index `i`; an unknown option is set aside. -/
def consumeOption (p : ArgumentParser)
    (sub : String → List String → Except ParseStop (Namespace × List String))
    (slots : List Slot) (args : List String) (st : Progress) (i : Nat) :
    Except ParseStop (Progress × Nat) := do
  match slots[i]? with
  | some (.option (some (a, os, v))) =>
    let (acts, stop) ← p.optionActions slots args i a os v (os.length + (v.map (·.length)).getD 0 + 1)
    let st ← acts.foldlM (fun st (b, strs) => p.takeAction sub st b strs) st
    pure (st, stop)
  | _ => pure ({ st with extras := st.extras ++ slice args i (i + 1) }, i + 1)

/-- Reads options and the positional runs between them while an option lies ahead; `fuel`
bounds the steps, each of which moves forward. -/
def consumeAll (p : ArgumentParser)
    (sub : String → List String → Except ParseStop (Namespace × List String))
    (slots : List Slot) (args : List String) (optionAt : List Nat) :
    Nat → Progress → Nat → Except ParseStop (Progress × Nat)
  | 0, st, i => pure (st, i)
  | fuel + 1, st, i =>
    match (optionAt.filter (· ≥ i)).min? with
    | none => pure (st, i)
    | some next => do
      let (st, j) ← if i != next then p.consumePositionals sub slots args st i else pure (st, i)
      if j > i then p.consumeAll sub slots args optionAt fuel st j
      else
        let st := if optionAt.contains j then st
          else { st with extras := st.extras ++ slice args j next }
        let j := if optionAt.contains j then j else next
        let (st, k) ← p.consumeOption sub slots args st j
        p.consumeAll sub slots args optionAt fuel st k

end ArgumentParser

/-- Reads a command line with a parser, `depth` bounding the nesting of commands, whose
parsers `commands` gives; returns the values and the strings not recognized. -/
def parseKnown (commands : String → Option ArgumentParser) :
    Nat → ArgumentParser → List String → Except ParseStop (Namespace × List String)
  | 0, _, args => pure ([], args)
  | depth + 1, p, args => do
    let slots ← match p.classifyAll args with
      | .ok ss => pure ss
      | .error m => throw (p.fail m)
    let optionAt := (slots.zipIdx.filter fun (s, _) => s.code == 'O').map (·.2)
    let sub (name : String) (rest : List String) : Except ParseStop (Namespace × List String) :=
      match commands name with
      | some q => parseKnown commands depth q rest
      | none => pure ([], rest)
    let start : Progress := ⟨[], [], [], [], p.positionals⟩
    let (st, i) ← p.consumeAll sub slots args optionAt (args.length + 1) start 0
    let (st, stop) ← p.consumePositionals sub slots args st i
    let extras := st.extras ++ args.drop stop
    let missing := st.pending.filter fun a => match a.kind with
      | .value | .values => true
      | _ => false
    if !missing.isEmpty then
      throw (p.fail ("the following arguments are required: "
        ++ ", ".intercalate (missing.map Argument.name)))
    pure (st.ns, extras ++ st.later)

/-- Reads a whole command line: strings that nothing recognized are an error of the top
parser. -/
def parseArgs (commands : String → Option ArgumentParser) (p : ArgumentParser)
    (args : List String) : Except ParseStop Namespace := do
  let (ns, extras) ← parseKnown commands 2 p args
  if extras.isEmpty then pure ns
  else throw (p.fail ("unrecognized arguments: " ++ " ".intercalate extras))

end FeeSchedule.Cli
