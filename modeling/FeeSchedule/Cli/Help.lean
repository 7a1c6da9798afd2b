import FeeSchedule.Cli.Parser

/-!
# `FeeSchedule.Cli.Help`: usage and help texts

The usage line lists the options, then the positional arguments: an option as
`[--name VALUE]`, a group of exclusive options as `[--a | --b]`, a positional argument as
its value name, one that takes several values as `NAME [NAME ...]`, a command as
`{choice,...} ...`. A usage longer than the line (78 columns, `lineWidth`) is wrapped: the
options follow the program name on as many lines as they need, and the positional
arguments start a line of their own, all aligned after the program name.

The help is the usage, the description filled to the line, and the sections `positional
arguments` and `options`, each only when it has an entry. An entry is the argument's
invocation (`-p, --provenance`, `--inputs JSON`, `FILE`) and its help, filled into the
column that starts two places after the longest invocation, but at most at column 24; an
invocation too long for that starts a line of its own. The choices of a command follow it,
indented further.
-/

namespace FeeSchedule.Cli

/-- The width of help and usage lines. -/
def lineWidth : Nat := 78

/-- The widest column at which help texts start. -/
def maxHelpColumn : Nat := 24

/-- `n` spaces. -/
def spaces (n : Nat) : String := String.ofList (List.replicate n ' ')

/-- A text padded with spaces to `n` characters. -/
def padRight (s : String) (n : Nat) : String := s ++ spaces (n - s.length)

namespace Argument

/-- The value name of a command: its choices between braces. -/
def commandName (choices : List (String × String)) : String :=
  "\x7b" ++ ",".intercalate (choices.map (·.1)) ++ "\x7d"

/-- How the argument is written in usage, without brackets. -/
def usagePart (a : Argument) : String :=
  match a.kind with
  | .help | .flag => a.flags.headD ""
  | .value => if a.isOption then a.flags.headD "" ++ " " ++ a.valueName else a.valueName
  | .values => a.valueName ++ " [" ++ a.valueName ++ " ...]"
  | .command choices => commandName choices ++ " ..."

/-- How the argument is invoked, as its help entry shows it. -/
def invocation (a : Argument) : String :=
  match a.kind with
  | .help | .flag => ", ".intercalate a.flags
  | .command choices => a.metavar.getD (commandName choices)
  | _ => if a.isOption then ", ".intercalate (a.flags.map (· ++ " " ++ a.valueName)) else a.valueName

end Argument

namespace ArgumentParser

/-- The options of a parser, in order. -/
def options (p : ArgumentParser) : List Argument := p.arguments.filter (·.isOption)

/-- The positional arguments of a parser, in order. -/
def positionals (p : ArgumentParser) : List Argument := p.arguments.filter (!·.isOption)

/-- The parts of a run of exclusive options: their usage parts, together in brackets. -/
def groupPart (members : List String) : List String :=
  if members.isEmpty then [] else ["[" ++ " | ".intercalate members ++ "]"]

/-- The usage parts of options, given the exclusive groups and the group being gathered
(its destinations and the usage parts of its members so far). -/
def gatherParts (groups : List (List String)) (open? : Option (List String × List String)) :
    List Argument → List String
  | [] => groupPart ((open?.map (·.2)).getD [])
  | a :: rest =>
    let closed := groupPart ((open?.map (·.2)).getD [])
    match groups.find? (·.contains a.dest), open? with
    | some g, some (h, members) =>
      if g == h then gatherParts groups (some (h, members ++ [a.usagePart])) rest
      else closed ++ gatherParts groups (some (g, [a.usagePart])) rest
    | some g, none => gatherParts groups (some (g, [a.usagePart])) rest
    | none, _ => closed ++ ("[" ++ a.usagePart ++ "]") :: gatherParts groups none rest

/-- The usage parts of the options: each in brackets, a group of exclusive options (which
stand next to each other) as one part. -/
def optionParts (p : ArgumentParser) : List String := gatherParts p.exclusive none p.options

/-- The usage parts of the positional arguments. -/
def positionalParts (p : ArgumentParser) : List String :=
  p.positionals.flatMap fun a =>
    match a.kind with
    | .values => [a.valueName, "[" ++ a.valueName ++ " ...]"]
    | .command choices => [Argument.commandName choices, "..."]
    | _ => [a.usagePart]

/-- Parts laid out on lines of `lineWidth`, each line starting with `indent`; the first
line's room is measured from `start`. -/
def layLines (indent : String) (start : Nat) (parts : List String) : List String :=
  let step (acc : List String × List String × Nat) (part : String) :=
    let (lines, line, len) := acc
    if len + 1 + part.length > lineWidth && !line.isEmpty then
      (lines ++ [indent ++ " ".intercalate line], [part], indent.length - 1 + part.length + 1)
    else (lines, line ++ [part], len + part.length + 1)
  let (lines, line, _) := parts.foldl step ([], [], start - 1)
  if line.isEmpty then lines else lines ++ [indent ++ " ".intercalate line]

/-- The usage of a parser, without the `usage: ` before it. -/
def usageBody (p : ArgumentParser) : String :=
  let prefixLength := "usage: ".length
  let opts := p.optionParts
  let poss := p.positionalParts
  let whole := " ".intercalate (p.prog :: opts ++ poss)
  if prefixLength + whole.length ≤ lineWidth then whole
  else if 4 * (prefixLength + p.prog.length) ≤ 3 * lineWidth then
    let indent := spaces (prefixLength + p.prog.length + 1)
    let first := if opts.isEmpty then p.prog :: poss else p.prog :: opts
    let firstLines := layLines indent prefixLength first
    let firstLines := match firstLines with
      | l :: ls => (l.drop indent.length).toString :: ls
      | [] => []
    let rest := if opts.isEmpty then [] else layLines indent indent.length poss
    "\n".intercalate (firstLines ++ rest)
  else
    let indent := spaces prefixLength
    let lines := layLines indent indent.length (opts ++ poss)
    let lines := if lines.length > 1 then
        layLines indent indent.length opts ++ layLines indent indent.length poss
      else lines
    "\n".intercalate (p.prog :: lines)

/-- The usage text of a parser, ending with a new line. -/
def usage (p : ArgumentParser) : String := "usage: " ++ p.usageBody ++ "\n"

/-- The column at which help texts start. -/
def helpColumn (p : ArgumentParser) : Nat :=
  let lengths := p.arguments.map fun a =>
    let names := match a.kind with
      | .command choices => a.invocation :: choices.map (fun (c : String × String) => c.1)
      | _ => [a.invocation]
    (names.map String.length).foldl max 0 + 2
  min (lengths.foldl max 0 + 2) maxHelpColumn

/-- The lines of one help entry at `indent`, its help starting at `column`. -/
def entryLines (column indent : Nat) (invocation help : String) : List String :=
  let room := column - indent - 2
  let helpLines := wrap (max (lineWidth - column) 11) help
  let head := spaces indent ++ invocation
  if helpLines.isEmpty then [head]
  else if invocation.length ≤ room then
    (spaces indent ++ padRight invocation room ++ "  " ++ helpLines.headD "")
      :: helpLines.tail.map (spaces column ++ ·)
  else head :: helpLines.map (spaces column ++ ·)

/-- The lines of an argument's help entry, with the entries of a command's choices. -/
def argumentLines (column : Nat) (a : Argument) : List String :=
  entryLines column 2 a.invocation a.help ++ match a.kind with
    | .command choices => choices.flatMap fun (c : String × String) => entryLines column 4 c.1 c.2
    | _ => []

/-- The help text of a parser, ending with a new line. -/
def helpText (p : ArgumentParser) : String :=
  let column := p.helpColumn
  let block (title : String) (args : List Argument) : List String :=
    if args.isEmpty then []
    else ["\n".intercalate ((title ++ ":") :: args.flatMap (argumentLines column))]
  let description := match p.description with
    | some d => ["\n".intercalate (wrap lineWidth d)]
    | none => []
  "\n\n".intercalate (("usage: " ++ p.usageBody) :: description
    ++ block "positional arguments" p.positionals ++ block "options" p.options) ++ "\n"

end ArgumentParser

end FeeSchedule.Cli
