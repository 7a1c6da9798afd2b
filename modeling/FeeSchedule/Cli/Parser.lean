import FeeSchedule.Cli.Wrap

/-!
# `FeeSchedule.Cli.Parser`: describing a command line

A command line is described by an `ArgumentParser`: the program name, an optional
description, its arguments in order, and groups of arguments of which at most one may be
given. An argument is an option when it has option strings (`--json`, `-p`) and a positional
argument otherwise. What it does is its kind: show the help, record that it was given, take
one value, take one or more values, or name a command whose own parser reads every later
argument.

An argument is named in messages by its option strings joined by `/`, or else by its
metavariable, or else by its destination.
-/

namespace FeeSchedule.Cli

/-- What an argument does when it is given. -/
inductive ArgumentKind where
  /-- Shows the help of its parser and stops. -/
  | help
  /-- Records that it was given. -/
  | flag
  /-- Takes one value. -/
  | value
  /-- Takes one or more values. -/
  | values
  /-- Names a command, from the choices with their help; the command's parser reads the
  arguments after it. -/
  | command (choices : List (String × String))
  deriving Repr, Inhabited

/-- An argument of a command line. -/
structure Argument where
  /-- The option strings, such as `--provenance` and `-p`; none for a positional argument. -/
  flags : List String
  /-- Where its value is recorded. -/
  dest : String
  /-- The name of its value in usage and help. -/
  metavar : Option String
  kind : ArgumentKind
  help : String
  deriving Repr, Inhabited

/-- A command line: its program name, description, arguments, and groups of destinations of
which at most one may be given. -/
structure ArgumentParser where
  prog : String
  description : Option String
  arguments : List Argument
  exclusive : List (List String)
  deriving Repr, Inhabited

namespace Argument

/-- Whether the argument is an option. -/
def isOption (a : Argument) : Bool := !a.flags.isEmpty

/-- The name of the argument in messages. -/
def name (a : Argument) : String :=
  if a.isOption then "/".intercalate a.flags else a.metavar.getD a.dest

/-- The name of its value: the metavariable, or the destination in capitals for an option
and as it is for a positional argument. -/
def valueName (a : Argument) : String :=
  a.metavar.getD (if a.isOption then a.dest.toUpper else a.dest)

/-- Whether the argument takes no value. -/
def takesNoValue (a : Argument) : Bool :=
  match a.kind with
  | .help | .flag => true
  | _ => false

end Argument

/-- The argument that shows the help. -/
def helpArgument : Argument :=
  ⟨["-h", "--help"], "help", none, .help, "show this help message and exit"⟩

end FeeSchedule.Cli
