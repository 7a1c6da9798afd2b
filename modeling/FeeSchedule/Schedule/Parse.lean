import FeeSchedule.Schedule.Read
import FeeSchedule.Check.Declarations
import FeeSchedule.Log

/-!
# `FeeSchedule.Schedule.Parse`: from text to a checked schedule

`Schedule.parse` reads a whole text. Reading does not stop at a broken declaration: the
fault is reported and reading resumes after the declaration, so that every fault of a text
shows at once. Where it resumes (`resumeAfter`):

* right away, when the declaration was an `INPUT` or `FEE` block and the last token read is
  its end keyword;
* after the end keyword of the block, when one follows;
* otherwise at the next declaration keyword that stands on a later line than the token
  before it (for a broken input, `GROUP` does not count: it is also one of its clauses).

A declaration counts as a block by the text of its first token, so a string `'FEE'` at the
start of a declaration opens one too. When resuming would not move past anything (a string
`'FEE'` right after an `ENDFEE`), the same declaration breaks again at the same place, and
again: reading never ends, which the result says as `Halt.loops`.

A text with faults (of the characters or of the declarations) gives no schedule; the faults
are listed by line, those of the characters first within a line. Otherwise the names in the
expressions are resolved, the schedule is checked, and the result is the schedule with the
checker's diagnostics. A bound or default number that cannot be read stops everything with
its decimal signal.

`Expr.parse` reads a text that holds one expression and nothing else, leaving its names
as references.
-/

namespace FeeSchedule

/-- The keywords that open a declaration. -/
def topLevel : List String := ["VERSION", "GROUP", "INPUT", "FEE", "RETURN", "VERIFY"]

mutual

/-- An expression with every reference outside `names` turned into a symbol. -/
def Expr.resolve (names : List String) : Expr → Expr
  | .ref n => if names.contains n then .ref n else .sym n
  | .unary op e => .unary op (e.resolve names)
  | .binary op l r => .binary op (l.resolve names) (r.resolve names)
  | .call f args => .call f (Expr.resolveAll names args)
  | e => e

/-- `Expr.resolve` on each expression of a list. -/
def Expr.resolveAll (names : List String) : List Expr → List Expr
  | [] => []
  | e :: es => e.resolve names :: Expr.resolveAll names es

end

/-- The variables of a fee resolved in order: each sees the inputs and the variables before
it. Gives the variables and the names visible after them. -/
def resolveVars (names : List String) : List LetVar → List LetVar × List String
  | [] => ([], names)
  | v :: vs =>
    let (rest, all) := resolveVars (v.name :: names) vs
    (⟨v.name, v.expr.resolve names⟩ :: rest, all)

/-- A fee with its names resolved: the cases see the inputs and all variables. -/
def Fee.resolve (inputs : List String) (f : Fee) : Fee :=
  let (vars, names) := resolveVars inputs f.vars
  { f with
    vars := vars
    cases := f.cases.map fun c => ⟨c.expr.resolve names, c.condition.map (·.resolve names)⟩ }

/-- A schedule with its names resolved: in fees by `Fee.resolve`, in returns against the
inputs. -/
def Schedule.resolve (s : Schedule) : Schedule :=
  let inputs := s.inputNames
  { s with
    fees := s.fees.map (Fee.resolve inputs)
    returns := s.returns.map fun r => { r with condition := r.condition.map (·.resolve inputs) } }

/-- What the result of reading a text says: the schedule, unless the text has syntax
faults, and the diagnostics. -/
structure ParseResult where
  schedule : Option Schedule
  diagnostics : List Diagnostic
  deriving Inhabited

namespace ParseResult

/-- The diagnostics that are errors. -/
def errors (r : ParseResult) : List Diagnostic := r.diagnostics.filter (·.isError)

/-- The diagnostics that are warnings. -/
def warnings (r : ParseResult) : List Diagnostic := r.diagnostics.filter (!·.isError)

/-- Whether the text gave a schedule without errors. -/
def isValid (r : ParseResult) : Bool := r.schedule.isSome && r.errors.isEmpty

end ParseResult

/-- A text that gave no usable schedule, with its errors. -/
structure ParseError where
  errors : List Diagnostic
  deriving Inhabited

/-- The message of a parse error: the count, then one indented line per error. -/
def ParseError.message (e : ParseError) : String :=
  "Script has " ++ toString e.errors.length ++ " error(s):\n"
    ++ "\n".intercalate (e.errors.map fun d => "  - " ++ d.text)

/-- The declarations read so far, and the faults met. -/
structure Gathered where
  inputs : Array Input := #[]
  fees : Array Fee := #[]
  groups : Array Group := #[]
  returns : Array Return := #[]
  directives : Array Directive := #[]
  version : Option Version := none
  faults : Array Diagnostic := #[]

namespace Gathered

/-- Adds a declaration. -/
def add (g : Gathered) : Declaration → Gathered
  | .version v => { g with version := some v }
  | .group x => { g with groups := g.groups.push x }
  | .input i => { g with inputs := g.inputs.push i }
  | .fee f => { g with fees := g.fees.push f }
  | .ret r => { g with returns := g.returns.push r }
  | .directive d => { g with directives := g.directives.push d }

/-- Adding a declaration leaves the faults as they are. -/
@[simp] theorem faults_add (g : Gathered) (d : Declaration) : (g.add d).faults = g.faults := by
  cases d <;> rfl

/-- The schedule of the declarations read. -/
def schedule (g : Gathered) : Schedule :=
  ⟨g.inputs.toList, g.fees.toList, g.groups.toList, g.returns.toList, g.directives.toList,
    g.version⟩

end Gathered

/-- The diagnostic of a fault at a place: the message with the column, at the line. -/
def faultAt (message : String) (pos : Pos) : Diagnostic :=
  Diagnostic.reading (message ++ " (column " ++ toString pos.column ++ ")") pos.line

/-- The last token read, when reading went from `ts` to `rest`; `prev` when none was. -/
def lastRead (prev : Option Token) (ts rest : List Token) : Option Token :=
  ((ts.take (ts.length - rest.length)).getLast?).orElse fun _ => prev

/-- The last token read, when what was read is `xs`. -/
theorem lastRead_append (prev : Option Token) (xs left : List Token) :
    lastRead prev (xs ++ left) left = xs.getLast?.orElse fun _ => prev := by
  unfold lastRead
  rw [List.length_append, Nat.add_sub_cancel, List.take_left]

/-- Skips tokens after `prev` up to the end keyword `blockEnd` (consumed), or up to a keyword
of `resume` on a later line than the token before it (kept). -/
def skipBroken (blockEnd : Option String) (resume : List String) (prev : Token) :
    List Token → List Token
  | [] => []
  | t :: r =>
    if t.kind = .keyword ∧ blockEnd = some t.value then r
    else if t.kind = .keyword ∧ resume.contains t.value ∧ t.pos.line > prev.pos.line then t :: r
    else skipBroken blockEnd resume t r

/-- Skipping a broken declaration leaves a suffix of the tokens. -/
theorem skipBroken_suffix (blockEnd : Option String) (resume : List String) :
    ∀ (prev : Token) (l : List Token), skipBroken blockEnd resume prev l <:+ l
  | _, [] => List.suffix_refl _
  | _, t :: r => by
    rw [skipBroken]
    split
    · exact List.suffix_cons _ _
    split
    · exact List.suffix_refl _
    · exact (skipBroken_suffix blockEnd resume t r).trans (List.suffix_cons _ _)

/-- Where reading resumes after a declaration that started with `start` at `ts` broke with
`rest` unread; `prev` is the token before `ts`. -/
def resumeAfter (start : Token) (prev : Option Token) (ts rest : List Token) : List Token :=
  let blockEnd :=
    if start.value = "INPUT" then some "ENDINPUT"
    else if start.value = "FEE" then some "ENDFEE"
    else none
  let resume := if start.value = "INPUT" then topLevel.erase "GROUP" else topLevel
  let last := lastRead prev ts rest
  if blockEnd.isSome ∧ last.map (·.value) = blockEnd then rest
  else if rest.length = ts.length then skipBroken blockEnd resume start rest.tail
  else skipBroken blockEnd resume (last.getD start) rest

/-- Reading resumes within what the broken declaration left unread. -/
theorem resumeAfter_suffix (start : Token) (prev : Option Token) (ts rest : List Token) :
    resumeAfter start prev ts rest <:+ rest := by
  unfold resumeAfter
  -- whatever the end keyword of the block, reading resumes at the rest or skips into it
  extract_lets blockEnd resume last
  split
  · exact List.suffix_refl _
  split
  · exact (skipBroken_suffix _ _ _ _).trans (List.tail_suffix rest)
  · exact skipBroken_suffix _ _ _ _

/-- Reads the declaration whose first token `t` comes before `r`; a success reads from `r`
on, having consumed `t`. -/
def readDeclaration (eof : Pos) (t : Token) (r : List Token) (g : Gathered) :
    Except Stop (Parsed r Declaration) :=
  if t.kind = .keyword ∧ topLevel.contains t.value then
    match (Read.declaration t).run eof r with
    | .error e => .error e
    | .ok d =>
      match d.value with
      | .version _ =>
        if g.version.isSome then .error (.abort ⟨.repeatedVersion, t.pos, d.rest⟩) else .ok d
      | _ => .ok d
  else .error (expectedAt eof (t :: r) "VERSION, GROUP, INPUT, FEE, RETURN or VERIFY")

/-- Why reading a text gives no result: the decimal signal of a number token, or a broken
declaration at `pos` after which reading resumes where the declaration started, so that it
breaks there again and again and reading never ends. -/
inductive Halt where
  | signal (s : Signal)
  | loops (pos : Pos)
  deriving DecidableEq, Inhabited

/-- Reads all declarations of `ts`; `prev` is the token before them. -/
def gather (eof : Pos) (prev : Option Token) (ts : List Token) (g : Gathered) :
    Traced (Except Halt Gathered) :=
  match ts with
  | [] => pure (.ok g)
  | t :: r =>
    match readDeclaration eof t r g with
    | .ok d =>
      have := d.le
      gather eof (lastRead prev (t :: r) d.rest) d.rest (g.add d.value)
    | .error (.signal s) => pure (.error (.signal s))
    | .error (.abort a) => do
      note (.skipping t.pos.line)
      let g := { g with faults := g.faults.push (faultAt a.fault.message a.pos) }
      let next := resumeAfter t prev (t :: r) a.rest
      if next.length < (t :: r).length then
        gather eof (lastRead prev (t :: r) next) next g
      -- resuming gives back the broken declaration itself: the loop does not end
      else pure (.error (.loops t.pos))
termination_by ts.length
decreasing_by all_goals (simp_all <;> omega)

/-! One equation for each way the first declaration reads. -/

theorem gather_cons_ok {eof : Pos} {prev : Option Token} {t : Token} {r : List Token}
    {g : Gathered} {d : Parsed r Declaration} (hd : readDeclaration eof t r g = .ok d)
    (σ : Array Event) :
    (gather eof prev (t :: r) g).run σ =
      (gather eof (lastRead prev (t :: r) d.rest) d.rest (g.add d.value)).run σ := by
  rw [gather]
  simp only [hd]

theorem gather_cons_signal {eof : Pos} {prev : Option Token} {t : Token} {r : List Token}
    {g : Gathered} {s : Signal} (hd : readDeclaration eof t r g = .error (.signal s))
    (σ : Array Event) : (gather eof prev (t :: r) g).run σ = (.error (.signal s), σ) := by
  rw [gather]
  simp only [hd]
  rfl

theorem gather_cons_abort {eof : Pos} {prev : Option Token} {t : Token} {r : List Token}
    {g : Gathered} {a : Abort} (hd : readDeclaration eof t r g = .error (.abort a))
    (hlt : (resumeAfter t prev (t :: r) a.rest).length < (t :: r).length) (σ : Array Event) :
    (gather eof prev (t :: r) g).run σ =
      (gather eof (lastRead prev (t :: r) (resumeAfter t prev (t :: r) a.rest))
        (resumeAfter t prev (t :: r) a.rest)
        { g with faults := g.faults.push (faultAt a.fault.message a.pos) }).run
        (σ.push (.skipping t.pos.line)) := by
  rw [gather]
  simp only [hd, note, StateT.run_bind, StateT.run_modify, pure_bind]
  rw [if_pos hlt]

/-- The diagnostics of a text that has syntax faults, by line: a stable sort keeps the
faults of the characters before those of the declarations within a line. -/
def byLine (ds : List Diagnostic) : List Diagnostic :=
  ds.mergeSort fun a b => a.line.getD 0 ≤ b.line.getD 0

/-- Reads and checks a text, as described in the module header. -/
def Schedule.parse (text : List CodePoint) : Traced (Except Halt ParseResult) := do
  let lexed := tokenize text
  let lexFaults := lexed.errors.map fun e => faultAt e.fault.message e.pos
  match ← gather lexed.finish none lexed.tokens {} with
  | .error h => pure (.error h)
  | .ok g =>
    let faults := lexFaults ++ g.faults.toList
    if faults.isEmpty then
      let s := g.schedule.resolve
      let ds := s.check
      note (.parsed s.inputs.length s.fees.length ds.length)
      pure (.ok ⟨some s, ds⟩)
    else
      note (.syntaxErrors faults.length)
      pure (.ok ⟨none, byLine faults⟩)

/-- Why a text did not give a usable schedule: a decimal signal, a reading that never ends,
or its errors. -/
inductive CompileError where
  | signal (s : Signal)
  | loops (pos : Pos)
  | parse (e : ParseError)
  deriving Inhabited

/-- The schedule of a text, or why there is none: `Schedule.parse` with any error refused. -/
def Schedule.compile (text : List CodePoint) : Traced (Except CompileError Schedule) := do
  match ← Schedule.parse text with
  | .error (.signal s) => pure (.error (.signal s))
  | .error (.loops p) => pure (.error (.loops p))
  | .ok r =>
    match r.schedule with
    | some s => if r.errors.isEmpty then pure (.ok s) else pure (.error (.parse ⟨r.errors⟩))
    | none => pure (.error (.parse ⟨r.errors⟩))

/-- The error of a text that is not one expression: a single diagnostic without column. -/
def expressionError (message : String) (line : Nat) : ParseError :=
  ⟨[Diagnostic.reading message line]⟩

/-- Reads a text that holds exactly one expression. The first fault of the characters wins;
names stay references. -/
def Expr.parse (text : List CodePoint) : Except ParseError Expr :=
  let lexed := tokenize text
  match lexed.errors with
  | e :: _ => .error (expressionError e.fault.message e.pos.line)
  | [] =>
    match ExprParse.orExpr lexed.finish lexed.tokens with
    | .error (.abort a) => .error (expressionError a.fault.message a.pos.line)
    -- expressions read numbers without signals; a signal would leave no diagnostic
    | .error (.signal _) => .error ⟨[]⟩
    | .ok p =>
      match p.rest with
      | [] => .ok p.value
      | t :: _ =>
        .error (expressionError (SyntaxFault.expected "end of expression" t.describe).message
          t.pos.line)

end FeeSchedule
