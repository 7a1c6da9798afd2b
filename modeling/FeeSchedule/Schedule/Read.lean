import FeeSchedule.Syntax.Expr.Parse
import FeeSchedule.Syntax.Lexer

/-!
# `FeeSchedule.Schedule.Read`: reading declarations from tokens

`Reader` reads a phrase from the start of a token list and returns it with the tokens
after it; its monad threads the tokens and keeps the fact that a reader never returns more
tokens than it was given. The declarations are read by these rules:

    VERSION string [string]
    GROUP name AS string [WEIGHT [-] number]
    RETURN name AS string [IF expr]
    VERIFY COMPLETE FEE name
    VERIFY MONOTONIC FEE name WITH RESPECT TO name (INCREASING | DECREASING)
    INPUT name kind string {clause} ENDINPUT
    FEE name {OPTIONAL | CURRENCY name} {LET name AS expr | YIELD expr [IF expr]} ENDFEE

where an input clause is `BETWEEN bound AND bound` (number and date inputs, which require
it), `CHOICE name AS string` (list and selection inputs), `DEFAULT value` (of the input's
kind; a selection takes several symbols separated by commas), `CURRENCY name` (amount
inputs, which require it) or `GROUP name`. A later `DEFAULT` replaces an earlier one. A
`LET` after a `YIELD` is a fault. A bound or default number may have a minus; it is read
exactly and then negated in the arithmetic context, and a number that cannot be read at all
stops the whole reading with a decimal signal rather than a syntax fault.
-/

namespace FeeSchedule

/-- A reader of a phrase at the start of a token list, given the place where the text ends. -/
structure Reader (α : Type) where
  run : Pos → (ts : List Token) → Except Stop (Parsed ts α)

namespace Reader

instance : Monad Reader where
  pure a := ⟨fun _ _ => .ok (Parsed.here a)⟩
  bind m f := ⟨fun eof ts =>
    match m.run eof ts with
    | .error e => .error e
    | .ok a =>
      match (f a.value).run eof a.rest with
      | .error e => .error e
      | .ok b => .ok (b.widen a.suffix)⟩

/-- Stops with `s`. -/
def stop {α : Type} (s : Stop) : Reader α := ⟨fun _ _ => .error s⟩

/-- Stops with "expected `what`" at the first token. -/
def expected {α : Type} (what : String) : Reader α :=
  ⟨fun eof ts => .error (expectedAt eof ts what)⟩

/-- Stops with `f` at `pos`, having consumed what was read so far. -/
def abortAt {α : Type} (f : SyntaxFault) (pos : Pos) : Reader α :=
  ⟨fun _ ts => .error (.abort ⟨f, pos, ts⟩)⟩

/-- The first token, not consumed. -/
def peek : Reader (Option Token) := ⟨fun _ ts => .ok (Parsed.here ts.head?)⟩

/-- Consumes the first token. -/
def advance : Reader Unit :=
  ⟨fun _ ts => match ts with
    | _ :: _ => .ok (Parsed.next ())
    | [] => .ok (Parsed.here ())⟩

/-- Consumes the keyword `w`, or stops with "expected `w`". -/
def keyword (w : String) : Reader Unit := do
  match ← peek with
  | some t => if t.isKeyword w then advance else expected w
  | none => expected w

/-- Consumes the keyword `w` when it comes first, and tells whether it did. -/
def keyword? (w : String) : Reader Bool := do
  match ← peek with
  | some t => if t.isKeyword w then do advance; pure true else pure false
  | none => pure false

/-- Consumes the symbol `s` when it comes first, and tells whether it did. -/
def symbol? (s : String) : Reader Bool := do
  match ← peek with
  | some t => if t.isSymbol s then do advance; pure true else pure false
  | none => pure false

/-- Consumes an identifier, or stops with "expected `what`". -/
def ident (what : String) : Reader String := do
  match ← peek with
  | some t => if t.kind = .identifier then do advance; pure t.value else expected what
  | none => expected what

/-- Consumes a string, or stops with "expected `what`". -/
def string (what : String) : Reader String := do
  match ← peek with
  | some t => if t.kind = .string then do advance; pure t.value else expected what
  | none => expected what

/-- Reads an expression. -/
def expr : Reader Expr := ⟨fun eof ts => ExprParse.orExpr eof ts⟩

/-- Reads a number with an optional minus. The digits are read exactly; an unreadable
number and a failed negation stop the reading with their decimal signal. -/
def signedNumber : Reader Decimal := do
  let negative ← symbol? "-"
  match ← peek with
  | some t =>
    if t.kind = .number then do
      advance
      match Decimal.ofText t.value with
      | .error s => stop (.signal s)
      | .ok v =>
        if negative then
          match v.neg with
          | .ok w => pure w
          | .error s => stop (.signal s)
        else pure v
    else expected "a number"
  | none => expected "a number"

/-- Reads a date written as a string. -/
def date : Reader Date := do
  match ← peek with
  | some t =>
    if t.kind = .string then do
      advance
      match Date.ofIsoText? t.value with
      | some d => pure d
      | none => abortAt (.invalidDate t.value) t.pos
    else expected "a date 'YYYY-MM-DD'"
  | none => expected "a date 'YYYY-MM-DD'"

end Reader

/-- A declaration as read, before it joins the schedule. -/
inductive Declaration where
  | version (v : Version)
  | group (g : Group)
  | input (i : Input)
  | fee (f : Fee)
  | ret (r : Return)
  | directive (d : Directive)
  deriving Inhabited

namespace Read

open Reader

/-- `VERSION string [string]`, after the keyword. -/
def version : Reader Version := do
  let id ← string "a version identifier"
  match ← peek with
  | some t => if t.kind = .string then do advance; pure ⟨id, some t.value⟩ else pure ⟨id, none⟩
  | none => pure ⟨id, none⟩

/-- `GROUP name AS string [WEIGHT number]`, after the keyword. -/
def group : Reader Group := do
  let name ← ident "a group name"
  keyword "AS"
  let text ← string "a group description"
  if ← keyword? "WEIGHT" then
    let w ← signedNumber
    pure ⟨name, text, w⟩
  else pure ⟨name, text, Decimal.zero⟩

/-- `RETURN name AS string [IF expr]`, after the keyword. -/
def ret : Reader Return := do
  let symbol ← ident "a return symbol"
  keyword "AS"
  let text ← string "a return description"
  if ← keyword? "IF" then
    let c ← expr
    pure ⟨symbol, text, some c⟩
  else pure ⟨symbol, text, none⟩

/-- `VERIFY COMPLETE FEE name` or `VERIFY MONOTONIC FEE name WITH RESPECT TO name
direction`, after the keyword. -/
def directive : Reader Directive := do
  if ← keyword? "COMPLETE" then
    keyword "FEE"
    let f ← ident "a fee name"
    pure (.complete f)
  else if ← keyword? "MONOTONIC" then
    keyword "FEE"
    let f ← ident "a fee name"
    keyword "WITH"
    keyword "RESPECT"
    keyword "TO"
    let x ← ident "an input name"
    if ← keyword? "INCREASING" then pure (.monotonic f x .increasing)
    else if ← keyword? "DECREASING" then pure (.monotonic f x .decreasing)
    else expected "INCREASING or DECREASING"
  else expected "COMPLETE or MONOTONIC"

/-- The clauses of an input read so far. -/
structure InputDraft where
  numberBounds : Option (Decimal × Decimal) := none
  dateBounds : Option (Date × Date) := none
  choices : Array Choice := #[]
  numberDefault : Option Decimal := none
  dateDefault : Option Date := none
  flagDefault : Option Bool := none
  symbolDefaults : Option (List String) := none
  currency : Option String := none
  group : Option String := none

/-- The more symbols of a selection's default: `{, name}`. -/
def moreSymbols (eof : Pos) (ts : List Token) : Except Stop (Parsed ts (List String)) :=
  match ts with
  | t :: r =>
    if t.isSymbol "," then
      match (ident "a choice symbol").run eof r with
      | .error e => .error e
      | .ok s =>
        have := s.le
        match moreSymbols eof s.rest with
        | .error e => .error e
        | .ok m => .ok ⟨s.value :: m.value, m.rest,
          m.suffix.trans (s.suffix.trans (List.suffix_cons _ _))⟩
    else .ok ⟨[], t :: r, List.suffix_refl _⟩
  | [] => .ok ⟨[], [], List.suffix_refl _⟩
termination_by ts.length

/-- The value after `DEFAULT`, of the input's kind. -/
def defaultClause (kind : InputKind) (d : InputDraft) : Reader InputDraft :=
  match kind with
  | .number | .amount => do
    let v ← signedNumber
    pure { d with numberDefault := some v }
  | .date => do
    let v ← date
    pure { d with dateDefault := some v }
  | .boolean => do
    if ← keyword? "TRUE" then pure { d with flagDefault := some true }
    else if ← keyword? "FALSE" then pure { d with flagDefault := some false }
    else expected "TRUE or FALSE"
  | .list => do
    let s ← ident "a choice symbol"
    pure { d with symbolDefaults := some [s] }
  | .multilist => do
    let s ← ident "a choice symbol"
    let more ← ⟨moreSymbols⟩
    pure { d with symbolDefaults := some (s :: more) }

/-- The clause introduced by the keyword `t` (already consumed) of an input of `kind`. -/
def clause (kind : InputKind) (t : Token) (d : InputDraft) : Reader InputDraft :=
  if t.isKeyword "BETWEEN" then
    match kind with
    | .number => do
      let lo ← signedNumber
      keyword "AND"
      let hi ← signedNumber
      pure { d with numberBounds := some (lo, hi) }
    | .date => do
      let lo ← date
      keyword "AND"
      let hi ← date
      pure { d with dateBounds := some (lo, hi) }
    | k => abortAt (.notValidFor "BETWEEN" k) t.pos
  else if t.isKeyword "CHOICE" then
    if kind = .list ∨ kind = .multilist then do
      let s ← ident "a choice symbol"
      keyword "AS"
      let text ← string "a choice description"
      pure { d with choices := d.choices.push ⟨s, text⟩ }
    else abortAt (.notValidFor "CHOICE" kind) t.pos
  else if t.isKeyword "DEFAULT" then defaultClause kind d
  else if t.isKeyword "CURRENCY" then
    if kind = .amount then do
      let c ← ident "a currency code"
      pure { d with currency := some c }
    else abortAt (.notValidFor "CURRENCY" kind) t.pos
  else do
    let g ← ident "a group name"
    pure { d with group := some g }

/-- The keywords that start an input clause. -/
def clauseKeywords : List String := ["BETWEEN", "CHOICE", "DEFAULT", "CURRENCY", "GROUP"]

/-- The clauses of an input up to (not including) `ENDINPUT`. -/
def clauses (kind : InputKind) (eof : Pos) (ts : List Token) (d : InputDraft) :
    Except Stop (Parsed ts InputDraft) :=
  match ts with
  | t :: r =>
    if t.isKeyword "ENDINPUT" then .ok ⟨d, t :: r, List.suffix_refl _⟩
    else if t.kind = .keyword ∧ clauseKeywords.contains t.value then
      match (clause kind t d).run eof r with
      | .error e => .error e
      | .ok c =>
        have := c.le
        match clauses kind eof c.rest c.value with
        | .error e => .error e
        | .ok m => .ok (m.widen (c.suffix.trans (List.suffix_cons _ _)))
    else .error (expectedAt eof (t :: r) "BETWEEN, CHOICE, DEFAULT, CURRENCY, GROUP or ENDINPUT")
  | [] => .error (expectedAt eof [] "BETWEEN, CHOICE, DEFAULT, CURRENCY, GROUP or ENDINPUT")
termination_by ts.length

/-- The input declared by its clauses, or the fault of a missing range or currency, stated
at the `INPUT` keyword. -/
def finishInput (start : Pos) (name text : String) (kind : InputKind) (d : InputDraft) :
    Reader Input :=
  let choices := d.choices.toList
  match kind with
  | .number =>
    match d.numberBounds with
    | some (lo, hi) => pure ⟨name, text, .number lo hi (d.numberDefault.getD lo), d.group⟩
    | none => abortAt (.requiresBounds kind name) start
  | .date =>
    match d.dateBounds with
    | some (lo, hi) => pure ⟨name, text, .date lo hi (d.dateDefault.getD lo), d.group⟩
    | none => abortAt (.requiresBounds kind name) start
  | .boolean => pure ⟨name, text, .boolean (d.flagDefault.getD false), d.group⟩
  | .list =>
    let default := match d.symbolDefaults with
      | some (s :: _) => s
      | _ => (choices.head?.map (·.symbol)).getD ""
    pure ⟨name, text, .list choices default, d.group⟩
  | .multilist => pure ⟨name, text, .multilist choices (d.symbolDefaults.getD []), d.group⟩
  | .amount =>
    match d.currency with
    | some c => pure ⟨name, text, .amount c (d.numberDefault.getD Decimal.zero), d.group⟩
    | none => abortAt (.requiresCurrency name) start

/-- The kind named by a keyword. -/
def kindOf? (t : Token) : Option InputKind :=
  if t.kind = .keyword then InputKind.all.find? (·.keyword == t.value) else none

/-- `INPUT name kind string {clause} ENDINPUT`, after the keyword at `start`. -/
def input (start : Pos) : Reader Input := do
  let name ← ident "an input name"
  let kind ← match ← peek with
    | some t => match kindOf? t with
      | some k => do advance; pure k
      | none => expected "an input kind (NUMBER, BOOLEAN, LIST, MULTILIST, DATE, AMOUNT)"
    | none => expected "an input kind (NUMBER, BOOLEAN, LIST, MULTILIST, DATE, AMOUNT)"
  let text ← string "an input description"
  let d ← ⟨fun eof ts => clauses kind eof ts {}⟩
  keyword "ENDINPUT"
  finishInput start name text kind d

/-- The options of a fee after its name: `{OPTIONAL | CURRENCY name}`. -/
def feeOptions (eof : Pos) (ts : List Token) (opt : Bool) (cur : Option String) :
    Except Stop (Parsed ts (Bool × Option String)) :=
  match ts with
  | t :: r =>
    if t.isKeyword "OPTIONAL" then
      match feeOptions eof r true cur with
      | .error e => .error e
      | .ok m => .ok (m.widen (List.suffix_cons _ _))
    else if t.isKeyword "CURRENCY" then
      match (ident "a currency code").run eof r with
      | .error e => .error e
      | .ok c =>
        have := c.le
        match feeOptions eof c.rest opt (some c.value) with
        | .error e => .error e
        | .ok m => .ok (m.widen (c.suffix.trans (List.suffix_cons _ _)))
    else .ok ⟨(opt, cur), t :: r, List.suffix_refl _⟩
  | [] => .ok ⟨(opt, cur), [], List.suffix_refl _⟩
termination_by ts.length

/-- The body of a fee up to (not including) `ENDFEE`: variables and cases so far. -/
def feeBody (eof : Pos) (ts : List Token) (vars : Array LetVar) (cases : Array Case) :
    Except Stop (Parsed ts (Array LetVar × Array Case)) :=
  match ts with
  | t :: r =>
    if t.isKeyword "ENDFEE" then .ok ⟨(vars, cases), t :: r, List.suffix_refl _⟩
    else if t.isKeyword "LET" then
      if !cases.isEmpty then .error (.abort ⟨.letAfterCases, t.pos, r⟩)
      else
        let letVar : Reader LetVar := do
          let n ← ident "a variable name"
          keyword "AS"
          let e ← expr
          pure ⟨n, e⟩
        match letVar.run eof r with
        | .error e => .error e
        | .ok v =>
          have := v.le
          match feeBody eof v.rest (vars.push v.value) cases with
          | .error e => .error e
          | .ok m => .ok (m.widen (v.suffix.trans (List.suffix_cons _ _)))
    else if t.isKeyword "YIELD" then
      let yieldCase : Reader Case := do
        let e ← expr
        if ← keyword? "IF" then
          let c ← expr
          pure ⟨e, some c⟩
        else pure ⟨e, none⟩
      match yieldCase.run eof r with
      | .error e => .error e
      | .ok c =>
        have := c.le
        match feeBody eof c.rest vars (cases.push c.value) with
        | .error e => .error e
        | .ok m => .ok (m.widen (c.suffix.trans (List.suffix_cons _ _)))
    else .error (expectedAt eof (t :: r) "LET, YIELD or ENDFEE")
  | [] => .error (expectedAt eof [] "LET, YIELD or ENDFEE")
termination_by ts.length

/-- `FEE name {option} {LET | YIELD} ENDFEE`, after the keyword. -/
def fee : Reader Fee := do
  let name ← ident "a fee name"
  let (optional, currency) ← ⟨fun eof ts => feeOptions eof ts false none⟩
  let (vars, cases) ← ⟨fun eof ts => feeBody eof ts #[] #[]⟩
  keyword "ENDFEE"
  pure ⟨name, cases.toList, vars.toList, optional, currency⟩

/-- The declaration opened by the top-level keyword `t`, read from the tokens after it. -/
def declaration (t : Token) : Reader Declaration :=
  if t.isKeyword "VERSION" then Declaration.version <$> version
  else if t.isKeyword "GROUP" then Declaration.group <$> group
  else if t.isKeyword "INPUT" then Declaration.input <$> input t.pos
  else if t.isKeyword "FEE" then Declaration.fee <$> fee
  else if t.isKeyword "RETURN" then Declaration.ret <$> ret
  else Declaration.directive <$> directive

end Read

end FeeSchedule
