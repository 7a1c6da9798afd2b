import FeeSchedule.Proofs.Syntax.Consumption

/-!
# `FeeSchedule.Proofs.Syntax.Totality`: reading a text fails only at a number or a stuck word

`Schedule.parse` reads a text declaration by declaration. A declaration that does not read
becomes a diagnostic, and reading resumes after it. Two things stop the reading instead.

A decimal signal, of which there is one source: `Reader.signedNumber`, which reads the bounds
and defaults of number and amount inputs and the weight of a group. A number token whose
digits the decimal reader does not accept fails there with its signal (the lexer takes a
superscript digit for a digit, the decimal reader does not), and so does the negation of a
number too large to round. Expressions turn an unreadable number into a diagnostic and never
signal.

A token where resuming does not move. Resuming after a broken `INPUT` or `FEE` stops right
after the word that ends the block, and it tells that word by its text alone. A string
`'FEE'` right after an `ENDFEE` opens no declaration, so it breaks with nothing read, and
resuming finds the token before it to be the end of the block: reading goes back to the
string, breaks there again, and never ends (`Halt.loops`).

* `Token.Unreadable t s`: `t` is a number token that does not read, or does not negate,
  without the signal `s`.
* `ExprParse.orExpr_faultIn`: reading an expression stops only with a syntax fault, which
  leaves a suffix of its tokens unread (`Stop.FaultIn`); never with a signal. The rules of the
  grammar are followed once, in `FeeSchedule.Proofs.Syntax.Consumption`.
* `Reader.Reads U P m`: run on tokens of `U`, the reader `m` gives a value satisfying `P`, or
  stops with a syntax fault, or with the signal of an unreadable number token of `U`. There is
  one lemma for each reader of a declaration, `Read.declaration_reads` last.
* `resumeAfter_stays`: resuming gives back the broken declaration only when it read nothing
  and the token before it reads as the end of the block it reads as opening
  (`Token.StuckAfter`).
* `gather_halts`: the loop over the declarations stops only with such a signal, or at such a
  token (`Halt.From`).
* `parse_returns_signals_or_loops`: reading a text gives a result, or the signal of one of its
  number tokens that does not read, or never ends at one of its tokens stuck after the one
  before it. `superscript_bound_signals` and `stray_fee_string_loops` are such texts.
-/

set_option autoImplicit false

namespace FeeSchedule

/-- A number token that the decimal reader rejects with the signal `s`, or whose value
fails to negate with it. -/
def Token.Unreadable (t : Token) (s : Signal) : Prop :=
  t.kind = .number ∧
    (Decimal.ofText t.value = .error s ∨ ∃ v, Decimal.ofText t.value = .ok v ∧ v.neg = .error s)

/-! ### Expressions stop only with syntax faults -/

/-- A syntax fault met reading `ts`, which leaves a suffix of `ts` unread. -/
def Stop.FaultIn (ts : List Token) : Stop → Prop
  | .abort a => a.rest <:+ ts
  | .signal _ => False

theorem expectedAt_faultIn (eof : Pos) (ts : List Token) (what : String) :
    (expectedAt eof ts what).FaultIn ts :=
  List.suffix_refl ts

/-- A syntax fault that left tokens taken from `ts` left a suffix of `ts`. -/
theorem Stop.FaultLeaves.faultIn {P : Token → Prop} {e : Stop} {ts : List Token}
    (h : e.FaultLeaves (TakenFrom P ts)) : e.FaultIn ts := by
  cases e with
  | abort a =>
    obtain ⟨us, hus, -⟩ := h
    exact ⟨us, hus⟩
  | signal s => exact h

/-- Reading an expression stops only at a syntax fault: the rules of the grammar take tokens
and never signal (`ExprParse.orExpr_takes`). -/
theorem ExprParse.orExpr_faultIn {eof : Pos} {ts : List Token} {e : Stop}
    (h : ExprParse.orExpr eof ts = .error e) : e.FaultIn ts :=
  ((ExprParse.orExpr_takes eof ts).error h).faultIn

/-! ### Readers -/

/-- A stop of reading tokens of `U`: a syntax fault that leaves tokens of `U` unread, or the
signal of an unreadable number token of `U`. -/
def Stop.From (U : List Token) : Stop → Prop
  | .abort a => a.rest ⊆ U
  | .signal s => ∃ t ∈ U, t.Unreadable s

theorem Stop.FaultIn.from {e : Stop} {ts U : List Token} (h : e.FaultIn ts) (hts : ts ⊆ U) :
    e.From U := by
  cases e with
  | abort a => exact List.Subset.trans h.subset hts
  | signal s => exact h.elim

/-- A result of reading: a value satisfying `P`, or a stop of reading tokens of `U`. -/
def ReadsFrom {α : Type} {ts : List Token} (U : List Token) (P : α → Prop) :
    Except Stop (Parsed ts α) → Prop
  | .ok p => P p.value
  | .error e => e.From U

/-- Run on tokens of `U`, the reader gives a value satisfying `P`, or a stop of reading
tokens of `U`. -/
def Reader.Reads {α : Type} (U : List Token) (P : α → Prop) (m : Reader α) : Prop :=
  ∀ eof ts, ts ⊆ U → ReadsFrom U P (m.run eof ts)

namespace ReadsFrom

variable {α : Type} {ts U : List Token} {P : α → Prop} {r : Except Stop (Parsed ts α)}

theorem of_error {e : Stop} (h : ReadsFrom U P r) (he : r = .error e) : e.From U := by
  subst he
  exact h

theorem of_ok {p : Parsed ts α} (h : ReadsFrom U P r) (hp : r = .ok p) : P p.value := by
  subst hp
  exact h

end ReadsFrom

namespace Reader.Reads

variable {α β : Type} {U : List Token} {P : α → Prop} {Q : β → Prop}

theorem pure {a : α} (h : P a) : (Pure.pure a : Reader α).Reads U P := fun _ _ _ => h

theorem bind {m : Reader α} {f : α → Reader β} (hm : m.Reads U P)
    (hf : ∀ a, P a → (f a).Reads U Q) : (m >>= f).Reads U Q := by
  intro eof ts hts
  rw [Reader.run_bind]
  split
  · rename_i e he
    exact (hm eof ts hts).of_error he
  · rename_i a ha
    -- the rest is read from what the first reader left, tokens of `U` still
    have hrest := hf a.value ((hm eof ts hts).of_ok ha) eof a.rest
      (List.Subset.trans a.suffix.subset hts)
    split
    · rename_i e he
      exact hrest.of_error he
    · rename_i b hb
      exact hrest.of_ok hb

theorem map {m : Reader α} {f : α → β} (hm : m.Reads U P) (hf : ∀ a, P a → Q (f a)) :
    (f <$> m).Reads U Q :=
  bind hm fun a ha => pure (hf a ha)

theorem mono {m : Reader α} {P' : α → Prop} (hm : m.Reads U P) (h : ∀ a, P a → P' a) :
    m.Reads U P' := by
  intro eof ts hts
  have hr := hm eof ts hts
  cases hrun : m.run eof ts with
  | ok p => exact h _ (hr.of_ok hrun)
  | error e => exact hr.of_error hrun

/-- A reader that stops only with syntax faults leaving its tokens unread. -/
theorem of_faultIn {m : Reader α} (h : ∀ eof ts e, m.run eof ts = .error e → e.FaultIn ts) :
    m.Reads U fun _ => True := by
  intro eof ts hts
  cases hrun : m.run eof ts with
  | ok p => trivial
  | error e => exact (h eof ts e hrun).from hts

theorem stop_signal {s : Signal} (h : ∃ t ∈ U, t.Unreadable s) :
    (Reader.stop (.signal s) : Reader α).Reads U P :=
  fun _ _ _ => h

theorem expected (what : String) : (Reader.expected what : Reader α).Reads U P :=
  fun eof ts hts => (expectedAt_faultIn eof ts what).from hts

theorem abortAt (f : SyntaxFault) (pos : Pos) : (Reader.abortAt f pos : Reader α).Reads U P :=
  fun _ _ hts => hts

end Reader.Reads

namespace Reader

variable {U : List Token}

/-- The token looked at is one of the tokens. -/
theorem peek_reads : peek.Reads U fun o => ∀ t, o = some t → t ∈ U := by
  intro eof ts hts t ht
  exact hts (List.mem_of_mem_head? ht)

theorem advance_reads : advance.Reads U fun _ => True := by
  intro eof ts hts
  cases ts <;> trivial

theorem keyword_reads (w : String) : (keyword w).Reads U fun _ => True := by
  refine Reads.bind peek_reads fun o _ => ?_
  split
  · split
    · exact advance_reads
    · exact Reads.expected _
  · exact Reads.expected _

theorem keyword?_reads (w : String) : (keyword? w).Reads U fun _ => True := by
  refine Reads.bind peek_reads fun o _ => ?_
  split
  · split
    · exact Reads.bind advance_reads fun _ _ => Reads.pure trivial
    · exact Reads.pure trivial
  · exact Reads.pure trivial

theorem symbol?_reads (w : String) : (symbol? w).Reads U fun _ => True := by
  refine Reads.bind peek_reads fun o _ => ?_
  split
  · split
    · exact Reads.bind advance_reads fun _ _ => Reads.pure trivial
    · exact Reads.pure trivial
  · exact Reads.pure trivial

theorem ident_reads (what : String) : (ident what).Reads U fun _ => True := by
  refine Reads.bind peek_reads fun o _ => ?_
  split
  · split
    · exact Reads.bind advance_reads fun _ _ => Reads.pure trivial
    · exact Reads.expected _
  · exact Reads.expected _

theorem string_reads (what : String) : (string what).Reads U fun _ => True := by
  refine Reads.bind peek_reads fun o _ => ?_
  split
  · split
    · exact Reads.bind advance_reads fun _ _ => Reads.pure trivial
    · exact Reads.expected _
  · exact Reads.expected _

theorem expr_reads : expr.Reads U fun _ => True :=
  Reads.of_faultIn fun _ _ _ h => ExprParse.orExpr_faultIn h

theorem date_reads : date.Reads U fun _ => True := by
  refine Reads.bind peek_reads fun o _ => ?_
  split
  · split
    · refine Reads.bind advance_reads fun _ _ => ?_
      split
      · exact Reads.pure trivial
      · exact Reads.abortAt _ _
    · exact Reads.expected _
  · exact Reads.expected _

/-- The one reader that signals: a number token that does not read, or whose negation fails,
stops the reading with its signal, and the token is one of those read. -/
theorem signedNumber_reads : signedNumber.Reads U fun _ => True := by
  unfold signedNumber
  refine Reads.bind (symbol?_reads "-") fun negative _ => Reads.bind peek_reads fun o ho => ?_
  cases o with
  | none => exact Reads.expected _
  | some t =>
    have ht := ho t rfl
    dsimp only
    split
    · rename_i hnum
      refine Reads.bind advance_reads fun _ _ => ?_
      split
      · rename_i s hs
        exact Reads.stop_signal ⟨t, ht, hnum, .inl hs⟩
      · rename_i v hv
        split
        · split
          · exact Reads.pure trivial
          · rename_i s hs
            exact Reads.stop_signal ⟨t, ht, hnum, .inr ⟨v, hv, hs⟩⟩
        · exact Reads.pure trivial
    · exact Reads.expected _

end Reader

/-! ### Declarations -/

namespace Read

open Reader

variable {U : List Token}

theorem version_reads : version.Reads U fun _ => True := by
  unfold version
  refine Reads.bind (string_reads _) fun _ _ => Reads.bind peek_reads fun o _ => ?_
  split
  · split
    · exact Reads.bind advance_reads fun _ _ => Reads.pure trivial
    · exact Reads.pure trivial
  · exact Reads.pure trivial

/-- A group reads its weight as a signed number. -/
theorem group_reads : group.Reads U fun _ => True := by
  unfold group
  refine Reads.bind (ident_reads _) fun _ _ => Reads.bind (keyword_reads _) fun _ _ =>
    Reads.bind (string_reads _) fun _ _ => Reads.bind (keyword?_reads _) fun _ _ => ?_
  split
  · exact Reads.bind signedNumber_reads fun _ _ => Reads.pure trivial
  · exact Reads.pure trivial

theorem ret_reads : ret.Reads U fun _ => True := by
  unfold ret
  refine Reads.bind (ident_reads _) fun _ _ => Reads.bind (keyword_reads _) fun _ _ =>
    Reads.bind (string_reads _) fun _ _ => Reads.bind (keyword?_reads _) fun _ _ => ?_
  split
  · exact Reads.bind expr_reads fun _ _ => Reads.pure trivial
  · exact Reads.pure trivial

theorem directive_reads : directive.Reads U fun _ => True := by
  unfold directive
  refine Reads.bind (keyword?_reads _) fun _ _ => ?_
  split
  · exact Reads.bind (keyword_reads _) fun _ _ => Reads.bind (ident_reads _) fun _ _ =>
      Reads.pure trivial
  refine Reads.bind (keyword?_reads _) fun _ _ => ?_
  split
  · refine Reads.bind (keyword_reads _) fun _ _ => Reads.bind (ident_reads _) fun _ _ =>
      Reads.bind (keyword_reads _) fun _ _ => Reads.bind (keyword_reads _) fun _ _ =>
        Reads.bind (keyword_reads _) fun _ _ => Reads.bind (ident_reads _) fun _ _ =>
          Reads.bind (keyword?_reads _) fun _ _ => ?_
    split
    · exact Reads.pure trivial
    refine Reads.bind (keyword?_reads _) fun _ _ => ?_
    split
    · exact Reads.pure trivial
    · exact Reads.expected _
  · exact Reads.expected _

theorem moreSymbols_reads {eof : Pos} {ts : List Token} (hts : ts ⊆ U) :
    ReadsFrom U (fun _ => True) (moreSymbols eof ts) := by
  rw [moreSymbols.eq_def]
  split
  · rename_i t r
    have hr := List.subset_of_cons_subset hts
    split
    · split
      · rename_i e he
        exact (ident_reads _ eof r hr).of_error he
      · rename_i x hx
        have := x.le
        split
        · rename_i e he
          exact (moreSymbols_reads (List.Subset.trans x.suffix.subset hr)).of_error he
        · trivial
    · trivial
  · trivial
termination_by ts.length
decreasing_by all_goals (subst_vars; simp only [List.length_cons]; omega)

/-- A default of a number or an amount is a signed number. -/
theorem defaultClause_reads (kind : InputKind) (d : InputDraft) :
    (defaultClause kind d).Reads U fun _ => True := by
  cases kind with
  | number | amount => exact Reads.bind signedNumber_reads fun _ _ => Reads.pure trivial
  | date => exact Reads.bind date_reads fun _ _ => Reads.pure trivial
  | boolean =>
    refine Reads.bind (keyword?_reads _) fun _ _ => ?_
    split
    · exact Reads.pure trivial
    refine Reads.bind (keyword?_reads _) fun _ _ => ?_
    split
    · exact Reads.pure trivial
    · exact Reads.expected _
  | list => exact Reads.bind (ident_reads _) fun _ _ => Reads.pure trivial
  | multilist =>
    exact Reads.bind (ident_reads _) fun _ _ =>
      Reads.bind (fun _ _ hts => moreSymbols_reads hts) fun _ _ => Reads.pure trivial

/-- The bounds of a number input are signed numbers. -/
theorem clause_reads (kind : InputKind) (t : Token) (d : InputDraft) :
    (clause kind t d).Reads U fun _ => True := by
  unfold clause
  split
  · split
    · exact Reads.bind signedNumber_reads fun _ _ => Reads.bind (keyword_reads _) fun _ _ =>
        Reads.bind signedNumber_reads fun _ _ => Reads.pure trivial
    · exact Reads.bind date_reads fun _ _ => Reads.bind (keyword_reads _) fun _ _ =>
        Reads.bind date_reads fun _ _ => Reads.pure trivial
    · exact Reads.abortAt _ _
  split
  · split
    · exact Reads.bind (ident_reads _) fun _ _ => Reads.bind (keyword_reads _) fun _ _ =>
        Reads.bind (string_reads _) fun _ _ => Reads.pure trivial
    · exact Reads.abortAt _ _
  split
  · exact defaultClause_reads kind d
  split
  · split
    · exact Reads.bind (ident_reads _) fun _ _ => Reads.pure trivial
    · exact Reads.abortAt _ _
  · exact Reads.bind (ident_reads _) fun _ _ => Reads.pure trivial

theorem clauses_reads (kind : InputKind) {eof : Pos} {ts : List Token} {d : InputDraft}
    (hts : ts ⊆ U) : ReadsFrom U (fun _ => True) (clauses kind eof ts d) := by
  rw [clauses.eq_def]
  split
  · rename_i t r
    have hr := List.subset_of_cons_subset hts
    split
    · trivial
    split
    · split
      · rename_i e he
        exact (clause_reads kind t d eof r hr).of_error he
      · rename_i c hc
        have := c.le
        split
        · rename_i e he
          exact (clauses_reads kind (List.Subset.trans c.suffix.subset hr)).of_error he
        · trivial
    · exact (expectedAt_faultIn _ _ _).from hts
  · exact (expectedAt_faultIn _ _ _).from hts
termination_by ts.length
decreasing_by all_goals (subst_vars; simp only [List.length_cons]; omega)

theorem finishInput_reads (start : Pos) (name text : String) (kind : InputKind)
    (d : InputDraft) : (finishInput start name text kind d).Reads U fun _ => True := by
  unfold finishInput
  cases kind with
  | number | date | amount =>
    dsimp only
    split
    · exact Reads.pure trivial
    · exact Reads.abortAt _ _
  | boolean | list | multilist => exact Reads.pure trivial

theorem input_reads (start : Pos) : (input start).Reads U fun _ => True := by
  unfold input
  refine Reads.bind (ident_reads _) fun name _ => Reads.bind peek_reads fun o _ => ?_
  -- whatever kind is read, the clauses and the input are read the same way
  have hbody : ∀ kind : InputKind, (string "an input description" >>= fun text =>
      (⟨fun eof ts => clauses kind eof ts {}⟩ : Reader InputDraft) >>= fun d =>
        keyword "ENDINPUT" >>= fun _ => finishInput start name text kind d).Reads U
      fun _ => True := fun kind =>
    Reads.bind (string_reads _) fun text _ =>
      Reads.bind (fun _ _ hts => clauses_reads kind hts) fun d _ =>
        Reads.bind (keyword_reads _) fun _ _ => finishInput_reads start name text kind d
  dsimp only
  split
  · split
    · exact Reads.bind advance_reads fun _ _ =>
        Reads.bind (Reads.pure (P := fun _ => True) trivial) fun kind _ => hbody kind
    · exact Reads.bind (Reads.expected (P := fun _ => True) _) fun kind _ => hbody kind
  · exact Reads.bind (Reads.expected (P := fun _ => True) _) fun kind _ => hbody kind

theorem feeOptions_reads {eof : Pos} {ts : List Token} {opt : Bool} {cur : Option String}
    (hts : ts ⊆ U) : ReadsFrom U (fun _ => True) (feeOptions eof ts opt cur) := by
  rw [feeOptions.eq_def]
  split
  · rename_i t r
    have hr := List.subset_of_cons_subset hts
    split
    · split
      · rename_i e he
        exact (feeOptions_reads hr).of_error he
      · trivial
    split
    · split
      · rename_i e he
        exact (ident_reads _ eof r hr).of_error he
      · rename_i c hc
        have := c.le
        split
        · rename_i e he
          exact (feeOptions_reads (List.Subset.trans c.suffix.subset hr)).of_error he
        · trivial
    · trivial
  · trivial
termination_by ts.length
decreasing_by all_goals (subst_vars; simp only [List.length_cons]; omega)

theorem feeBody_reads {eof : Pos} {ts : List Token} {vars : Array LetVar} {cases : Array Case}
    (hts : ts ⊆ U) : ReadsFrom U (fun _ => True) (feeBody eof ts vars cases) := by
  rw [feeBody.eq_def]
  split
  · rename_i t r
    have hr := List.subset_of_cons_subset hts
    split
    · trivial
    split
    · split
      · exact List.subset_of_cons_subset hts
      -- a variable: a name, `AS` and an expression
      have hvar : (do
          let n ← ident "a variable name"
          keyword "AS"
          let e ← expr
          pure (LetVar.mk n e) : Reader LetVar).Reads U fun _ => True :=
        Reads.bind (ident_reads _) fun _ _ => Reads.bind (keyword_reads _) fun _ _ =>
          Reads.bind expr_reads fun _ _ => Reads.pure trivial
      dsimp only
      split
      · rename_i e he
        exact (hvar eof r hr).of_error he
      · rename_i v hv
        have := v.le
        split
        · rename_i e he
          exact (feeBody_reads (List.Subset.trans v.suffix.subset hr)).of_error he
        · trivial
    split
    · -- a case: an amount and an optional condition
      have hcase : (do
          let e ← expr
          if ← keyword? "IF" then
            let c ← expr
            pure (Case.mk e (some c))
          else pure (Case.mk e none) : Reader Case).Reads U fun _ => True := by
        refine Reads.bind expr_reads fun _ _ => Reads.bind (keyword?_reads _) fun _ _ => ?_
        split
        · exact Reads.bind expr_reads fun _ _ => Reads.pure trivial
        · exact Reads.pure trivial
      dsimp only
      split
      · rename_i e he
        exact (hcase eof r hr).of_error he
      · rename_i c hc
        have := c.le
        split
        · rename_i e he
          exact (feeBody_reads (List.Subset.trans c.suffix.subset hr)).of_error he
        · trivial
    · exact (expectedAt_faultIn _ _ _).from hts
  · exact (expectedAt_faultIn _ _ _).from hts
termination_by ts.length
decreasing_by all_goals (subst_vars; simp only [List.length_cons]; omega)

theorem fee_reads : fee.Reads U fun _ => True := by
  unfold fee
  exact Reads.bind (ident_reads _) fun _ _ =>
    Reads.bind (fun _ _ hts => feeOptions_reads hts) fun _ _ =>
      Reads.bind (fun _ _ hts => feeBody_reads hts) fun _ _ =>
        Reads.bind (keyword_reads _) fun _ _ => Reads.pure trivial

/-- Every declaration reads tokens of `U` with no signal but that of an unreadable number
token of `U`. -/
theorem declaration_reads (t : Token) : (declaration t).Reads U fun _ => True := by
  unfold declaration
  split
  · exact Reads.map version_reads fun _ _ => trivial
  split
  · exact Reads.map group_reads fun _ _ => trivial
  split
  · exact Reads.map (input_reads t.pos) fun _ _ => trivial
  split
  · exact Reads.map fee_reads fun _ _ => trivial
  split
  · exact Reads.map ret_reads fun _ _ => trivial
  · exact Reads.map directive_reads fun _ _ => trivial

end Read

/-! ### The whole text -/

variable {U : List Token}

theorem readDeclaration_reads {eof : Pos} {t : Token} {r : List Token} {g : Gathered}
    (hts : t :: r ⊆ U) : ReadsFrom U (fun _ => True) (readDeclaration eof t r g) := by
  have hr := List.subset_of_cons_subset hts
  unfold readDeclaration
  split
  · split
    · rename_i e he
      exact (Read.declaration_reads t eof r hr).of_error he
    · rename_i d hd
      split
      · split
        · -- a second version is refused, leaving what follows it unread
          exact List.Subset.trans d.suffix.subset hr
        · trivial
      · trivial
  · exact (expectedAt_faultIn _ _ _).from hts

/-! ### Where reading resumes -/

theorem TakenFrom.suffix {P : Token → Prop} {ts left : List Token} (h : TakenFrom P ts left) :
    left <:+ ts := by
  obtain ⟨us, hus, -⟩ := h
  exact ⟨us, hus⟩

theorem BlockTaken.suffix {w : String} {ts left : List Token} (h : BlockTaken w ts left) :
    left <:+ ts := by
  obtain ⟨mid, h₁, h₂⟩ := h
  exact h₂.suffix.trans h₁.suffix

theorem DirectiveTaken.suffix {ts left : List Token} (h : DirectiveTaken ts left) :
    left <:+ ts := by
  rcases h with h | ⟨c, f, rest, rfl, -, -, h⟩
  · exact h.suffix
  · exact h.suffix.trans ((List.suffix_cons _ _).trans (List.suffix_cons _ _))

theorem Reader.LeavesBy.map {α β : Type} {R : List Token → List Token → Prop} {m : Reader α}
    {f : α → β} (hm : m.LeavesBy R) : (f <$> m).LeavesBy R := by
  intro eof ts
  rw [Reader.map_run, Reader.run_bind]
  split
  · rename_i e he
    exact (hm eof ts).error he
  · rename_i a ha
    exact (hm eof ts).ok_rest ha

theorem Reader.LeavesBy.suffix {α : Type} {R : List Token → List Token → Prop} {m : Reader α}
    (hm : m.LeavesBy R) (hR : ∀ ts left, R ts left → left <:+ ts) :
    m.LeavesBy fun ts left => left <:+ ts :=
  fun eof ts => (hm eof ts).mono (hR ts)

/-- The reader of a declaration leaves a suffix of its tokens, whether it ends or breaks. -/
theorem Read.declaration_leaves (t : Token) :
    (Read.declaration t).LeavesBy fun ts left => left <:+ ts := by
  unfold Read.declaration
  split
  · exact (Reader.LeavesBy.map (@Read.version_takes [])).suffix fun _ _ h => h.suffix
  split
  · exact (Reader.LeavesBy.map Read.group_takes).suffix fun _ _ h => h.suffix
  split
  · exact (Reader.LeavesBy.map (Read.input_leaves t.pos)).suffix fun _ _ h => h.suffix
  split
  · exact (Reader.LeavesBy.map Read.fee_leaves).suffix fun _ _ h => h.suffix
  split
  · exact (Reader.LeavesBy.map Read.ret_takes).suffix fun _ _ h => h.suffix
  · exact (Reader.LeavesBy.map Read.directive_leaves).suffix fun _ _ h => h.suffix

/-- A declaration breaks at its first token, which then opens no declaration, or within the
tokens after it. -/
theorem readDeclaration_abort {eof : Pos} {t : Token} {r : List Token} {g : Gathered} {a : Abort}
    (hd : readDeclaration eof t r g = .error (.abort a)) :
    (¬(t.kind = .keyword ∧ topLevel.contains t.value) ∧ a.rest = t :: r) ∨ a.rest <:+ r := by
  unfold readDeclaration at hd
  split at hd
  · -- the reader of the declaration starts after `t`
    right
    split at hd
    · rename_i e he
      cases hd
      exact (Read.declaration_leaves t eof r).error he
    · rename_i d hd'
      split at hd
      · split at hd
        · -- a second version breaks after it was read
          cases hd
          exact d.suffix
        · cases hd
      · cases hd
  · rename_i htop
    unfold expectedAt at hd
    cases hd
    exact .inl ⟨htop, rfl⟩

/-- When reading moved on from `ts` to a shorter suffix `rest`, the last token read stands
right before `rest`. -/
theorem lastRead_before {prev : Option Token} {ts rest : List Token} (h : rest <:+ ts)
    (hlt : rest.length < ts.length) : ∀ u ∈ lastRead prev ts rest, u :: rest <:+ ts := by
  obtain ⟨xs, rfl⟩ := h
  rcases List.eq_nil_or_concat xs with rfl | ⟨ys, u, rfl⟩
  · simp at hlt
  · intro u' hu'
    rw [lastRead_append, List.concat_eq_append, List.getLast?_concat, Option.orElse_some] at hu'
    obtain rfl : u = u' := Option.some.inj hu'
    exact ⟨ys, by simp⟩

/-- A token that reads as the word opening a block, `INPUT` or `FEE`, without being that
keyword (a string), right after a token that reads as the word ending such a block. -/
def Token.StuckAfter (t u : Token) : Prop :=
  t.kind ≠ .keyword ∧
    (t.value = "INPUT" ∧ u.value = "ENDINPUT" ∨ t.value = "FEE" ∧ u.value = "ENDFEE")

instance (t u : Token) : Decidable (t.StuckAfter u) :=
  inferInstanceAs (Decidable (t.kind ≠ .keyword ∧
    (t.value = "INPUT" ∧ u.value = "ENDINPUT" ∨ t.value = "FEE" ∧ u.value = "ENDFEE")))

/-- Resuming after a declaration broken at `start` gives back `start` itself only when nothing
was read, `start` reads as `INPUT` or `FEE`, and the token before it reads as the word ending
that block: resuming takes that word for the end of the broken block and stops there. -/
theorem resumeAfter_stays {start : Token} {prev : Option Token} {r rest : List Token}
    (hrest : rest <:+ start :: r)
    (h : ¬(resumeAfter start prev (start :: r) rest).length < (start :: r).length) :
    rest = start :: r ∧ ∃ u, prev = some u ∧
      (start.value = "INPUT" ∧ u.value = "ENDINPUT" ∨ start.value = "FEE" ∧ u.value = "ENDFEE") := by
  -- a declaration that read something resumes within what it left, which is shorter
  have heq : rest = start :: r := by
    refine Classical.byContradiction fun hne => h ?_
    have hlt : rest.length < (start :: r).length :=
      Nat.lt_of_le_of_ne hrest.length_le fun hl => hne (hrest.eq_of_length hl)
    exact Nat.lt_of_le_of_lt (resumeAfter_suffix _ _ _ _).length_le hlt
  subst heq
  refine ⟨rfl, ?_⟩
  -- nothing was read: the last token read is the one before, and otherwise `start` is skipped
  have hlast : lastRead prev (start :: r) (start :: r) = prev := by simp [lastRead]
  have hskip : ∀ b res, (skipBroken b res start r).length < (start :: r).length :=
    fun b res => Nat.lt_succ_of_le (skipBroken_suffix b res start r).length_le
  -- so resuming stays at `start` only when the test on the token before it holds
  have hstays : ∀ (c : Prop) [Decidable c] (b : Option String) (res : List String),
      ¬(if c then start :: r else skipBroken b res start r).length < (start :: r).length → c :=
    fun c _ b res h => Classical.byContradiction fun hc => h (by rw [if_neg hc]; exact hskip b res)
  simp only [resumeAfter, hlast, List.tail_cons, if_true] at h
  -- the block `start` opens, if any, decides whether the token before it ends that block
  have hprev : ∀ w, Option.map (·.value) prev = some w →
      ∃ u, prev = some u ∧ u.value = w := by
    intro w hw
    cases prev with
    | none => cases hw
    | some u => exact ⟨u, rfl, by simpa using hw⟩
  by_cases hi : start.value = "INPUT"
  · simp only [hi, ↓reduceIte, Option.isSome_some, true_and] at h
    obtain ⟨u, rfl, hu⟩ := hprev _ (hstays _ _ _ h)
    exact ⟨u, rfl, .inl ⟨hi, hu⟩⟩
  by_cases hf : start.value = "FEE"
  · simp only [if_neg hi, if_pos hf, Option.isSome_some, true_and] at h
    obtain ⟨u, rfl, hu⟩ := hprev _ (hstays _ _ _ h)
    exact ⟨u, rfl, .inr ⟨hf, hu⟩⟩
  · simp only [if_neg hi, if_neg hf, Option.isSome_none, Bool.false_eq_true, false_and,
      ↓reduceIte] at h
    exact absurd (hskip _ _) h

/-- Why reading stopped, told by the tokens `U` read: the signal of a number token of `U` that
does not read, or a token of `U` stuck after the one before it, where reading never ends. -/
def Halt.From (U : List Token) : Halt → Prop
  | .signal s => ∃ t ∈ U, t.Unreadable s
  | .loops p => ∃ u t, [u, t] <:+: U ∧ t.pos = p ∧ t.StuckAfter u

/-- The loop over the declarations stops only with the signal of an unreadable number token of
`U`, or at a token of `U` stuck after the token before it. Every declaration is read from a
suffix of `U`, reading resumes within what it left, and `prev` stands right before the tokens
still to read. -/
theorem gather_halts {eof : Pos} {prev : Option Token} {ts : List Token} {g : Gathered}
    {σ : Array Event} {e : Halt} (hts : ts <:+ U) (hprev : ∀ u ∈ prev, u :: ts <:+ U)
    (h : ((gather eof prev ts g).run σ).1 = .error e) : e.From U := by
  fun_induction gather eof prev ts g generalizing σ with
  | case1 prev g => simp at h
  | case2 prev g t r d hd _ ih =>
    have hsuf : d.rest <:+ t :: r := d.suffix.trans (List.suffix_cons _ _)
    have hlt : d.rest.length < (t :: r).length := Nat.lt_succ_of_le d.suffix.length_le
    exact ih (hsuf.trans hts) (fun u hu => (lastRead_before hsuf hlt u hu).trans hts) h
  | case3 prev g t r s hd =>
    obtain rfl : Halt.signal s = e := Except.error.inj h
    exact (readDeclaration_reads hts.subset).of_error hd
  | case4 prev g t r a hd ih =>
    simp only [note, StateT.run_bind, StateT.run_modify, pure_bind] at h
    dsimp only at ih
    have hrest : a.rest <:+ t :: r := by
      rcases readDeclaration_abort hd with ⟨-, heq⟩ | hsuf
      · exact heq ▸ List.suffix_refl _
      · exact hsuf.trans (List.suffix_cons _ _)
    split at h
    · -- reading resumes further on
      rename_i hlt
      have hnext := (resumeAfter_suffix t prev (t :: r) a.rest).trans hrest
      exact ih hlt (hnext.trans hts) (fun u hu => (lastRead_before hnext hlt u hu).trans hts) h
    · -- resuming gives back `t`, which opens no declaration: it is stuck after `prev`
      rename_i hstay
      obtain rfl : Halt.loops t.pos = e := Except.error.inj h
      obtain ⟨heq, u, rfl, hval⟩ := resumeAfter_stays hrest hstay
      have htop : ¬(t.kind = .keyword ∧ topLevel.contains t.value) := by
        rcases readDeclaration_abort hd with ⟨htop, -⟩ | hsuf
        · exact htop
        · have hlen := hsuf.length_le
          rw [heq, List.length_cons] at hlen
          omega
      have hkind : t.kind ≠ .keyword := fun hk =>
        htop ⟨hk, by rcases hval with ⟨hv, -⟩ | ⟨hv, -⟩ <;> simp [hv, topLevel]⟩
      have hinfix : [u, t] <:+: U :=
        (List.prefix_append [u, t] r).isInfix.trans (hprev u rfl).isInfix
      exact ⟨u, t, hinfix, rfl, hkind, hval⟩

/-- Reading a text stops only with the signal of one of its number tokens that does not read,
or at one of its tokens stuck after the token before it. -/
theorem Schedule.parse_halts {text : List CodePoint} {e : Halt}
    (h : (Schedule.parse text).run'.1 = .error e) : e.From (tokenize text).tokens := by
  unfold Schedule.parse Traced.run' at h
  rw [Traced.run_bind] at h
  rcases hg : (gather (tokenize text).finish none (tokenize text).tokens {}).run #[] with
    ⟨res, σ⟩
  rw [hg] at h
  cases res with
  | error e' =>
    obtain rfl : e' = e := Except.error.inj h
    have hrun : ((gather (tokenize text).finish none (tokenize text).tokens {}).run #[]).1 =
        .error e' := by rw [hg]
    exact gather_halts (List.suffix_refl _) (fun u hu => by cases hu) hrun
  | ok g =>
    dsimp only at h
    split at h
    · rw [Traced.run_note, Traced.run_pure] at h
      cases h
    · rw [Traced.run_note, Traced.run_pure] at h
      cases h

/-- Reading a text gives a result, or stops with the decimal signal of one of its number tokens
(one that does not read as a decimal or does not negate), or never ends, at a token that reads
as `INPUT` or `FEE` without being the keyword, right after one that reads as `ENDINPUT` or
`ENDFEE` respectively. -/
theorem parse_returns_signals_or_loops (text : List CodePoint) :
    (∃ r, (Schedule.parse text).run'.1 = .ok r) ∨
      (∃ s, (Schedule.parse text).run'.1 = .error (.signal s) ∧
        ∃ t ∈ (tokenize text).tokens, t.Unreadable s) ∨
      ∃ p, (Schedule.parse text).run'.1 = .error (.loops p) ∧
        ∃ u t, [u, t] <:+: (tokenize text).tokens ∧ t.pos = p ∧ t.StuckAfter u := by
  cases h : (Schedule.parse text).run'.1 with
  | ok r => exact .inl ⟨r, rfl⟩
  | error e =>
    have hfrom := Schedule.parse_halts h
    cases e with
    | signal s => exact .inr (.inl ⟨s, rfl, hfrom⟩)
    | loops p => exact .inr (.inr ⟨p, rfl, hfrom⟩)

/-- A failed result, read off as an option of its error. -/
theorem eq_error_of_caught {ε α : Type} {x : Except ε α} {e : ε}
    (h : ((x.map fun _ => none).tryCatch fun e => .ok (some e)).toOption = some (some e)) :
    x = .error e := by
  -- a success reads as some none, a failure as its own error
  cases x with
  | ok a => cases h
  | error e' => cases h; rfl

/-- A string that reads `FEE` right after an `ENDFEE` breaks as a declaration, and reading
resumes at it again and again. -/
theorem stray_fee_string_loops :
    ∃ u t, [u, t] <:+: (tokenize (CodePoint.ofString "FEE f YIELD 1 ENDFEE 'FEE'")).tokens ∧
      (Schedule.parse (CodePoint.ofString "FEE f YIELD 1 ENDFEE 'FEE'")).run'.1 =
        .error (.loops t.pos) ∧ t.StuckAfter u := by
  have hloops : (Schedule.parse (CodePoint.ofString "FEE f YIELD 1 ENDFEE 'FEE'")).run'.1 =
      .error (.loops ⟨1, 22, 21⟩) :=
    eq_error_of_caught (by decide +kernel)
  rcases parse_returns_signals_or_loops (CodePoint.ofString "FEE f YIELD 1 ENDFEE 'FEE'") with
    ⟨r, hr⟩ | ⟨s, hs, -⟩ | ⟨p, hp, u, t, hut, rfl, hstuck⟩
  · rw [hloops] at hr
    cases hr
  · rw [hloops] at hs
    cases hs
  · exact ⟨u, t, hut, hp, hstuck⟩

/-- A superscript two is a digit to the lexer but not to the decimal reader: as the upper
bound of a number input it stops the reading with a conversion syntax signal, where in an
expression it would be the diagnostic of an invalid number. -/
theorem superscript_bound_signals :
    (Schedule.parse (CodePoint.ofString
      "INPUT n NUMBER 'n' BETWEEN 0 AND ² ENDINPUT")).run'.1 = .error (.signal .conversionSyntax) :=
  eq_error_of_caught (by decide +kernel)

end FeeSchedule
