import FeeSchedule.Proofs.Check.Schedule

/-!
# `FeeSchedule.Proofs.Syntax.Bounds`: the numbers an input declares are finite

The bounds and the default of a number input, and the default of an amount input, are read
by `Reader.signedNumber`: the text of a number token read exactly, then negated in the
context when a minus comes before it. A number token reads as a finite number if at all,
and negating a finite number gives a finite number or stops the reading with an overflow.
An input declared without a default takes its lower bound, or zero for an amount. The
theorems:

* `Reader.signedNumber_keeps`: a signed number is finite.
* `Read.clauses_numbersFinite`, `Read.input_keeps`: the clauses of an input keep its
  numbers finite, and so does the input they declare.
* `Schedule.parse_inputsFinite`: every input of a schedule read from a text declares finite
  numbers.
* `Schedule.Accepted.inputsFinite`: so does every input of an accepted schedule, composed
  ones included, since a merge only keeps inputs of its chain.
-/

set_option autoImplicit false

namespace FeeSchedule

/-- Whether the numbers an input declares are finite: the bounds and default of a number
input, the default of an amount input. -/
def InputSpec.numbersFinite : InputSpec → Bool
  | .number lo hi d => lo.isFinite && hi.isFinite && d.isFinite
  | .amount _ d => d.isFinite
  | _ => true

/-- Whether the numbers every input of a schedule declares are finite. -/
def Schedule.inputsFinite (s : Schedule) : Bool := s.inputs.all (·.spec.numbersFinite)

/-- Whether the numbers of the clauses read so far are finite. -/
def Read.InputDraft.numbersFinite (d : Read.InputDraft) : Bool :=
  d.numberBounds.all (fun b => b.1.isFinite && b.2.isFinite) && d.numberDefault.all (·.isFinite)

/-- Whether the numbers of an input declaration are finite; other declarations have none. -/
def Declaration.inputFinite : Declaration → Bool
  | .input i => i.spec.numbersFinite
  | _ => true

namespace Reader.Keeps

variable {α : Type} {P : α → Prop}

/-- A reader that never reads anything keeps every property. -/
theorem of_fails {m : Reader α} (h : ∀ eof ts, ∃ e, m.run eof ts = .error e) : m.Keeps P := by
  intro eof ts _ p hp
  obtain ⟨e, he⟩ := h eof ts
  rw [he] at hp
  cases hp

theorem stop (s : Stop) : (Reader.stop s : Reader α).Keeps P :=
  of_fails fun _ _ => ⟨_, rfl⟩

theorem expected (what : String) : (Reader.expected what : Reader α).Keeps P :=
  of_fails fun _ _ => ⟨_, rfl⟩

theorem abortAt (f : SyntaxFault) (pos : Pos) : (Reader.abortAt f pos : Reader α).Keeps P :=
  of_fails fun _ _ => ⟨_, rfl⟩

end Reader.Keeps

open Reader

/-- The token looked at is one of the tokens, so it reads finite. -/
theorem Reader.peek_keeps : peek.Keeps fun o => ∀ t, o = some t → t.ReadsFinite := by
  intro eof ts hts p hp t ht
  obtain rfl : Parsed.here ts.head? = p := Except.ok.inj hp
  exact hts t (List.mem_of_mem_head? ht)

/-- A signed number is finite: the token reads finite, and its negation is finite when it
does not overflow, which stops the reading. -/
theorem Reader.signedNumber_keeps : signedNumber.Keeps fun d => d.isFinite := by
  unfold signedNumber
  refine Keeps.bind_any fun negative => Keeps.bind peek_keeps fun o ho => ?_
  cases o with
  | none => exact Keeps.expected _
  | some t =>
    dsimp only
    split
    · rename_i hnum
      refine Keeps.bind_any fun _ => ?_
      split
      · exact Keeps.stop _
      · rename_i v hv
        have hvf : v.isFinite := ho t rfl hnum v hv
        split
        · split
          · rename_i w hw
            exact Keeps.pure (Decimal.neg_isFinite hvf hw)
          · exact Keeps.stop _
        · exact Keeps.pure hvf
    · exact Keeps.expected _

namespace Read

variable {d : InputDraft}

/-- A default replaces the number default by a signed number and keeps the others. -/
theorem defaultClause_keeps (kind : InputKind) (hd : d.numbersFinite) :
    (defaultClause kind d).Keeps fun d' => d'.numbersFinite := by
  have hb : d.numberBounds.all (fun b => b.1.isFinite && b.2.isFinite) := by
    simp only [InputDraft.numbersFinite, Bool.and_eq_true] at hd
    exact hd.1
  -- the other kinds change a field that holds no number
  have hsame : ∀ d' : InputDraft, d'.numberBounds = d.numberBounds →
      d'.numberDefault = d.numberDefault → d'.numbersFinite := by
    intro d' h1 h2
    simpa [InputDraft.numbersFinite, h1, h2] using hd
  cases kind with
  | number | amount =>
    exact Keeps.bind signedNumber_keeps fun v hv =>
      Keeps.pure (by simp [InputDraft.numbersFinite, hb, hv])
  | date => exact Keeps.bind_any fun _ => Keeps.pure (hsame _ rfl rfl)
  | boolean =>
    refine Keeps.bind_any fun _ => ?_
    split
    · exact Keeps.pure (hsame _ rfl rfl)
    · refine Keeps.bind_any fun _ => ?_
      split
      · exact Keeps.pure (hsame _ rfl rfl)
      · exact Keeps.expected _
  | list => exact Keeps.bind_any fun _ => Keeps.pure (hsame _ rfl rfl)
  | multilist => exact Keeps.bind_any fun _ => Keeps.bind_any fun _ => Keeps.pure (hsame _ rfl rfl)

/-- A clause keeps the numbers of the draft finite: bounds are signed numbers, a default is
read by `defaultClause`, and the other clauses hold no number. -/
theorem clause_keeps (kind : InputKind) (t : Token) (hd : d.numbersFinite) :
    (clause kind t d).Keeps fun d' => d'.numbersFinite := by
  have hdef : d.numberDefault.all (·.isFinite) := by
    simp only [InputDraft.numbersFinite, Bool.and_eq_true] at hd
    exact hd.2
  have hsame : ∀ d' : InputDraft, d'.numberBounds = d.numberBounds →
      d'.numberDefault = d.numberDefault → d'.numbersFinite := by
    intro d' h1 h2
    simpa [InputDraft.numbersFinite, h1, h2] using hd
  unfold clause
  split
  · -- `BETWEEN`: two signed numbers for a number input, two dates for a date input
    split
    · exact Keeps.bind signedNumber_keeps fun lo hlo => Keeps.bind_any fun _ =>
        Keeps.bind signedNumber_keeps fun hi hhi =>
          Keeps.pure (by simp [InputDraft.numbersFinite, hlo, hhi, hdef])
    · exact Keeps.bind_any fun _ => Keeps.bind_any fun _ => Keeps.bind_any fun _ =>
        Keeps.pure (hsame _ rfl rfl)
    · exact Keeps.abortAt _ _
  split
  · split
    · exact Keeps.bind_any fun _ => Keeps.bind_any fun _ => Keeps.bind_any fun _ =>
        Keeps.pure (hsame _ rfl rfl)
    · exact Keeps.abortAt _ _
  split
  · exact defaultClause_keeps kind hd
  split
  · split
    · exact Keeps.bind_any fun _ => Keeps.pure (hsame _ rfl rfl)
    · exact Keeps.abortAt _ _
  · exact Keeps.bind_any fun _ => Keeps.pure (hsame _ rfl rfl)

/-- The clauses of an input up to `ENDINPUT`, each kept by `clause_keeps`. -/
theorem clauses_numbersFinite {kind : InputKind} {eof : Pos} {ts : List Token}
    {draft : InputDraft} (hts : ReadFinite ts) (hd : draft.numbersFinite)
    {p : Parsed ts InputDraft} (h : clauses kind eof ts draft = .ok p) :
    p.value.numbersFinite := by
  rw [clauses.eq_def] at h
  split at h
  · rename_i t r
    split at h
    · cases h
      exact hd
    split at h
    · split at h
      · cases h
      · rename_i c hc
        have := c.le
        split at h
        · cases h
        · rename_i m hm
          cases h
          exact clauses_numbersFinite (hts.tail.rest c)
            (clause_keeps kind t hd eof r hts.tail c hc) hm
    · cases h
  · cases h
termination_by ts.length
decreasing_by all_goals (subst_vars; simp only [List.length_cons]; omega)

/-- The input declared by finite clauses declares finite numbers: a missing default is the
lower bound, or zero for an amount. -/
theorem finishInput_keeps (start : Pos) (name text : String) (kind : InputKind)
    (hd : d.numbersFinite) :
    (finishInput start name text kind d).Keeps fun i => i.spec.numbersFinite := by
  simp only [InputDraft.numbersFinite, Bool.and_eq_true] at hd
  obtain ⟨hb, hdef⟩ := hd
  unfold finishInput
  cases kind with
  | number =>
    dsimp only
    split
    · rename_i lo hi hbounds
      simp only [hbounds, Option.all_some, Bool.and_eq_true] at hb
      refine Keeps.pure ?_
      cases hdd : d.numberDefault with
      | none => simp [InputSpec.numbersFinite, hb.1, hb.2]
      | some v =>
        simp only [hdd, Option.all_some] at hdef
        simp [InputSpec.numbersFinite, hb.1, hb.2, hdef]
    · exact Keeps.abortAt _ _
  | amount =>
    dsimp only
    split
    · refine Keeps.pure ?_
      cases hdd : d.numberDefault with
      | none => rfl
      | some v =>
        simp only [hdd, Option.all_some] at hdef
        simpa [InputSpec.numbersFinite] using hdef
    · exact Keeps.abortAt _ _
  | date =>
    dsimp only
    split
    · exact Keeps.pure rfl
    · exact Keeps.abortAt _ _
  | boolean | list | multilist => exact Keeps.pure rfl

theorem input_keeps (start : Pos) : (input start).Keeps fun i => i.spec.numbersFinite := by
  unfold input
  refine Keeps.bind_any fun name => Keeps.bind_any fun o => ?_
  -- whatever kind is read, the clauses and the input are read the same way
  have hbody : ∀ kind : InputKind, (string "an input description" >>= fun text =>
      (⟨fun eof ts => clauses kind eof ts {}⟩ : Reader InputDraft) >>= fun d =>
        keyword "ENDINPUT" >>= fun _ => finishInput start name text kind d).Keeps
      fun i => i.spec.numbersFinite := by
    intro kind
    refine Keeps.bind_any fun text => ?_
    refine Keeps.bind (P := fun d : InputDraft => d.numbersFinite) ?_ fun d hd =>
      Keeps.bind_any fun _ => finishInput_keeps start name text kind hd
    exact fun _ _ hts _ h => clauses_numbersFinite hts rfl h
  dsimp only
  split
  · split
    · exact Keeps.bind_any fun _ => Keeps.bind_any fun kind => hbody kind
    · exact Keeps.bind_any fun kind => hbody kind
  · exact Keeps.bind_any fun kind => hbody kind

/-- Only an input declaration declares input numbers. -/
theorem declaration_keeps_inputs (t : Token) :
    (Read.declaration t).Keeps fun d => d.inputFinite := by
  unfold Read.declaration
  split
  · exact Keeps.map (P := fun _ => True) (Keeps.of_forall fun _ => trivial) fun _ _ => rfl
  split
  · exact Keeps.map (P := fun _ => True) (Keeps.of_forall fun _ => trivial) fun _ _ => rfl
  split
  · exact Keeps.map (input_keeps t.pos) fun _ hi => hi
  split
  · exact Keeps.map (P := fun _ => True) (Keeps.of_forall fun _ => trivial) fun _ _ => rfl
  split
  · exact Keeps.map (P := fun _ => True) (Keeps.of_forall fun _ => trivial) fun _ _ => rfl
  · exact Keeps.map (P := fun _ => True) (Keeps.of_forall fun _ => trivial) fun _ _ => rfl

end Read

theorem Gathered.inputsFinite_add {g : Gathered} {d : Declaration}
    (hg : g.schedule.inputsFinite) (hd : d.inputFinite) : (g.add d).schedule.inputsFinite := by
  cases d <;>
    simp_all [Gathered.add, Gathered.schedule, Schedule.inputsFinite, Declaration.inputFinite]

/-- Every input of a schedule read from a text declares finite numbers. -/
theorem Schedule.parse_inputsFinite {text : List CodePoint} {r : ParseResult} {s : Schedule}
    (h : (Schedule.parse text).run'.1 = .ok r) (hs : r.schedule = some s) : s.inputsFinite := by
  obtain ⟨g, σ, hg, hf, rfl, -⟩ := Schedule.parse_some h hs
  -- resolving names changes fees and returns only
  show g.schedule.inputsFinite
  exact gather_keeps (Q := fun s => s.inputsFinite) Read.declaration_keeps_inputs
    (fun _ _ => Gathered.inputsFinite_add) (tokenize_readsFinite text) rfl (by rw [hg]) hf

/-- A merged chain keeps only inputs of its schedules. -/
theorem Schedule.inputsFinite_mergeChain {chain : List Schedule}
    (h : ∀ t ∈ chain, t.inputsFinite) : (mergeChain chain).inputsFinite := by
  simp only [Schedule.inputsFinite, List.all_eq_true] at h ⊢
  intro i hi
  obtain ⟨t, ht, hit⟩ := mem_mergeChain_inputs hi
  exact h t ht i hit

/-- Every input of an accepted schedule declares finite numbers. -/
theorem Schedule.Accepted.inputsFinite {s : Schedule} (h : s.Accepted) : s.inputsFinite := by
  induction h with
  | parsed hp _ hs => exact Schedule.parse_inputsFinite hp hs
  | composed _ hc ih =>
    obtain ⟨js, hjs, hsc, -⟩ := Registry.compose_ok hc
    exact Registry.of_chainSchedule (P := fun s => s.inputsFinite)
      (fun _ => Schedule.inputsFinite_mergeChain) hsc
      fun j hj => ih j (Registry.mem_of_chain hjs j hj)

end FeeSchedule
