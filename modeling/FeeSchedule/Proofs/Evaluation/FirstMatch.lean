import FeeSchedule.Proofs.Evaluation.Provenance

/-!
# `FeeSchedule.Proofs.Evaluation.FirstMatch`: the computation selects cases by first match

This module specifies `Schedule.compute` without its loops.

* The variables of a fee take their values one after another, each in the environment of
  the inputs and of the variables before it (`LetValues`).
* In that scope the case that fires is the first whose condition is absent or evaluates to
  true (`conditionHolds`, found by `List.findIdx?`). The fee contributes the number its
  amount evaluates to, or zero when no case fires (`CaseOutcome`).
* The step line of a fee names the case that fired with its amount, or says that no case
  applies (`FeeOutcome.StepReads`).
* The totals are the sums, from zero and in fee order, of the contributions of the
  mandatory fees and of the optional ones, each sum fitted to the decimal context. The
  active returns are those whose condition is absent or true.

`ComputeResult.FirstMatch` gathers these, and `compute_first_match` proves it of every
result of the computation. The search of `firstCase` stops with a fault where this
specification still has an answer: a condition that is not a truth value, an amount that is
not a number, a case without condition before the last. A computation that returns met none
of them, so the theorem needs no hypothesis on the schedule or the bindings.
-/

set_option autoImplicit false

namespace FeeSchedule

open Evaluation FeeEvaluation Assessment

/-! ### The specification -/

/-- Whether a condition holds in an environment: an absent condition holds, a present one
when it evaluates to true. -/
def conditionHolds (env : Env) : Option Expr → Bool
  | none => true
  | some c =>
    match evaluate env c with
    | .ok (.bool b) => b
    | _ => false

/-- `lets` are the values of the variables `vs` over the environment `env`, in order of
declaration: each is the value of its expression in `env` extended by the variables before
it, the later variables first, so that a later variable hides an earlier one of its name. -/
inductive LetValues (env : Env) : List LetVar → List (String × Value) → Prop
  | nil : LetValues env [] []
  | snoc {vs : List LetVar} {lets : List (String × Value)} {v : LetVar} {x : Value} :
      LetValues env vs lets → evaluate (lets.reverse ++ env) v.expr = .ok x →
      LetValues env (vs ++ [v]) (lets ++ [(v.name, x)])

/-- The outcome `o` of the cases `cs` in the scope `scope`, by first match. -/
structure CaseOutcome (scope : Env) (cs : List Case) (o : FeeOutcome) : Prop where
  /-- The case that fired is the first whose condition holds. -/
  fired : o.fired = cs.findIdx? (conditionHolds scope ·.condition)
  /-- The fee contributes what the amount of that case evaluates to. -/
  amount : ∀ i c, o.fired = some i → cs[i]? = some c →
    evaluate scope c.expr = .ok (.num o.contribution)
  /-- When no case fires, the fee contributes zero. -/
  zero : o.fired = none → o.contribution = Decimal.zero

/-- The outcome `o` of the fee `f` in the environment `env`: its cases are selected by first
match in the scope of its variables. -/
def FeeOutcome.FirstMatch (env : Env) (f : Fee) (o : FeeOutcome) : Prop :=
  o.fee = f ∧ ∃ lets, LetValues env f.vars lets ∧ CaseOutcome (lets.reverse ++ env) f.cases o

/-- A step line that reads the outcome `o`: the label of the fee, then the case that fired
with its amount, or that no case applies. -/
inductive FeeOutcome.StepReads (o : FeeOutcome) : String → Prop
  | fired {i : Nat} {c : Case} : o.fired = some i → o.fee.cases[i]? = some c →
      o.StepReads (o.fee.label ++ ": " ++ c.text ++ " -> " ++ o.contribution.toText)
  | none : o.fired = none → o.StepReads (o.fee.label ++ ": no case applies, contributes 0")

/-- The sum of numbers from zero, in order, each partial sum fitted to the decimal context. -/
def decimalSum (xs : List Decimal) : Except Signal Decimal := xs.foldlM Decimal.add Decimal.zero

/-- The result `R` of a schedule `s` in the environment `env`: one outcome per fee, selected
by first match, with its step line; the totals are the sums of the contributions of the
mandatory and of the optional fees; the active returns are those whose condition holds. -/
def ComputeResult.FirstMatch (s : Schedule) (env : Env) (R : ComputeResult) : Prop :=
  ∃ os, List.Forall₂ (FeeOutcome.FirstMatch env) s.fees os ∧
    List.Forall₂ FeeOutcome.StepReads os R.steps ∧
    decimalSum ((os.filter (!·.fee.optional)).map (·.contribution)) = .ok R.mandatory ∧
    decimalSum ((os.filter (·.fee.optional)).map (·.contribution)) = .ok R.optional ∧
    R.returns = s.returns.filter (conditionHolds env ·.condition)

/-! ### Conditions and amounts -/

theorem asNumber_eq_ok {e : Expr} {v : Value} {d : Decimal} : asNumber e v = .ok d ↔ v = .num d := by
  cases v <;> simp [asNumber, pure, Except.pure, throw, throwThe, MonadExceptOf.throw]

theorem asBoolean_eq_ok {e : Expr} {v : Value} {b : Bool} : asBoolean e v = .ok b ↔ v = .bool b := by
  cases v <;> simp [asBoolean, pure, Except.pure, throw, throwThe, MonadExceptOf.throw]

/-- A condition that evaluates to a truth value holds exactly when the value is true. -/
theorem conditionHolds_of_ok {env : Env} {c : Expr} {b : Bool}
    (h : (evaluate env c >>= asBoolean c) = .ok b) : conditionHolds env (some c) = b := by
  obtain ⟨v, hv, hb⟩ := bind_eq_ok.mp h
  rw [asBoolean_eq_ok] at hb
  simp [conditionHolds, hv, hb]

/-! ### The variables -/

/-- Binding the variables after some are bound extends their values. -/
theorem bindVars_extends {env : Env} :
    ∀ {done : List LetVar} {lets : List (String × Value)} {vs : List LetVar} {scope : Env},
      LetValues env done lets → bindVars (lets.reverse ++ env) vs = .ok scope →
      ∃ more, LetValues env (done ++ vs) more ∧ scope = more.reverse ++ env
  | _, lets, [], _, hl, h => ⟨lets, by simpa using hl, by cases h; rfl⟩
  | done, lets, v :: vs, scope, hl, h => by
    rw [bindVars] at h
    obtain ⟨x, hx, h⟩ := bind_eq_ok.mp h
    -- the new variable goes in front of the scope, which is the end of the values reversed
    have hscope : (v.name, x) :: (lets.reverse ++ env) = (lets ++ [(v.name, x)]).reverse ++ env := by
      simp
    rw [hscope] at h
    simpa using bindVars_extends (hl.snoc hx) h

/-- The scope of a fee's variables is the environment extended by their values. -/
theorem bindVars_letValues {env : Env} {vs : List LetVar} {scope : Env}
    (h : bindVars env vs = .ok scope) : ∃ lets, LetValues env vs lets ∧ scope = lets.reverse ++ env :=
  bindVars_extends LetValues.nil h

/-! ### The cases -/

section Cases

variable {fee : String} {scope : Env} {last : Nat}

/-- One case of the search: it fires when its condition holds, with the number its amount
evaluates to, or else the search moves on. -/
theorem firstCase_cons_ok {i : Nat} {c : Case} {cs : List Case} {tried : List (Option Bool)}
    {r : Option (Nat × Decimal) × List (Option Bool)}
    (h : firstCase fee scope last i (c :: cs) tried = .ok r) :
    (conditionHolds scope c.condition = true ∧
        ∃ a, evaluate scope c.expr = .ok (.num a) ∧ r.1 = some (i, a)) ∨
      (conditionHolds scope c.condition = false ∧
        firstCase fee scope last (i + 1) cs (some false :: tried) = .ok r) := by
  -- the amount of a case that fires
  have hfires : ∀ {t : List (Option Bool)},
      (evaluate scope c.expr >>= fun v => asNumber c.expr v >>= fun a =>
        (pure (some (i, a), t) : Except EvalFault _)) = .ok r →
      ∃ a, evaluate scope c.expr = .ok (.num a) ∧ r.1 = some (i, a) := by
    intro t hr
    obtain ⟨v, hv, hr⟩ := bind_eq_ok.mp hr
    obtain ⟨a, ha, hr⟩ := bind_eq_ok.mp hr
    cases hr
    exact ⟨a, by rw [hv, asNumber_eq_ok.mp ha], rfl⟩
  cases hc : c.condition with
  | none =>
    rw [firstCase, hc] at h
    dsimp only at h
    split at h
    · cases h
    · exact .inl ⟨rfl, hfires h⟩
  | some cond =>
    rw [firstCase, hc] at h
    dsimp only at h
    obtain ⟨v, hv, h⟩ := bind_eq_ok.mp h
    obtain ⟨holds, hb, h⟩ := bind_eq_ok.mp h
    have hholds : conditionHolds scope (some cond) = holds := conditionHolds_of_ok (by rw [hv]; exact hb)
    cases holds with
    | false => exact .inr ⟨hholds, h⟩
    | true => exact .inl ⟨hholds, hfires h⟩

/-- The search from the case `i` fires the first case of `cs` whose condition holds, with
the number its amount evaluates to. -/
theorem firstCase_first_match :
    ∀ {i : Nat} {cs : List Case} {tried : List (Option Bool)}
      {r : Option (Nat × Decimal) × List (Option Bool)},
      firstCase fee scope last i cs tried = .ok r →
      r.1.map Prod.fst = (cs.findIdx? (conditionHolds scope ·.condition)).map (i + ·) ∧
        ∀ k c a, r.1 = some (i + k, a) → cs[k]? = some c → evaluate scope c.expr = .ok (.num a)
  | _, [], _, _, h => by
    cases h
    simp
  | i, c :: cs, tried, r, h => by
    rcases firstCase_cons_ok h with ⟨hc, a, ha, hr⟩ | ⟨hc, h⟩
    · -- the first case fires: it is case `i`
      refine ⟨by simp [List.findIdx?_cons, hc, hr], fun k c' a' hk hc' => ?_⟩
      rw [hr] at hk
      obtain ⟨rfl, rfl⟩ : k = 0 ∧ a = a' := by simpa using hk
      cases hc'
      exact ha
    · -- the first case is passed over: the search goes on from case `i + 1`
      obtain ⟨hidx, hamount⟩ := firstCase_first_match h
      have hshift : ∀ k, i + 1 + k = i + (k + 1) := fun k => by omega
      refine ⟨?_, fun k c' a hk hc' => ?_⟩
      · rw [hidx, List.findIdx?_cons, hc]
        simp [Function.comp_def, hshift]
      · cases k with
        | zero =>
          -- case `i` did not fire, so no case `i` can be reported
          have := congrArg (Option.map Prod.fst) hk
          rw [hidx] at this
          simp only [Option.map_some, Option.map_eq_some_iff] at this
          omega
        | succ k => exact hamount k c' a (by rw [hk, hshift]) hc'

end Cases

/-! ### A fee -/

/-- The outcome of a fee is selected by first match. -/
theorem feeOutcome_first_match {f : Fee} {env : Env} {o : FeeOutcome}
    (h : feeOutcome f env = .ok o) : o.FirstMatch env f := by
  obtain ⟨scope, r, hs, hfc, hfee, hfired, -, hcontr⟩ := feeOutcome_ok h
  obtain ⟨lets, hlets, rfl⟩ := bindVars_letValues hs
  obtain ⟨hidx, hamount⟩ := firstCase_first_match hfc
  refine ⟨hfee, lets, hlets, ⟨?_, ?_, ?_⟩⟩
  · rw [hfired, hidx]
    simp
  · intro i c hi hc
    cases hr : r.1 with
    | none => simp [hfired, hr] at hi
    | some p =>
      obtain ⟨j, a⟩ := p
      obtain rfl : j = i := by simpa [hfired, hr] using hi
      rw [hcontr, hr]
      exact hamount j c a (by simp [hr]) hc
  · intro hn
    cases hr : r.1 with
    | none => simp [hcontr, hr]
    | some p => simp [hfired, hr] at hn

/-- The step line of an outcome selected by first match reads it: a fired case is one of
the fee's cases. -/
theorem FeeOutcome.FirstMatch.stepReads {env : Env} {f : Fee} {o : FeeOutcome}
    (h : o.FirstMatch env f) : o.StepReads o.step := by
  obtain ⟨hfee, lets, -, hcases⟩ := h
  subst hfee
  cases hf : o.fired with
  | none =>
    have hstep : o.step = o.fee.label ++ ": no case applies, contributes 0" := by
      simp [FeeOutcome.step, hf]
    exact hstep ▸ .none hf
  | some i =>
    have hi : i < o.fee.cases.length :=
      (List.findIdx?_eq_some_iff_getElem.mp (hf ▸ hcases.fired).symm).1
    have hc : o.fee.cases[i]? = some o.fee.cases[i] := List.getElem?_eq_getElem hi
    have hstep : o.step =
        o.fee.label ++ ": " ++ o.fee.cases[i].text ++ " -> " ++ o.contribution.toText := by
      simp [FeeOutcome.step, hf, hc]
    exact hstep ▸ .fired hf hc

/-! ### Totals and returns -/

/-- The totals are the sums of the contributions of the mandatory and of the optional fees. -/
theorem totals_eq_sums {os : List FeeOutcome} {m p : Decimal} (h : totals os = .ok (m, p)) :
    decimalSum ((os.filter (!·.fee.optional)).map (·.contribution)) = .ok m ∧
      decimalSum ((os.filter (·.fee.optional)).map (·.contribution)) = .ok p := by
  unfold totals at h
  dsimp only at h
  -- the invariant: each total is the sum over the outcomes added so far
  have hinv := @foldlM_seen_invariant _ _ _
    (fun seen (acc : Decimal × Decimal) =>
      decimalSum ((seen.filter (!·.fee.optional)).map (·.contribution)) = .ok acc.1 ∧
        decimalSum ((seen.filter (·.fee.optional)).map (·.contribution)) = .ok acc.2)
    _ _ [] _ _ (fun seen o acc acc' _ hacc hstep => by
      obtain ⟨hm, hp⟩ := hacc
      simp only [decimalSum, List.filter_append, List.map_append, List.foldlM_append] at hm hp ⊢
      rw [hm, hp]
      -- one total grows by the contribution, the other is kept
      split at hstep
      all_goals
        obtain ⟨d, hd, hacc'⟩ := bind_eq_ok.mp hstep
        cases hacc'
        simp_all [raw_eq_ok, pure, Except.pure, bind, Except.bind])
    (by exact ⟨rfl, rfl⟩) h
  simpa using hinv

/-- The active returns are the returns whose condition holds, in order. -/
theorem activeReturns_eq_filter {env : Env} :
    ∀ {rs active : List Return}, activeReturns env rs = .ok active →
      active = rs.filter (conditionHolds env ·.condition)
  | [], _, h => by
    cases h
    rfl
  | r :: rs, active, h => by
    rw [activeReturns] at h
    -- the condition of `r` gives a truth value, then the later returns are filtered
    cases hc : r.condition with
    | none =>
      simp only [hc, pure_bind] at h
      obtain ⟨rest, hrest, h⟩ := bind_eq_ok.mp h
      cases h
      simp [hc, conditionHolds, activeReturns_eq_filter hrest]
    | some c =>
      simp only [hc] at h
      obtain ⟨v, hv, h⟩ := bind_eq_ok.mp h
      obtain ⟨b, hb, h⟩ := bind_eq_ok.mp h
      obtain ⟨rest, hrest, h⟩ := bind_eq_ok.mp h
      cases h
      have hholds : conditionHolds env (some c) = b := conditionHolds_of_ok (by rw [hv]; exact hb)
      rw [List.filter_cons, hc, hholds, activeReturns_eq_filter hrest]

/-! ### The computation -/

/-- The outcomes selected by first match have their step lines. -/
theorem stepReads_of_firstMatch {env : Env} {fs : List Fee} {os : List FeeOutcome}
    (h : List.Forall₂ (FeeOutcome.FirstMatch env) fs os) :
    List.Forall₂ FeeOutcome.StepReads os (os.map FeeOutcome.step) := by
  induction h with
  | nil => exact .nil
  | cons ho _ ih => exact .cons ho.stepReads ih

/-- Every result of the computation selects the cases of its fees by first match: for each
fee in order, the variables are evaluated in order, each seeing the inputs and the variables
before it; the case that fires is the first whose condition is absent or true, and the fee
contributes its amount, or zero when none fires; the step line names the case that fired with
its amount, or says that no case applies. The mandatory and optional totals are the sums of
the contributions of the mandatory and of the optional fees, in order from zero, and the
active returns are, in order, those whose condition is absent or true. -/
theorem compute_first_match {s : Schedule} {b : Bindings} {R : ComputeResult}
    (h : (s.compute b).run'.1 = .ok R) : R.FirstMatch s b.env := by
  rw [Traced.run'_eq_run, Schedule.compute_run] at h
  obtain ⟨os, hos, h⟩ := bind_eq_ok.mp h
  obtain ⟨⟨m, p⟩, ht, h⟩ := bind_eq_ok.mp h
  obtain ⟨rs, hrs, h⟩ := bind_eq_ok.mp h
  cases h
  have hfirst : List.Forall₂ (FeeOutcome.FirstMatch b.env) s.fees os :=
    (mapM_ok_iff.mp hos).imp fun _ _ => feeOutcome_first_match
  obtain ⟨hm, hp⟩ := totals_eq_sums ht
  exact ⟨os, hfirst, stepReads_of_firstMatch hfirst, hm, hp, activeReturns_eq_filter hrs⟩

/-- An optional fee with a variable, `LET extra AS claims - 10`, and one case,
`YIELD extra * 50 IF claims > 10`, with 15 claims: the case fires with 250, which goes to the
optional total. -/
theorem excess_claims_first_match :
    let s : Schedule := ⟨[], [⟨"excess_claims",
      [⟨.binary .mul (.ref "extra") (.num (.ofNat 50)),
        some (.binary .gt (.ref "claims") (.num (.ofNat 10)))⟩],
      [⟨"extra", .binary .sub (.ref "claims") (.num (.ofNat 10))⟩], true, none⟩], [], [], [], none⟩
    let b : Bindings := [("claims", .number (.ofNat 15))]
    let R : ComputeResult := ⟨.zero, .ofNat 250,
      ["excess_claims (optional): YIELD extra * 50 IF claims > 10 -> 250"], []⟩
    (s.compute b).run'.1 = .ok R ∧ R.FirstMatch s b.env := by
  intro s b R
  have h : (s.compute b).run'.1 = .ok R := rfl
  exact ⟨h, compute_first_match h⟩

end FeeSchedule
