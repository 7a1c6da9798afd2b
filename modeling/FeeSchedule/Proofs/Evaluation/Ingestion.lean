import FeeSchedule.Ingest
import FeeSchedule.Proofs.Evaluation.Counterfactuals

/-!
# `FeeSchedule.Proofs.Evaluation.Ingestion`: values from JSON are values that binding accepts

Values read from a JSON object (`Schedule.ingest`) are converted input by input, and each
converted value is checked as binding checks it (`Input.checkValue`). This module states what
ingestion is to give, one input at a time, and shows that it gives it and that binding then
takes the result as it is.

* `Input.given`, `Input.Takes`, `Input.Refuses`: the JSON value of an input unless it is
  missing or null; a value that converts to one passing the input's check; a value refused
  with the problem that the conversion or the check reports.
* `Ingests`: what ingestion is to give for a list of inputs: the converted value of each
  input whose value is taken, under its name, and the problem of each input whose value is
  refused, both in input order.
* `Schedule.PassesCheck`: the checker reports no error, and none of the numbers it compares
  (the bounds and default of a number input) is a NaN, which would make the check signal.
* `ingestInputs_ingests`: on such inputs ingestion raises no signal and gives what `Ingests`
  gives; `Ingests.problems_ne_nil_iff`: it finds problems exactly when the value of some input
  is refused.
* `Schedule.bindInputs_supplied`: values that pass their checks bind as they are, and every
  other input takes its default.
* `ingest_agrees_with_bind`: for a schedule that passes its check, ingestion fails with the
  problems of the refused values, in input order, when there are any; otherwise it gives the
  taken values, finite and passing their checks, and binding them gives each input its taken
  value or else its default.
-/

set_option autoImplicit false

namespace FeeSchedule

/-! ### Schedules that pass their check -/

/-- The numbers of an input that the check of its schedule compares, the bounds and the
default of a number input, are no NaN: comparing a NaN signals. -/
def InputSpec.Comparable : InputSpec → Prop
  | .number lo hi d => lo.isNaN = false ∧ hi.isNaN = false ∧ d.isNaN = false
  | _ => True

/-- A schedule whose check passes: it reports no error, and none of its comparisons signals. -/
structure Schedule.PassesCheck (s : Schedule) : Prop where
  checked : s.Checked
  comparable : ∀ i ∈ s.inputs, i.spec.Comparable

/-- Numbers that are no NaN are ordered without a signal. -/
theorem Decimal.order_of_isNaN_eq_false {a b : Decimal} (ha : a.isNaN = false)
    (hb : b.isNaN = false) : Decimal.order a b = .ok (Decimal.compareNumbers a b) := by
  simp [Decimal.order, ha, hb]

/-! ### One input -/

namespace Input

variable {i : Input} {raw : Json} {v : BoundValue} {p : String}

/-- The JSON value given for an input: the value of its member, unless the member is missing
or null. -/
def given (i : Input) (data : List (List CodePoint × Json)) : Option Json :=
  match data.lookup (CodePoint.ofString i.name) with
  | some .null => none
  | r => r

/-- A JSON value that converts to the value `v`, which passes the input's check. -/
def Takes (i : Input) (raw : Json) (v : BoundValue) : Prop :=
  i.ofJson raw = .ok v ∧ i.checkValue v = .ok none

/-- A JSON value refused with the problem `p`: it does not convert, or the value it converts
to fails the input's check. -/
def Refuses (i : Input) (raw : Json) (p : String) : Prop :=
  i.ofJson raw = .error p ∨ ∃ v, i.ofJson raw = .ok v ∧ i.checkValue v = .ok (some p)

/-- A number converted from JSON is finite. -/
theorem ofJson_finite (h : i.ofJson raw = .ok v) : v.Finite := by
  obtain ⟨name, text, spec, group⟩ := i
  cases spec
  case number | amount =>
    -- a number is converted only when it is finite
    simp only [ofJson] at h
    split at h
    · split at h
      · cases h
        assumption
      · cases h
    · cases h
  -- the other kinds convert to values without numbers
  all_goals
    simp only [ofJson] at h
    repeat' split at h
    all_goals cases h
    all_goals trivial

/-- Checking a finite value against an input whose compared numbers are no NaN raises no
signal. -/
theorem checkValue_ok_of_comparable (hi : i.spec.Comparable) (hv : v.Finite) :
    ∃ p, i.checkValue v = .ok p := by
  obtain ⟨name, text, spec, group⟩ := i
  cases spec <;> cases v
  case number.number lo hi' d x =>
    obtain ⟨hlo, hhi, -⟩ := hi
    have hx : x.isNaN = false := Decimal.isNaN_of_isFinite hv
    -- both comparisons with the bounds are between numbers that are no NaN
    simp only [checkValue, Decimal.order_of_isNaN_eq_false hlo hx,
      Decimal.order_of_isNaN_eq_false hx hhi, ok_bind]
    split
    · exact ⟨_, rfl⟩
    · rw [pure_bind]
      split <;> exact ⟨_, rfl⟩
  all_goals
    simp only [checkValue]
    repeat' split
    all_goals exact ⟨_, rfl⟩

/-- The JSON value of an input whose compared numbers are no NaN is taken or refused. -/
theorem takes_or_refuses (hi : i.spec.Comparable) (raw : Json) :
    (∃ v, i.Takes raw v) ∨ ∃ p, i.Refuses raw p := by
  rcases hconv : i.ofJson raw with p | v
  · exact .inr ⟨p, .inl hconv⟩
  · obtain ⟨q, hq⟩ := checkValue_ok_of_comparable hi (ofJson_finite hconv)
    cases q with
    | none => exact .inl ⟨v, hconv, hq⟩
    | some p => exact .inr ⟨p, .inr ⟨v, hconv, hq⟩⟩

/-- No JSON value is both taken and refused. -/
theorem Takes.not_refuses (ht : i.Takes raw v) : ¬ i.Refuses raw p := by
  rintro (hp | ⟨w, hw, hq⟩)
  · rw [ht.1] at hp
    cases hp
  · rw [ht.1] at hw
    cases hw
    rw [ht.2] at hq
    cases hq

/-- A JSON value is taken as one value only. -/
theorem Takes.eq {w : BoundValue} (hv : i.Takes raw v) (hw : i.Takes raw w) : v = w := by
  have h := hv.1.symm.trans hw.1
  cases h
  rfl

end Input

/-! ### A list of inputs -/

/-- What ingestion is to give for a list of inputs, one input at a time: nothing for an input
without a value, the converted value under its name for one whose value is taken, and the
problem for one whose value is refused. -/
inductive Ingests (data : List (List CodePoint × Json)) :
    List Input → Bindings → List String → Prop
  | nil : Ingests data [] [] []
  | absent {i : Input} {is : List Input} {vs : Bindings} {ps : List String} :
      i.given data = none → Ingests data is vs ps → Ingests data (i :: is) vs ps
  | takes {i : Input} {is : List Input} {vs : Bindings} {ps : List String} {raw : Json}
      {v : BoundValue} :
      i.given data = some raw → i.Takes raw v → Ingests data is vs ps →
        Ingests data (i :: is) ((i.name, v) :: vs) ps
  | refuses {i : Input} {is : List Input} {vs : Bindings} {ps : List String} {raw : Json}
      {p : String} :
      i.given data = some raw → i.Refuses raw p → Ingests data is vs ps →
        Ingests data (i :: is) vs (p :: ps)

namespace Ingests

variable {data : List (List CodePoint × Json)} {is : List Input} {vs : Bindings}
  {ps : List String}

/-- There are problems exactly when the value of some input is refused. -/
theorem problems_ne_nil_iff (h : Ingests data is vs ps) :
    ps ≠ [] ↔ ∃ i ∈ is, ∃ raw p, i.given data = some raw ∧ i.Refuses raw p := by
  induction h with
  | nil => simp
  | @absent i is vs ps hg _ ih =>
    rw [ih]
    constructor
    · rintro ⟨j, hj, raw, p, hgj, hr⟩
      exact ⟨j, List.mem_cons_of_mem _ hj, raw, p, hgj, hr⟩
    · rintro ⟨j, hj, raw, p, hgj, hr⟩
      rcases List.mem_cons.mp hj with rfl | hj
      · rw [hg] at hgj
        cases hgj
      · exact ⟨j, hj, raw, p, hgj, hr⟩
  | @takes i is vs ps raw v hg ht _ ih =>
    rw [ih]
    constructor
    · rintro ⟨j, hj, raw', p, hgj, hr⟩
      exact ⟨j, List.mem_cons_of_mem _ hj, raw', p, hgj, hr⟩
    · rintro ⟨j, hj, raw', p, hgj, hr⟩
      rcases List.mem_cons.mp hj with rfl | hj
      · -- the value of the head input is taken, so it is not refused
        rw [hg] at hgj
        cases hgj
        exact absurd hr ht.not_refuses
      · exact ⟨j, hj, raw', p, hgj, hr⟩
  | refuses hg hr _ _ =>
    exact ⟨fun _ => ⟨_, List.mem_cons_self, _, _, hg, hr⟩, fun _ => List.cons_ne_nil _ _⟩

/-- Every ingested value is the value taken from the JSON value of an input of its name. -/
theorem taken (h : Ingests data is vs ps) :
    ∀ q ∈ vs, ∃ i ∈ is, i.name = q.1 ∧ ∃ raw, i.given data = some raw ∧ i.Takes raw q.2 := by
  induction h with
  | nil => simp
  | absent _ _ ih =>
    intro q hq
    obtain ⟨j, hj, hname, hrest⟩ := ih q hq
    exact ⟨j, List.mem_cons_of_mem _ hj, hname, hrest⟩
  | takes hg ht _ ih =>
    intro q hq
    rcases List.mem_cons.mp hq with rfl | hq
    · exact ⟨_, List.mem_cons_self, rfl, _, hg, ht⟩
    · obtain ⟨j, hj, hname, hrest⟩ := ih q hq
      exact ⟨j, List.mem_cons_of_mem _ hj, hname, hrest⟩
  | refuses _ _ _ ih =>
    intro q hq
    obtain ⟨j, hj, hname, hrest⟩ := ih q hq
    exact ⟨j, List.mem_cons_of_mem _ hj, hname, hrest⟩

/-- No ingested value has the name of an input that is not among the inputs. -/
theorem lookup_eq_none (h : Ingests data is vs ps) {n : String} (hn : n ∉ is.map (·.name)) :
    vs.lookup n = none := by
  refine List.lookup_eq_none_iff.mpr fun q hq => ?_
  obtain ⟨i, hi, hname, -⟩ := h.taken q hq
  have hne : n ≠ q.1 := fun heq => hn (List.mem_map.mpr ⟨i, hi, hname.trans heq.symm⟩)
  simpa using hne

/-- Under distinct names, an input has an ingested value exactly when its JSON value is taken,
and that value is the one taken. -/
theorem lookup_eq_some_iff (h : Ingests data is vs ps) (hnodup : (is.map (·.name)).Nodup) :
    ∀ {i : Input}, i ∈ is → ∀ {v : BoundValue},
      vs.lookup i.name = some v ↔ ∃ raw, i.given data = some raw ∧ i.Takes raw v := by
  induction h with
  | nil => simp
  | @absent j is vs ps hg hrest ih =>
    simp only [List.map_cons, List.nodup_cons] at hnodup
    intro i hi v
    rcases List.mem_cons.mp hi with rfl | hi
    · -- nothing is ingested for the head input, which has no value
      simp [hrest.lookup_eq_none hnodup.1, hg]
    · exact ih hnodup.2 hi
  | @takes j is vs ps raw w hg ht hrest ih =>
    simp only [List.map_cons, List.nodup_cons] at hnodup
    intro i hi v
    rcases List.mem_cons.mp hi with rfl | hi
    · -- the head input's value is the one taken from its JSON value
      simp only [List.lookup_cons_self, Option.some.injEq, hg]
      constructor
      · rintro rfl
        exact ⟨raw, rfl, ht⟩
      · rintro ⟨raw', hraw, hv⟩
        cases hraw
        exact ht.eq hv
    · -- a later input has another name than the head input
      have hne : (i.name == j.name) = false := by
        simpa using fun heq => hnodup.1 (List.mem_map.mpr ⟨i, hi, heq⟩)
      simpa [List.lookup_cons, hne] using ih hnodup.2 hi
  | @refuses j is vs ps raw p hg hr hrest ih =>
    simp only [List.map_cons, List.nodup_cons] at hnodup
    intro i hi v
    rcases List.mem_cons.mp hi with rfl | hi
    · -- the head input's value is refused, so nothing is ingested for it
      simp only [hrest.lookup_eq_none hnodup.1, reduceCtorEq, false_iff, hg, Option.some.injEq]
      rintro ⟨raw', rfl, ht⟩
      exact ht.not_refuses hr
    · exact ih hnodup.2 hi

end Ingests

/-- Ingestion of inputs whose compared numbers are no NaN raises no signal, and gives the
values and problems that `Ingests` gives. -/
theorem ingestInputs_ingests (data : List (List CodePoint × Json)) :
    ∀ {is : List Input}, (∀ i ∈ is, i.spec.Comparable) →
      ∃ vs ps, Schedule.ingestInputs data is = .ok (vs, ps) ∧ Ingests data is vs ps
  | [], _ => ⟨[], [], rfl, .nil⟩
  | i :: is, h => by
    obtain ⟨vs, ps, hrest, hing⟩ :=
      ingestInputs_ingests data fun j hj => h j (List.mem_cons_of_mem _ hj)
    rw [Schedule.ingestInputs]
    -- the member of the head input: missing, null, or a value that is taken or refused
    split
    · refine ⟨vs, ps, by simp [hrest], .absent ?_ hing⟩
      simp [Input.given, *]
    · refine ⟨vs, ps, by simp [hrest], .absent ?_ hing⟩
      simp [Input.given, *]
    · rename_i raw hnull hl
      have hg : i.given data = some raw := by
        simp only [Input.given, hl]
        split
        · rename_i heq
          exact absurd (Option.some.inj heq) hnull
        · rfl
      rcases Input.takes_or_refuses (h i List.mem_cons_self) raw with
        ⟨v, hconv, hcheck⟩ | ⟨p, hconv | ⟨v, hconv, hcheck⟩⟩
      · exact ⟨(i.name, v) :: vs, ps, by simp [hconv, hcheck, hrest],
          .takes hg ⟨hconv, hcheck⟩ hing⟩
      · exact ⟨vs, p :: ps, by simp [hconv, hrest], .refuses hg (.inl hconv) hing⟩
      · exact ⟨vs, p :: ps, by simp [hconv, hcheck, hrest],
          .refuses hg (.inr ⟨v, hconv, hcheck⟩) hing⟩

namespace Schedule

variable {s : Schedule} {data : List (List CodePoint × Json)} {vs : Bindings}

/-- An ingestion without problems gives the ingested values. -/
theorem ingest_yields_ok (h : ingestInputs data s.inputs = .ok (vs, [])) :
    (s.ingest data).Yields (.ok vs) := by
  intro σ
  rw [Schedule.ingest, Traced.run_bind, h]
  rfl

/-- An ingestion with problems fails with all of them. -/
theorem ingest_yields_misfits {p : String} {ps : List String}
    (h : ingestInputs data s.inputs = .ok (vs, p :: ps)) :
    (s.ingest data).Yields (.error (.misfits (p :: ps))) := by
  intro σ
  rw [Schedule.ingest, Traced.run_bind, h]
  rfl

/-- Binding values that pass the checks of their inputs gives each input the value supplied
for it, or else its default, with no misfit. -/
theorem bindInputs_supplied {supplied : List (String × BoundValue)} : ∀ {is : List Input},
    (∀ i ∈ is, ∀ v, supplied.lookup i.name = some v → i.checkValue v = .ok none) →
      bindInputs supplied is =
        .ok (is.map fun i => (i.name, (supplied.lookup i.name).getD i.defaultValue), [])
  | [], _ => rfl
  | i :: is, h => by
    have hrest := bindInputs_supplied fun j hj => h j (List.mem_cons_of_mem _ hj)
    rw [bindInputs]
    cases hl : supplied.lookup i.name with
    | none => simp [hl, hrest, pure, Except.pure]
    | some v => simp [hl, h i List.mem_cons_self v hl, hrest, pure, Except.pure]

end Schedule

/-! ### Ingestion, then binding -/

/-- The value an input is bound to after its JSON value is ingested: the value taken from its
JSON value, or its default when it has none. -/
def Input.BoundAfter (i : Input) (data : List (List CodePoint × Json)) (v : BoundValue) :
    Prop :=
  (i.given data = none ∧ v = i.defaultValue) ∨ ∃ raw, i.given data = some raw ∧ i.Takes raw v

/-- Ingesting JSON values for a schedule that passes its check raises no signal. It fails
exactly when the value of some input is refused, and then with one problem for each refused
value, in input order (`Ingests`). Otherwise it gives the taken values, each finite and passing
the check of its input, and binding them succeeds and binds each input to the value taken
from its JSON value, or else to its default. -/
theorem ingest_agrees_with_bind {s : Schedule} (hs : s.PassesCheck)
    (data : List (List CodePoint × Json)) :
    ∃ vs problems, Ingests data s.inputs vs problems ∧
      (problems ≠ [] ↔ ∃ i ∈ s.inputs, ∃ raw p, i.given data = some raw ∧ i.Refuses raw p) ∧
      (problems ≠ [] → (s.ingest data).Yields (.error (.misfits problems))) ∧
      (problems = [] → (s.ingest data).Yields (.ok vs) ∧
        (∀ q ∈ vs, q.2.Finite ∧ ∃ i ∈ s.inputs, i.name = q.1 ∧ i.checkValue q.2 = .ok none) ∧
        ∃ b, (s.bind vs).Yields (.ok b) ∧
          List.Forall₂ (fun i q => q.1 = i.name ∧ i.BoundAfter data q.2) s.inputs b) := by
  obtain ⟨vs, ps, hrun, hing⟩ := ingestInputs_ingests data hs.comparable
  refine ⟨vs, ps, hing, hing.problems_ne_nil_iff, fun hps => ?_, fun hps => ?_⟩
  · obtain ⟨p, ps', rfl⟩ := List.exists_cons_of_ne_nil hps
    exact Schedule.ingest_yields_misfits hrun
  · subst hps
    have hnodup := hs.checked.distinctNames.inputs
    have hlookup := fun {i} (hi : i ∈ s.inputs) {v} => hing.lookup_eq_some_iff hnodup hi (v := v)
    -- every ingested value passes the check of its input, so binding takes it as it is
    have hpass : ∀ i ∈ s.inputs, ∀ v, vs.lookup i.name = some v → i.checkValue v = .ok none := by
      intro i hi v hv
      obtain ⟨_, -, ht⟩ := (hlookup hi).mp hv
      exact ht.2
    refine ⟨Schedule.ingest_yields_ok hrun, fun q hq => ?_,
      s.inputs.map fun i => (i.name, (vs.lookup i.name).getD i.defaultValue), fun σ => ?_, ?_⟩
    · obtain ⟨i, hi, hname, _, -, ht⟩ := hing.taken q hq
      exact ⟨Input.ofJson_finite ht.1, i, hi, hname, ht.2⟩
    · rw [Schedule.bind_run, Schedule.bindInputs_supplied hpass]
    · rw [List.forall₂_map_right_iff, List.forall₂_same]
      intro i hi
      refine ⟨rfl, ?_⟩
      cases hl : vs.lookup i.name with
      | some v => exact .inr ((hlookup hi).mp hl)
      | none =>
        -- without an ingested value, the input has no JSON value: one would be taken or
        -- refused, and no value is refused
        refine .inl ⟨?_, rfl⟩
        cases hg : i.given data with
        | none => rfl
        | some raw =>
          rcases Input.takes_or_refuses (hs.comparable i hi) raw with ⟨v, ht⟩ | ⟨p, hr⟩
          · have := (hlookup hi).mpr ⟨raw, hg, ht⟩
            rw [hl] at this
            cases this
          · exact absurd (hing.problems_ne_nil_iff.mpr ⟨i, hi, raw, p, hg, hr⟩) (by simp)

/-- A schedule of an application: its number of claims (1 to 50, 10 by default), whether its
examination is expedited, and the entity of its applicant. -/
def applicationSchedule : Schedule :=
  ⟨[⟨"claims", "Claims", .number (Decimal.ofNat 1) (Decimal.ofNat 50) (Decimal.ofNat 10), none⟩,
      ⟨"expedite", "Expedited examination", .boolean false, none⟩,
      ⟨"entity", "Entity", .list [⟨"large", "Large entity"⟩, ⟨"small", "Small entity"⟩] "large",
        none⟩],
    [], [], [], [], none⟩

/-- Values for an application: twelve claims, a small entity, no word on expedition. -/
def applicationValues : List (List CodePoint × Json) :=
  [(CodePoint.ofString "claims", .int 12), (CodePoint.ofString "entity", .str "small")]

/-- The application schedule passes its check, and its values are ingested as binding takes
them. -/
theorem application_values_ingested :
    applicationSchedule.PassesCheck ∧
      ∃ vs problems, Ingests applicationValues applicationSchedule.inputs vs problems ∧
        (problems ≠ [] ↔ ∃ i ∈ applicationSchedule.inputs, ∃ raw p,
          i.given applicationValues = some raw ∧ i.Refuses raw p) ∧
        (problems ≠ [] → (applicationSchedule.ingest applicationValues).Yields
          (.error (.misfits problems))) ∧
        (problems = [] → (applicationSchedule.ingest applicationValues).Yields (.ok vs) ∧
          (∀ q ∈ vs, q.2.Finite ∧
            ∃ i ∈ applicationSchedule.inputs, i.name = q.1 ∧ i.checkValue q.2 = .ok none) ∧
          ∃ b, (applicationSchedule.bind vs).Yields (.ok b) ∧
            List.Forall₂ (fun i q => q.1 = i.name ∧ i.BoundAfter applicationValues q.2)
              applicationSchedule.inputs b) := by
  have hs : applicationSchedule.PassesCheck := by
    refine ⟨by unfold Schedule.Checked; decide +kernel, ?_⟩
    simp only [applicationSchedule, List.mem_cons, List.not_mem_nil, or_false]
    rintro i (rfl | rfl | rfl)
    · exact ⟨rfl, rfl, rfl⟩
    · trivial
    · trivial
  exact ⟨hs, ingest_agrees_with_bind hs applicationValues⟩

end FeeSchedule
