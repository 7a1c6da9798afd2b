import FeeSchedule.Proofs.Evaluation.Alternatives

/-!
# `FeeSchedule.Proofs.Evaluation.Counterfactuals`: what a what-if analysis reports

A what-if analysis (`Schedule.whatIf`) traces a schedule with its bound values; then, for each
input in order and each of its alternatives in order, it binds the values again with that one
input changed, computes the grand total, and reports it with its difference from the actual
grand total.

* `Traced.Yields`: a traced computation whose value does not depend on the events noted
  before it. The analysis and each of its parts are such computations, and their values are
  read off one part at a time (`Assessment.alternativeTotal_yields`,
  `Assessment.counterfactualsOf_yields`, `Assessment.counterfactuals_yields`,
  `Schedule.whatIf_yields`).
* `Bindings.Valid`: values bound one per input, in input order, each passing the check of its
  input. A binding that succeeds gives such values (`Schedule.bind_valid`), and such values
  with one input changed to a value that passes its check bind again to themselves
  (`Schedule.bind_replace`): the binding inside the analysis never fails.
* `whatIf_counterfactuals`: the analysis succeeds exactly when the trail, its grand total,
  the alternatives of every input and the total and difference of every alternative are
  formed; it then reports, input after input, one counterfactual per alternative, each the
  single change of that input (`Input.AlternativesOf`).
-/

set_option autoImplicit false

namespace FeeSchedule

/-! ### Values that do not depend on the events -/

namespace Traced

variable {α β ε : Type}

/-- A traced computation yields `a` when its value is `a` whatever events were noted before
it. -/
def Yields (m : Traced α) (a : α) : Prop := ∀ σ, (m.run σ).1 = a

theorem Yields.run' {m : Traced α} {a : α} (h : m.Yields a) : m.run'.1 = a := h #[]

/-- What a computation yields is its value when run on its own. -/
theorem Yields.self {m : Traced α} {a : α} (h : m.Yields a) : m.Yields m.run'.1 := by
  rw [h.run']
  exact h

theorem Yields.of_eq {m : Traced α} {a a' : α} (h : m.Yields a) (ha : a = a') : m.Yields a' :=
  ha ▸ h

theorem yields_pure (a : α) : (pure a : Traced α).Yields a := fun _ => rfl

/-- A computation that goes on from the result of its first part, passing a failure on. -/
theorem Yields.bind {m : Traced (Except ε α)} {g : Except ε α → Traced (Except ε β)}
    {x : Except ε α} {w : α → Except ε β} (hm : m.Yields x)
    (herr : ∀ e, (g (.error e)).Yields (.error e)) (hok : ∀ a, (g (.ok a)).Yields (w a)) :
    (m >>= g).Yields (x >>= w) := by
  intro σ
  rw [run_bind, hm σ]
  cases x with
  | error e => exact herr e _
  | ok a => exact hok a _

theorem Yields.note {m : Traced α} {a : α} (e : Event) (h : m.Yields a) :
    (FeeSchedule.note e >>= fun _ => m).Yields a := fun σ => by
  rw [run_note]
  exact h _

end Traced

open Traced Evaluation

/-- Relations that agree on the members of the first list relate the same lists. -/
theorem forall₂_congr_of_mem {α β : Type} {R S : α → β → Prop} {l : List α} {u : List β}
    (h : ∀ a ∈ l, ∀ b, R a b ↔ S a b) : List.Forall₂ R l u ↔ List.Forall₂ S l u := by
  induction l generalizing u with
  | nil => cases u <;> simp
  | cons a l ih =>
    cases u with
    | nil => simp
    | cons b u =>
      simp only [List.forall₂_cons]
      exact and_congr (h a List.mem_cons_self b) (ih fun x hx => h x (List.mem_cons_of_mem a hx))

/-! ### The parts of the analysis -/

theorem Schedule.bind_yields (s : Schedule) (supplied : List (String × BoundValue)) :
    (s.bind supplied).Yields (s.bind supplied).run'.1 :=
  Yields.self (s.bind_run supplied)

theorem Schedule.compute_yields (s : Schedule) (b : Bindings) :
    (s.compute b).Yields (s.compute b).run'.1 :=
  Yields.self (s.compute_run b)

theorem Schedule.trace_yields (s : Schedule) (b : Bindings) :
    (s.trace b).Yields (s.trace b).run'.1 :=
  Yields.self (s.trace_run b)

namespace Assessment

variable (s : Schedule) (b : Bindings)

/-- The total with one input changed: the values bound again, then computed. -/
theorem alternativeTotal_yields (name : String) (alt : BoundValue) :
    (alternativeTotal s b name alt).Yields ((s.bind (b.replace name alt)).run'.1 >>= fun b' =>
      (s.compute b').run'.1 >>= fun r => raw r.grandTotal) := by
  unfold alternativeTotal
  refine (s.bind_yields _).bind (fun e => yields_pure _) fun b' => ?_
  exact (s.compute_yields b').bind (fun e => yields_pure _) fun r => yields_pure _

/-- The counterfactuals of one input: for each alternative in order, its total and its
difference from the actual total. -/
theorem counterfactualsOf_yields (actual : Decimal) (name : String) (current : BoundValue) :
    ∀ alts : List BoundValue, (counterfactualsOf s b actual name current alts).Yields
      (alts.mapM fun alt => (alternativeTotal s b name alt).run'.1 >>= fun total =>
        raw (Decimal.sub total actual) >>= fun difference =>
          pure ⟨name, current, alt, total, difference⟩)
  | [] => yields_pure _
  | alt :: alts => by
    rw [counterfactualsOf]
    simp only [List.mapM_cons, bind_assoc, pure_bind]
    -- the total, the difference, then the rest, each failure passed on
    refine (alternativeTotal_yields s b name alt).self.bind (fun e => yields_pure _) fun total => ?_
    simp only
    cases Decimal.sub total actual with
    | error sig => exact yields_pure _
    | ok difference =>
      simp only [raw_of_ok, ok_bind]
      exact (counterfactualsOf_yields actual name current alts).bind (fun e => yields_pure _)
        fun rest => yields_pure _

/-- The counterfactuals of the inputs: for each input in order, those of its alternatives from
its current value, the bound one or else its default. -/
theorem counterfactuals_yields (actual : Decimal) :
    ∀ is : List Input, (counterfactuals s b actual is).Yields
      ((is.mapM fun i => raw (i.alternatives ((b.lookup i.name).getD i.defaultValue)) >>=
        fun alts => (counterfactualsOf s b actual i.name ((b.lookup i.name).getD i.defaultValue)
          alts).run'.1) >>= fun css => pure css.flatten)
  | [] => yields_pure _
  | i :: is => by
    rw [counterfactuals]
    simp only [List.mapM_cons, bind_assoc, pure_bind]
    -- the alternatives, their counterfactuals, then the other inputs', each failure passed on
    cases i.alternatives ((b.lookup i.name).getD i.defaultValue) with
    | error sig => exact yields_pure _
    | ok alts =>
      simp only [raw_of_ok, ok_bind]
      refine (counterfactualsOf_yields s b actual i.name _ alts).self.bind (fun e => yields_pure _)
        fun cs => ?_
      refine Yields.of_eq ((counterfactuals_yields actual is).bind (fun e => yields_pure _)
        fun rest => yields_pure _) ?_
      simp only [bind_assoc, pure_bind, List.flatten_cons]
      rfl

end Assessment

/-- The value of a what-if analysis: the audit trail, its grand total, then the counterfactuals
of the inputs. -/
theorem Schedule.whatIf_yields (s : Schedule) (b : Bindings) :
    (s.whatIf b).Yields ((s.trace b).run'.1 >>= fun p => raw p.grandTotal >>= fun actual =>
      (Assessment.counterfactuals s b actual s.inputs).run'.1 >>= fun cs =>
        pure { p with counterfactuals := cs }) := by
  unfold Schedule.whatIf
  refine (s.trace_yields b).bind (fun e => yields_pure _) fun p => ?_
  simp only
  cases p.grandTotal with
  | error sig => exact yields_pure _
  | ok actual =>
    simp only [raw_of_ok, ok_bind]
    exact (Assessment.counterfactuals_yields s b actual s.inputs).self.bind
      (fun e => yields_pure _) fun cs => (yields_pure _).note _

/-! ### When each part succeeds -/

namespace Assessment

variable {s : Schedule} {b : Bindings}

/-- The counterfactuals of one input are formed exactly when, for each alternative in order,
the values bind again with the input changed, the schedule computes with them, and the grand
total and its difference from the actual one are formed. -/
theorem counterfactualsOf_ok_iff {actual : Decimal} {name : String} {current : BoundValue}
    {alts : List BoundValue} {cs : List Counterfactual} :
    (counterfactualsOf s b actual name current alts).run'.1 = .ok cs ↔
      List.Forall₂ (fun alt c => c.input = name ∧ c.given = current ∧ c.alternative = alt ∧
          ∃ b' r, (s.bind (b.replace name alt)).run'.1 = .ok b' ∧ (s.compute b').run'.1 = .ok r ∧
            r.grandTotal = .ok c.total ∧ Decimal.sub c.total actual = .ok c.difference)
        alts cs := by
  rw [(counterfactualsOf_yields s b actual name current alts).run', mapM_ok_iff]
  refine forall₂_congr_of_mem fun alt _ c => ?_
  rw [(alternativeTotal_yields s b name alt).run']
  obtain ⟨n, g, a, t, d⟩ := c
  simp only [bind_eq_ok, raw_eq_ok]
  constructor
  · rintro ⟨t', ⟨b', hb', r, hr, ht⟩, d', hd, heq⟩
    cases heq
    exact ⟨rfl, rfl, rfl, b', r, hb', hr, ht, hd⟩
  · rintro ⟨rfl, rfl, rfl, b', r, hb', hr, ht, hd⟩
    exact ⟨t, ⟨b', hb', r, hr, ht⟩, d, hd, rfl⟩

/-- The counterfactuals of the inputs are formed exactly when, for each input in order, its
alternatives from its current value are found and their counterfactuals formed; they are those
of the inputs, in order. -/
theorem counterfactuals_ok_iff {actual : Decimal} {is : List Input} {cs : List Counterfactual} :
    (counterfactuals s b actual is).run'.1 = .ok cs ↔
      ∃ css, cs = css.flatten ∧ List.Forall₂ (fun i cs => ∃ alts,
          i.alternatives ((b.lookup i.name).getD i.defaultValue) = .ok alts ∧
          (counterfactualsOf s b actual i.name ((b.lookup i.name).getD i.defaultValue)
            alts).run'.1 = .ok cs) is css := by
  rw [(counterfactuals_yields s b actual is).run', bind_eq_ok]
  simp only [mapM_ok_iff, bind_eq_ok, raw_eq_ok]
  constructor
  · rintro ⟨css, hcss, heq⟩
    cases heq
    exact ⟨css, rfl, hcss⟩
  · rintro ⟨css, rfl, hcss⟩
    exact ⟨css, hcss, rfl⟩

end Assessment

/-- A what-if analysis succeeds exactly when the audit trail and its grand total are formed and
the counterfactuals of the inputs from that total; it is the trail with them. -/
theorem Schedule.whatIf_ok_iff {s : Schedule} {b : Bindings} {P : Provenance} :
    (s.whatIf b).run'.1 = .ok P ↔ ∃ p actual cs, (s.trace b).run'.1 = .ok p ∧
      p.grandTotal = .ok actual ∧ (Assessment.counterfactuals s b actual s.inputs).run'.1 = .ok cs ∧
        P = { p with counterfactuals := cs } := by
  rw [(s.whatIf_yields b).run']
  simp only [bind_eq_ok, raw_eq_ok]
  constructor
  · rintro ⟨p, hp, actual, hactual, cs, hcs, heq⟩
    cases heq
    exact ⟨p, actual, cs, hp, hactual, hcs, rfl⟩
  · rintro ⟨p, actual, cs, hp, hactual, hcs, rfl⟩
    exact ⟨p, hp, actual, hactual, cs, hcs, rfl⟩

/-! ### Bindings that pass the checks -/

/-- Values bound to a list of inputs: one per input, in input order, under the input's name,
each passing the check of its input. -/
def Bindings.Valid (b : Bindings) (is : List Input) : Prop :=
  List.Forall₂ (fun i p => p.1 = i.name ∧ i.checkValue p.2 = .ok none) is b

namespace Bindings

variable {b : Bindings} {is : List Input}

theorem Valid.names (h : b.Valid is) : b.map (·.1) = is.map (·.name) := by
  induction h with
  | nil => rfl
  | cons hp _ ih => simp [hp.1, ih]

/-- Under distinct names, valid values give each input the value in its place, which passes
its check. -/
theorem Valid.lookup (h : b.Valid is) (hnodup : (is.map (·.name)).Nodup) {i : Input}
    (hi : i ∈ is) : ∃ v, b.lookup i.name = some v ∧ i.checkValue v = .ok none :=
  lookup_of_forall₂ (R := fun i v => i.checkValue v = .ok none) h hnodup hi

/-- Changing the value of a name to one that passes the checks of the inputs of that name
keeps the values valid. -/
theorem Valid.replace (h : b.Valid is) {name : String} {alt : BoundValue}
    (halt : ∀ j ∈ is, j.name = name → j.checkValue alt = .ok none) :
    (b.replace name alt).Valid is := by
  induction h with
  | nil => exact .nil
  | @cons j p is ps hjp _ ih =>
    obtain ⟨n, v⟩ := p
    obtain ⟨rfl, hv⟩ := hjp
    refine .cons ?_ (ih fun k hk => halt k (List.mem_cons_of_mem j hk))
    by_cases hname : j.name = name
    · simpa [Bindings.replace, hname] using halt j List.mem_cons_self hname
    · simpa [Bindings.replace, hname] using hv

end Bindings

namespace Schedule

variable {supplied : List (String × BoundValue)}

/-- Valid values, each supplied under its name, bind to themselves with no misfit. -/
theorem bindInputs_valid : ∀ {is : List Input} {b : Bindings}, b.Valid is →
    (∀ p ∈ b, supplied.lookup p.1 = some p.2) → bindInputs supplied is = .ok (b, []) := by
  intro is b h hsup
  induction h with
  | nil => rfl
  | @cons i p is ps hip _ ih =>
    obtain ⟨n, v⟩ := p
    obtain ⟨rfl, hv⟩ := hip
    have hlook : supplied.lookup i.name = some v := hsup (i.name, v) List.mem_cons_self
    rw [bindInputs, hlook]
    simp [hv, ih fun q hq => hsup q (List.mem_cons_of_mem _ hq), pure, Except.pure]

/-- Binding gives valid values when it finds no misfit, when the defaults pass the checks. -/
theorem valid_of_bindInputs : ∀ {is : List Input} {b : Bindings},
    (∀ i ∈ is, i.checkValue i.defaultValue = .ok none) → bindInputs supplied is = .ok (b, []) →
      b.Valid is
  | [], _, _, h => by
    cases h
    exact .nil
  | i :: is, b, hdefault, h => by
    -- the rest is bound validly, and `i` gets a value that passes its check when it has no
    -- problem
    have htail : ∀ (v : BoundValue) (problem : Option String),
        (bindInputs supplied is >>= fun x => pure ((i.name, v) :: x.1, problem.toList ++ x.2)) =
          .ok (b, []) → (problem = none → i.checkValue v = .ok none) → b.Valid (i :: is) := by
      intro v problem hb hcheck
      obtain ⟨⟨rest, ps⟩, hr, hb⟩ := bind_eq_ok.mp hb
      simp only [pure, Except.pure, Except.ok.injEq, Prod.mk.injEq] at hb
      obtain ⟨rfl, hnil⟩ := hb
      simp only [List.append_eq_nil_iff, Option.toList_eq_nil_iff] at hnil
      rw [hnil.2] at hr
      exact .cons ⟨rfl, hcheck hnil.1⟩
        (valid_of_bindInputs (fun j hj => hdefault j (List.mem_cons_of_mem _ hj)) hr)
    rw [bindInputs] at h
    split at h
    · rw [pure_bind] at h
      exact htail _ _ h fun _ => hdefault i List.mem_cons_self
    · obtain ⟨p, hp, h⟩ := bind_eq_ok.mp h
      rw [pure_bind] at h
      exact htail _ _ h fun hnone => hnone ▸ hp

/-- A binding that succeeds gives valid values, when the defaults pass the checks. -/
theorem bind_valid {s : Schedule}
    (hdefault : ∀ i ∈ s.inputs, i.checkValue i.defaultValue = .ok none) {b : Bindings}
    (h : (s.bind supplied).run'.1 = .ok b) : b.Valid s.inputs := by
  rw [Traced.run'_eq_run, bind_run] at h
  rcases hr : bindInputs supplied s.inputs with sig | ⟨b', _ | ⟨p, ps⟩⟩ <;> rw [hr] at h
  · cases h
  · cases h
    exact valid_of_bindInputs hdefault hr
  · cases h

/-- Valid values of the inputs of a schedule, with distinct input names, changed in one input
to a value that passes its check, bind again to themselves. -/
theorem bind_replace {s : Schedule} (hnodup : (s.inputs.map (·.name)).Nodup) {b : Bindings}
    (hb : b.Valid s.inputs) {i : Input} (hi : i ∈ s.inputs) {alt : BoundValue}
    (halt : i.checkValue alt = .ok none) :
    (s.bind (b.replace i.name alt)).run'.1 = .ok (b.replace i.name alt) := by
  -- only `i` has its name, so the changed values are still valid
  have hv : (b.replace i.name alt).Valid s.inputs := hb.replace fun j hj hname => by
    rw [List.inj_on_of_nodup_map hnodup hj hi hname]
    exact halt
  have hnames : ((b.replace i.name alt).map (·.1)).Nodup := by
    rw [hv.names]
    exact hnodup
  rw [Traced.run'_eq_run, bind_run,
    bindInputs_valid hv fun _ hp => lookup_of_mem_of_nodup hnames hp]

end Schedule

/-! ### What the analysis reports -/

/-- The counterfactual `c` reports changing input `i` alone from `current` to `alt`, against
the actual grand total `actual`: the values with that change bind again to themselves, and `c`
holds the grand total computed with them and its difference from `actual`. -/
structure Counterfactual.Reports (s : Schedule) (b : Bindings) (actual : Decimal) (i : Input)
    (current alt : BoundValue) (c : Counterfactual) : Prop where
  input : c.input = i.name
  given : c.given = current
  alternative : c.alternative = alt
  rebind : (s.bind (b.replace i.name alt)).run'.1 = .ok (b.replace i.name alt)
  total : ∃ r, (s.compute (b.replace i.name alt)).run'.1 = .ok r ∧ r.grandTotal = .ok c.total
  difference : Decimal.sub c.total actual = .ok c.difference

/-- The counterfactuals `cs` of input `i` with values `b`: from its bound value, one for each
of its alternatives (as `Input.AlternativesOf` says), in order, reporting that alternative. -/
def Input.CounterfactualsOf (s : Schedule) (b : Bindings) (actual : Decimal) (i : Input)
    (cs : List Counterfactual) : Prop :=
  ∃ current alts, b.lookup i.name = some current ∧ i.alternatives current = .ok alts ∧
    i.AlternativesOf current alts ∧
      List.Forall₂ (Counterfactual.Reports s b actual i current) alts cs

namespace Assessment

variable {s : Schedule} {b : Bindings}

/-- For an input of an evaluable schedule with valid values, the counterfactuals the analysis
forms from its current value are those that report its alternatives from its bound value. -/
theorem counterfactualsOf_input_iff (hs : s.Evaluable) (hv : b.Valid s.inputs) {i : Input}
    (hi : i ∈ s.inputs) {actual : Decimal} {cs : List Counterfactual} :
    (∃ alts, i.alternatives ((b.lookup i.name).getD i.defaultValue) = .ok alts ∧
        (counterfactualsOf s b actual i.name ((b.lookup i.name).getD i.defaultValue)
          alts).run'.1 = .ok cs) ↔ i.CounterfactualsOf s b actual cs := by
  have hpass := hs.checked.inputFaults_eq_nil hi
  have hnodup := hs.checked.distinctNames.inputs
  obtain ⟨current, hlook, hcur⟩ := hv.lookup hnodup hi
  -- each alternative passes the check, so the values changed to it bind again to themselves
  have hreports : ∀ {alts}, i.AlternativesOf current alts → ∀ alt ∈ alts, ∀ c : Counterfactual,
      (c.input = i.name ∧ c.given = current ∧ c.alternative = alt ∧
        ∃ b' r, (s.bind (b.replace i.name alt)).run'.1 = .ok b' ∧ (s.compute b').run'.1 = .ok r ∧
          r.grandTotal = .ok c.total ∧ Decimal.sub c.total actual = .ok c.difference) ↔
      c.Reports s b actual i current alt := by
    intro alts hspec alt ha c
    have hre := Schedule.bind_replace hnodup hv hi (hspec.accepted alt ha)
    constructor
    · rintro ⟨hinput, hgiven, halt, b', r, hb', hr, htotal, hdiff⟩
      rw [hre, Except.ok.injEq] at hb'
      subst hb'
      exact ⟨hinput, hgiven, halt, hre, ⟨r, hr, htotal⟩, hdiff⟩
    · intro h
      obtain ⟨r, hr, htotal⟩ := h.total
      exact ⟨h.input, h.given, h.alternative, _, r, hre, hr, htotal, h.difference⟩
  simp only [hlook, Option.getD_some, counterfactualsOf_ok_iff]
  constructor
  · rintro ⟨alts, halts, hcs⟩
    have hspec := Input.alternatives_spec hpass (hs.inputFinite hi) hcur halts
    exact ⟨current, alts, hlook, halts, hspec, (forall₂_congr_of_mem (hreports hspec)).mp hcs⟩
  · rintro ⟨current', alts, hlook', halts, hspec, hcs⟩
    cases hlook.symm.trans hlook'
    exact ⟨alts, halts, (forall₂_congr_of_mem (hreports hspec)).mpr hcs⟩

end Assessment

open Assessment in
/-- What a what-if analysis reports. Take an evaluable schedule and values that bind to it.
The analysis succeeds exactly when the audit trail and its grand total are formed and, for each
input in order, its alternatives from its bound value are found and, for each of them in
order, the schedule computes with that one input changed, and the grand total and its
difference from the actual one are formed. It then reports the trail with the counterfactuals
of the inputs in order, one per alternative in order (`Input.CounterfactualsOf`): the input,
its bound value, the alternative, the grand total with the alternative in its place, bound
again without failing, and its difference from the actual grand total. -/
theorem whatIf_counterfactuals {s : Schedule} (hs : s.Evaluable)
    {supplied : List (String × BoundValue)} {b : Bindings}
    (hb : (s.bind supplied).run'.1 = .ok b) (P : Provenance) :
    (s.whatIf b).run'.1 = .ok P ↔
      ∃ p actual css, (s.trace b).run'.1 = .ok p ∧ p.grandTotal = .ok actual ∧
        P = { p with counterfactuals := css.flatten } ∧
        List.Forall₂ (Input.CounterfactualsOf s b actual) s.inputs css := by
  have hv : b.Valid s.inputs := Schedule.bind_valid (fun i hi =>
    Input.checkValue_default (hs.checked.inputFaults_eq_nil hi) (hs.inputFinite hi)) hb
  rw [Schedule.whatIf_ok_iff]
  simp only [counterfactuals_ok_iff]
  constructor
  · rintro ⟨p, actual, cs, hp, hactual, ⟨css, rfl, hcss⟩, rfl⟩
    exact ⟨p, actual, css, hp, hactual, rfl,
      (forall₂_congr_of_mem fun i hi _ => counterfactualsOf_input_iff hs hv hi).mp hcss⟩
  · rintro ⟨p, actual, css, hp, hactual, rfl, hcss⟩
    exact ⟨p, actual, css.flatten, hp, hactual, ⟨css, rfl,
      (forall₂_congr_of_mem fun i hi _ => counterfactualsOf_input_iff hs hv hi).mpr hcss⟩, rfl⟩



/-- Whether a filing is rushed, not unless asked. -/
def rushInput : Input := ⟨"rush", "Rush processing", .boolean false, none⟩

/-- A fee of 50 for rush processing. -/
def rushFee : Fee :=
  ⟨"rush", [⟨.num (Decimal.ofNat 50), some (.ref "rush")⟩, ⟨.num Decimal.zero, none⟩], [], false,
    none⟩

/-- A schedule of the rush fee alone. -/
def rushSchedule : Schedule := ⟨[rushInput], [rushFee], [], [], [], none⟩

/-- The analysis of the rush fee with its default succeeds, and reports the rushed filing as
the one counterfactual. -/
theorem rush_counterfactuals :
    ∃ b P, (rushSchedule.bind []).run'.1 = .ok b ∧ (rushSchedule.whatIf b).run'.1 = .ok P ∧
      ∃ p actual css, (rushSchedule.trace b).run'.1 = .ok p ∧ p.grandTotal = .ok actual ∧
        P = { p with counterfactuals := css.flatten } ∧
        List.Forall₂ (Input.CounterfactualsOf rushSchedule b actual) rushSchedule.inputs css := by
  have hb : (rushSchedule.bind []).run'.1 = .ok [("rush", .boolean false)] := rfl
  exact ⟨_, _, hb, rfl, (whatIf_counterfactuals ⟨by decide, rfl, rfl⟩ hb _).mp rfl⟩

end FeeSchedule
