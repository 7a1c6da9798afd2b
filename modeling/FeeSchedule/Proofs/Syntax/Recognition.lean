import FeeSchedule.Proofs.Syntax.Acceptance

/-!
# `FeeSchedule.Proofs.Syntax.Recognition`: the parsers accept exactly their grammars

`parsers_accept_grammars` gathers the two directions of the readers into statements about
texts. Take a text without lexical faults. If reading it as a script ends without a decimal
signal, the result has a schedule exactly when the tokens are a `Grammar.Script`: declarations
of `Grammar.Decl`, with at most one version. Read as one expression, it succeeds exactly when
the tokens are a `Grammar.Phrase` of `or`, and the expression is that derivation's
(`Expr.parse_eq_ok_iff`).

`gather` reads declarations one after another and records a fault where one breaks:

* `gather_sound`: a gathering that met no fault read declarations of `Grammar.Decl`, from
  `Read.readDeclaration_consumed` at each step;
* `gather_complete`: declarations followed by nothing are gathered without a fault, from
  `readDeclaration_settles`, unless a signal stops the reading.

Both keep `Gathered.Fits`: the version read so far and the versions still to read are at most
one, which is why a second `VERSION` is a fault.
-/

set_option autoImplicit false

namespace FeeSchedule

open Grammar

/-- The versions of the declarations `ds` still to read, with the one read so far, are at most
one. -/
def Gathered.Fits (g : Gathered) (ds : List (List Token)) : Prop :=
  ds.countP IsVersion + g.version.isSome.toNat ≤ 1

namespace Gathered.Fits

variable {g g' : Gathered} {t : Token} {us : List Token} {ds : List (List Token)}

theorem isVersion_cons : IsVersion (t :: us) = t.isKeyword "VERSION" := by
  simp [IsVersion]

theorem version_none (h : g.Fits ((t :: us) :: ds)) :
    t.isKeyword "VERSION" → g.version = none := by
  intro ht
  unfold Gathered.Fits at h
  rw [List.countP_cons, isVersion_cons, ht, if_pos rfl] at h
  cases hv : g.version
  · rfl
  · simp only [hv, Option.isSome_some, Bool.toNat_true] at h
    omega

/-- A declaration read keeps the bound for the rest, with its version added to the one read. -/
theorem tail (h : g.Fits ((t :: us) :: ds))
    (hg' : g'.version.isSome = (g.version.isSome || t.isKeyword "VERSION")) : g'.Fits ds := by
  unfold Gathered.Fits at h ⊢
  rw [List.countP_cons, isVersion_cons] at h
  rw [hg']
  generalize t.isKeyword "VERSION" = a at h ⊢
  generalize g.version.isSome = b at h ⊢
  cases a <;> cases b <;> simp only [Bool.or_false, Bool.or_true, Bool.toNat_false,
    Bool.toNat_true, Bool.false_eq_true, if_true, if_false] at h ⊢ <;> omega

theorem cons (hv : t.isKeyword "VERSION" → g.version = none)
    (hg' : g'.version.isSome = (g.version.isSome || t.isKeyword "VERSION")) (h : g'.Fits ds) :
    g.Fits ((t :: us) :: ds) := by
  unfold Gathered.Fits at h ⊢
  rw [List.countP_cons, isVersion_cons]
  rw [hg'] at h
  cases ha : t.isKeyword "VERSION"
  · simp only [ha, Bool.or_false, Bool.false_eq_true, if_false] at h ⊢
    omega
  · simp only [hv ha, ha, Option.isSome_none, Bool.false_or, Bool.toNat_true, Bool.toNat_false,
      if_true] at h ⊢
    omega

end Gathered.Fits

/-- A gathering that met no new fault read declarations, at most one more version than none
read so far. -/
theorem gather_sound {eof : Pos} {prev : Option Token} {ts : List Token} {g g' : Gathered}
    {σ : Array Event} (h : ((gather eof prev ts g).run σ).1 = .ok g')
    (hf : g'.faults.size ≤ g.faults.size) :
    ∃ ds : List (List Token), ds.flatten = ts ∧ (∀ d ∈ ds, Decl d) ∧ g.Fits ds := by
  fun_induction gather eof prev ts g generalizing σ with
  | case1 prev g =>
    exact ⟨[], rfl, by simp, by simp [Gathered.Fits, Bool.toNat_le]⟩
  | case2 prev g t r d hd _ ih =>
    obtain ⟨us, hus, hdecl, hv, hadd⟩ := Read.readDeclaration_consumed hd
    obtain ⟨ds, hds, hall, hfits⟩ := ih h (by rwa [Gathered.faults_add])
    refine ⟨(t :: us) :: ds, by simp [hds, hus], List.forall_mem_cons.mpr ⟨hdecl, hall⟩,
      .cons hv hadd hfits⟩
  | case3 => simp at h
  | case4 prev g t r a hd =>
    -- a declaration that breaks leaves a fault, which no later step removes
    have hle : g.faults.size + 1 ≤ g'.faults.size := by
      simp only [note, StateT.run_bind, StateT.run_modify, pure_bind] at h
      split at h
      · simpa using gather_faults_le h
      · simp at h
    omega

/-- Declarations followed by nothing, with at most one version beside the one read so far, are
gathered without a fault, or a signal stops the gathering. -/
theorem gather_complete {eof : Pos} {ds : List (List Token)} (hds : ∀ d ∈ ds, Decl d) :
    ∀ {prev : Option Token} {g g' : Gathered} {σ : Array Event}, g.Fits ds →
      ((gather eof prev ds.flatten g).run σ).1 = .ok g' → g'.faults = g.faults := by
  induction ds with
  | nil =>
    intro prev g g' σ _ h
    rw [List.flatten_nil, gather] at h
    cases h
    rfl
  | cons d ds ih =>
    intro prev g g' σ hfits h
    obtain ⟨hlead, hne⟩ := (hds d (.head _)).leads
    obtain ⟨t, us, rfl⟩ := List.exists_cons_of_ne_nil hne
    -- the next declaration, or nothing, follows this one
    have hnext : Leads topLevel ds.flatten := by
      simpa using Leads.flatten_append (fun d hd => (hds d (.tail _ hd)).leads) Leads.nil
    rw [List.flatten_cons, List.cons_append, gather] at h
    rcases @readDeclaration_settles eof _ t us g (hds _ (.head _)) hnext hfits.version_none with
      ⟨p, hp, hadd, hpr⟩ | ⟨s, hs⟩
    · simp only [hp] at h
      rw [hpr] at h
      rw [← Gathered.faults_add g p.value]
      exact ih (fun d hd => hds d (.tail _ hd)) (hfits.tail hadd) h
    · simp only [hs, StateT.run_pure] at h
      cases h

/-- A reading of a text that ended gathered its tokens; it has a schedule exactly when neither
the characters nor the declarations had a fault. -/
theorem Schedule.parse_ok {text : List CodePoint} {r : ParseResult}
    (h : (Schedule.parse text).run'.1 = .ok r) :
    ∃ g σ,
      (gather (tokenize text).finish none (tokenize text).tokens {}).run #[] = (.ok g, σ) ∧
      (r.schedule.isSome ↔ (tokenize text).errors = [] ∧ g.faults.size = 0) := by
  unfold Schedule.parse Traced.run' at h
  rw [Traced.run_bind] at h
  rcases hg : (gather (tokenize text).finish none (tokenize text).tokens {}).run #[] with
    ⟨res, σ⟩
  rw [hg] at h
  cases res with
  | error e => simp at h
  | ok g =>
    dsimp only at h
    have hfaults : g.faults.size = 0 ↔ g.faults.toList = [] := by
      rw [← Array.length_toList, List.length_eq_zero_iff]
    refine ⟨g, σ, rfl, ?_⟩
    split at h
    · rename_i hempty
      rw [Traced.run_note, Traced.run_pure, Except.ok.injEq] at h
      subst h
      simp only [List.isEmpty_iff, List.append_eq_nil_iff, List.map_eq_nil_iff] at hempty
      simp [hempty.1, hfaults.mpr hempty.2]
    · -- a text with faults gives no schedule
      rename_i hfault
      rw [Traced.run_note, Traced.run_pure, Except.ok.injEq] at h
      subst h
      simp only [List.isEmpty_iff, List.append_eq_nil_iff, List.map_eq_nil_iff] at hfault
      simpa [hfaults] using hfault

/-- The readers accept exactly the sentences of their grammars. A text without lexical faults
whose reading as a script ends has a schedule exactly when its tokens are a script: its
declarations, each of the grammar of its keyword with the conditions of its kind, and at most
one version. Read as one expression, it succeeds exactly when its tokens are one expression,
with the expression of the derivation. -/
theorem parsers_accept_grammars {text : List CodePoint} (hlex : (tokenize text).errors = []) :
    (∀ r : ParseResult, (Schedule.parse text).run'.1 = .ok r →
      (r.schedule.isSome ↔ Script (tokenize text).tokens)) ∧
    ∀ e : Expr, Expr.parse text = .ok e ↔ Phrase 1 (tokenize text).tokens e := by
  refine ⟨fun r h => ?_, Expr.parse_eq_ok_iff hlex⟩
  obtain ⟨g, σ, hg, hiff⟩ := Schedule.parse_ok h
  have hrun : ((gather (tokenize text).finish none (tokenize text).tokens {}).run #[]).1 = .ok g :=
    by rw [hg]
  rw [hiff, and_iff_right hlex]
  constructor
  · -- a gathering without a fault read a script
    intro hf
    obtain ⟨ds, hds, hall, hfits⟩ := gather_sound hrun (by simp [hf])
    exact ⟨ds, hds, hall, by simpa [Gathered.Fits] using hfits⟩
  · -- a script is gathered without a fault
    rintro ⟨ds, hds, hall, hcount⟩
    rw [← hds] at hrun
    have hfits : Gathered.Fits {} ds := by simpa [Gathered.Fits] using hcount
    simp [gather_complete hall hfits hrun]

/-- A script with an input and a fee, and an expression over that input, are sentences of
their grammars, as the readers find by running. -/
theorem fee_script_and_expression_in_grammar :
    (tokenize (CodePoint.ofString
        "INPUT n NUMBER 'n' BETWEEN 1 AND 3 ENDINPUT\nFEE f YIELD n * 2 ENDFEE")).errors = [] ∧
      Script (tokenize (CodePoint.ofString
        "INPUT n NUMBER 'n' BETWEEN 1 AND 3 ENDINPUT\nFEE f YIELD n * 2 ENDFEE")).tokens ∧
      (tokenize (CodePoint.ofString "n * 2 + 1")).errors = [] ∧
      ∃ e, Phrase 1 (tokenize (CodePoint.ofString "n * 2 + 1")).tokens e := by
  have hscript : (tokenize (CodePoint.ofString
      "INPUT n NUMBER 'n' BETWEEN 1 AND 3 ENDINPUT\nFEE f YIELD n * 2 ENDFEE")).errors = [] := by
    decide +kernel
  have hexpr : (tokenize (CodePoint.ofString "n * 2 + 1")).errors = [] := by decide +kernel
  -- the script is read into a schedule, and the expression into an expression
  have hread : ((Schedule.parse (CodePoint.ofString
      "INPUT n NUMBER 'n' BETWEEN 1 AND 3 ENDINPUT\nFEE f YIELD n * 2 ENDFEE")).run'.1.toOption.bind
        ParseResult.schedule).isSome := by
    decide +kernel
  have hparsed : (Expr.parse (CodePoint.ofString "n * 2 + 1")).toOption.isSome := by decide +kernel
  refine ⟨hscript, ?_, hexpr, ?_⟩
  · cases hr : (Schedule.parse (CodePoint.ofString
        "INPUT n NUMBER 'n' BETWEEN 1 AND 3 ENDINPUT\nFEE f YIELD n * 2 ENDFEE")).run'.1 with
    | error h => simp [hr, Except.toOption] at hread
    | ok r =>
      rw [hr] at hread
      exact ((parsers_accept_grammars hscript).1 r hr).mp (by simpa [Except.toOption] using hread)
  · cases he : Expr.parse (CodePoint.ofString "n * 2 + 1") with
    | error err => simp [he, Except.toOption] at hparsed
    | ok e => exact ⟨e, ((parsers_accept_grammars hexpr).2 e).mp he⟩

end FeeSchedule
