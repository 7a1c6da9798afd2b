import FeeSchedule.Proofs.Syntax.Script

/-!
# `FeeSchedule.Proofs.Syntax.Declarations`: what a declaration reader reads is a declaration

For each reader of a declaration, after its keyword, a reading that succeeded consumed the rest
of a declaration of `Grammar.Decl` (`Read.version_consumed`, ..., `Read.declaration_consumed`),
taken apart with the lemmas of `Reader.EndsAs`. `Read.readDeclaration_consumed` adds what a
script requires of its versions: a `VERSION` is read only while none was.

The loops of inputs and fees (`Read.clauses`, `Read.feeOptions`, `Read.feeBody`,
`Read.moreSymbols`) are proved by their own recursion, each reading one phrase and going on.
An input also keeps track of what its clauses provided (`Read.InputDraft.Met`):
`Read.finishInput` refuses a number or date input without a range and an amount without a
currency, which is `Grammar.Required`. The converse, that every declaration is read, is
`FeeSchedule.Proofs.Syntax.Acceptance`.
-/

set_option autoImplicit false

namespace FeeSchedule

theorem Gathered.version_add_of_ne {g : Gathered} {d : Declaration} (h : ∀ v, d ≠ .version v) :
    (g.add d).version = g.version := by
  cases d <;> simp_all [Gathered.add]

namespace Read

open Grammar Reader

variable {eof : Pos} {ts : List Token}

/-! ### Soundness -/

theorem version_consumed {p : Parsed ts Version} (h : version.run eof ts = .ok p) :
    ∃ us, us ++ p.rest = ts ∧ ∀ v : Token, v.isKeyword "VERSION" → Decl (v :: us) := by
  obtain ⟨s, r, rfl, hs, h₁⟩ := (EndsAs.of_eq_ok h).string
  have h₂ := h₁.peek
  cases r with
  | nil =>
    obtain ⟨-, hr⟩ := h₂.pure
    exact ⟨[s], by simp [hr], fun v hv => .version hv hs⟩
  | cons l r =>
    by_cases hl : l.kind = .string
    · simp only [List.head?_cons, hl, if_true] at h₂
      obtain ⟨-, hr⟩ := h₂.advance.pure
      exact ⟨[s, l], by simp [hr], fun v hv => .versionLabelled hv hs hl⟩
    · simp only [List.head?_cons, hl, if_false] at h₂
      obtain ⟨-, hr⟩ := h₂.pure
      exact ⟨[s], by simp [hr], fun v hv => .version hv hs⟩

theorem group_consumed {p : Parsed ts Group} (h : group.run eof ts = .ok p) :
    ∃ us, us ++ p.rest = ts ∧ ∀ g : Token, g.isKeyword "GROUP" → Decl (g :: us) := by
  obtain ⟨n, r₁, rfl, hn, h₁⟩ := (EndsAs.of_eq_ok h).ident
  obtain ⟨a, r₂, rfl, ha, h₂⟩ := h₁.keyword
  obtain ⟨s, r₃, rfl, hs, h₃⟩ := h₂.string
  rcases h₃.keyword? with ⟨w, r₄, rfl, hw, h₄⟩ | ⟨-, h₄⟩
  · obtain ⟨us, r₅, v, rfl, hus, h₅⟩ := h₄.signedNumber
    obtain ⟨-, hr⟩ := h₅.pure
    exact ⟨n :: a :: s :: w :: us, by simp [hr], fun g hg => .groupWeighted hg hn ha hs hw hus⟩
  · obtain ⟨-, hr⟩ := h₄.pure
    exact ⟨[n, a, s], by simp [hr], fun g hg => .group hg hn ha hs⟩

theorem ret_consumed {p : Parsed ts Return} (h : ret.run eof ts = .ok p) :
    ∃ us, us ++ p.rest = ts ∧ ∀ r : Token, r.isKeyword "RETURN" → Decl (r :: us) := by
  obtain ⟨n, r₁, rfl, hn, h₁⟩ := (EndsAs.of_eq_ok h).ident
  obtain ⟨a, r₂, rfl, ha, h₂⟩ := h₁.keyword
  obtain ⟨s, r₃, rfl, hs, h₃⟩ := h₂.string
  rcases h₃.keyword? with ⟨i, r₄, rfl, hi, h₄⟩ | ⟨-, h₄⟩
  · obtain ⟨us, r₅, e, rfl, he, h₅⟩ := h₄.expr
    obtain ⟨-, hr⟩ := h₅.pure
    exact ⟨n :: a :: s :: i :: us, by simp [hr],
      fun r hr => .retConditional hr hn ha hs hi ⟨e, he⟩⟩
  · obtain ⟨-, hr⟩ := h₄.pure
    exact ⟨[n, a, s], by simp [hr], fun r hr => .ret hr hn ha hs⟩

theorem directive_consumed {p : Parsed ts Directive} (h : directive.run eof ts = .ok p) :
    ∃ us, us ++ p.rest = ts ∧ ∀ v : Token, v.isKeyword "VERIFY" → Decl (v :: us) := by
  rcases (EndsAs.of_eq_ok h).keyword? with ⟨c, r₁, rfl, hc, h₁⟩ | ⟨-, h₁⟩
  · obtain ⟨f, r₂, rfl, hf, h₂⟩ := h₁.keyword
    obtain ⟨n, r₃, rfl, hn, h₃⟩ := h₂.ident
    obtain ⟨-, hr⟩ := h₃.pure
    exact ⟨[c, f, n], by simp [hr], fun v hv => .complete hv hc hf hn⟩
  rcases h₁.keyword? with ⟨m, r₁, rfl, hm, h₂⟩ | ⟨-, h₂⟩
  · obtain ⟨f, r₂, rfl, hf, h₃⟩ := h₂.keyword
    obtain ⟨n, r₃, rfl, hn, h₄⟩ := h₃.ident
    obtain ⟨w, r₄, rfl, hw, h₅⟩ := h₄.keyword
    obtain ⟨re, r₅, rfl, hre, h₆⟩ := h₅.keyword
    obtain ⟨t, r₆, rfl, ht, h₇⟩ := h₆.keyword
    obtain ⟨x, r₇, rfl, hx, h₈⟩ := h₇.ident
    rcases h₈.keyword? with ⟨d, r₈, rfl, hd, h₉⟩ | ⟨-, h₉⟩
    · obtain ⟨-, hr⟩ := h₉.pure
      exact ⟨[m, f, n, w, re, t, x, d], by simp [hr],
        fun v hv => .monotonic hv hm hf hn hw hre ht hx (.inl hd)⟩
    rcases h₉.keyword? with ⟨d, r₈, rfl, hd, h₁₀⟩ | ⟨-, h₁₀⟩
    · obtain ⟨-, hr⟩ := h₁₀.pure
      exact ⟨[m, f, n, w, re, t, x, d], by simp [hr],
        fun v hv => .monotonic hv hm hf hn hw hre ht hx (.inr hd)⟩
    · exact h₁₀.expected.elim
  · exact h₂.expected.elim

theorem kindOf?_eq_some_iff {t : Token} {k : InputKind} :
    kindOf? t = some k ↔ t.isKeyword k.keyword := by
  unfold kindOf?
  constructor
  · intro h
    split at h
    · rename_i hk
      have := List.find?_some h
      simp only [beq_iff_eq] at this
      simp [Token.isKeyword, hk, this]
    · cases h
  · intro h
    simp only [Token.isKeyword, Bool.and_eq_true, beq_iff_eq] at h
    rw [if_pos h.1, h.2]
    cases k <;> rfl

/-- The draft of an input of kind `k` has what the kind requires: a range for a number or a
date, a currency for an amount. -/
def InputDraft.Met (k : InputKind) (d : InputDraft) : Prop :=
  (k = .number → d.numberBounds.isSome) ∧ (k = .date → d.dateBounds.isSome) ∧
    (k = .amount → d.currency.isSome)

theorem required_cons {k : InputKind} {c : List Token} {cs : List (List Token)} :
    Required k (c :: cs) ↔ Required k [c] ∨ Required k cs := by
  simp only [Required, Opens, List.mem_cons, List.not_mem_nil, or_false, exists_eq_or_imp,
    exists_eq_left]
  cases k <;> simp

theorem moreSymbols_consumed {ts : List Token} {p : Parsed ts (List String)}
    (h : moreSymbols eof ts = .ok p) :
    ∃ more : List (Token × Token), (more.flatMap fun c => [c.1, c.2]) ++ p.rest = ts ∧
      ∀ c ∈ more, c.1.isSymbol "," ∧ c.2.kind = .identifier := by
  rw [moreSymbols.eq_def] at h
  split at h
  · rename_i t r
    split at h
    · rename_i hc
      split at h
      · cases h
      · rename_i s hs
        have := s.le
        split at h
        · cases h
        · rename_i m hm
          cases h
          obtain ⟨n, hr, hn, -⟩ := ident_eq_ok hs
          obtain ⟨more, hmore, hall⟩ := moreSymbols_consumed hm
          refine ⟨(t, n) :: more, by simp [hmore, hr], ?_⟩
          simpa [hc, hn] using hall
    · cases h
      exact ⟨[], rfl, by simp⟩
  · cases h
    exact ⟨[], rfl, by simp⟩
termination_by ts.length
decreasing_by all_goals (subst_vars; simp only [List.length_cons]; omega)

/-- A default: the value of the kind; the range and the currency of the draft stay. -/
theorem defaultClause_consumed {kind : InputKind} {d : InputDraft} {p : Parsed ts InputDraft}
    (h : (defaultClause kind d).run eof ts = .ok p) :
    ∃ us, us ++ p.rest = ts ∧ DefaultValue kind us ∧ (p.value.Met kind ↔ d.Met kind) := by
  have hend := EndsAs.of_eq_ok h
  cases kind with
  | number | amount =>
    obtain ⟨us, r, v, rfl, hus, h₁⟩ := hend.signedNumber
    obtain ⟨hv, hr⟩ := h₁.pure
    first
      | exact ⟨us, by simp [hr], .number hus, by rw [hv]; rfl⟩
      | exact ⟨us, by simp [hr], .amount hus, by rw [hv]; rfl⟩
  | date =>
    obtain ⟨t, r, v, rfl, ht, h₁⟩ := hend.date
    obtain ⟨hv, hr⟩ := h₁.pure
    exact ⟨[t], by simp [hr], .date ht, by rw [hv]; rfl⟩
  | boolean =>
    rcases hend.keyword? with ⟨t, r, rfl, ht, h₁⟩ | ⟨-, h₁⟩
    · obtain ⟨hv, hr⟩ := h₁.pure
      exact ⟨[t], by simp [hr], .flag true ht, by rw [hv]; rfl⟩
    rcases h₁.keyword? with ⟨t, r, rfl, ht, h₂⟩ | ⟨-, h₂⟩
    · obtain ⟨hv, hr⟩ := h₂.pure
      exact ⟨[t], by simp [hr], .flag false ht, by rw [hv]; rfl⟩
    · exact h₂.expected.elim
  | list =>
    obtain ⟨t, r, rfl, ht, h₁⟩ := hend.ident
    obtain ⟨hv, hr⟩ := h₁.pure
    exact ⟨[t], by simp [hr], .symbol ht, by rw [hv]; rfl⟩
  | multilist =>
    obtain ⟨t, r, rfl, ht, h₁⟩ := hend.ident
    obtain ⟨a, ha, h₂⟩ := h₁.bind
    obtain ⟨more, hmore, hall⟩ := moreSymbols_consumed ha
    obtain ⟨hv, hr⟩ := h₂.pure
    exact ⟨t :: more.flatMap fun c => [c.1, c.2], by simp [hr, hmore], .symbols ht hall,
      by rw [hv]; rfl⟩

/-- A clause opened by the keyword `t`: one the kind takes. What the kind requires it sets only
when it is one: a range after `BETWEEN`, a currency after `CURRENCY`. -/
theorem clause_consumed {kind : InputKind} {t : Token} {d : InputDraft} {r : List Token}
    (ht : t.kind = .keyword ∧ clauseKeywords.contains t.value) {p : Parsed r InputDraft}
    (h : (clause kind t d).run eof r = .ok p) :
    ∃ us, us ++ p.rest = r ∧ Clause kind (t :: us) ∧
      (p.value.Met kind → d.Met kind ∨ Required kind [t :: us]) := by
  have hend := EndsAs.of_eq_ok h
  -- `Required` of a single clause opened by `t`
  have hopens : ∀ w us, t.isKeyword w → Opens w [t :: us] := fun w us hw =>
    ⟨t :: us, List.mem_singleton_self _, t, rfl, hw⟩
  unfold clause at hend
  split at hend
  · rename_i hb
    cases kind with
    | number =>
      obtain ⟨lo, r₁, v, rfl, hlo, h₁⟩ := hend.signedNumber
      obtain ⟨a, r₂, rfl, ha, h₂⟩ := h₁.keyword
      obtain ⟨hi, r₃, w, rfl, hhi, h₃⟩ := h₂.signedNumber
      obtain ⟨-, hr⟩ := h₃.pure
      exact ⟨lo ++ a :: hi, by simp [hr], by simpa using Clause.numberRange hb hlo ha hhi,
        fun _ => .inr ⟨fun _ => hopens _ _ hb, fun h => by cases h⟩⟩
    | date =>
      obtain ⟨l, r₁, v, rfl, hl, h₁⟩ := hend.date
      obtain ⟨a, r₂, rfl, ha, h₂⟩ := h₁.keyword
      obtain ⟨hi, r₃, w, rfl, hhi, h₃⟩ := h₂.date
      obtain ⟨-, hr⟩ := h₃.pure
      exact ⟨[l, a, hi], by simp [hr], .dateRange hb hl ha hhi,
        fun _ => .inr ⟨fun _ => hopens _ _ hb, fun h => by cases h⟩⟩
    | _ => exact hend.abortAt.elim
  rename_i hb
  split at hend
  · rename_i hc
    split at hend
    · rename_i hk
      obtain ⟨n, r₁, rfl, hn, h₁⟩ := hend.ident
      obtain ⟨a, r₂, rfl, ha, h₂⟩ := h₁.keyword
      obtain ⟨s, r₃, rfl, hs, h₃⟩ := h₂.string
      obtain ⟨hv, hr⟩ := h₃.pure
      exact ⟨[n, a, s], by simp [hr], .choice hk hc hn ha hs,
        fun hm => .inl (by rw [hv] at hm; exact hm)⟩
    · exact hend.abortAt.elim
  rename_i hc
  split at hend
  · rename_i hd
    obtain ⟨q, hq, hqv, hqr⟩ := hend
    obtain ⟨us, hus, hv, hmet⟩ := defaultClause_consumed hq
    exact ⟨us, by rw [← hqr, hus], .default hd hv, fun hm => .inl (hmet.mp (hqv ▸ hm))⟩
  rename_i hd
  split at hend
  · rename_i hcur
    split at hend
    · rename_i hk
      subst hk
      obtain ⟨n, r₁, rfl, hn, h₁⟩ := hend.ident
      obtain ⟨-, hr⟩ := h₁.pure
      exact ⟨[n], by simp [hr], .currency hcur hn,
        fun _ => .inr ⟨(by rintro (h | h) <;> cases h), fun _ => hopens _ _ hcur⟩⟩
    · exact hend.abortAt.elim
  rename_i hcur
  -- the one clause keyword left is `GROUP`
  have hg : t.isKeyword "GROUP" := by
    obtain ⟨hk, hmem⟩ := ht
    simp only [Token.isKeyword, hk, beq_self_eq_true, Bool.true_and, beq_iff_eq]
      at hb hc hd hcur ⊢
    simp only [clauseKeywords, List.contains_cons, List.contains_nil, Bool.or_false,
      Bool.or_eq_true, beq_iff_eq] at hmem
    rcases hmem with h | h | h | h | h <;> simp_all
  obtain ⟨n, r₁, rfl, hn, h₁⟩ := hend.ident
  obtain ⟨hv, hr⟩ := h₁.pure
  exact ⟨[n], by simp [hr], .group hg hn, fun hm => .inl (by rw [hv] at hm; exact hm)⟩

/-- If a kind requires nothing of an empty draft, any clauses are enough. -/
theorem required_of_met_empty {k : InputKind} (h : InputDraft.Met k {}) (cs : List (List Token)) :
    Required k cs := by
  obtain ⟨hn, hd, ha⟩ := h
  refine ⟨fun hk => ?_, fun hk => ?_⟩
  · rcases hk with rfl | rfl
    · exact absurd (hn rfl) (by decide)
    · exact absurd (hd rfl) (by decide)
  · exact absurd (ha hk) (by decide)

/-- The clauses of an input, up to what is not a clause keyword. -/
theorem clauses_consumed {kind : InputKind} {ts : List Token} {d : InputDraft}
    {p : Parsed ts InputDraft} (h : clauses kind eof ts d = .ok p) :
    ∃ cs : List (List Token), cs.flatten ++ p.rest = ts ∧ (∀ c ∈ cs, Clause kind c) ∧
      (p.value.Met kind → d.Met kind ∨ Required kind cs) := by
  rw [clauses.eq_def] at h
  split at h
  · rename_i t r
    split at h
    · cases h
      exact ⟨[], rfl, by simp, .inl⟩
    split at h
    · rename_i hkw
      split at h
      · cases h
      · rename_i c hc
        have := c.le
        split at h
        · cases h
        · rename_i m hm
          cases h
          obtain ⟨us, hus, hclause, hmet⟩ := clause_consumed hkw hc
          obtain ⟨cs, hcs, hall, hmet'⟩ := clauses_consumed hm
          refine ⟨(t :: us) :: cs, by simp [hcs, hus], ?_, fun hfin => ?_⟩
          · simpa [hclause] using hall
          · rcases hmet' hfin with h₁ | h₁
            · rcases hmet h₁ with h₂ | h₂
              · exact .inl h₂
              · exact .inr (required_cons.mpr (.inl h₂))
            · exact .inr (required_cons.mpr (.inr h₁))
    · cases h
  · cases h
termination_by ts.length
decreasing_by all_goals (subst_vars; simp only [List.length_cons]; omega)

/-- Finishing an input succeeds only with what its kind requires, and reads nothing. -/
theorem finishInput_met {start : Pos} {name text : String} {kind : InputKind} {d : InputDraft}
    {p : Parsed ts Input} (h : (finishInput start name text kind d).run eof ts = .ok p) :
    d.Met kind ∧ p.rest = ts := by
  cases kind <;> simp only [finishInput] at h
  case number =>
    split at h
    · rename_i hb
      exact ⟨⟨fun _ => by simp [hb], nofun, nofun⟩, (pure_eq_ok h).2⟩
    · cases h
  case date =>
    split at h
    · rename_i hb
      exact ⟨⟨nofun, fun _ => by simp [hb], nofun⟩, (pure_eq_ok h).2⟩
    · cases h
  case amount =>
    split at h
    · rename_i hb
      exact ⟨⟨nofun, nofun, fun _ => by simp [hb]⟩, (pure_eq_ok h).2⟩
    · cases h
  all_goals exact ⟨⟨nofun, nofun, nofun⟩, (pure_eq_ok h).2⟩

theorem input_consumed {start : Pos} {p : Parsed ts Input} (h : (input start).run eof ts = .ok p) :
    ∃ us, us ++ p.rest = ts ∧ ∀ i : Token, i.isKeyword "INPUT" → Decl (i :: us) := by
  obtain ⟨n, r₁, rfl, hn, h₁⟩ := (EndsAs.of_eq_ok h).ident
  -- the kind is named by the keyword after the name; anything else is refused
  have h₂ := h₁.peek
  cases r₁ with
  | nil =>
    dsimp only [List.head?_nil] at h₂
    obtain ⟨a, ha, -⟩ := h₂.bind
    exact (EndsAs.of_eq_ok ha).expected.elim
  | cons k r₂ =>
    dsimp only [List.head?_cons] at h₂
    split at h₂
    · rename_i kind hkind
      obtain ⟨a, ha, h₃⟩ := h₂.advance.bind
      obtain ⟨hv, hr⟩ := pure_eq_ok ha
      rw [hv, hr] at h₃
      obtain ⟨s, r₃, rfl, hs, h₄⟩ := h₃.string
      obtain ⟨c, hc, h₅⟩ := h₄.bind
      obtain ⟨cs, hcs, hall, hmet⟩ := clauses_consumed (d := {}) hc
      obtain ⟨e, r₄, hr₄, he, h₆⟩ := h₅.keyword
      obtain ⟨q, hq, -, hqr⟩ := h₆
      obtain ⟨hfin, hr'⟩ := finishInput_met hq
      -- what the kind requires was met, and not by the empty draft unless it requires nothing
      have hreq : Required kind cs := by
        rcases hmet hfin with h₀ | h₀
        · exact required_of_met_empty h₀ cs
        · exact h₀
      refine ⟨n :: k :: s :: cs.flatten ++ [e], ?_,
        fun i hi => .input hi hn (kindOf?_eq_some_iff.mp hkind) hs hall hreq he⟩
      rw [← hqr, hr', ← hcs, hr₄]
      simp
    · obtain ⟨a, ha, -⟩ := h₂.bind
      exact (EndsAs.of_eq_ok ha).expected.elim

theorem feeOptions_consumed {ts : List Token} {opt : Bool} {cur : Option String}
    {p : Parsed ts (Bool × Option String)} (h : feeOptions eof ts opt cur = .ok p) :
    ∃ os : List (List Token), os.flatten ++ p.rest = ts ∧ ∀ o ∈ os, FeeOption o := by
  rw [feeOptions.eq_def] at h
  split at h
  · rename_i t r
    split at h
    · rename_i ho
      split at h
      · cases h
      · rename_i m hm
        cases h
        obtain ⟨os, hos, hall⟩ := feeOptions_consumed hm
        exact ⟨[t] :: os, by simp [hos], by simpa [FeeOption.optional ho] using hall⟩
    split at h
    · rename_i hc
      split at h
      · cases h
      · rename_i c hcur
        have := c.le
        split at h
        · cases h
        · rename_i m hm
          cases h
          obtain ⟨n, hr, hn, -⟩ := ident_eq_ok hcur
          obtain ⟨os, hos, hall⟩ := feeOptions_consumed hm
          exact ⟨[t, n] :: os, by simp [hos, hr],
            by simpa [FeeOption.currency hc hn] using hall⟩
    · cases h
      exact ⟨[], rfl, by simp⟩
  · cases h
    exact ⟨[], rfl, by simp⟩
termination_by ts.length
decreasing_by all_goals (subst_vars; simp only [List.length_cons]; omega)

/-- The body of a fee read up to `ENDFEE`: its variables, then its cases. A variable after a
case is refused, so once a case was read no variable follows. -/
theorem feeBody_consumed {ts : List Token} {vars : Array LetVar} {cases : Array Case}
    {p : Parsed ts (Array LetVar × Array Case)} (h : feeBody eof ts vars cases = .ok p) :
    ∃ ls ys : List (List Token), ls.flatten ++ ys.flatten ++ p.rest = ts ∧
      (∀ l ∈ ls, LetPhrase l) ∧ (∀ y ∈ ys, YieldPhrase y) ∧
      (cases.isEmpty = false → ls = []) := by
  rw [feeBody.eq_def] at h
  split at h
  · rename_i t r
    split at h
    · cases h
      exact ⟨[], [], rfl, by simp, by simp, fun _ => rfl⟩
    split at h
    · rename_i hl
      split at h
      · cases h
      rename_i hempty
      dsimp only at h
      split at h
      · cases h
      rename_i v hv
      have := v.le
      split at h
      · cases h
      rename_i m hm
      cases h
      -- `LET name AS expr`
      obtain ⟨n, r₁, rfl, hn, h₁⟩ := (EndsAs.of_eq_ok hv).ident
      obtain ⟨a, r₂, rfl, ha, h₂⟩ := h₁.keyword
      obtain ⟨us, r₃, e, rfl, he, h₃⟩ := h₂.expr
      obtain ⟨-, hr⟩ := h₃.pure
      obtain ⟨ls, ys, hts, hls, hys, -⟩ := feeBody_consumed hm
      have hts' : ls.flatten ++ (ys.flatten ++ m.rest) = r₃ := by
        rw [← List.append_assoc, hts, hr]
      refine ⟨(t :: n :: a :: us) :: ls, ys, by simp [hts'],
        List.forall_mem_cons.mpr ⟨.mk hl hn ha ⟨e, he⟩, hls⟩, hys, fun hc => ?_⟩
      simp_all
    split at h
    · rename_i hy
      dsimp only at h
      split at h
      · cases h
      rename_i c hc
      have := c.le
      split at h
      · cases h
      rename_i m hm
      cases h
      -- a case was read: the rest of the body has no variable
      obtain ⟨ls, ys, hts, -, hys, hnone⟩ := feeBody_consumed hm
      obtain rfl : ls = [] := hnone (by simp)
      -- `YIELD expr [IF expr]`
      obtain ⟨us, r₁, e, rfl, he, h₁⟩ := (EndsAs.of_eq_ok hc).expr
      rcases h₁.keyword? with ⟨i, r₂, rfl, hi, h₂⟩ | ⟨-, h₂⟩
      · obtain ⟨vs, r₃, e', rfl, he', h₃⟩ := h₂.expr
        obtain ⟨-, hr⟩ := h₃.pure
        have hts' : ys.flatten ++ m.rest = r₃ := by simpa [hr] using hts
        exact ⟨[], (t :: us ++ i :: vs) :: ys, by simp [hts'], by simp,
          List.forall_mem_cons.mpr ⟨.conditional hy ⟨e, he⟩ hi ⟨e', he'⟩, hys⟩,
          fun _ => rfl⟩
      · obtain ⟨-, hr⟩ := h₂.pure
        have hts' : ys.flatten ++ m.rest = r₁ := by simpa [hr] using hts
        exact ⟨[], (t :: us) :: ys, by simp [hts'], by simp,
          List.forall_mem_cons.mpr ⟨.always hy ⟨e, he⟩, hys⟩, fun _ => rfl⟩
    · cases h
  · cases h
termination_by ts.length
decreasing_by all_goals (subst_vars; simp only [List.length_cons] at *; omega)

theorem fee_consumed {p : Parsed ts Fee} (h : fee.run eof ts = .ok p) :
    ∃ us, us ++ p.rest = ts ∧ ∀ f : Token, f.isKeyword "FEE" → Decl (f :: us) := by
  obtain ⟨n, r₁, rfl, hn, h₁⟩ := (EndsAs.of_eq_ok h).ident
  obtain ⟨a, ha, h₂⟩ := h₁.bind
  obtain ⟨os, hos, hopts⟩ := feeOptions_consumed ha
  obtain ⟨b, hb, h₃⟩ := h₂.bind
  obtain ⟨ls, ys, hbody, hls, hys, -⟩ := feeBody_consumed hb
  obtain ⟨e, r₄, hr₄, he, h₄⟩ := h₃.keyword
  obtain ⟨-, hr⟩ := h₄.pure
  refine ⟨n :: os.flatten ++ ls.flatten ++ ys.flatten ++ [e], ?_,
    fun f hf => .fee hf hn hopts hls hys he⟩
  rw [hr, ← hos, ← hbody, hr₄]
  simp

/-- A reading of a declaration after a top-level keyword consumed the rest of a declaration,
and gave a version exactly when the keyword is `VERSION`. -/
theorem declaration_consumed {t : Token} (ht : t.kind = .keyword ∧ topLevel.contains t.value)
    {p : Parsed ts Declaration} (h : (declaration t).run eof ts = .ok p) :
    ∃ us, us ++ p.rest = ts ∧ Decl (t :: us) ∧
      ((∃ v, p.value = .version v) ↔ t.isKeyword "VERSION") := by
  unfold declaration at h
  split at h
  · rename_i hv
    obtain ⟨a, ha, hval, hr⟩ := (EndsAs.of_eq_ok h).map
    obtain ⟨us, hus, hd⟩ := version_consumed ha
    exact ⟨us, hr ▸ hus, hd t hv, by simp [hval, hv]⟩
  rename_i hv
  -- every other declaration is not a version
  have hnv (p : Parsed ts Declaration) (hp : ∀ v, p.value ≠ .version v) :
      (∃ v, p.value = .version v) ↔ t.isKeyword "VERSION" := by simp_all
  split at h
  · rename_i hg
    obtain ⟨a, ha, hval, hr⟩ := (EndsAs.of_eq_ok h).map
    obtain ⟨us, hus, hd⟩ := group_consumed ha
    exact ⟨us, hr ▸ hus, hd t hg, hnv p (by simp [hval])⟩
  split at h
  · rename_i hi
    obtain ⟨a, ha, hval, hr⟩ := (EndsAs.of_eq_ok h).map
    obtain ⟨us, hus, hd⟩ := input_consumed ha
    exact ⟨us, hr ▸ hus, hd t hi, hnv p (by simp [hval])⟩
  split at h
  · rename_i hf
    obtain ⟨a, ha, hval, hr⟩ := (EndsAs.of_eq_ok h).map
    obtain ⟨us, hus, hd⟩ := fee_consumed ha
    exact ⟨us, hr ▸ hus, hd t hf, hnv p (by simp [hval])⟩
  split at h
  · rename_i hr'
    obtain ⟨a, ha, hval, hr⟩ := (EndsAs.of_eq_ok h).map
    obtain ⟨us, hus, hd⟩ := ret_consumed ha
    exact ⟨us, hr ▸ hus, hd t hr', hnv p (by simp [hval])⟩
  rename_i hg hi hf hr'
  -- the one top-level keyword left is `VERIFY`
  have hverify : t.isKeyword "VERIFY" := by
    simp_all [Token.isKeyword, topLevel]
  obtain ⟨a, ha, hval, hr⟩ := (EndsAs.of_eq_ok h).map
  obtain ⟨us, hus, hd⟩ := directive_consumed ha
  exact ⟨us, hr ▸ hus, hd t hverify, hnv p (by simp [hval])⟩

/-- A declaration read in a script consumed the rest of a declaration; a version is read only
while none was. -/
theorem readDeclaration_consumed {t : Token} {r : List Token} {g : Gathered}
    {d : Parsed r Declaration} (h : readDeclaration eof t r g = .ok d) :
    ∃ us, us ++ d.rest = r ∧ Decl (t :: us) ∧ (t.isKeyword "VERSION" → g.version = none) ∧
      (g.add d.value).version.isSome = (g.version.isSome || t.isKeyword "VERSION") := by
  unfold readDeclaration at h
  split at h
  · rename_i ht
    split at h
    · cases h
    rename_i d' hd
    obtain ⟨us, hus, hdecl, hver⟩ := declaration_consumed ht hd
    split at h
    · rename_i v hv
      split at h
      · cases h
      rename_i hnone
      cases h
      have ht' : t.isKeyword "VERSION" := hver.mp ⟨v, hv⟩
      exact ⟨us, hus, hdecl, fun _ => by simpa using hnone, by simp [Gathered.add, hv, ht']⟩
    · rename_i hnv
      cases h
      have ht' : t.isKeyword "VERSION" = false := by
        cases hk : t.isKeyword "VERSION"
        · rfl
        · obtain ⟨v, hv⟩ := hver.mpr hk
          exact (hnv v hv).elim
      exact ⟨us, hus, hdecl, by simp [ht'],
        by simp [Gathered.version_add_of_ne (fun v hv => hnv v hv), ht']⟩
  · cases h

end Read

end FeeSchedule
