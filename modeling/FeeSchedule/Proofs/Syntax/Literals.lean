import FeeSchedule.Proofs.Decimal.Finite
import FeeSchedule.Proofs.Syntax.Grammar
import FeeSchedule.Schedule.Parse

/-!
# `FeeSchedule.Proofs.Syntax.Literals`: the numbers of a schedule are finite

The number literals of a schedule come from number tokens, and a number token is a digit
followed by digits and at most one point: no such text spells an infinity or a NaN. This
module follows the literals from the text to the schedule. The theorems:

* `tokenize_readsFinite`: every number token the lexer makes reads, if at all, as a finite
  number (`Token.ReadsFinite`).
* `Grammar.Phrase.numbersFinite`: a derivation of the expression grammar over such tokens
  builds an expression with only finite literals (`Expr.numbersFinite`), since the one
  production that makes a literal reads it from a number token. What the expression reader
  reads is such a derivation (`ExprParse.orExpr_consumed`), hence
  `ExprParse.orExpr_numbersFinite`.
* `Reader.Keeps` is the same invariant for the readers of declarations, with `bind` and
  `map` for the monad; `Read.fee_keeps` and `Read.ret_keeps` carry it through fees and
  returns, `gather_numbersFinite` through a whole text.
* `Schedule.numbersFinite_resolve`: resolving names turns references into symbols and
  touches no literal.
* `Schedule.parse_numbersFinite`: every schedule that `Schedule.parse` gives has only
  finite number literals.
-/

set_option autoImplicit false

namespace FeeSchedule

mutual

/-- Whether every number written in an expression is finite. -/
def Expr.numbersFinite : Expr → Bool
  | .num d => d.isFinite
  | .unary _ e => e.numbersFinite
  | .binary _ l r => l.numbersFinite && r.numbersFinite
  | .call _ args => Expr.numbersFiniteAll args
  | _ => true

/-- `Expr.numbersFinite` of every expression of a list. -/
def Expr.numbersFiniteAll : List Expr → Bool
  | [] => true
  | e :: es => e.numbersFinite && Expr.numbersFiniteAll es

end

/-- Whether the numbers of a case, its amount and its condition, are finite. -/
def Case.numbersFinite (c : Case) : Bool :=
  c.expr.numbersFinite && c.condition.all Expr.numbersFinite

/-- Whether the numbers of a fee, in its variables and its cases, are finite. -/
def Fee.numbersFinite (f : Fee) : Bool :=
  f.vars.all (·.expr.numbersFinite) && f.cases.all Case.numbersFinite

/-- Whether the numbers of a declaration are finite; only fees and returns hold numbers. -/
def Declaration.numbersFinite : Declaration → Bool
  | .fee f => f.numbersFinite
  | .ret r => r.condition.all Expr.numbersFinite
  | _ => true

/-- Whether every number written in a schedule's fees and returns is finite. -/
def Schedule.numbersFinite (s : Schedule) : Bool :=
  s.fees.all Fee.numbersFinite && s.returns.all (·.condition.all Expr.numbersFinite)

/-! ### Tokens -/

/-- A token whose text, if it is a number, reads as a finite number whenever it reads at all. -/
def Token.ReadsFinite (t : Token) : Prop :=
  t.kind = .number → ∀ d, Decimal.ofText t.value = .ok d → d.isFinite

theorem CodePoint.toList_mend_char {c : Char} {ps : List CodePoint} :
    (CodePoint.mend (.char c :: ps)).toList = c :: ps.map CodePoint.toChar := by
  simp [CodePoint.mend, String.toList_ofList, CodePoint.toChar]

namespace Lexer

/-- One step of the lexer: a token it makes is a number only in the digit branch, after
white space was ruled out. -/
theorem step_readsFinite {c : CodePoint} {r : List CodePoint} {p : Pos} {n : Nat} {t : Token}
    (h : step c r p = (n, some (.inl t))) : t.ReadsFinite := by
  intro hk d hd
  unfold step at h
  split at h
  · cases h
  rename_i hblank
  split at h
  · cases h
  split at h
  · -- a string
    split at h
    split at h
    · cases h
      cases hk
    · cases h
  split at h
  · rename_i hdigit
    cases h
    cases c with
    | surrogate k => cases hdigit
    | char ch =>
      simp only [CodePoint.satisfies, Bool.not_eq_true] at hblank
      exact Decimal.ofText_isFinite_of_lead CodePoint.toList_mend_char hdigit hblank hd
  split at h
  · cases h
    simp only at hk
    split at hk <;> cases hk
  · -- an operator symbol, or a character that starts nothing
    split at h
    · cases h
      cases hk
    · cases h

/-- The run of the lexer: every token it adds comes from one step. -/
theorem scan_readsFinite (cs : List CodePoint) (p : Pos) (toks : List Token)
    (errs : List LexError) (htoks : ∀ t ∈ toks, t.ReadsFinite) :
    ∀ t ∈ (scan cs p toks errs).tokens, t.ReadsFinite := by
  fun_induction scan cs p toks errs with
  | case1 => simpa using htoks
  | case2 p toks errs c r n p' t hstep ih =>
    refine ih fun u hu => ?_
    rcases List.mem_cons.mp hu with rfl | hu
    · exact step_readsFinite hstep
    · exact htoks u hu
  | case3 _ _ _ _ _ _ _ _ _ ih => exact ih htoks
  | case4 _ _ _ _ _ _ _ _ ih => exact ih htoks

end Lexer

/-- Every token of a list reads as a finite number, if it is a number that reads. -/
def ReadFinite (ts : List Token) : Prop := ∀ t ∈ ts, t.ReadsFinite

/-- The lexer makes number tokens only from a digit that is not white space. -/
theorem tokenize_readsFinite (s : List CodePoint) : ReadFinite (tokenize s).tokens :=
  Lexer.scan_readsFinite s _ [] [] (by simp)

namespace ReadFinite

variable {ts : List Token}

theorem suffix {us : List Token} (h : ReadFinite ts) (hs : us <:+ ts) : ReadFinite us :=
  fun u hu => h u (hs.subset hu)

theorem tail {t : Token} {r : List Token} (h : ReadFinite (t :: r)) : ReadFinite r :=
  fun u hu => h u (List.mem_cons_of_mem t hu)

theorem head {t : Token} {r : List Token} (h : ReadFinite (t :: r)) : t.ReadsFinite :=
  h t List.mem_cons_self

/-- What is left after a reading is a suffix of what it was given. -/
theorem rest {α : Type} (h : ReadFinite ts) (p : Parsed ts α) : ReadFinite p.rest :=
  h.suffix p.suffix

theorem append_left {us vs : List Token} (h : ReadFinite (us ++ vs)) : ReadFinite us :=
  fun u hu => h u (List.mem_append_left vs hu)

theorem append_right {us vs : List Token} (h : ReadFinite (us ++ vs)) : ReadFinite vs :=
  fun u hu => h u (List.mem_append_right us hu)

end ReadFinite

/-! ### Expressions -/

theorem Expr.numbersFiniteAll_iff {es : List Expr} :
    Expr.numbersFiniteAll es ↔ ∀ e ∈ es, e.numbersFinite := by
  induction es with
  | nil => simp [Expr.numbersFiniteAll]
  | cons e es ih => simp [Expr.numbersFiniteAll, ih]

namespace Grammar

/-- A derivation from tokens that read finite builds an expression with finite literals: the
one production that makes a literal, `num`, reads it from a token of the phrase. -/
theorem Phrase.numbersFinite {L : Nat} {us : List Token} {e : Expr} (h : Phrase L us e)
    (hus : ReadFinite us) : e.numbersFinite := by
  induction h with
  | or _ _ _ ih₁ ih₂ | and _ _ _ ih₁ ih₂ | comparison _ _ _ ih₁ ih₂ | sum _ _ _ ih₁ ih₂
  | product _ _ _ ih₁ ih₂ =>
    simp only [Expr.numbersFinite, Bool.and_eq_true]
    exact ⟨ih₁ hus.append_left, ih₂ hus.append_right.tail⟩
  | not _ _ ih | neg _ _ ih => exact ih hus.tail
  | num hk hv => exact hus.head hk _ hv
  | bool | date | ref | callEmpty => rfl
  | @call _ _ _ _ first _ more _ _ _ _ _ _ _ ihfirst ihmore =>
    -- the tokens are the name, `(`, the first argument, the later ones and `)`
    have hfirst : ReadFinite first := fun u hu => hus u (by simp [hu])
    have hmore : ReadFinite (LaterArgument.spell more) := fun u hu => hus u (by simp [hu])
    simp only [Expr.numbersFinite, Expr.numbersFiniteAll_iff, List.mem_cons, List.mem_map]
    rintro _ (rfl | ⟨m, hm, rfl⟩)
    · exact ihfirst hfirst
    · exact ihmore m hm fun u hu =>
        hmore u (List.mem_flatMap.mpr ⟨m, hm, List.mem_cons_of_mem _ hu⟩)
  | paren _ _ _ ih => exact ih fun u hu => hus u (by simp [hu])
  | up _ _ ih => exact ih hus

end Grammar

namespace ExprParse

/-- An expression read from tokens that read finite has only finite literals: what it read is
a phrase of the grammar. -/
theorem orExpr_numbersFinite {eof : Pos} {ts : List Token} (hts : ReadFinite ts)
    {p : Parsed ts Expr} (h : orExpr eof ts = .ok p) : p.value.numbersFinite := by
  obtain ⟨us, hus, hphrase⟩ := orExpr_consumed h
  exact hphrase.numbersFinite (hus ▸ hts).append_left

end ExprParse

/-! ### Declarations -/

/-- A reader keeps `P` when every value it reads from tokens that read finite satisfies it. -/
def Reader.Keeps {α : Type} (m : Reader α) (P : α → Prop) : Prop :=
  ∀ eof ts, ReadFinite ts → ∀ p, m.run eof ts = .ok p → P p.value

/-- One reader after another, as the monad runs them. -/
theorem Reader.run_bind {α β : Type} (m : Reader α) (f : α → Reader β) (eof : Pos)
    (ts : List Token) :
    (m >>= f).run eof ts =
      (match m.run eof ts with
        | .error e => .error e
        | .ok a =>
          match (f a.value).run eof a.rest with
          | .error e => .error e
          | .ok b => .ok (b.widen a.suffix) : Except Stop (Parsed ts β)) := rfl

namespace Reader.Keeps

variable {α β : Type} {P : α → Prop} {Q : β → Prop}

theorem pure {a : α} (h : P a) : (Pure.pure a : Reader α).Keeps P := by
  intro _ _ _ p hp
  cases hp
  exact h

theorem bind {m : Reader α} {f : α → Reader β} (hm : m.Keeps P)
    (hf : ∀ a, P a → (f a).Keeps Q) : (m >>= f).Keeps Q := by
  intro eof ts hts p hp
  rw [Reader.run_bind] at hp
  split at hp
  · cases hp
  · rename_i a ha
    split at hp
    · cases hp
    · rename_i b hb
      cases hp
      exact hf a.value (hm eof ts hts a ha) eof a.rest (hts.rest a) b hb

theorem map {m : Reader α} {f : α → β} (hm : m.Keeps P) (hf : ∀ a, P a → Q (f a)) :
    (f <$> m).Keeps Q :=
  bind hm fun a ha => pure (hf a ha)

/-- A property of every value is kept by every reader. -/
theorem of_forall {m : Reader α} (h : ∀ a, P a) : m.Keeps P :=
  fun _ _ _ p _ => h p.value

/-- What is read first does not matter when the rest keeps `Q` whatever it was. -/
theorem bind_any {m : Reader α} {f : α → Reader β} (hf : ∀ a, (f a).Keeps Q) :
    (m >>= f).Keeps Q :=
  bind (P := fun _ => True) (of_forall fun _ => trivial) fun a _ => hf a

end Reader.Keeps

open Reader

theorem Reader.expr_keeps : Reader.expr.Keeps fun e => e.numbersFinite :=
  fun _ _ hts _ h => ExprParse.orExpr_numbersFinite hts h

namespace Read

theorem ret_keeps : Read.ret.Keeps fun r => r.condition.all Expr.numbersFinite := by
  unfold Read.ret
  refine Keeps.bind_any fun _ => Keeps.bind_any fun _ => Keeps.bind_any fun _ =>
    Keeps.bind_any fun b => ?_
  split
  · exact Keeps.bind expr_keeps fun c hc => Keeps.pure (by simpa using hc)
  · exact Keeps.pure rfl

/-- The body of a fee: each variable and each case is read by an expression reader. -/
theorem feeBody_numbersFinite {eof : Pos} {ts : List Token} (hts : ReadFinite ts)
    {vars : Array LetVar} {cases : Array Case} (hv : vars.toList.all (·.expr.numbersFinite))
    (hc : cases.toList.all Case.numbersFinite) {p : Parsed ts (Array LetVar × Array Case)}
    (h : feeBody eof ts vars cases = .ok p) :
    p.value.1.toList.all (·.expr.numbersFinite) ∧ p.value.2.toList.all Case.numbersFinite := by
  rw [feeBody.eq_def] at h
  split at h
  · rename_i t r
    split at h
    · cases h
      exact ⟨hv, hc⟩
    split at h
    · split at h
      · cases h
      · dsimp only at h
        split at h
        · cases h
        · rename_i v hvr
          have := v.le
          split at h
          · cases h
          · rename_i m hm
            cases h
            have hvf : v.value.expr.numbersFinite :=
              (?_ : Reader.Keeps _ fun w : LetVar => w.expr.numbersFinite) eof r hts.tail v hvr
            · exact feeBody_numbersFinite (hts.tail.rest v) (by simp [hv, hvf]) hc hm
            · exact Keeps.bind_any fun _ => Keeps.bind_any fun _ =>
                Keeps.bind expr_keeps fun e he => Keeps.pure he
    split at h
    · dsimp only at h
      split at h
      · cases h
      · rename_i c hcr
        have := c.le
        split at h
        · cases h
        · rename_i m hm
          cases h
          have hcf : c.value.numbersFinite :=
            (?_ : Reader.Keeps _ fun c : Case => c.numbersFinite) eof r hts.tail c hcr
          · exact feeBody_numbersFinite (hts.tail.rest c) hv (by simp [hc, hcf]) hm
          · refine Keeps.bind expr_keeps fun e he => Keeps.bind_any fun b => ?_
            split
            · exact Keeps.bind expr_keeps fun k hk =>
                Keeps.pure (by simp [Case.numbersFinite, he, hk])
            · exact Keeps.pure (by simp [Case.numbersFinite, he])
    · cases h
  · cases h
termination_by ts.length
decreasing_by all_goals (subst_vars; simp only [List.length_cons]; omega)

theorem fee_keeps : Read.fee.Keeps fun f => f.numbersFinite := by
  unfold Read.fee
  refine Keeps.bind_any fun _ => Keeps.bind_any fun oc => ?_
  obtain ⟨o, c⟩ := oc
  refine Keeps.bind (P := fun vc : Array LetVar × Array Case =>
      vc.1.toList.all (·.expr.numbersFinite) ∧ vc.2.toList.all Case.numbersFinite)
    ?_ fun vc hvc => ?_
  · exact fun _ _ hts _ h => feeBody_numbersFinite hts rfl rfl h
  · obtain ⟨vars, cases⟩ := vc
    exact Keeps.bind_any fun _ => Keeps.pure (by simp [Fee.numbersFinite, hvc.1, hvc.2])

/-- Only fees and returns hold expressions; the other declarations keep the invariant
whatever they read. -/
theorem declaration_keeps (t : Token) : (Read.declaration t).Keeps fun d => d.numbersFinite := by
  unfold Read.declaration
  split
  · exact Keeps.map (P := fun _ => True) (Keeps.of_forall fun _ => trivial) fun _ _ => rfl
  split
  · exact Keeps.map (P := fun _ => True) (Keeps.of_forall fun _ => trivial) fun _ _ => rfl
  split
  · exact Keeps.map (P := fun _ => True) (Keeps.of_forall fun _ => trivial) fun _ _ => rfl
  split
  · exact Keeps.map fee_keeps fun _ hf => hf
  split
  · exact Keeps.map ret_keeps fun _ hr => hr
  · exact Keeps.map (P := fun _ => True) (Keeps.of_forall fun _ => trivial) fun _ _ => rfl

end Read

/-- A declaration read at the start of a text has every property that the reader of its
keyword keeps. -/
theorem readDeclaration_keeps {P : Declaration → Prop} (hP : ∀ t, (Read.declaration t).Keeps P)
    {eof : Pos} {t : Token} {r : List Token} {g : Gathered} (hr : ReadFinite r)
    {d : Parsed r Declaration} (h : readDeclaration eof t r g = .ok d) : P d.value := by
  unfold readDeclaration at h
  split at h
  · split at h
    · cases h
    · rename_i d' hd
      have := hP t eof r hr d' hd
      split at h
      · split at h
        · cases h
        · cases h
          exact this
      · cases h
        exact this
  · cases h

/-- Gathering never drops a fault. -/
theorem gather_faults_le {eof : Pos} {prev : Option Token} {ts : List Token} {g g' : Gathered}
    {σ : Array Event} (h : ((gather eof prev ts g).run σ).1 = .ok g') :
    g.faults.size ≤ g'.faults.size := by
  fun_induction gather eof prev ts g generalizing σ with
  | case1 prev g =>
    simp only [StateT.run_pure] at h
    cases h
    exact Nat.le_refl _
  | case2 prev g t r d hd _ ih =>
    rw [← Gathered.faults_add g d.value]
    exact ih h
  | case3 => simp at h
  | case4 prev g t r a hd ih =>
    simp only [note, StateT.run_bind, StateT.run_modify, pure_bind] at h
    dsimp only at ih
    -- the fault just noted is kept when reading resumes; a reading that does not move ends
    have hle : g.faults.size + 1 ≤ g'.faults.size := by
      split at h
      · rename_i hlt
        simpa using ih hlt h
      · simp at h
    omega

theorem Gathered.numbersFinite_add {g : Gathered} {d : Declaration}
    (hg : g.schedule.numbersFinite) (hd : d.numbersFinite) : (g.add d).schedule.numbersFinite := by
  cases d <;>
    simp_all [Gathered.add, Gathered.schedule, Schedule.numbersFinite, Declaration.numbersFinite]

/-- A property of the declarations read so far that every declaration read keeps holds of
all the declarations of a text gathered without a fault. A text with a fault keeps it to the
end, so only the successful readings matter. -/
theorem gather_keeps {P : Declaration → Prop} {Q : Schedule → Prop}
    (hP : ∀ t, (Read.declaration t).Keeps P)
    (hadd : ∀ g d, Q (Gathered.schedule g) → P d → Q (g.add d).schedule)
    {eof : Pos} {prev : Option Token} {ts : List Token} {g g' : Gathered} {σ : Array Event}
    (hts : ReadFinite ts) (hg : Q g.schedule) (h : ((gather eof prev ts g).run σ).1 = .ok g')
    (hf : g'.faults.size = 0) : Q g'.schedule := by
  fun_induction gather eof prev ts g generalizing σ with
  | case1 prev g =>
    simp only [StateT.run_pure] at h
    cases h
    exact hg
  | case2 prev g t r d hd _ ih =>
    exact ih (hts.tail.rest d) (hadd g d.value hg (readDeclaration_keeps hP hts.tail hd)) h
  | case3 => simp at h
  | case4 prev g t r a hd =>
    -- a declaration that breaks leaves a fault, which no later step removes
    have hle : g.faults.size + 1 ≤ g'.faults.size := by
      simp only [note, StateT.run_bind, StateT.run_modify, pure_bind] at h
      split at h
      · simpa using gather_faults_le h
      · simp at h
    omega

/-- The declarations of a text gathered without a fault have finite literals. -/
theorem gather_numbersFinite {eof : Pos} {prev : Option Token} {ts : List Token}
    {g g' : Gathered} {σ : Array Event} (hts : ReadFinite ts) (hg : g.schedule.numbersFinite)
    (h : ((gather eof prev ts g).run σ).1 = .ok g') (hf : g'.faults.size = 0) :
    g'.schedule.numbersFinite :=
  gather_keeps (Q := fun s => s.numbersFinite) Read.declaration_keeps
    (fun _ _ => Gathered.numbersFinite_add) hts hg h hf


/-! ### Resolving names and the whole text -/

mutual

theorem Expr.numbersFinite_resolve (names : List String) :
    (e : Expr) → (e.resolve names).numbersFinite = e.numbersFinite
  | .num _ => rfl
  | .bool _ => rfl
  | .date _ => rfl
  | .sym _ => rfl
  | .ref n => by
    unfold Expr.resolve
    split <;> rfl
  | .unary op e => by
    simp only [Expr.resolve, Expr.numbersFinite, Expr.numbersFinite_resolve names e]
  | .binary op l r => by
    simp only [Expr.resolve, Expr.numbersFinite, Expr.numbersFinite_resolve names l,
      Expr.numbersFinite_resolve names r]
  | .call f args => by
    simp only [Expr.resolve, Expr.numbersFinite, Expr.numbersFiniteAll_resolveAll names args]

theorem Expr.numbersFiniteAll_resolveAll (names : List String) :
    (es : List Expr) → Expr.numbersFiniteAll (Expr.resolveAll names es) = Expr.numbersFiniteAll es
  | [] => rfl
  | e :: es => by
    simp only [Expr.resolveAll, Expr.numbersFiniteAll, Expr.numbersFinite_resolve names e,
      Expr.numbersFiniteAll_resolveAll names es]

end

theorem resolveVars_numbersFinite (names : List String) (vars : List LetVar) :
    (resolveVars names vars).1.all (·.expr.numbersFinite) = vars.all (·.expr.numbersFinite) := by
  induction vars generalizing names with
  | nil => rfl
  | cons v vs ih =>
    simp only [resolveVars, List.all_cons, Expr.numbersFinite_resolve, ih]

theorem Fee.numbersFinite_resolve (inputs : List String) (f : Fee) :
    (f.resolve inputs).numbersFinite = f.numbersFinite := by
  unfold Fee.resolve
  rcases hv : resolveVars inputs f.vars with ⟨vars, names⟩
  have := resolveVars_numbersFinite inputs f.vars
  rw [hv] at this
  simp only [Fee.numbersFinite, this, Case.numbersFinite, List.all_map, Function.comp_def,
    Expr.numbersFinite_resolve, Option.all_map]
  rfl

theorem Schedule.numbersFinite_resolve (s : Schedule) :
    s.resolve.numbersFinite = s.numbersFinite := by
  simp only [Schedule.resolve, Schedule.numbersFinite, List.all_map, Function.comp_def,
    Fee.numbersFinite_resolve, Option.all_map, Expr.numbersFinite_resolve]


/-- A text that gives a schedule was gathered without a fault; the schedule is its
declarations with their names resolved, and the diagnostics are the checker's. -/
theorem Schedule.parse_some {text : List CodePoint} {r : ParseResult} {s : Schedule}
    (h : (Schedule.parse text).run'.1 = .ok r) (hs : r.schedule = some s) :
    ∃ g σ, (gather (tokenize text).finish none (tokenize text).tokens {}).run #[] = (.ok g, σ) ∧
      g.faults.size = 0 ∧ s = g.schedule.resolve ∧ r.diagnostics = s.check := by
  unfold Schedule.parse Traced.run' at h
  rw [Traced.run_bind] at h
  rcases hg : (gather (tokenize text).finish none (tokenize text).tokens {}).run #[] with
    ⟨res, σ⟩
  rw [hg] at h
  cases res with
  | error e => simp at h
  | ok g =>
    dsimp only at h
    split at h
    · rename_i hempty
      rw [Traced.run_note, Traced.run_pure, Except.ok.injEq] at h
      subst h
      cases hs
      have hf : g.faults.size = 0 := by
        simp only [List.isEmpty_iff, List.append_eq_nil_iff] at hempty
        simp [← Array.length_toList, hempty.2]
      exact ⟨g, σ, rfl, hf, rfl, rfl⟩
    · -- a text with faults gives no schedule
      rw [Traced.run_note, Traced.run_pure, Except.ok.injEq] at h
      subst h
      cases hs

/-- Every schedule read from a text has only finite number literals. -/
theorem Schedule.parse_numbersFinite {text : List CodePoint} {r : ParseResult} {s : Schedule}
    (h : (Schedule.parse text).run'.1 = .ok r) (hs : r.schedule = some s) : s.numbersFinite := by
  obtain ⟨g, σ, hg, hf, rfl, -⟩ := Schedule.parse_some h hs
  rw [Schedule.numbersFinite_resolve]
  exact gather_numbersFinite (tokenize_readsFinite text) rfl (by rw [hg]) hf

end FeeSchedule
