import FeeSchedule.Proofs.Syntax.Declarations

/-!
# `FeeSchedule.Proofs.Syntax.Acceptance`: the declaration readers read every declaration

The converse of `FeeSchedule.Proofs.Syntax.Declarations`. A declaration of `Grammar.Decl`
followed by the next declaration, or by nothing, is read whole by the reader its keyword
selects, unless a signed number in it stops the reading with a decimal signal
(`Read.declaration_settles`, `readDeclaration_settles`).

What may follow a phrase is said by `Grammar.Leads ws rest`: the tokens after it start with a
keyword of `ws`, or there are none. Each loop of the readers stops exactly there: a keyword is
no operand of an expression (`Grammar.Leads.stops`), no comma of a selection's symbols, and no
option of a fee. The loops (`Read.moreSymbols`, `Read.clauses`, `Read.feeOptions`,
`Read.feeBody`) are proved by induction over the phrases they read, with the tokens given as an
equation so that the induction can go on from what a reading left.

An input tracks what its clauses provided (`Read.InputDraft.Met`): a clause keeps what was met
and meets what it provides, so clauses that satisfy `Grammar.Required` leave a draft that
`Read.finishInput` accepts.
-/

set_option autoImplicit false

namespace FeeSchedule

/-- A keyword token is no other keyword. -/
theorem Token.isKeyword_eq {t : Token} {w : String} (h : t.isKeyword w) (w' : String) :
    t.isKeyword w' = decide (w = w') := by
  simp only [Token.isKeyword, Bool.and_eq_true, beq_iff_eq] at h
  by_cases hw : w = w' <;> simp [Token.isKeyword, h.1, h.2, hw]

theorem Token.isKeyword_eq_false {t : Token} {w w' : String} (h : t.isKeyword w) (hne : w ≠ w') :
    t.isKeyword w' = false := by
  rw [Token.isKeyword_eq h, decide_eq_false hne]

namespace Grammar

/-- The tokens start with a keyword of `ws`, or there are none: what may follow a phrase. -/
def Leads (ws : List String) (rest : List Token) : Prop :=
  ∀ u ∈ rest.head?, u.kind = .keyword ∧ u.value ∈ ws

namespace Leads

variable {ws : List String} {rest : List Token}

theorem nil : Leads ws [] := nofun

theorem cons {t : Token} {w : String} (ht : t.isKeyword w) (hw : w ∈ ws) (r : List Token) :
    Leads ws (t :: r) := by
  intro u hu
  cases hu
  simp only [Token.isKeyword, Bool.and_eq_true, beq_iff_eq] at ht
  exact ⟨ht.1, ht.2 ▸ hw⟩

theorem isKeyword_eq_false (h : Leads ws rest) {w : String} (hw : w ∉ ws) :
    ∀ u ∈ rest.head?, u.isKeyword w = false := by
  intro u hu
  obtain ⟨-, hmem⟩ := h u hu
  have hne : u.value ≠ w := fun heq => hw (heq ▸ hmem)
  simp [Token.isKeyword, hne]

theorem isSymbol_eq_false (h : Leads ws rest) (s : String) :
    ∀ u ∈ rest.head?, u.isSymbol s = false := by
  intro u hu
  simp [Token.isSymbol, (h u hu).1]

theorem isKeyword_head {w : String} {t : Token} {us : List Token} (h : Leads [w] (t :: us)) :
    t.isKeyword w := by
  obtain ⟨hk, hmem⟩ := h t rfl
  simp [Token.isKeyword, hk, List.mem_singleton.mp hmem]

/-- A keyword that is no operator ends every operand of an expression. -/
theorem stops (h : Leads ws rest)
    (hw : ∀ w ∈ ws, w ≠ "OR" ∧ w ≠ "AND" ∧ w ≠ "CONTAINS") :
    ExprParse.Stops 1 rest := by
  intro u hu
  obtain ⟨hk, hmem⟩ := h u hu
  obtain ⟨hor, hand, hcontains⟩ := hw _ hmem
  exact ExprParse.ends_of_keyword hk (fun _ => hor) (fun _ => hand) (fun _ => hcontains)

/-- Phrases that each open with a keyword of `ws`, followed by such tokens. -/
theorem flatten_append {ds : List (List Token)} (hds : ∀ d ∈ ds, Leads ws d ∧ d ≠ [])
    (hr : Leads ws rest) : Leads ws (ds.flatten ++ rest) := by
  induction ds with
  | nil => simpa using hr
  | cons d ds ih =>
    obtain ⟨hd, hne⟩ := hds d (.head _)
    obtain ⟨t, us, rfl⟩ := List.exists_cons_of_ne_nil hne
    intro u hu
    exact hd u (by simpa using hu)

end Leads

theorem Decl.leads {d : List Token} (hd : Decl d) : Leads topLevel d ∧ d ≠ [] := by
  cases hd <;> exact ⟨.cons (by assumption) (by simp [topLevel]) _, by simp⟩

theorem Clause.leads {k : InputKind} {c : List Token} (hc : Clause k c) {ws : List String}
    (hws : Read.clauseKeywords ⊆ ws) : Leads ws c ∧ c ≠ [] := by
  cases hc <;> exact ⟨.cons (by assumption) (hws (by simp [Read.clauseKeywords])) _, by simp⟩

theorem LetPhrase.leads {l : List Token} (hl : LetPhrase l) {ws : List String} (hw : "LET" ∈ ws) :
    Leads ws l ∧ l ≠ [] := by
  cases hl with
  | mk hl => exact ⟨.cons hl hw _, by simp⟩

theorem YieldPhrase.leads {y : List Token} (hy : YieldPhrase y) {ws : List String}
    (hw : "YIELD" ∈ ws) : Leads ws y ∧ y ≠ [] := by
  cases hy with
  | always hy => exact ⟨.cons hy hw _, by simp⟩
  | conditional hy => exact ⟨.cons hy hw _, by simp⟩

/-- The tokens of a fee's body after its options: variables, cases and `ENDFEE`. -/
theorem body_leads {ls ys : List (List Token)} (hls : ∀ l ∈ ls, LetPhrase l)
    (hys : ∀ y ∈ ys, YieldPhrase y) {e : Token} (he : e.isKeyword "ENDFEE")
    (rest : List Token) :
    Leads ["LET", "YIELD", "ENDFEE"] (ls.flatten ++ (ys.flatten ++ e :: rest)) :=
  Leads.flatten_append (fun l hl => (hls l hl).leads (by simp)) <|
    Leads.flatten_append (fun y hy => (hys y hy).leads (by simp)) <| .cons he (by simp) _

end Grammar

namespace Read

open Grammar Reader

variable {eof : Pos} {rest : List Token}

/-! ### Declarations without loops -/

theorem version_settles {s : Token} (hs : s.kind = .string) (hr : Leads topLevel rest) :
    Settles (version.run eof (s :: rest)) (fun _ => True) rest := by
  refine string_bind_settles hs (peek_bind_settles ?_)
  cases rest with
  | nil => exact Settles.pure trivial
  | cons u r =>
    -- the next declaration opens with a keyword, not a label
    have hu : u.kind ≠ .string := by simp [(hr u rfl).1]
    simp only [List.head?_cons, hu, if_false]
    exact Settles.pure trivial

theorem version_settles_labelled {s l : Token} (hs : s.kind = .string) (hl : l.kind = .string) :
    Settles (version.run eof (s :: l :: rest)) (fun _ => True) rest := by
  refine string_bind_settles hs (peek_bind_settles ?_)
  simp only [List.head?_cons, hl, if_true]
  exact advance_bind_settles (Settles.pure trivial)

theorem group_settles {n a s : Token} (hn : n.kind = .identifier) (ha : a.isKeyword "AS")
    (hs : s.kind = .string) (hr : Leads topLevel rest) :
    Settles (group.run eof (n :: a :: s :: rest)) (fun _ => True) rest :=
  ident_bind_settles hn <| keyword_bind_settles ha <| string_bind_settles hs <|
    keyword?_bind_settles_false (hr.isKeyword_eq_false (by simp [topLevel])) (Settles.pure trivial)

theorem group_settles_weighted {n a s w : Token} {us : List Token} (hn : n.kind = .identifier)
    (ha : a.isKeyword "AS") (hs : s.kind = .string) (hw : w.isKeyword "WEIGHT")
    (hus : SignedNumber us) :
    Settles (group.run eof (n :: a :: s :: w :: (us ++ rest))) (fun _ => True) rest :=
  ident_bind_settles hn <| keyword_bind_settles ha <| string_bind_settles hs <|
    keyword?_bind_settles_true hw <| signedNumber_bind_settles hus fun _ => Settles.pure trivial

theorem ret_settles {n a s : Token} (hn : n.kind = .identifier) (ha : a.isKeyword "AS")
    (hs : s.kind = .string) (hr : Leads topLevel rest) :
    Settles (ret.run eof (n :: a :: s :: rest)) (fun _ => True) rest :=
  ident_bind_settles hn <| keyword_bind_settles ha <| string_bind_settles hs <|
    keyword?_bind_settles_false (hr.isKeyword_eq_false (by simp [topLevel])) (Settles.pure trivial)

theorem ret_settles_conditional {n a s i : Token} {us : List Token} {e : Expr}
    (hn : n.kind = .identifier) (ha : a.isKeyword "AS") (hs : s.kind = .string)
    (hi : i.isKeyword "IF") (he : Phrase 1 us e) (hr : Leads topLevel rest) :
    Settles (ret.run eof (n :: a :: s :: i :: (us ++ rest))) (fun _ => True) rest :=
  ident_bind_settles hn <| keyword_bind_settles ha <| string_bind_settles hs <|
    keyword?_bind_settles_true hi <|
      expr_bind_settles he (hr.stops (by simp [topLevel])) (Settles.pure trivial)

theorem directive_settles_complete {c f n : Token} (hc : c.isKeyword "COMPLETE")
    (hf : f.isKeyword "FEE") (hn : n.kind = .identifier) :
    Settles (directive.run eof (c :: f :: n :: rest)) (fun _ => True) rest :=
  keyword?_bind_settles_true hc <| keyword_bind_settles hf <| ident_bind_settles hn <|
    Settles.pure trivial

theorem directive_settles_monotonic {m f n w r t x d : Token} (hm : m.isKeyword "MONOTONIC")
    (hf : f.isKeyword "FEE") (hn : n.kind = .identifier) (hw : w.isKeyword "WITH")
    (hr : r.isKeyword "RESPECT") (ht : t.isKeyword "TO") (hx : x.kind = .identifier)
    (hd : d.isKeyword "INCREASING" ∨ d.isKeyword "DECREASING") :
    Settles (directive.run eof (m :: f :: n :: w :: r :: t :: x :: d :: rest)) (fun _ => True)
      rest := by
  refine keyword?_bind_settles_false (fun u hu => ?_) <| keyword?_bind_settles_true hm <|
    keyword_bind_settles hf <| ident_bind_settles hn <| keyword_bind_settles hw <|
    keyword_bind_settles hr <| keyword_bind_settles ht <| ident_bind_settles hx ?_
  · cases hu
    exact Token.isKeyword_eq_false hm (by simp)
  rcases hd with hd | hd
  · exact keyword?_bind_settles_true hd (Settles.pure trivial)
  · refine keyword?_bind_settles_false (fun u hu => ?_) <|
      keyword?_bind_settles_true hd (Settles.pure trivial)
    cases hu
    exact Token.isKeyword_eq_false hd (by simp)

/-! ### Inputs -/

/-- The commas and symbols after a selection's first default symbol, before a keyword. -/
theorem moreSymbols_settles {more : List (Token × Token)}
    (hmore : ∀ c ∈ more, c.1.isSymbol "," ∧ c.2.kind = .identifier)
    (hr : ∀ u ∈ rest.head?, u.isSymbol "," = false) :
    ∀ {ts : List Token}, ts = more.flatMap (fun c => [c.1, c.2]) ++ rest →
      Settles (moreSymbols eof ts) (fun _ => True) rest := by
  induction more with
  | nil =>
    intro ts hts
    simp only [List.flatMap_nil, List.nil_append] at hts
    subst hts
    rw [moreSymbols.eq_def]
    cases ts with
    | nil => exact Settles.ok trivial
    | cons u r =>
      simp only [hr u rfl, Bool.false_eq_true, if_false]
      exact Settles.ok trivial
  | cons c more ih =>
    intro ts hts
    simp only [List.flatMap_cons, List.cons_append, List.nil_append] at hts
    subst hts
    obtain ⟨hc, hn⟩ := hmore c (.head _)
    rw [moreSymbols.eq_def]
    simp only [hc, if_true, ident_run_cons, hn, Parsed.next_rest]
    rcases ih (fun c hc => hmore c (.tail _ hc)) rfl with ⟨m, hm, -, hmr⟩ | ⟨s, hs⟩
    · rw [hm]
      exact .inl ⟨_, rfl, trivial, hmr⟩
    · rw [hs]
      exact Settles.signal s

/-- A clause that does not open with `BETWEEN` or `CURRENCY` is required by no kind that
needs something met. -/
theorem met_of_required_single {k : InputKind} {t : Token} {us : List Token}
    (h : Required k [t :: us]) (hb : t.isKeyword "BETWEEN" = false)
    (hc : t.isKeyword "CURRENCY" = false) (d : InputDraft) : d.Met k := by
  obtain ⟨hnd, ha⟩ := h
  simp only [Opens, List.mem_singleton, exists_eq_left, List.head?_cons, Option.mem_def,
    Option.some.injEq, exists_eq_left', hb, hc, Bool.false_eq_true] at hnd ha
  cases k <;> simp_all [InputDraft.Met]

theorem defaultClause_settles {k : InputKind} {us : List Token} (hv : DefaultValue k us)
    (hr : ∀ u ∈ rest.head?, u.isSymbol "," = false) (d : InputDraft) :
    Settles ((defaultClause k d).run eof (us ++ rest)) (fun d' => d.Met k → d'.Met k) rest := by
  cases hv with
  | number hn => exact signedNumber_bind_settles hn fun _ => Settles.pure id
  | amount hn => exact signedNumber_bind_settles hn fun _ => Settles.pure id
  | date ht => exact date_bind_settles ht fun _ => Settles.pure id
  | flag b ht =>
    rw [List.singleton_append]
    cases b with
    | true => exact keyword?_bind_settles_true ht (Settles.pure id)
    | false =>
      refine keyword?_bind_settles_false (fun u hu => ?_) <|
        keyword?_bind_settles_true ht (Settles.pure id)
      cases hu
      exact Token.isKeyword_eq_false ht (by simp)
  | symbol hn =>
    rw [List.singleton_append]
    exact ident_bind_settles hn (Settles.pure id)
  | symbols hn hmore =>
    rw [List.cons_append]
    exact ident_bind_settles hn <|
      Settles.bind (moreSymbols_settles hmore hr rfl) fun _ _ => Settles.pure id

/-- A clause of the input's kind is read whole; the draft keeps what was met and meets what
the clause provides. -/
theorem clause_settles {k : InputKind} {t : Token} {us : List Token} (hc : Clause k (t :: us))
    (hr : ∀ u ∈ rest.head?, u.isSymbol "," = false) (d : InputDraft) :
    Settles ((clause k t d).run eof (us ++ rest))
      (fun d' => d.Met k ∨ Required k [t :: us] → d'.Met k) rest := by
  cases hc with
  | @numberRange _ a lo hi hb hlo ha hhi =>
    rw [clause, if_pos hb, show lo.append (a :: hi) ++ rest = lo ++ a :: (hi ++ rest) by simp]
    exact signedNumber_bind_settles hlo fun _ => keyword_bind_settles ha <|
      signedNumber_bind_settles hhi fun _ => Settles.pure fun _ => by simp [InputDraft.Met]
  | dateRange hb hl ha hh =>
    rw [clause, if_pos hb]
    exact date_bind_settles hl fun _ => keyword_bind_settles ha <|
      date_bind_settles hh fun _ => Settles.pure fun _ => by simp [InputDraft.Met]
  | choice hk hch hn ha hs =>
    simp only [clause, Token.isKeyword_eq hch, decide_eq_true_eq, ↓reduceIte, if_pos hk]
    refine ident_bind_settles hn <| keyword_bind_settles ha <| string_bind_settles hs <|
      Settles.pure fun _ => ?_
    rcases hk with rfl | rfl <;> simp [InputDraft.Met]
  | default hdf hv =>
    simp only [clause, Token.isKeyword_eq hdf, decide_eq_true_eq, String.reduceEq, ↓reduceIte]
    refine (defaultClause_settles hv hr d).mono fun d' hd' h => ?_
    rcases h with h | h
    · exact hd' h
    · exact met_of_required_single h (Token.isKeyword_eq_false hdf (by simp))
        (Token.isKeyword_eq_false hdf (by simp)) d'
  | currency hcur hn =>
    simp only [clause, Token.isKeyword_eq hcur, decide_eq_true_eq, String.reduceEq, ↓reduceIte]
    exact ident_bind_settles hn (Settles.pure fun _ => by simp [InputDraft.Met])
  | group hg hn =>
    simp only [clause, Token.isKeyword_eq hg, decide_eq_true_eq, String.reduceEq, ↓reduceIte]
    refine ident_bind_settles hn (Settles.pure fun h => ?_)
    rcases h with h | h
    · exact h
    · exact met_of_required_single h (Token.isKeyword_eq_false hg (by simp))
        (Token.isKeyword_eq_false hg (by simp)) _

/-- An input kind that requires nothing is met by every draft. -/
theorem met_of_required_nil {k : InputKind} (h : Required k []) (d : InputDraft) : d.Met k := by
  obtain ⟨hnd, ha⟩ := h
  simp only [Opens, List.not_mem_nil, false_and, exists_false, imp_false] at hnd ha
  cases k <;> simp_all [InputDraft.Met]

/-- The clauses of an input, up to `ENDINPUT`. -/
theorem clauses_settles {k : InputKind} {cs : List (List Token)} (hcs : ∀ c ∈ cs, Clause k c)
    {e : Token} (he : e.isKeyword "ENDINPUT") :
    ∀ {ts : List Token} {d : InputDraft}, ts = cs.flatten ++ e :: rest →
      Settles (clauses k eof ts d) (fun d' => d.Met k ∨ Required k cs → d'.Met k)
        (e :: rest) := by
  induction cs with
  | nil =>
    intro ts d hts
    simp only [List.flatten_nil, List.nil_append] at hts
    subst hts
    rw [clauses.eq_def]
    simp only [he, if_true]
    refine Settles.ok fun h => ?_
    rcases h with h | h
    · exact h
    · exact met_of_required_nil h d
  | cons c cs ih =>
    intro ts d hts
    obtain ⟨hlead, hne⟩ := (hcs c (.head _)).leads (List.Subset.refl _)
    obtain ⟨t, us, rfl⟩ := List.exists_cons_of_ne_nil hne
    simp only [List.flatten_cons, List.cons_append, List.append_assoc] at hts
    subst hts
    obtain ⟨hk, hmem⟩ := hlead t rfl
    -- what follows a clause is the next clause or `ENDINPUT`: a keyword
    have hnext : Leads (clauseKeywords ++ ["ENDINPUT"]) (cs.flatten ++ e :: rest) :=
      Leads.flatten_append (fun c hc => (hcs c (.tail _ hc)).leads (List.subset_append_left _ _))
        (.cons he (by simp) _)
    have hend : t.isKeyword "ENDINPUT" = false := by
      simp only [clauseKeywords, List.mem_cons, List.not_mem_nil, or_false] at hmem
      simp only [Token.isKeyword, hk]
      rcases hmem with h | h | h | h | h <;> simp [h]
    rw [clauses.eq_def]
    simp only [hend, Bool.false_eq_true, if_false, hk, List.elem_eq_mem, hmem, decide_true,
      and_self, if_true]
    rcases clause_settles (hcs _ (.head _)) (hnext.isSymbol_eq_false ",") d with
      ⟨p, hp, hmet, hpr⟩ | ⟨s, hs⟩
    · rw [hp]
      dsimp only
      rcases ih (fun c hc => hcs c (.tail _ hc)) (d := p.value) hpr with
        ⟨m, hm, hmet', hmr⟩ | ⟨s, hs⟩
      · rw [hm]
        refine .inl ⟨_, rfl, fun h => hmet' ?_, hmr⟩
        rcases h with h | h
        · exact .inl (hmet (.inl h))
        · rcases required_cons.mp h with h | h
          · exact .inl (hmet (.inr h))
          · exact .inr h
      · rw [hs]
        exact Settles.signal s
    · rw [hs]
      exact Settles.signal s

theorem finishInput_settles {start : Pos} {name text : String} {k : InputKind} {d : InputDraft}
    (h : d.Met k) {ts : List Token} :
    Settles ((finishInput start name text k d).run eof ts) (fun _ => True) ts := by
  obtain ⟨hn, hd, ha⟩ := h
  cases k <;> simp only [finishInput]
  case number =>
    obtain ⟨b, hb⟩ := Option.isSome_iff_exists.mp (hn rfl)
    rw [hb]
    exact Settles.pure trivial
  case date =>
    obtain ⟨b, hb⟩ := Option.isSome_iff_exists.mp (hd rfl)
    rw [hb]
    exact Settles.pure trivial
  case amount =>
    obtain ⟨c, hc⟩ := Option.isSome_iff_exists.mp (ha rfl)
    rw [hc]
    exact Settles.pure trivial
  all_goals exact Settles.pure trivial

theorem input_settles {start : Pos} {n k s e : Token} {kind : InputKind}
    {cs : List (List Token)} (hn : n.kind = .identifier) (hk : k.isKeyword kind.keyword)
    (hs : s.kind = .string) (hcs : ∀ c ∈ cs, Clause kind c) (hreq : Required kind cs)
    (he : e.isKeyword "ENDINPUT") :
    Settles ((input start).run eof (n :: k :: s :: (cs.flatten ++ e :: rest))) (fun _ => True)
      rest := by
  refine ident_bind_settles hn (peek_bind_settles ?_)
  simp only [List.head?_cons, kindOf?_eq_some_iff.mpr hk]
  refine advance_bind_settles <| Settles.bind (Settles.pure (P := (· = kind)) rfl) fun _ h => ?_
  subst h
  refine string_bind_settles hs <| Settles.bind (clauses_settles hcs he rfl) fun d hd => ?_
  exact keyword_bind_settles he (finishInput_settles (hd (.inr hreq)))

/-! ### Fees -/

/-- The options of a fee, before its body. -/
theorem feeOptions_settles {os : List (List Token)} (hos : ∀ o ∈ os, FeeOption o)
    (hr : ∀ u ∈ rest.head?, u.isKeyword "OPTIONAL" = false ∧ u.isKeyword "CURRENCY" = false) :
    ∀ {ts : List Token} {opt : Bool} {cur : Option String}, ts = os.flatten ++ rest →
      Settles (feeOptions eof ts opt cur) (fun _ => True) rest := by
  induction os with
  | nil =>
    intro ts opt cur hts
    simp only [List.flatten_nil, List.nil_append] at hts
    subst hts
    rw [feeOptions.eq_def]
    cases ts with
    | nil => exact Settles.ok trivial
    | cons u r =>
      simp only [(hr u rfl).1, (hr u rfl).2, Bool.false_eq_true, if_false]
      exact Settles.ok trivial
  | cons o os ih =>
    intro ts opt cur hts
    have hos' : ∀ o ∈ os, FeeOption o := fun o ho => hos o (.tail _ ho)
    cases hos o (.head _) with
    | optional ho =>
      simp only [List.flatten_cons, List.cons_append, List.nil_append] at hts
      subst hts
      rw [feeOptions.eq_def]
      simp only [ho, if_true]
      rcases @ih hos' _ true cur rfl with ⟨m, hm, -, hmr⟩ | ⟨s, hs⟩
      · rw [hm]
        exact .inl ⟨_, rfl, trivial, hmr⟩
      · rw [hs]
        exact Settles.signal s
    | currency hc hn =>
      simp only [List.flatten_cons, List.cons_append, List.nil_append] at hts
      subst hts
      rw [feeOptions.eq_def]
      simp only [Token.isKeyword_eq hc, decide_eq_true_eq, ↓reduceIte, ident_run_cons, hn,
        Parsed.next_rest, Parsed.next_value]
      rcases @ih hos' _ opt _ rfl with ⟨m, hm, -, hmr⟩ | ⟨s, hs⟩
      · rw [hm]
        exact .inl ⟨_, rfl, trivial, hmr⟩
      · rw [hs]
        exact Settles.signal s

/-- What follows an expression in a fee's body is a keyword that is no operator. -/
theorem feeBody_stops {ws : List String} {r : List Token} (h : Leads ws r)
    (hws : ws ⊆ ["IF", "LET", "YIELD", "ENDFEE"]) : ExprParse.Stops 1 r :=
  h.stops fun w hw => by
    have := hws hw
    simp only [List.mem_cons, List.not_mem_nil, or_false] at this
    rcases this with rfl | rfl | rfl | rfl <;> simp

/-- The reader of a variable of a fee's body reads `name AS expr` before a keyword. -/
theorem letVar_settles {t : Token} {us r : List Token} (hl : LetPhrase (t :: us))
    (hr : Leads ["LET", "YIELD", "ENDFEE"] r) :
    Settles ((do
        let n ← ident "a variable name"
        keyword "AS"
        let e ← expr
        pure ⟨n, e⟩ : Reader LetVar).run eof (us ++ r)) (fun _ => True) r := by
  cases hl with
  | mk _ hn ha hu =>
    obtain ⟨x, hx⟩ := hu
    exact ident_bind_settles hn <| keyword_bind_settles ha <|
      expr_bind_settles hx (feeBody_stops hr (by simp)) (Settles.pure trivial)

/-- The reader of a case of a fee's body reads `expr [IF expr]` before a keyword. -/
theorem yieldCase_settles {t : Token} {us r : List Token} (hy : YieldPhrase (t :: us))
    (hr : Leads ["YIELD", "ENDFEE"] r) :
    Settles ((do
        let e ← expr
        if ← keyword? "IF" then
          let c ← expr
          pure ⟨e, some c⟩
        else pure ⟨e, none⟩ : Reader Case).run eof (us ++ r)) (fun _ => True) r := by
  cases hy with
  | always _ hu =>
    obtain ⟨x, hx⟩ := hu
    exact expr_bind_settles hx (feeBody_stops hr (by simp)) <|
      keyword?_bind_settles_false (hr.isKeyword_eq_false (by simp)) (Settles.pure trivial)
  | @conditional _ i us vs _ hu hi hv =>
    obtain ⟨x, hx⟩ := hu
    obtain ⟨x', hx'⟩ := hv
    rw [show us.append (i :: vs) ++ r = us ++ i :: (vs ++ r) by simp]
    exact expr_bind_settles hx (feeBody_stops (.cons hi (List.mem_singleton_self _) _)
        (by simp)) <|
      keyword?_bind_settles_true hi <|
        expr_bind_settles hx' (feeBody_stops hr (by simp)) (Settles.pure trivial)

/-- The cases of a fee's body, up to `ENDFEE`. -/
theorem feeBody_settles_cases {ys : List (List Token)} (hys : ∀ y ∈ ys, YieldPhrase y)
    {e : Token} (he : e.isKeyword "ENDFEE") :
    ∀ {ts : List Token} {vars : Array LetVar} {cases : Array Case},
      ts = ys.flatten ++ e :: rest →
      Settles (feeBody eof ts vars cases) (fun _ => True) (e :: rest) := by
  induction ys with
  | nil =>
    intro ts vars cases hts
    simp only [List.flatten_nil, List.nil_append] at hts
    subst hts
    rw [feeBody.eq_def]
    simp only [he, if_true]
    exact Settles.ok trivial
  | cons y ys ih =>
    intro ts vars cases hts
    obtain ⟨hlead, hne⟩ := (hys y (.head _)).leads (List.mem_singleton_self _)
    obtain ⟨t, us, rfl⟩ := List.exists_cons_of_ne_nil hne
    simp only [List.flatten_cons, List.cons_append, List.append_assoc] at hts
    subst hts
    -- the next case or `ENDFEE` follows a case
    have hnext : Leads ["YIELD", "ENDFEE"] (ys.flatten ++ e :: rest) :=
      Leads.flatten_append (fun y hy => (hys y (.tail _ hy)).leads (by simp)) (.cons he (by simp) _)
    rw [feeBody.eq_def]
    simp only [Token.isKeyword_eq hlead.isKeyword_head, decide_eq_true_eq, String.reduceEq,
      ↓reduceIte]
    rcases yieldCase_settles (hys _ (.head _)) hnext with ⟨c, hc, -, hcr⟩ | ⟨s, hs⟩
    · rw [hc]
      dsimp only
      rcases @ih (fun y hy => hys y (.tail _ hy)) _ vars (cases.push c.value) hcr with
        ⟨m, hm, -, hmr⟩ | ⟨s, hs⟩
      · rw [hm]
        exact .inl ⟨_, rfl, trivial, hmr⟩
      · rw [hs]
        exact Settles.signal s
    · rw [hs]
      exact Settles.signal s

/-- The body of a fee: its variables, then its cases, up to `ENDFEE`; a body with a variable
starts with no case read. -/
theorem feeBody_settles {ls ys : List (List Token)} (hls : ∀ l ∈ ls, LetPhrase l)
    (hys : ∀ y ∈ ys, YieldPhrase y) {e : Token} (he : e.isKeyword "ENDFEE") :
    ∀ {ts : List Token} {vars : Array LetVar} {cases : Array Case}, cases.isEmpty →
      ts = ls.flatten ++ ys.flatten ++ e :: rest →
      Settles (feeBody eof ts vars cases) (fun _ => True) (e :: rest) := by
  induction ls with
  | nil =>
    intro ts vars cases _ hts
    exact feeBody_settles_cases hys he (by simpa using hts)
  | cons l ls ih =>
    intro ts vars cases hempty hts
    obtain ⟨hlead, hne⟩ := (hls l (.head _)).leads (List.mem_singleton_self _)
    obtain ⟨t, us, rfl⟩ := List.exists_cons_of_ne_nil hne
    simp only [List.flatten_cons, List.cons_append, List.append_assoc] at hts
    subst hts
    -- a variable, a case or `ENDFEE` follows a variable
    have hnext := body_leads (fun l hl => hls l (.tail _ hl)) hys he rest
    rw [feeBody.eq_def]
    simp only [Token.isKeyword_eq hlead.isKeyword_head, decide_eq_true_eq, ↓reduceIte, hempty,
      Bool.not_true, Bool.false_eq_true]
    rcases letVar_settles (hls _ (.head _)) hnext with ⟨v, hv, -, hvr⟩ | ⟨s, hs⟩
    · rw [hv]
      dsimp only
      rcases @ih (fun l hl => hls l (.tail _ hl)) v.rest (vars.push v.value) cases hempty
          (by rw [hvr, List.append_assoc]) with ⟨m, hm, -, hmr⟩ | ⟨s, hs⟩
      · rw [hm]
        exact .inl ⟨_, rfl, trivial, hmr⟩
      · rw [hs]
        exact Settles.signal s
    · rw [hs]
      exact Settles.signal s

theorem fee_settles {n e : Token} {os ls ys : List (List Token)} (hn : n.kind = .identifier)
    (hos : ∀ o ∈ os, FeeOption o) (hls : ∀ l ∈ ls, LetPhrase l)
    (hys : ∀ y ∈ ys, YieldPhrase y) (he : e.isKeyword "ENDFEE") :
    Settles (fee.run eof (n :: (os.flatten ++ (ls.flatten ++ (ys.flatten ++ e :: rest)))))
      (fun _ => True) rest := by
  -- the options end where the body starts: at a variable, a case or `ENDFEE`
  have hbody := body_leads hls hys he rest
  refine ident_bind_settles hn <| Settles.bind (feeOptions_settles hos
    (fun u hu => ⟨hbody.isKeyword_eq_false (by simp) u hu,
      hbody.isKeyword_eq_false (by simp) u hu⟩) rfl) fun x _ => ?_
  obtain ⟨opt, cur⟩ := x
  dsimp only
  refine Settles.bind (feeBody_settles hls hys he (by simp) (List.append_assoc _ _ _).symm)
    fun y _ => ?_
  obtain ⟨vars, cases⟩ := y
  exact keyword_bind_settles he (Settles.pure trivial)

/-! ### Declarations -/

/-- A declaration after its top-level keyword, followed by the next declaration or by nothing,
is read whole; it is a version exactly when the keyword is `VERSION`. -/
theorem declaration_settles {t : Token} {us : List Token} (hd : Decl (t :: us))
    (hr : Leads topLevel rest) :
    Settles ((declaration t).run eof (us ++ rest))
      (fun v => (∃ x, v = .version x) ↔ t.isKeyword "VERSION") rest := by
  cases hd with
  | version hv hs =>
    rw [declaration, if_pos hv]
    exact (version_settles hs hr).map fun _ _ => by simp [hv]
  | versionLabelled hv hs hl =>
    rw [declaration, if_pos hv]
    exact (version_settles_labelled hs hl).map fun _ _ => by simp [hv]
  | group hg hn ha hs =>
    simp only [declaration, Token.isKeyword_eq hg, decide_eq_true_eq, String.reduceEq, ↓reduceIte]
    exact (group_settles hn ha hs hr).map fun _ _ => by simp
  | groupWeighted hg hn ha hs hw hus =>
    simp only [declaration, Token.isKeyword_eq hg, decide_eq_true_eq, String.reduceEq, ↓reduceIte]
    exact (group_settles_weighted hn ha hs hw hus).map fun _ _ => by simp
  | @input _ n k s e _ cs hi hn hk hs hcs hreq he =>
    simp only [declaration, Token.isKeyword_eq hi, decide_eq_true_eq, String.reduceEq, ↓reduceIte]
    rw [show (n :: k :: s :: cs.flatten).append [e] ++ rest =
      n :: k :: s :: (cs.flatten ++ e :: rest) by simp]
    exact (input_settles hn hk hs hcs hreq he).map fun _ _ => by simp
  | @fee _ n e os ls ys hf hn hos hls hys he =>
    simp only [declaration, Token.isKeyword_eq hf, decide_eq_true_eq, String.reduceEq, ↓reduceIte]
    rw [show (((n :: os.flatten).append ls.flatten).append ys.flatten).append [e] ++ rest =
      n :: (os.flatten ++ (ls.flatten ++ (ys.flatten ++ e :: rest))) by simp]
    exact (fee_settles hn hos hls hys he).map fun _ _ => by simp
  | ret hret hn ha hs =>
    simp only [declaration, Token.isKeyword_eq hret, decide_eq_true_eq, String.reduceEq,
      ↓reduceIte]
    exact (ret_settles hn ha hs hr).map fun _ _ => by simp
  | retConditional hret hn ha hs hi hu =>
    obtain ⟨x, hx⟩ := hu
    simp only [declaration, Token.isKeyword_eq hret, decide_eq_true_eq, String.reduceEq,
      ↓reduceIte]
    exact (ret_settles_conditional hn ha hs hi hx hr).map fun _ _ => by simp
  | complete hv hc hf hn =>
    simp only [declaration, Token.isKeyword_eq hv, decide_eq_true_eq, String.reduceEq, ↓reduceIte]
    exact (directive_settles_complete hc hf hn).map fun _ _ => by simp
  | monotonic hv hm hf hn hw hre ht hx hdir =>
    simp only [declaration, Token.isKeyword_eq hv, decide_eq_true_eq, String.reduceEq, ↓reduceIte]
    exact (directive_settles_monotonic hm hf hn hw hre ht hx hdir).map fun _ _ => by simp

end Read

/-- A declaration of a script, followed by the next one or by nothing, is read whole unless it
is a second version; the version read so far is kept, or set by a `VERSION`. -/
theorem readDeclaration_settles {eof : Pos} {rest : List Token} {t : Token} {us : List Token}
    {g : Gathered} (hd : Grammar.Decl (t :: us)) (hr : Grammar.Leads topLevel rest)
    (hv : t.isKeyword "VERSION" → g.version = none) :
    Reader.Settles (readDeclaration eof t (us ++ rest) g)
      (fun v => (g.add v).version.isSome = (g.version.isSome || t.isKeyword "VERSION")) rest := by
  obtain ⟨hk, hmem⟩ := hd.leads.1 t rfl
  unfold readDeclaration
  rw [if_pos ⟨hk, by simpa using hmem⟩]
  rcases @Read.declaration_settles eof rest t us hd hr with ⟨p, hp, hver, hpr⟩ | ⟨s, hs⟩
  · rw [hp]
    dsimp only
    split
    · rename_i x hx
      have ht : t.isKeyword "VERSION" := hver.mp ⟨x, hx⟩
      simp only [hv ht, Option.isSome_none, Bool.false_eq_true, if_false]
      exact .inl ⟨p, rfl, by simp [Gathered.add, hx, ht], hpr⟩
    · rename_i hnv
      have ht : t.isKeyword "VERSION" = false :=
        Bool.eq_false_iff.mpr fun h => (hver.mpr h).elim hnv
      exact .inl ⟨p, rfl, by simp [Gathered.version_add_of_ne hnv, ht], hpr⟩
  · rw [hs]
    exact Reader.Settles.signal s

end FeeSchedule
