import FeeSchedule.Proofs.Syntax.Grammar
import FeeSchedule.Proofs.Syntax.Literals

/-!
# `FeeSchedule.Proofs.Syntax.Script`: the grammar of scripts, and what each reader does

A script is a sequence of declarations:

    version ::= VERSION string [string]
    group   ::= GROUP name AS string [WEIGHT signed]
    input   ::= INPUT name kind string {clause} ENDINPUT
    fee     ::= FEE name {OPTIONAL | CURRENCY name} {LET name AS expr} {YIELD expr [IF expr]} ENDFEE
    return  ::= RETURN name AS string [IF expr]
    verify  ::= VERIFY COMPLETE FEE name
              | VERIFY MONOTONIC FEE name WITH RESPECT TO name (INCREASING | DECREASING)

with the conditions the language puts on them: a clause of an input is one its kind takes
(`BETWEEN` for numbers and dates, which require it; `CHOICE` for lists and selections;
`CURRENCY` for amounts, which require it; a `DEFAULT` of the kind, with symbols separated by
commas only for a selection; `GROUP` for all), a number where a sign is allowed reads as a
decimal after an optional minus, a date reads as a calendar date, and a script has at most one
`VERSION`. `Grammar.Decl` and `Grammar.Script` state them on tokens.

The readers of `FeeSchedule.Schedule.Read` are built from a few primitive readers. For each of
them this module says once how a reading through it goes on:

* `Reader.keyword_bind_eq_ok` and its companions: a reading that succeeded consumed what the
  primitive reads and went on from there. The readers' soundness peels them off one by one.
* `Reader.Settles r P rest`: the reading `r` succeeds with a value of which `P` holds and leaves
  `rest`, or stops with a decimal signal, which only a signed number can raise.
  `Reader.keyword_bind_settles` and its companions build the readers' completeness.
-/

set_option autoImplicit false

namespace FeeSchedule

namespace Grammar

/-- The tokens are an expression: a phrase of `or`. -/
def Expression (us : List Token) : Prop := ∃ e, Phrase 1 us e

/-- A number where a sign is allowed: a number that reads as a decimal, after an optional
minus. -/
inductive SignedNumber : List Token → Prop where
  | plain {t : Token} {v : Decimal} :
      t.kind = .number → Decimal.ofText t.value = .ok v → SignedNumber [t]
  | minus {m t : Token} {v : Decimal} :
      m.isSymbol "-" → t.kind = .number → Decimal.ofText t.value = .ok v → SignedNumber [m, t]

/-- A string that reads as a calendar date. -/
def DateText (t : Token) : Prop := t.kind = .string ∧ ∃ d, Date.ofIsoText? t.value = some d

/-- The value after `DEFAULT` in an input of kind `k`: a signed number for a number or an
amount, a date, `TRUE` or `FALSE`, one symbol for a list, and symbols separated by commas for a
selection. -/
inductive DefaultValue : InputKind → List Token → Prop where
  | number {us : List Token} : SignedNumber us → DefaultValue .number us
  | amount {us : List Token} : SignedNumber us → DefaultValue .amount us
  | date {t : Token} : DateText t → DefaultValue .date [t]
  | flag {t : Token} (b : Bool) :
      t.isKeyword (if b then "TRUE" else "FALSE") → DefaultValue .boolean [t]
  | symbol {t : Token} : t.kind = .identifier → DefaultValue .list [t]
  | symbols {t : Token} {more : List (Token × Token)} : t.kind = .identifier →
      (∀ c ∈ more, c.1.isSymbol "," ∧ c.2.kind = .identifier) →
      DefaultValue .multilist (t :: more.flatMap fun c => [c.1, c.2])

/-- A clause that an input of kind `k` takes: a range of numbers or of dates, a choice of a
list or a selection, a default, the currency of an amount, or a group. -/
inductive Clause : InputKind → List Token → Prop where
  | numberRange {b a : Token} {lo hi : List Token} :
      b.isKeyword "BETWEEN" → SignedNumber lo → a.isKeyword "AND" → SignedNumber hi →
        Clause .number (b :: lo ++ a :: hi)
  | dateRange {b l a h : Token} :
      b.isKeyword "BETWEEN" → DateText l → a.isKeyword "AND" → DateText h →
        Clause .date [b, l, a, h]
  | choice {k : InputKind} {c n a s : Token} :
      (k = .list ∨ k = .multilist) → c.isKeyword "CHOICE" → n.kind = .identifier →
        a.isKeyword "AS" → s.kind = .string → Clause k [c, n, a, s]
  | default {k : InputKind} {d : Token} {us : List Token} :
      d.isKeyword "DEFAULT" → DefaultValue k us → Clause k (d :: us)
  | currency {c n : Token} :
      c.isKeyword "CURRENCY" → n.kind = .identifier → Clause .amount [c, n]
  | group {k : InputKind} {g n : Token} :
      g.isKeyword "GROUP" → n.kind = .identifier → Clause k [g, n]

/-- Some clause starts with the keyword `w`. -/
def Opens (w : String) (cs : List (List Token)) : Prop := ∃ c ∈ cs, ∃ b ∈ c.head?, b.isKeyword w

/-- The clauses an input of kind `k` cannot do without: a range for a number or a date, a
currency for an amount. -/
def Required (k : InputKind) (cs : List (List Token)) : Prop :=
  ((k = .number ∨ k = .date) → Opens "BETWEEN" cs) ∧ (k = .amount → Opens "CURRENCY" cs)

/-- An option of a fee: `OPTIONAL`, or `CURRENCY` and a code. -/
inductive FeeOption : List Token → Prop where
  | optional {o : Token} : o.isKeyword "OPTIONAL" → FeeOption [o]
  | currency {c n : Token} : c.isKeyword "CURRENCY" → n.kind = .identifier → FeeOption [c, n]

/-- `LET name AS expr` -/
inductive LetPhrase : List Token → Prop where
  | mk {l n a : Token} {us : List Token} :
      l.isKeyword "LET" → n.kind = .identifier → a.isKeyword "AS" → Expression us →
        LetPhrase (l :: n :: a :: us)

/-- `YIELD expr [IF expr]` -/
inductive YieldPhrase : List Token → Prop where
  | always {y : Token} {us : List Token} :
      y.isKeyword "YIELD" → Expression us → YieldPhrase (y :: us)
  | conditional {y i : Token} {us vs : List Token} :
      y.isKeyword "YIELD" → Expression us → i.isKeyword "IF" → Expression vs →
        YieldPhrase (y :: us ++ i :: vs)

/-- The tokens of one declaration. -/
inductive Decl : List Token → Prop where
  | version {v s : Token} : v.isKeyword "VERSION" → s.kind = .string → Decl [v, s]
  | versionLabelled {v s l : Token} :
      v.isKeyword "VERSION" → s.kind = .string → l.kind = .string → Decl [v, s, l]
  | group {g n a s : Token} :
      g.isKeyword "GROUP" → n.kind = .identifier → a.isKeyword "AS" → s.kind = .string →
        Decl [g, n, a, s]
  | groupWeighted {g n a s w : Token} {us : List Token} :
      g.isKeyword "GROUP" → n.kind = .identifier → a.isKeyword "AS" → s.kind = .string →
        w.isKeyword "WEIGHT" → SignedNumber us → Decl (g :: n :: a :: s :: w :: us)
  | input {i n k s e : Token} {kind : InputKind} {cs : List (List Token)} :
      i.isKeyword "INPUT" → n.kind = .identifier → k.isKeyword kind.keyword → s.kind = .string →
        (∀ c ∈ cs, Clause kind c) → Required kind cs → e.isKeyword "ENDINPUT" →
        Decl (i :: n :: k :: s :: cs.flatten ++ [e])
  | fee {f n e : Token} {os ls ys : List (List Token)} :
      f.isKeyword "FEE" → n.kind = .identifier → (∀ o ∈ os, FeeOption o) →
        (∀ l ∈ ls, LetPhrase l) → (∀ y ∈ ys, YieldPhrase y) → e.isKeyword "ENDFEE" →
        Decl (f :: n :: os.flatten ++ ls.flatten ++ ys.flatten ++ [e])
  | ret {r n a s : Token} :
      r.isKeyword "RETURN" → n.kind = .identifier → a.isKeyword "AS" → s.kind = .string →
        Decl [r, n, a, s]
  | retConditional {r n a s i : Token} {us : List Token} :
      r.isKeyword "RETURN" → n.kind = .identifier → a.isKeyword "AS" → s.kind = .string →
        i.isKeyword "IF" → Expression us → Decl (r :: n :: a :: s :: i :: us)
  | complete {v c f n : Token} :
      v.isKeyword "VERIFY" → c.isKeyword "COMPLETE" → f.isKeyword "FEE" → n.kind = .identifier →
        Decl [v, c, f, n]
  | monotonic {v m f n w r t x d : Token} :
      v.isKeyword "VERIFY" → m.isKeyword "MONOTONIC" → f.isKeyword "FEE" →
        n.kind = .identifier → w.isKeyword "WITH" → r.isKeyword "RESPECT" → t.isKeyword "TO" →
        x.kind = .identifier → (d.isKeyword "INCREASING" ∨ d.isKeyword "DECREASING") →
        Decl [v, m, f, n, w, r, t, x, d]

/-- The declaration opens with `VERSION`. -/
def IsVersion (d : List Token) : Bool := d.head?.any (·.isKeyword "VERSION")

/-- A script: declarations one after another, at most one of them a `VERSION`. -/
def Script (ts : List Token) : Prop :=
  ∃ ds : List (List Token), ds.flatten = ts ∧ (∀ d ∈ ds, Decl d) ∧ ds.countP IsVersion ≤ 1

end Grammar

namespace Reader

open Grammar

variable {α β : Type} {eof : Pos} {ts r : List Token} {t : Token} {w : String}

/-! ### What each primitive reader does -/

theorem map_run (f : α → β) (m : Reader α) (ts : List Token) :
    (f <$> m).run eof ts = (m >>= fun a => pure (f a)).run eof ts := rfl

theorem pure_run (a : α) (ts : List Token) :
    (pure a : Reader α).run eof ts = .ok (Parsed.here a) := rfl

theorem keyword_run_cons (w : String) : (keyword w).run eof (t :: r) =
    if t.isKeyword w then .ok (Parsed.next ()) else .error (expectedAt eof (t :: r) w) := by
  by_cases h : t.isKeyword w
  · simp only [keyword, run_bind, peek, Parsed.here, List.head?_cons, h, if_true, advance]
    rfl
  · simp only [keyword, run_bind, peek, Parsed.here, List.head?_cons, h, expected]
    rfl

theorem keyword_run_nil (w : String) : (keyword w).run eof [] = .error (expectedAt eof [] w) :=
  rfl

theorem keyword?_run_cons (w : String) : (keyword? w).run eof (t :: r) =
    if t.isKeyword w then .ok (Parsed.next true) else .ok (Parsed.here false) := by
  by_cases h : t.isKeyword w
  · simp only [keyword?, run_bind, peek, Parsed.here, List.head?_cons, h, if_true, advance]
    rfl
  · simp only [keyword?, run_bind, peek, Parsed.here, List.head?_cons, h]
    rfl

theorem keyword?_run_nil (w : String) : (keyword? w).run eof [] = .ok (Parsed.here false) := rfl

theorem symbol?_run_cons (s : String) : (symbol? s).run eof (t :: r) =
    if t.isSymbol s then .ok (Parsed.next true) else .ok (Parsed.here false) := by
  by_cases h : t.isSymbol s
  · simp only [symbol?, run_bind, peek, Parsed.here, List.head?_cons, h, if_true, advance]
    rfl
  · simp only [symbol?, run_bind, peek, Parsed.here, List.head?_cons, h]
    rfl

theorem symbol?_run_nil (s : String) : (symbol? s).run eof [] = .ok (Parsed.here false) := rfl

theorem ident_run_cons (what : String) : (ident what).run eof (t :: r) =
    if t.kind = .identifier then .ok (Parsed.next t.value)
    else .error (expectedAt eof (t :: r) what) := by
  by_cases h : t.kind = .identifier
  · simp only [ident, run_bind, peek, Parsed.here, List.head?_cons, h, if_true, advance]
    rfl
  · simp only [ident, run_bind, peek, Parsed.here, List.head?_cons, h, expected]
    rfl

theorem ident_run_nil (what : String) :
    (ident what).run eof [] = .error (expectedAt eof [] what) := rfl

theorem string_run_cons (what : String) : (string what).run eof (t :: r) =
    if t.kind = .string then .ok (Parsed.next t.value)
    else .error (expectedAt eof (t :: r) what) := by
  by_cases h : t.kind = .string
  · simp only [string, run_bind, peek, Parsed.here, List.head?_cons, h, if_true, advance]
    rfl
  · simp only [string, run_bind, peek, Parsed.here, List.head?_cons, h, expected]
    rfl

theorem string_run_nil (what : String) :
    (string what).run eof [] = .error (expectedAt eof [] what) := rfl

/-- A date: a string that reads as one, or the fault of the string. -/
theorem date_run_cons : date.run eof (t :: r) =
    if t.kind = .string then
      match Date.ofIsoText? t.value with
      | some d => .ok (Parsed.next d)
      | none => .error (.abort ⟨.invalidDate t.value, t.pos, r⟩)
    else .error (expectedAt eof (t :: r) "a date 'YYYY-MM-DD'") := by
  by_cases h : t.kind = .string
  · cases hd : Date.ofIsoText? t.value <;>
      simp only [date, run_bind, peek, Parsed.here, List.head?_cons, h, if_true, advance, hd] <;>
      rfl
  · simp only [date, run_bind, peek, Parsed.here, List.head?_cons, h, expected]
    rfl

theorem date_run_nil : date.run eof [] = .error (expectedAt eof [] "a date 'YYYY-MM-DD'") := rfl

/-! ### Successful readings, taken apart -/

/-- The reading `m` from `r` succeeded as `p` did: with its value and what it left. -/
def EndsAs (m : Reader β) (eof : Pos) (r : List Token) (p : Parsed ts β) : Prop :=
  ∃ q : Parsed r β, m.run eof r = .ok q ∧ q.value = p.value ∧ q.rest = p.rest

theorem bind_eq_ok {m : Reader α} {f : α → Reader β} {p : Parsed ts β}
    (h : (m >>= f).run eof ts = .ok p) :
    ∃ a : Parsed ts α, m.run eof ts = .ok a ∧ EndsAs (f a.value) eof a.rest p := by
  rw [run_bind] at h
  split at h
  · cases h
  · rename_i a ha
    split at h
    · cases h
    · rename_i b hb
      cases h
      exact ⟨a, ha, b, hb, rfl, rfl⟩

theorem pure_eq_ok {a : α} {p : Parsed ts α} (h : (pure a : Reader α).run eof ts = .ok p) :
    p.value = a ∧ p.rest = ts := by
  rw [pure_run] at h
  cases h
  exact ⟨rfl, rfl⟩

theorem EndsAs.pure {a : α} {p : Parsed ts α} (h : EndsAs (pure a) eof r p) :
    p.value = a ∧ p.rest = r := by
  obtain ⟨q, hq, hv, hr⟩ := h
  obtain ⟨hqv, hqr⟩ := pure_eq_ok hq
  exact ⟨hv ▸ hqv, hr ▸ hqr⟩

theorem EndsAs.bind {m : Reader α} {f : α → Reader β} {p : Parsed ts β}
    (h : EndsAs (m >>= f) eof r p) :
    ∃ a : Parsed r α, m.run eof r = .ok a ∧ EndsAs (f a.value) eof a.rest p := by
  obtain ⟨q, hq, hv, hr⟩ := h
  obtain ⟨a, ha, b, hb, hbv, hbr⟩ := bind_eq_ok hq
  exact ⟨a, ha, b, hb, hbv.trans hv, hbr.trans hr⟩

theorem keyword_eq_ok {p : Parsed ts Unit} (h : (keyword w).run eof ts = .ok p) :
    ∃ t, ts = t :: p.rest ∧ t.isKeyword w := by
  cases ts with
  | nil => cases h
  | cons t r =>
    rw [keyword_run_cons] at h
    split at h
    · rename_i ht
      cases h
      exact ⟨t, rfl, ht⟩
    · cases h

theorem keyword?_eq_ok {p : Parsed ts Bool} (h : (keyword? w).run eof ts = .ok p) :
    (∃ t, ts = t :: p.rest ∧ t.isKeyword w ∧ p.value = true) ∨
      (p.rest = ts ∧ p.value = false ∧ ∀ t ∈ ts.head?, t.isKeyword w = false) := by
  cases ts with
  | nil =>
    rw [keyword?_run_nil] at h
    cases h
    exact .inr ⟨rfl, rfl, fun _ ht => by cases ht⟩
  | cons t r =>
    rw [keyword?_run_cons] at h
    split at h
    · rename_i ht
      cases h
      exact .inl ⟨t, rfl, ht, rfl⟩
    · rename_i ht
      cases h
      exact .inr ⟨rfl, rfl, fun u hu => by cases hu; simpa using ht⟩

theorem ident_eq_ok {what : String} {p : Parsed ts String}
    (h : (ident what).run eof ts = .ok p) :
    ∃ t, ts = t :: p.rest ∧ t.kind = .identifier ∧ p.value = t.value := by
  cases ts with
  | nil => cases h
  | cons t r =>
    rw [ident_run_cons] at h
    split at h
    · rename_i ht
      cases h
      exact ⟨t, rfl, ht, rfl⟩
    · cases h

theorem string_eq_ok {what : String} {p : Parsed ts String}
    (h : (string what).run eof ts = .ok p) :
    ∃ t, ts = t :: p.rest ∧ t.kind = .string ∧ p.value = t.value := by
  cases ts with
  | nil => cases h
  | cons t r =>
    rw [string_run_cons] at h
    split at h
    · rename_i ht
      cases h
      exact ⟨t, rfl, ht, rfl⟩
    · cases h

theorem date_eq_ok {p : Parsed ts Date} (h : date.run eof ts = .ok p) :
    ∃ t, ts = t :: p.rest ∧ DateText t := by
  cases ts with
  | nil => cases h
  | cons t r =>
    rw [date_run_cons] at h
    split at h
    · rename_i hk
      split at h
      · rename_i d hd
        cases h
        exact ⟨t, rfl, hk, d, hd⟩
      · cases h
    · cases h

theorem expr_eq_ok {p : Parsed ts Expr} (h : expr.run eof ts = .ok p) :
    ∃ us, us ++ p.rest = ts ∧ Phrase 1 us p.value :=
  ExprParse.orExpr_consumed h

/-- A signed number read: an optional minus and a number that reads. -/
theorem signedNumber_eq_ok {p : Parsed ts Decimal} (h : signedNumber.run eof ts = .ok p) :
    ∃ us, us ++ p.rest = ts ∧ SignedNumber us := by
  obtain ⟨a, ha, hrest⟩ := bind_eq_ok h
  -- whether a minus was read, the number comes next
  have hnumber :
      ∃ t v, a.rest = t :: p.rest ∧ t.kind = .number ∧ Decimal.ofText t.value = .ok v := by
    revert hrest
    generalize a.value = negative
    generalize a.rest = r
    rintro ⟨q, hq, -, hqr⟩
    rw [← hqr]
    cases r with
    | nil => cases hq
    | cons t r =>
      by_cases hk : t.kind = .number
      · cases hv : Decimal.ofText t.value with
        | error s =>
          simp only [run_bind, peek, Parsed.here, List.head?_cons, hk, if_true, advance, hv,
            stop] at hq
          cases hq
        | ok v =>
          refine ⟨t, v, ?_, hk, hv⟩
          cases negative
          · simp only [run_bind, peek, Parsed.here, List.head?_cons, hk, if_true, advance, hv,
              Bool.false_eq_true, if_false, pure_run] at hq
            cases hq
            rfl
          · cases hn : v.neg with
            | error s =>
              simp only [run_bind, peek, Parsed.here, List.head?_cons, hk, if_true, advance, hv,
                hn, stop] at hq
              cases hq
            | ok w =>
              simp only [run_bind, peek, Parsed.here, List.head?_cons, hk, if_true, advance, hv,
                hn, pure_run] at hq
              cases hq
              rfl
      · simp only [run_bind, peek, Parsed.here, List.head?_cons, hk, expected] at hq
        cases hq
  obtain ⟨t, v, hbt, hk, hv⟩ := hnumber
  rcases ts with _ | ⟨m, r⟩
  · rw [symbol?_run_nil] at ha
    cases ha
    cases hbt
  · rw [symbol?_run_cons] at ha
    split at ha
    · rename_i hm
      cases ha
      have hr : r = t :: p.rest := hbt
      exact ⟨[m, t], by simp [hr], .minus hm hk hv⟩
    · cases ha
      have hr : m :: r = t :: p.rest := hbt
      exact ⟨[t], by simp [hr], .plain hk hv⟩


/-! Each primitive first in a reading that succeeded: what it consumed, and how the reading
went on. -/

namespace EndsAs

variable {p : Parsed ts β}

theorem of_eq_ok {m : Reader β} (h : m.run eof ts = .ok p) : EndsAs m eof ts p :=
  ⟨p, h, rfl, rfl⟩

theorem map {m : Reader α} {f : α → β} (h : EndsAs (f <$> m) eof r p) :
    ∃ a : Parsed r α, m.run eof r = .ok a ∧ p.value = f a.value ∧ p.rest = a.rest := by
  obtain ⟨a, ha, hrest⟩ := (show EndsAs (m >>= fun a => Pure.pure (f a)) eof r p from h).bind
  obtain ⟨hv, hr⟩ := hrest.pure
  exact ⟨a, ha, hv, hr⟩

theorem expected {α : Type} {p : Parsed ts α} {what : String}
    (h : EndsAs (Reader.expected what) eof r p) : False := by
  obtain ⟨q, hq, -⟩ := h
  cases hq

theorem abortAt {α : Type} {p : Parsed ts α} {f : SyntaxFault} {pos : Pos}
    (h : EndsAs (Reader.abortAt f pos) eof r p) : False := by
  obtain ⟨q, hq, -⟩ := h
  cases hq

theorem peek {f : Option Token → Reader β} (h : EndsAs (peek >>= f) eof r p) :
    EndsAs (f r.head?) eof r p := by
  obtain ⟨a, ha, hrest⟩ := h.bind
  cases ha
  exact hrest

theorem advance {f : Unit → Reader β} (h : EndsAs (advance >>= f) eof (t :: r) p) :
    EndsAs (f ()) eof r p := by
  obtain ⟨a, ha, hrest⟩ := h.bind
  cases ha
  exact hrest

theorem keyword {f : Unit → Reader β} (h : EndsAs (keyword w >>= f) eof r p) :
    ∃ t r', r = t :: r' ∧ t.isKeyword w ∧ EndsAs (f ()) eof r' p := by
  obtain ⟨a, ha, hrest⟩ := h.bind
  obtain ⟨t, hr, ht⟩ := keyword_eq_ok ha
  exact ⟨t, a.rest, hr, ht, hrest⟩

theorem keyword? {f : Bool → Reader β} (h : EndsAs (keyword? w >>= f) eof r p) :
    (∃ t r', r = t :: r' ∧ t.isKeyword w ∧ EndsAs (f true) eof r' p) ∨
      ((∀ t ∈ r.head?, t.isKeyword w = false) ∧ EndsAs (f false) eof r p) := by
  obtain ⟨a, ha, hrest⟩ := h.bind
  rcases keyword?_eq_ok ha with ⟨t, hr, ht, hv⟩ | ⟨hr, hv, hn⟩
  · rw [hv] at hrest
    exact .inl ⟨t, a.rest, hr, ht, hrest⟩
  · rw [hv, hr] at hrest
    exact .inr ⟨hn, hrest⟩

theorem ident {what : String} {f : String → Reader β} (h : EndsAs (ident what >>= f) eof r p) :
    ∃ t r', r = t :: r' ∧ t.kind = .identifier ∧ EndsAs (f t.value) eof r' p := by
  obtain ⟨a, ha, hrest⟩ := h.bind
  obtain ⟨t, hr, ht, hv⟩ := ident_eq_ok ha
  rw [hv] at hrest
  exact ⟨t, a.rest, hr, ht, hrest⟩

theorem string {what : String} {f : String → Reader β} (h : EndsAs (string what >>= f) eof r p) :
    ∃ t r', r = t :: r' ∧ t.kind = .string ∧ EndsAs (f t.value) eof r' p := by
  obtain ⟨a, ha, hrest⟩ := h.bind
  obtain ⟨t, hr, ht, hv⟩ := string_eq_ok ha
  rw [hv] at hrest
  exact ⟨t, a.rest, hr, ht, hrest⟩

theorem date {f : Date → Reader β} (h : EndsAs (date >>= f) eof r p) :
    ∃ t r' d, r = t :: r' ∧ DateText t ∧ EndsAs (f d) eof r' p := by
  obtain ⟨a, ha, hrest⟩ := h.bind
  obtain ⟨t, hr, ht⟩ := date_eq_ok ha
  exact ⟨t, a.rest, a.value, hr, ht, hrest⟩

theorem expr {f : Expr → Reader β} (h : EndsAs (expr >>= f) eof r p) :
    ∃ us r' e, r = us ++ r' ∧ Phrase 1 us e ∧ EndsAs (f e) eof r' p := by
  obtain ⟨a, ha, hrest⟩ := h.bind
  obtain ⟨us, hus, he⟩ := expr_eq_ok ha
  exact ⟨us, a.rest, a.value, hus.symm, he, hrest⟩

theorem signedNumber {f : Decimal → Reader β} (h : EndsAs (signedNumber >>= f) eof r p) :
    ∃ us r' v, r = us ++ r' ∧ SignedNumber us ∧ EndsAs (f v) eof r' p := by
  obtain ⟨a, ha, hrest⟩ := h.bind
  obtain ⟨us, hus, hn⟩ := signedNumber_eq_ok ha
  exact ⟨us, a.rest, a.value, hus.symm, hn, hrest⟩

end EndsAs

/-! ### Readings that do not refuse a phrase -/

/-- The reading `r` does not refuse its tokens: it succeeds with a value of which `P` holds and
leaves `rest`, or stops with a decimal signal. -/
def Settles {ts : List Token} (r : Except Stop (Parsed ts α)) (P : α → Prop)
    (rest : List Token) : Prop :=
  (∃ p : Parsed ts α, r = .ok p ∧ P p.value ∧ p.rest = rest) ∨ ∃ s, r = .error (.signal s)

namespace Settles

variable {P : α → Prop} {Q : β → Prop} {rest : List Token}

theorem ok {p : Parsed ts α} (h : P p.value) : Settles (.ok p) P p.rest :=
  .inl ⟨p, rfl, h, rfl⟩

theorem signal (s : Signal) : Settles (.error (.signal s) : Except Stop (Parsed ts α)) P rest :=
  .inr ⟨s, rfl⟩

theorem bind {m : Reader α} {f : α → Reader β} {mid : List Token}
    (hm : Settles (m.run eof ts) P mid) (hf : ∀ a, P a → Settles ((f a).run eof mid) Q rest) :
    Settles ((m >>= f).run eof ts) Q rest := by
  rw [run_bind]
  rcases hm with ⟨a, ha, hPa, rfl⟩ | ⟨s, hs⟩
  · rw [ha]
    rcases hf a.value hPa with ⟨b, hb, hQb, rfl⟩ | ⟨s, hs⟩
    · simp only [hb]
      exact .ok hQb
    · simp only [hs]
      exact .signal s
  · rw [hs]
    exact .signal s

theorem pure {a : α} (h : P a) : Settles ((Pure.pure a : Reader α).run eof ts) P ts :=
  .ok (p := Parsed.here a) h

theorem map {m : Reader α} {f : α → β} (hm : Settles (m.run eof ts) P rest)
    (hf : ∀ a, P a → Q (f a)) : Settles ((f <$> m).run eof ts) Q rest :=
  bind hm fun a ha => pure (hf a ha)

theorem mono {r : Except Stop (Parsed ts α)} {P' : α → Prop} (h : Settles r P rest)
    (hP : ∀ a, P a → P' a) : Settles r P' rest := by
  rcases h with ⟨p, hp, hPp, hr⟩ | h
  · exact .inl ⟨p, hp, hP _ hPp, hr⟩
  · exact .inr h

end Settles

variable {P : β → Prop} {rest : List Token}

theorem peek_bind_settles {f : Option Token → Reader β}
    (h : Settles ((f ts.head?).run eof ts) P rest) : Settles ((peek >>= f).run eof ts) P rest :=
  Settles.bind (P := (· = ts.head?)) (.ok (p := Parsed.here ts.head?) rfl) fun _ ha => ha ▸ h

theorem advance_bind_settles {f : Unit → Reader β} (h : Settles ((f ()).run eof r) P rest) :
    Settles ((advance >>= f).run eof (t :: r)) P rest :=
  Settles.bind (P := fun _ => True) (.ok (p := Parsed.next ()) trivial) fun _ _ => h

theorem keyword_bind_settles {f : Unit → Reader β} (ht : t.isKeyword w)
    (h : Settles ((f ()).run eof r) P rest) : Settles ((keyword w >>= f).run eof (t :: r)) P rest :=
  Settles.bind (P := fun _ => True) (by rw [keyword_run_cons, if_pos ht]; exact .ok trivial)
    fun _ _ => h

theorem keyword?_bind_settles_true {f : Bool → Reader β} (ht : t.isKeyword w)
    (h : Settles ((f true).run eof r) P rest) :
    Settles ((keyword? w >>= f).run eof (t :: r)) P rest :=
  Settles.bind (P := (· = true)) (by rw [keyword?_run_cons, if_pos ht]; exact .ok rfl)
    fun _ hb => hb ▸ h

theorem keyword?_bind_settles_false {f : Bool → Reader β}
    (ht : ∀ t ∈ ts.head?, t.isKeyword w = false) (h : Settles ((f false).run eof ts) P rest) :
    Settles ((keyword? w >>= f).run eof ts) P rest := by
  refine Settles.bind (P := (· = false)) ?_ fun _ hb => hb ▸ h
  cases ts with
  | nil => exact .ok rfl
  | cons u r =>
    rw [keyword?_run_cons, if_neg (by simp [ht u rfl])]
    exact .ok rfl

theorem ident_bind_settles {what : String} {f : String → Reader β} (ht : t.kind = .identifier)
    (h : Settles ((f t.value).run eof r) P rest) :
    Settles ((ident what >>= f).run eof (t :: r)) P rest :=
  Settles.bind (P := (· = t.value)) (by rw [ident_run_cons, if_pos ht]; exact .ok rfl)
    fun _ hv => hv ▸ h

theorem string_bind_settles {what : String} {f : String → Reader β} (ht : t.kind = .string)
    (h : Settles ((f t.value).run eof r) P rest) :
    Settles ((string what >>= f).run eof (t :: r)) P rest :=
  Settles.bind (P := (· = t.value)) (by rw [string_run_cons, if_pos ht]; exact .ok rfl)
    fun _ hv => hv ▸ h

theorem date_bind_settles {f : Date → Reader β} (ht : DateText t)
    (h : ∀ d, Settles ((f d).run eof r) P rest) :
    Settles ((date >>= f).run eof (t :: r)) P rest := by
  obtain ⟨hk, d, hd⟩ := ht
  refine Settles.bind (P := fun _ => True) ?_ fun d _ => h d
  rw [date_run_cons, if_pos hk]
  simp only [hd]
  exact .ok trivial

/-- An expression followed by what ends every operand is read whole. -/
theorem expr_bind_settles {us : List Token} {e : Expr} {f : Expr → Reader β}
    (he : Phrase 1 us e) (hs : ExprParse.Stops 1 r) (h : Settles ((f e).run eof r) P rest) :
    Settles ((expr >>= f).run eof (us ++ r)) P rest := by
  obtain ⟨p, hp, hv, hr⟩ := he.orExpr_yields hs eof
  refine Settles.bind (P := (· = e)) (.inl ⟨p, hp, hv, hr⟩) fun _ hv => hv ▸ h

/-- A signed number is read whole, or its negation stops with a signal. -/
theorem signedNumber_bind_settles {us : List Token} {f : Decimal → Reader β}
    (hn : SignedNumber us) (h : ∀ v, Settles ((f v).run eof r) P rest) :
    Settles ((signedNumber >>= f).run eof (us ++ r)) P rest := by
  refine Settles.bind (P := fun _ => True) ?_ fun v _ => h v
  unfold signedNumber
  cases hn with
  | @plain t v hk hv =>
    have hm : t.isSymbol "-" = false := by simp [Token.isSymbol, hk]
    simp only [List.cons_append, List.nil_append, run_bind, symbol?_run_cons, hm,
      Bool.false_eq_true, if_false, peek, Parsed.here, List.head?_cons, hk, if_true, advance, hv]
    exact .ok trivial
  | @minus m t v hm hk hv =>
    cases hn : v.neg with
    | ok w =>
      simp only [List.cons_append, List.nil_append, run_bind, symbol?_run_cons, hm, if_true,
        Parsed.next, peek, Parsed.here, List.head?_cons, hk, advance, hv, hn, pure_run]
      exact .ok trivial
    | error s =>
      simp only [List.cons_append, List.nil_append, run_bind, symbol?_run_cons, hm, if_true,
        Parsed.next, peek, Parsed.here, List.head?_cons, hk, advance, hv, hn, stop]
      exact .signal s

end Reader

end FeeSchedule
