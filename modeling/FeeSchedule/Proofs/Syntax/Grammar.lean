import FeeSchedule.Proofs.Syntax.Reparse
import FeeSchedule.Schedule.Parse

/-!
# `FeeSchedule.Proofs.Syntax.Grammar`: the expression reader accepts exactly its grammar

The grammar of expressions, as the language defines it:

    or      ::= and {OR and}           and     ::= not {AND not}
    not     ::= NOT not | cmp          cmp     ::= sum [op sum]
    sum     ::= prod {(+ | -) prod}    prod    ::= unary {(* | /) unary}
    unary   ::= - unary | primary
    primary ::= number | TRUE | FALSE | DATE string | name | name ( [or {, or}] ) | ( or )

`Grammar.Phrase L us e` says that the tokens `us` are a phrase of the nonterminal of binding
strength `L` (1 for `or` up to 8 for `primary`) and that `e` is the expression of its
derivation. The repetitions are written left-recursively (`or ::= or OR and | and`), so that
the derivation itself groups `OR`, `AND`, `+`, `-`, `*` and `/` to the left; a comparison has
operands of strength 5 on both sides, so comparisons do not chain; a number must read as a
decimal, a date as a calendar date, and a called name must be a built-in function.

* `orExpr_consumed`: what the reader reads is a phrase whose derivation is what it returns
  (soundness), by the reader's own recursion, with each loop carrying the phrase read so far.
* `Phrase.reads`: the reader reads every phrase, when what follows cannot continue it
  (`Stops`), by induction on the derivation; each production is a lemma about one rule
  (`Reads.or`, ..., `Reads.descend`), and the per-rule success lemmas of
  `FeeSchedule.Proofs.Syntax.Reparse` do the reading.
* `Expr.parse_eq_ok_iff`: a text without lexical faults is read as `e` exactly when its tokens
  are a phrase of the grammar whose derivation is `e`. In particular the grammar is unambiguous.
-/

set_option autoImplicit false

namespace FeeSchedule

namespace Grammar

/-- An argument of a call after the first: the comma before it, its tokens, and the expression
they are a phrase of. -/
structure LaterArgument where
  comma : Token
  tokens : List Token
  expr : Expr

/-- The tokens of the later arguments of a call, each after its comma. -/
def LaterArgument.spell (more : List LaterArgument) : List Token :=
  more.flatMap fun m => m.comma :: m.tokens

open ExprParse in
/-- `Phrase L us e`: the tokens `us` are a phrase of the nonterminal of binding strength `L`
(1 `or`, 2 `and`, 3 `not`, 4 `cmp`, 5 `sum`, 6 `prod`, 7 `unary`, 8 `primary`), and `e` is
the expression its derivation builds. -/
inductive Phrase : Nat → List Token → Expr → Prop where
  /-- `or ::= or OR and` -/
  | or {us vs : List Token} {t : Token} {a b : Expr} :
      Phrase 1 us a → t.isKeyword "OR" → Phrase 2 vs b → Phrase 1 (us ++ t :: vs) (.binary .or a b)
  /-- `and ::= and AND not` -/
  | and {us vs : List Token} {t : Token} {a b : Expr} :
      Phrase 2 us a → t.isKeyword "AND" → Phrase 3 vs b →
        Phrase 2 (us ++ t :: vs) (.binary .and a b)
  /-- `not ::= NOT not` -/
  | not {us : List Token} {t : Token} {a : Expr} :
      t.isKeyword "NOT" → Phrase 3 us a → Phrase 3 (t :: us) (.unary .not a)
  /-- `cmp ::= sum op sum`, the operator a comparison symbol or `CONTAINS` -/
  | comparison {us vs : List Token} {t : Token} {op : BinaryOp} {a b : Expr} :
      Phrase 5 us a → comparisonOp? t = some op → Phrase 5 vs b →
        Phrase 4 (us ++ t :: vs) (.binary op a b)
  /-- `sum ::= sum (+ | -) prod` -/
  | sum {us vs : List Token} {t : Token} {op : BinaryOp} {a b : Expr} :
      Phrase 5 us a → sumOp? t = some op → Phrase 6 vs b → Phrase 5 (us ++ t :: vs) (.binary op a b)
  /-- `prod ::= prod (* | /) unary` -/
  | product {us vs : List Token} {t : Token} {op : BinaryOp} {a b : Expr} :
      Phrase 6 us a → productOp? t = some op → Phrase 7 vs b →
        Phrase 6 (us ++ t :: vs) (.binary op a b)
  /-- `unary ::= - unary` -/
  | neg {us : List Token} {t : Token} {a : Expr} :
      t.isSymbol "-" → Phrase 7 us a → Phrase 7 (t :: us) (.unary .neg a)
  /-- A number that reads as a decimal. -/
  | num {t : Token} {v : Decimal} :
      t.kind = .number → Decimal.ofText t.value = .ok v → Phrase 8 [t] (.num v)
  /-- `TRUE` or `FALSE`. -/
  | bool {t : Token} (b : Bool) : t.isKeyword (if b then "TRUE" else "FALSE") → Phrase 8 [t] (.bool b)
  /-- `DATE` and a string that reads as a calendar date. -/
  | date {t u : Token} {d : Date} :
      t.isKeyword "DATE" → u.kind = .string → Date.ofIsoText? u.value = some d →
        Phrase 8 [t, u] (.date d)
  /-- A name alone: a reference. -/
  | ref {t : Token} : t.kind = .identifier → Phrase 8 [t] (.ref t.value)
  /-- A built-in function called without arguments. -/
  | callEmpty {t u c : Token} {f : Builtin} :
      t.kind = .identifier → Builtin.ofName? t.value = some f → u.isSymbol "(" → c.isSymbol ")" →
        Phrase 8 [t, u, c] (.call f [])
  /-- A built-in function called with arguments, separated by commas. -/
  | call {t u c : Token} {f : Builtin} {first : List Token} {a : Expr}
      {more : List LaterArgument} :
      t.kind = .identifier → Builtin.ofName? t.value = some f → u.isSymbol "(" → Phrase 1 first a →
        (∀ m ∈ more, m.comma.isSymbol ",") → (∀ m ∈ more, Phrase 1 m.tokens m.expr) →
        c.isSymbol ")" →
        Phrase 8 (t :: u :: first ++ LaterArgument.spell more ++ [c])
          (.call f (a :: more.map LaterArgument.expr))
  /-- `( or )` -/
  | paren {us : List Token} {t c : Token} {a : Expr} :
      t.isSymbol "(" → Phrase 1 us a → c.isSymbol ")" → Phrase 8 (t :: us ++ [c]) a
  /-- A phrase of a stronger nonterminal is one of the next weaker: `or ::= and`, ...,
  `unary ::= primary`. -/
  | up {L : Nat} {us : List Token} {a : Expr} : 0 < L → Phrase (L + 1) us a → Phrase L us a

/-- The tokens a phrase of strength `L` can start with: `NOT` up to strength 3, `-` up to 7,
and at every strength a number, `TRUE`, `FALSE`, `DATE`, a name or `(`. -/
def Starts (L : Nat) (t : Token) : Prop :=
  (L ≤ 3 ∧ t.isKeyword "NOT") ∨ (L ≤ 7 ∧ t.isSymbol "-") ∨ t.kind = .number ∨
    t.isKeyword "TRUE" ∨ t.isKeyword "FALSE" ∨ t.isKeyword "DATE" ∨ t.kind = .identifier ∨
    t.isSymbol "("

theorem Starts.mono {L L' : Nat} {t : Token} (h : Starts L t) (hL : L' ≤ L) : Starts L' t := by
  rcases h with ⟨h3, h⟩ | ⟨h7, h⟩ | h
  · exact .inl ⟨by omega, h⟩
  · exact .inr (.inl ⟨by omega, h⟩)
  · exact .inr (.inr h)

theorem Starts.primary {t : Token} (h : t.kind = .number ∨ t.isKeyword "TRUE" ∨
    t.isKeyword "FALSE" ∨ t.isKeyword "DATE" ∨ t.kind = .identifier ∨ t.isSymbol "(") :
    Starts 8 t :=
  .inr (.inr h)

/-- Every phrase has a first token, and it is one that phrases of its strength start with. -/
theorem Phrase.starts {L : Nat} {us : List Token} {e : Expr} (h : Phrase L us e) :
    ∃ t r, us = t :: r ∧ Starts L t := by
  induction h with
  | or _ _ _ ih _ | and _ _ _ ih _ | sum _ _ _ ih _ | product _ _ _ ih _ =>
    obtain ⟨t, r, rfl, ht⟩ := ih
    exact ⟨t, _, List.cons_append .., ht⟩
  | comparison _ _ _ ih _ =>
    obtain ⟨t, r, rfl, ht⟩ := ih
    exact ⟨t, _, List.cons_append .., ht.mono (by decide)⟩
  | @not _ t _ ht _ _ => exact ⟨t, _, rfl, .inl ⟨by decide, ht⟩⟩
  | @neg _ t _ ht _ _ => exact ⟨t, _, rfl, .inr (.inl ⟨by decide, ht⟩)⟩
  | num hk _ => exact ⟨_, _, rfl, .primary (.inl hk)⟩
  | bool b ht =>
    cases b
    · exact ⟨_, _, rfl, .primary (.inr (.inr (.inl ht)))⟩
    · exact ⟨_, _, rfl, .primary (.inr (.inl ht))⟩
  | date ht _ _ => exact ⟨_, _, rfl, .primary (.inr (.inr (.inr (.inl ht))))⟩
  | ref ht | callEmpty ht _ _ _ | call ht _ _ _ _ _ _ =>
    exact ⟨_, _, rfl, .primary (.inr (.inr (.inr (.inr (.inl ht)))))⟩
  | paren ht _ _ _ => exact ⟨_, _, rfl, .primary (.inr (.inr (.inr (.inr (.inr ht)))))⟩
  | up _ _ ih =>
    obtain ⟨t, r, rfl, ht⟩ := ih
    exact ⟨t, r, rfl, ht.mono (by omega)⟩

/-- A phrase never goes above strength 8. -/
theorem Phrase.le_eight {L : Nat} {us : List Token} {e : Expr} (h : Phrase L us e) : L ≤ 8 := by
  induction h with
  | up _ _ ih => omega
  | _ => decide

namespace Starts

variable {L : Nat} {t : Token}

theorem not_not (h : Starts L t) (hL : 4 ≤ L) : t.isKeyword "NOT" = false := by
  rcases h with ⟨h3, -⟩ | ⟨-, h⟩ | h | h | h | h | h | h
  · omega
  all_goals simp_all [Token.isKeyword, Token.isSymbol]

theorem not_minus (h : Starts 8 t) : t.isSymbol "-" = false := by
  rcases h with ⟨h3, -⟩ | ⟨h7, -⟩ | h | h | h | h | h | h
  · omega
  · omega
  all_goals simp_all [Token.isKeyword, Token.isSymbol]

theorem not_close (h : Starts L t) : t.isSymbol ")" = false := by
  rcases h with ⟨-, h⟩ | ⟨-, h⟩ | h | h | h | h | h | h
  all_goals simp_all [Token.isKeyword, Token.isSymbol]

end Starts

end Grammar

namespace Parsed

variable {α β : Type} {ts us : List Token}

@[simp] theorem widen_value (h : us <:+ ts) (p : Parsed us α) : (p.widen h).value = p.value := rfl

@[simp] theorem widen_rest (h : us <:+ ts) (p : Parsed us α) : (p.widen h).rest = p.rest := rfl

@[simp] theorem map_value (f : α → β) (p : Parsed ts α) : (p.map f).value = f p.value := rfl

@[simp] theorem map_rest (f : α → β) (p : Parsed ts α) : (p.map f).rest = p.rest := rfl

@[simp] theorem next_value {t : Token} (a : α) : (Parsed.next a : Parsed (t :: ts) α).value = a :=
  rfl

@[simp] theorem next_rest {t : Token} (a : α) : (Parsed.next a : Parsed (t :: ts) α).rest = ts :=
  rfl

@[simp] theorem here_value (a : α) : (Parsed.here a : Parsed ts α).value = a := rfl

@[simp] theorem here_rest (a : α) : (Parsed.here a : Parsed ts α).rest = ts := rfl

end Parsed

namespace ExprParse

open Grammar

variable {eof : Pos}

/-! ### Soundness: what the reader reads is a phrase -/

/-- A reading at strength `L` consumed a phrase of that strength: the tokens before what it
left are a phrase whose derivation is the expression it returned. -/
def Consumed (L : Nat) {ts : List Token} (p : Parsed ts Expr) : Prop :=
  ∃ us, us ++ p.rest = ts ∧ Phrase L us p.value

/-- After the first argument of a call, the later ones, each after its comma, and what is left:
the arguments the reading returned. -/
def LaterConsumed {ts : List Token} (p : Parsed ts (List Expr)) : Prop :=
  ∃ more : List LaterArgument, LaterArgument.spell more ++ p.rest = ts ∧
    (∀ m ∈ more, m.comma.isSymbol ",") ∧ (∀ m ∈ more, Phrase 1 m.tokens m.expr) ∧
    p.value = more.map LaterArgument.expr

/-- The arguments of a call up to and with its closing parenthesis, read after the name `t` of
the built-in function `f` and the opening parenthesis `u`: together a primary. -/
def CallConsumed (t u : Token) (f : Builtin) {ts : List Token} (p : Parsed ts (List Expr)) :
    Prop :=
  ∃ us, us ++ p.rest = ts ∧ Phrase 8 (t :: u :: us) (.call f p.value)

@[simp] theorem LaterArgument.spell_nil : LaterArgument.spell [] = [] := rfl

@[simp] theorem LaterArgument.spell_cons (m : LaterArgument) (more : List LaterArgument) :
    LaterArgument.spell (m :: more) = m.comma :: (m.tokens ++ LaterArgument.spell more) := rfl

/-- A closing parenthesis read: the first token, which is `)`. -/
theorem closing_ok {ts : List Token} {c : Parsed ts Unit} (h : closing eof ts = .ok c) :
    ∃ q, ts = q :: c.rest ∧ q.isSymbol ")" := by
  unfold closing at h
  split at h
  · split at h
    · rename_i q r hq
      cases h
      exact ⟨q, rfl, hq⟩
    · cases h
  · cases h

/-! Each rule reads a phrase of its strength; a loop reads, after the phrase `us₀` of its left
operand, tokens that extend it to a phrase of the same strength. The proofs follow the rules
case by case, with their measure. -/

mutual

theorem orExpr_consumed {ts : List Token} {p : Parsed ts Expr} (h : orExpr eof ts = .ok p) :
    Consumed 1 p := by
  rw [orExpr] at h
  split at h
  · cases h
  · rename_i l hl
    have := l.le
    split at h
    · cases h
    · rename_i r hr
      cases h
      obtain ⟨us, hus, hl'⟩ := andExpr_consumed hl
      obtain ⟨vs, hvs, hr'⟩ := orTail_consumed (.up (by decide) hl') hr
      exact ⟨us ++ vs, by simp [hvs, hus], hr'⟩
termination_by ts.length * 16 + 12

theorem orTail_consumed {ts us₀ : List Token} {acc : Expr} (hacc : Phrase 1 us₀ acc)
    {p : Parsed ts Expr} (h : orTail eof ts acc = .ok p) :
    ∃ us, us ++ p.rest = ts ∧ Phrase 1 (us₀ ++ us) p.value := by
  rw [orTail.eq_def] at h
  split at h
  · rename_i t r
    split at h
    · rename_i ht
      split at h
      · cases h
      · rename_i a ha
        have := a.le
        split at h
        · cases h
        · rename_i q hq
          cases h
          obtain ⟨vs, hvs, hva⟩ := andExpr_consumed ha
          obtain ⟨ws, hws, hq'⟩ := orTail_consumed (.or hacc ht hva) hq
          exact ⟨t :: vs ++ ws, by simp [hws, hvs], by simpa using hq'⟩
    · cases h
      exact ⟨[], rfl, by simpa using hacc⟩
  · cases h
    exact ⟨[], rfl, by simpa using hacc⟩
termination_by ts.length * 16 + 11
decreasing_by all_goals (subst_vars; simp only [List.length_cons]; omega)

theorem andExpr_consumed {ts : List Token} {p : Parsed ts Expr} (h : andExpr eof ts = .ok p) :
    Consumed 2 p := by
  rw [andExpr] at h
  split at h
  · cases h
  · rename_i l hl
    have := l.le
    split at h
    · cases h
    · rename_i r hr
      cases h
      obtain ⟨us, hus, hl'⟩ := notExpr_consumed hl
      obtain ⟨vs, hvs, hr'⟩ := andTail_consumed (.up (by decide) hl') hr
      exact ⟨us ++ vs, by simp [hvs, hus], hr'⟩
termination_by ts.length * 16 + 10

theorem andTail_consumed {ts us₀ : List Token} {acc : Expr} (hacc : Phrase 2 us₀ acc)
    {p : Parsed ts Expr} (h : andTail eof ts acc = .ok p) :
    ∃ us, us ++ p.rest = ts ∧ Phrase 2 (us₀ ++ us) p.value := by
  rw [andTail.eq_def] at h
  split at h
  · rename_i t r
    split at h
    · rename_i ht
      split at h
      · cases h
      · rename_i a ha
        have := a.le
        split at h
        · cases h
        · rename_i q hq
          cases h
          obtain ⟨vs, hvs, hva⟩ := notExpr_consumed ha
          obtain ⟨ws, hws, hq'⟩ := andTail_consumed (.and hacc ht hva) hq
          exact ⟨t :: vs ++ ws, by simp [hws, hvs], by simpa using hq'⟩
    · cases h
      exact ⟨[], rfl, by simpa using hacc⟩
  · cases h
    exact ⟨[], rfl, by simpa using hacc⟩
termination_by ts.length * 16 + 9
decreasing_by all_goals (subst_vars; simp only [List.length_cons]; omega)

theorem notExpr_consumed {ts : List Token} {p : Parsed ts Expr} (h : notExpr eof ts = .ok p) :
    Consumed 3 p := by
  rw [notExpr.eq_def] at h
  split at h
  · rename_i t r
    split at h
    · rename_i ht
      split at h
      · cases h
      · rename_i a ha
        cases h
        obtain ⟨us, hus, ha'⟩ := notExpr_consumed ha
        exact ⟨t :: us, by simp [hus], .not ht ha'⟩
    · obtain ⟨us, hus, h'⟩ := comparison_consumed h
      exact ⟨us, hus, .up (by decide) h'⟩
  · obtain ⟨us, hus, h'⟩ := comparison_consumed h
    exact ⟨us, hus, .up (by decide) h'⟩
termination_by ts.length * 16 + 8
decreasing_by all_goals (subst_vars; simp only [List.length_cons, List.length_nil]; omega)

theorem comparison_consumed {ts : List Token} {p : Parsed ts Expr}
    (h : comparison eof ts = .ok p) : Consumed 4 p := by
  rw [comparison] at h
  split at h
  · cases h
  · rename_i l hl
    obtain ⟨us, hus, hl'⟩ := sumExpr_consumed hl
    split at h
    · rename_i t r hrest
      have hlen : r.length < ts.length := by
        have := l.le
        rw [hrest] at this
        simp at this
        omega
      dsimp only at h
      split at h
      · rename_i op hop
        split at h
        · cases h
        · rename_i rhs hrhs
          cases h
          obtain ⟨vs, hvs, hr'⟩ := sumExpr_consumed hrhs
          refine ⟨us ++ t :: vs, ?_, .comparison hl' hop hr'⟩
          simp [hvs, ← hus, hrest]
      · cases h
        exact ⟨us, hus, .up (by decide) hl'⟩
    · cases h
      exact ⟨us, hus, .up (by decide) hl'⟩
termination_by ts.length * 16 + 7

theorem sumExpr_consumed {ts : List Token} {p : Parsed ts Expr} (h : sumExpr eof ts = .ok p) :
    Consumed 5 p := by
  rw [sumExpr] at h
  split at h
  · cases h
  · rename_i l hl
    have := l.le
    split at h
    · cases h
    · rename_i r hr
      cases h
      obtain ⟨us, hus, hl'⟩ := product_consumed hl
      obtain ⟨vs, hvs, hr'⟩ := sumTail_consumed (.up (by decide) hl') hr
      exact ⟨us ++ vs, by simp [hvs, hus], hr'⟩
termination_by ts.length * 16 + 6

theorem sumTail_consumed {ts us₀ : List Token} {acc : Expr} (hacc : Phrase 5 us₀ acc)
    {p : Parsed ts Expr} (h : sumTail eof ts acc = .ok p) :
    ∃ us, us ++ p.rest = ts ∧ Phrase 5 (us₀ ++ us) p.value := by
  rw [sumTail.eq_def] at h
  split at h
  · rename_i t r
    dsimp only at h
    split at h
    · rename_i op hop
      split at h
      · cases h
      · rename_i a ha
        have := a.le
        split at h
        · cases h
        · rename_i q hq
          cases h
          obtain ⟨vs, hvs, hva⟩ := product_consumed ha
          obtain ⟨ws, hws, hq'⟩ := sumTail_consumed (.sum hacc hop hva) hq
          exact ⟨t :: vs ++ ws, by simp [hws, hvs], by simpa using hq'⟩
    · cases h
      exact ⟨[], rfl, by simpa using hacc⟩
  · cases h
    exact ⟨[], rfl, by simpa using hacc⟩
termination_by ts.length * 16 + 5
decreasing_by all_goals (subst_vars; simp only [List.length_cons]; omega)

theorem product_consumed {ts : List Token} {p : Parsed ts Expr} (h : product eof ts = .ok p) :
    Consumed 6 p := by
  rw [product] at h
  split at h
  · cases h
  · rename_i l hl
    have := l.le
    split at h
    · cases h
    · rename_i r hr
      cases h
      obtain ⟨us, hus, hl'⟩ := unary_consumed hl
      obtain ⟨vs, hvs, hr'⟩ := productTail_consumed (.up (by decide) hl') hr
      exact ⟨us ++ vs, by simp [hvs, hus], hr'⟩
termination_by ts.length * 16 + 4

theorem productTail_consumed {ts us₀ : List Token} {acc : Expr} (hacc : Phrase 6 us₀ acc)
    {p : Parsed ts Expr} (h : productTail eof ts acc = .ok p) :
    ∃ us, us ++ p.rest = ts ∧ Phrase 6 (us₀ ++ us) p.value := by
  rw [productTail.eq_def] at h
  split at h
  · rename_i t r
    dsimp only at h
    split at h
    · rename_i op hop
      split at h
      · cases h
      · rename_i a ha
        have := a.le
        split at h
        · cases h
        · rename_i q hq
          cases h
          obtain ⟨vs, hvs, hva⟩ := unary_consumed ha
          obtain ⟨ws, hws, hq'⟩ := productTail_consumed (.product hacc hop hva) hq
          exact ⟨t :: vs ++ ws, by simp [hws, hvs], by simpa using hq'⟩
    · cases h
      exact ⟨[], rfl, by simpa using hacc⟩
  · cases h
    exact ⟨[], rfl, by simpa using hacc⟩
termination_by ts.length * 16 + 3
decreasing_by all_goals (subst_vars; simp only [List.length_cons]; omega)

theorem unary_consumed {ts : List Token} {p : Parsed ts Expr} (h : unary eof ts = .ok p) :
    Consumed 7 p := by
  rw [unary.eq_def] at h
  split at h
  · rename_i t r
    split at h
    · rename_i ht
      split at h
      · cases h
      · rename_i a ha
        cases h
        obtain ⟨us, hus, ha'⟩ := unary_consumed ha
        exact ⟨t :: us, by simp [hus], .neg ht ha'⟩
    · obtain ⟨us, hus, h'⟩ := primary_consumed h
      exact ⟨us, hus, .up (by decide) h'⟩
  · obtain ⟨us, hus, h'⟩ := primary_consumed h
    exact ⟨us, hus, .up (by decide) h'⟩
termination_by ts.length * 16 + 2
decreasing_by all_goals (subst_vars; simp only [List.length_cons, List.length_nil]; omega)

theorem primary_consumed {ts : List Token} {p : Parsed ts Expr} (h : primary eof ts = .ok p) :
    Consumed 8 p := by
  rw [primary.eq_def] at h
  split at h
  · cases h
  · rename_i t r
    split at h
    · -- a number
      rename_i hk
      split at h
      · rename_i v hv
        cases h
        exact ⟨[t], rfl, .num hk hv⟩
      · cases h
    split at h
    · rename_i ht
      cases h
      exact ⟨[t], rfl, .bool true ht⟩
    split at h
    · rename_i ht
      cases h
      exact ⟨[t], rfl, .bool false ht⟩
    split at h
    · -- a date
      rename_i ht
      split at h
      · rename_i u r'
        split at h
        · rename_i hu
          split at h
          · rename_i d hd
            cases h
            exact ⟨[t, u], rfl, .date ht hu hd⟩
          · cases h
        · cases h
      · cases h
    split at h
    · -- a reference or a call
      rename_i hk
      split at h
      · rename_i u r'
        split at h
        · rename_i hu
          split at h
          · cases h
          · rename_i f hf
            split at h
            · cases h
            · rename_i a ha
              cases h
              obtain ⟨us, hus, hcall⟩ := callRest_consumed hk hf hu ha
              exact ⟨t :: u :: us, by simp [hus], hcall⟩
        · cases h
          exact ⟨[t], rfl, .ref hk⟩
      · cases h
        exact ⟨[t], rfl, .ref hk⟩
    split at h
    · -- a parenthesised expression
      rename_i ho
      split at h
      · cases h
      · rename_i a ha
        split at h
        · cases h
        · rename_i c hc
          cases h
          obtain ⟨us, hus, ha'⟩ := orExpr_consumed ha
          obtain ⟨q, hq, hcq⟩ := closing_ok hc
          refine ⟨t :: us ++ [q], ?_, .paren ho ha' hcq⟩
          simp [← hus, hq]
    · cases h
termination_by ts.length * 16 + 1
decreasing_by all_goals (subst_vars; simp only [List.length_cons]; omega)

theorem callRest_consumed {t u : Token} {f : Builtin} (ht : t.kind = .identifier)
    (hf : Builtin.ofName? t.value = some f) (hu : u.isSymbol "(") {ts : List Token}
    {p : Parsed ts (List Expr)} (h : callRest eof ts = .ok p) : CallConsumed t u f p := by
  rw [callRest.eq_def] at h
  split at h
  · rename_i q r
    split at h
    · rename_i hq
      cases h
      exact ⟨[q], rfl, .callEmpty ht hf hu hq⟩
    · exact argsClosed_consumed ht hf hu h
  · exact argsClosed_consumed ht hf hu h
termination_by ts.length * 16 + 15
decreasing_by all_goals (subst_vars; simp only [List.length_cons, List.length_nil]; omega)

theorem argsClosed_consumed {t u : Token} {f : Builtin} (ht : t.kind = .identifier)
    (hf : Builtin.ofName? t.value = some f) (hu : u.isSymbol "(") {ts : List Token}
    {p : Parsed ts (List Expr)} (h : argsClosed eof ts = .ok p) : CallConsumed t u f p := by
  rw [argsClosed] at h
  split at h
  · cases h
  · rename_i a ha
    split at h
    · cases h
    · rename_i c hc
      cases h
      obtain ⟨first, e, more, hts, hfirst, hcomma, hphrases, hvalue⟩ := args_consumed ha
      obtain ⟨q, hq, hcq⟩ := closing_ok hc
      refine ⟨first ++ LaterArgument.spell more ++ [q], ?_, ?_⟩
      · simp [← hts, hq]
      · simpa [hvalue] using Phrase.call ht hf hu hfirst hcomma hphrases hcq
termination_by ts.length * 16 + 14

theorem args_consumed {ts : List Token} {p : Parsed ts (List Expr)} (h : args eof ts = .ok p) :
    ∃ first a more, first ++ LaterArgument.spell more ++ p.rest = ts ∧ Phrase 1 first a ∧
      (∀ m ∈ more, m.comma.isSymbol ",") ∧ (∀ m ∈ more, Phrase 1 m.tokens m.expr) ∧
      p.value = a :: more.map LaterArgument.expr := by
  rw [args] at h
  split at h
  · cases h
  · rename_i a ha
    have := a.le
    split at h
    · cases h
    · rename_i r hr
      cases h
      obtain ⟨us, hus, ha'⟩ := orExpr_consumed ha
      obtain ⟨more, hmore, hcomma, hphrases, hvalue⟩ := argsTail_consumed hr
      exact ⟨us, a.value, more, by simp [hmore, hus], ha', hcomma, hphrases, by simp [hvalue]⟩
termination_by ts.length * 16 + 13

theorem argsTail_consumed {ts : List Token} {p : Parsed ts (List Expr)}
    (h : argsTail eof ts = .ok p) : LaterConsumed p := by
  rw [argsTail.eq_def] at h
  split at h
  · rename_i t r
    split at h
    · rename_i ht
      split at h
      · cases h
      · rename_i a ha
        have := a.le
        split at h
        · cases h
        · rename_i q hq
          cases h
          obtain ⟨us, hus, ha'⟩ := orExpr_consumed ha
          obtain ⟨more, hmore, hcomma, hphrases, hvalue⟩ := argsTail_consumed hq
          refine ⟨⟨t, us, a.value⟩ :: more, by simp [hmore, hus], ?_, ?_, by simp [hvalue]⟩
          · simpa [ht] using hcomma
          · simpa [ha'] using hphrases
    · cases h
      exact ⟨[], rfl, by simp, by simp, rfl⟩
  · cases h
    exact ⟨[], rfl, by simp, by simp, rfl⟩
termination_by ts.length * 16 + 1
decreasing_by all_goals (subst_vars; simp only [List.length_cons]; omega)

end

/-! ### Completeness: the reader reads every phrase -/


theorem Token.lexeme_of_isKeyword {t : Token} {w : String} (h : t.isKeyword w) :
    t.lexeme = (.keyword, w) := by
  simp only [Token.isKeyword, Bool.and_eq_true, beq_iff_eq] at h
  simp [Token.lexeme, h.1, h.2]

theorem Token.lexeme_of_isSymbol {t : Token} {w : String} (h : t.isSymbol w) :
    t.lexeme = (.symbol, w) := by
  simp only [Token.isSymbol, Bool.and_eq_true, beq_iff_eq] at h
  simp [Token.lexeme, h.1, h.2]

/-- A keyword ends the operands read below the strength of the operator it is: `OR` those
below 2, `AND` below 3, `CONTAINS` below 5, and any other keyword every operand. -/
theorem ends_of_keyword {t : Token} {k : Nat} (hk : t.kind = .keyword)
    (hor : k ≤ 1 → t.value ≠ "OR") (hand : k ≤ 2 → t.value ≠ "AND")
    (hcontains : k ≤ 4 → t.value ≠ "CONTAINS") : Ends k t where
  paren := by simp [Token.isSymbol, hk]
  product _ := by simp [productOp?, Token.isSymbol, hk]
  sum _ := by simp [sumOp?, Token.isSymbol, hk]
  comparison h := by simp [comparisonOp?, Token.isKeyword, hk, hcontains h]
  and h := by simp [Token.isKeyword, hk, hand h]
  or h := by simp [Token.isKeyword, hk, hor h]

/-- A symbol ends the operands read below the strength of the operator it is, and `(` none. -/
theorem ends_of_symbol {t : Token} {k : Nat} (hk : t.kind = .symbol) (hparen : t.value ≠ "(")
    (hproduct : k ≤ 6 → t.value ≠ "*" ∧ t.value ≠ "/")
    (hsum : k ≤ 5 → t.value ≠ "+" ∧ t.value ≠ "-")
    (hcomparison : k ≤ 4 → BinaryOp.ofComparisonSymbol? t.value = none) : Ends k t where
  paren := by simp [Token.isSymbol, hk, hparen]
  product h := by simp [productOp?, Token.isSymbol, (hproduct h).1, (hproduct h).2]
  sum h := by simp [sumOp?, Token.isSymbol, (hsum h).1, (hsum h).2]
  comparison h := by simp [comparisonOp?, hk, hcomparison h]
  and _ := by simp [Token.isKeyword, hk]
  or _ := by simp [Token.isKeyword, hk]

theorem ends_of_or {t : Token} (ht : t.isKeyword "OR") : Ends 2 t := by
  simp only [Token.isKeyword, Bool.and_eq_true, beq_iff_eq] at ht
  exact ends_of_keyword ht.1 (fun h => absurd h (by decide)) (by simp [ht.2]) (by simp [ht.2])

theorem ends_of_and {t : Token} (ht : t.isKeyword "AND") : Ends 3 t := by
  simp only [Token.isKeyword, Bool.and_eq_true, beq_iff_eq] at ht
  exact ends_of_keyword ht.1 (fun h => absurd h (by decide)) (fun h => absurd h (by decide))
    (by simp [ht.2])

/-- The operator of a comparison is no operator of greater strength. -/
theorem ends_of_comparisonOp {t : Token} {op : BinaryOp} (h : comparisonOp? t = some op) :
    Ends 5 t := by
  unfold comparisonOp? at h
  split at h
  · rename_i hk
    have hne : ∀ s, BinaryOp.ofComparisonSymbol? s = none → t.value ≠ s := by
      rintro s hs rfl
      rw [hs] at h
      cases h
    exact ends_of_symbol hk (hne "(" rfl) (fun _ => ⟨hne "*" rfl, hne "/" rfl⟩)
      (fun _ => ⟨hne "+" rfl, hne "-" rfl⟩) (fun h => absurd h (by decide))
  · split at h
    · rename_i hc
      simp only [Token.isKeyword, Bool.and_eq_true, beq_iff_eq] at hc
      exact ends_of_keyword hc.1 (by simp [hc.2]) (by simp [hc.2])
        (fun h => absurd h (by decide))
    · cases h

theorem ends_of_sumOp {t : Token} {op : BinaryOp} (h : sumOp? t = some op) : Ends 6 t := by
  have hv : t.kind = .symbol ∧ (t.value = "+" ∨ t.value = "-") := by
    unfold sumOp? at h
    simp only [Token.isSymbol, Bool.and_eq_true, beq_iff_eq] at h
    split at h
    · rename_i hp
      exact ⟨hp.1, .inl hp.2⟩
    · split at h
      · rename_i hm
        exact ⟨hm.1, .inr hm.2⟩
      · cases h
  obtain ⟨hk, hv | hv⟩ := hv <;>
    exact ends_of_symbol hk (by simp [hv]) (fun _ => by simp [hv])
      (fun h => absurd h (by decide)) (fun h => absurd h (by decide))

theorem ends_of_productOp {t : Token} {op : BinaryOp} (h : productOp? t = some op) :
    Ends 7 t := by
  have hv : t.kind = .symbol ∧ (t.value = "*" ∨ t.value = "/") := by
    unfold productOp? at h
    simp only [Token.isSymbol, Bool.and_eq_true, beq_iff_eq] at h
    split at h
    · rename_i hp
      exact ⟨hp.1, .inl hp.2⟩
    · split at h
      · rename_i hm
        exact ⟨hm.1, .inr hm.2⟩
      · cases h
  obtain ⟨hk, hv | hv⟩ := hv <;>
    exact ends_of_symbol hk (by simp [hv]) (fun h => absurd h (by decide))
      (fun h => absurd h (by decide)) (fun h => absurd h (by decide))

/-- A closing parenthesis first ends every operand. -/
theorem stops_close {c : Token} (hc : c.isSymbol ")") (rest : List Token) : Stops 1 (c :: rest) :=
  fun t ht => by
    cases ht
    exact ends_of_closer _ (.inl (Token.lexeme_of_isSymbol hc))

/-- Read at strength `L`, the phrase `us` followed by `rest` gives `e`, and the reading goes
on as the rule's tail goes on after `e`, when `rest` does not continue the operand. -/
def Reads (L : Nat) (us : List Token) (e : Expr) : Prop :=
  ∀ eof rest, Stops (follow L) rest → ∀ b rest', Yields (tail L eof rest e) b rest' →
    Yields (rule L eof (us ++ rest)) b rest'

namespace Reads

variable {us vs : List Token} {t : Token} {a b e : Expr}

/-- A phrase of `or` followed by what ends every operand is read whole. -/
theorem yields_or (h : Reads 1 us e) {rest : List Token} (hs : Stops 1 rest) (eof : Pos) :
    Yields (orExpr eof (us ++ rest)) e rest :=
  h eof rest (hs.mono (by decide)) e rest (orTail_stop fun t ht => (hs t ht).or (Nat.le_refl _))

theorem or (h₁ : Reads 1 us a) (ht : t.isKeyword "OR") (h₂ : Reads 2 vs b) :
    Reads 1 (us ++ t :: vs) (.binary .or a b) := by
  intro eof rest hs c rest' hc
  rw [List.append_assoc, List.cons_append]
  -- the left operand is followed by the `OR`, which the tail of `orExpr` reads
  refine h₁ eof (t :: (vs ++ rest)) (fun u hu => ?_) c rest' ?_
  · cases hu
    exact ends_of_or ht
  · have hand : Yields (andTail eof rest b) b rest :=
      andTail_stop fun u hu => (hs u hu).and (Nat.le_refl _)
    exact orTail_step ht (h₂ eof rest (hs.mono (by decide)) b rest hand) hc

theorem and (h₁ : Reads 2 us a) (ht : t.isKeyword "AND") (h₂ : Reads 3 vs b) :
    Reads 2 (us ++ t :: vs) (.binary .and a b) := by
  intro eof rest hs c rest' hc
  rw [List.append_assoc, List.cons_append]
  refine h₁ eof (t :: (vs ++ rest)) (fun u hu => ?_) c rest' ?_
  · cases hu
    exact ends_of_and ht
  · exact andTail_step ht (h₂ eof rest hs b rest (Yields.ok _)) hc

theorem not (ht : t.isKeyword "NOT") (h : Reads 3 us a) : Reads 3 (t :: us) (.unary .not a) := by
  intro eof rest hs c rest' hc
  rw [(here_yields hc).1, (here_yields hc).2]
  exact notExpr_not ht (h eof rest hs a rest (Yields.ok _))

theorem comparison {op : BinaryOp} (h₁ : Reads 5 us a) (hop : comparisonOp? t = some op)
    (h₂ : Reads 5 vs b) : Reads 4 (us ++ t :: vs) (.binary op a b) := by
  intro eof rest hs c rest' hc
  rw [(here_yields hc).1, (here_yields hc).2, List.append_assoc, List.cons_append]
  -- a comparison does not chain: the left operand ends at the operator, the right one at `rest`
  have hends := ends_of_comparisonOp hop
  have hleft : Yields (sumExpr eof (us ++ t :: (vs ++ rest))) a (t :: (vs ++ rest)) :=
    h₁ eof _ (fun u hu => by cases hu; exact hends.mono (by decide)) a _
      (sumTail_stop fun u hu => by cases hu; exact hends.sum (Nat.le_refl _))
  have hright : Yields (sumExpr eof (vs ++ rest)) b rest :=
    h₂ eof rest (hs.mono (by decide)) b rest (sumTail_stop fun u hu => (hs u hu).sum (by decide))
  exact comparison_op hleft hop hright

theorem sum {op : BinaryOp} (h₁ : Reads 5 us a) (hop : sumOp? t = some op) (h₂ : Reads 6 vs b) :
    Reads 5 (us ++ t :: vs) (.binary op a b) := by
  intro eof rest hs c rest' hc
  rw [List.append_assoc, List.cons_append]
  refine h₁ eof (t :: (vs ++ rest)) (fun u hu => ?_) c rest' ?_
  · cases hu
    exact ends_of_sumOp hop
  · have hprod : Yields (productTail eof rest b) b rest :=
      productTail_stop fun u hu => (hs u hu).product (by decide)
    exact sumTail_step hop (h₂ eof rest (hs.mono (by decide)) b rest hprod) hc

theorem product {op : BinaryOp} (h₁ : Reads 6 us a) (hop : productOp? t = some op)
    (h₂ : Reads 7 vs b) : Reads 6 (us ++ t :: vs) (.binary op a b) := by
  intro eof rest hs c rest' hc
  rw [List.append_assoc, List.cons_append]
  refine h₁ eof (t :: (vs ++ rest)) (fun u hu => ?_) c rest' ?_
  · cases hu
    exact ends_of_productOp hop
  · exact productTail_step hop (h₂ eof rest hs b rest (Yields.ok _)) hc

theorem neg (ht : t.isSymbol "-") (h : Reads 7 us a) : Reads 7 (t :: us) (.unary .neg a) := by
  intro eof rest hs c rest' hc
  rw [(here_yields hc).1, (here_yields hc).2]
  exact unary_neg ht (h eof rest hs a rest (Yields.ok _))

theorem num {v : Decimal} (hk : t.kind = .number) (hv : Decimal.ofText t.value = .ok v) :
    Reads 8 [t] (.num v) := by
  intro eof rest hs c rest' hc
  rw [(here_yields hc).1, (here_yields hc).2]
  exact primary_num hk hv

theorem bool (v : Bool) (ht : t.isKeyword (if v then "TRUE" else "FALSE")) :
    Reads 8 [t] (.bool v) := by
  intro eof rest hs c rest' hc
  rw [(here_yields hc).1, (here_yields hc).2]
  exact primary_bool v (Token.lexeme_of_isKeyword ht)

theorem date {u : Token} {d : Date} (ht : t.isKeyword "DATE") (hu : u.kind = .string)
    (hd : Date.ofIsoText? u.value = some d) : Reads 8 [t, u] (.date d) := by
  intro eof rest hs c rest' hc
  rw [(here_yields hc).1, (here_yields hc).2]
  exact primary_date (Token.lexeme_of_isKeyword ht) hu hd

theorem ref (hk : t.kind = .identifier) : Reads 8 [t] (.ref t.value) := by
  intro eof rest hs c rest' hc
  rw [(here_yields hc).1, (here_yields hc).2]
  -- no parenthesis follows, so the name is a reference and not a call
  exact primary_ref hk fun u hu => (hs u hu).paren

theorem callEmpty {u c : Token} {f : Builtin} (hk : t.kind = .identifier)
    (hf : Builtin.ofName? t.value = some f) (hu : u.isSymbol "(") (hc : c.isSymbol ")") :
    Reads 8 [t, u, c] (.call f []) := by
  intro eof rest hs b rest' hb
  rw [(here_yields hb).1, (here_yields hb).2]
  exact primary_call hk hu hf (callRest_empty hc)

/-- After the first argument, the later ones are followed by a comma or by what ends them all. -/
theorem stops_later {more : List LaterArgument} (hcomma : ∀ m ∈ more, m.comma.isSymbol ",")
    {rest : List Token} (hrest : Stops 1 rest) : Stops 1 (LaterArgument.spell more ++ rest) := by
  cases more with
  | nil => simpa using hrest
  | cons m more =>
    intro u hu
    cases hu
    exact ends_of_closer _ (.inr (Token.lexeme_of_isSymbol (hcomma m List.mem_cons_self)))

/-- The later arguments of a call, each after its comma, are read by `argsTail` up to what ends
them all. -/
theorem argsTail_later {eof : Pos} :
    ∀ {more : List LaterArgument}, (∀ m ∈ more, m.comma.isSymbol ",") →
      (∀ m ∈ more, Reads 1 m.tokens m.expr) → ∀ {rest : List Token}, Stops 1 rest →
      (∀ u ∈ rest.head?, u.isSymbol "," = false) →
      Yields (argsTail eof (LaterArgument.spell more ++ rest)) (more.map LaterArgument.expr) rest
  | [], _, _, _, _, hend => argsTail_stop hend
  | m :: more, hcomma, hreads, rest, hrest, hend => by
    have hmore := stops_later (fun x hx => hcomma x (List.mem_cons_of_mem m hx)) hrest
    have hm : Yields (orExpr eof (m.tokens ++ (LaterArgument.spell more ++ rest))) m.expr
        (LaterArgument.spell more ++ rest) :=
      (hreads m List.mem_cons_self).yields_or hmore eof
    have hts : LaterArgument.spell (m :: more) ++ rest =
        m.comma :: (m.tokens ++ (LaterArgument.spell more ++ rest)) := by simp
    rw [hts, List.map_cons]
    exact argsTail_step (hcomma m List.mem_cons_self) hm
      (argsTail_later (fun x hx => hcomma x (List.mem_cons_of_mem m hx))
        (fun x hx => hreads x (List.mem_cons_of_mem m hx)) hrest hend)

theorem call {u c : Token} {f : Builtin} {first : List Token} {more : List LaterArgument}
    (hk : t.kind = .identifier) (hf : Builtin.ofName? t.value = some f) (hu : u.isSymbol "(")
    (hfirst : Reads 1 first a) (hstart : ∃ q r, first = q :: r ∧ q.isSymbol ")" = false)
    (hcomma : ∀ m ∈ more, m.comma.isSymbol ",") (hmore : ∀ m ∈ more, Reads 1 m.tokens m.expr)
    (hc : c.isSymbol ")") :
    Reads 8 (t :: u :: first ++ LaterArgument.spell more ++ [c])
      (.call f (a :: more.map LaterArgument.expr)) := by
  intro eof rest hs b rest' hb
  rw [(here_yields hb).1, (here_yields hb).2]
  have hts : t :: u :: first ++ LaterArgument.spell more ++ [c] ++ rest =
      t :: u :: (first ++ (LaterArgument.spell more ++ c :: rest)) := by simp
  rw [hts]
  have hclose := stops_close hc rest
  have hlater := stops_later hcomma hclose
  -- the first argument does not start with the closing parenthesis, so the call has arguments
  obtain ⟨q, r, rfl, hq⟩ := hstart
  refine primary_call hk hu hf (callRest_args (fun q' hq' => by cases hq'; exact hq) ?_ hc)
  exact args_yields (hfirst.yields_or hlater eof)
    (argsTail_later hcomma hmore hclose fun u hu => by
      cases hu
      simp only [Token.isSymbol, Bool.and_eq_true, beq_iff_eq] at hc
      simp [Token.isSymbol, hc.2])

theorem paren {c : Token} (ho : t.isSymbol "(") (h : Reads 1 us a) (hc : c.isSymbol ")") :
    Reads 8 (t :: us ++ [c]) a := by
  intro eof rest hs b rest' hb
  rw [(here_yields hb).1, (here_yields hb).2]
  have hts : t :: us ++ [c] ++ rest = t :: (us ++ c :: rest) := by simp
  rw [hts]
  exact primary_paren ho (h.yields_or (stops_close hc rest) eof) hc

/-! From one strength to the next weaker: the rule reads what the stronger rule reads, and its
tail, if any, then stops. `NOT` and `-` are looked at first, so a phrase of `cmp` or of
`primary` must not start with them. -/

theorem or_of_and (h : Reads 2 us e) : Reads 1 us e := by
  intro eof rest hs b rest' hb
  have hand : Yields (andTail eof rest e) e rest := andTail_stop fun t ht => (hs t ht).and (Nat.le_refl _)
  exact orExpr_yields (h eof rest (hs.mono (by decide)) e rest hand) hb

theorem and_of_not (h : Reads 3 us e) : Reads 2 us e := by
  intro eof rest hs b rest' hb
  exact andExpr_yields (h eof rest hs e rest (Yields.ok _)) hb

theorem not_of_comparison {r : List Token} (hn : t.isKeyword "NOT" = false) (h : Reads 4 (t :: r) e) :
    Reads 3 (t :: r) e := by
  intro eof rest hs b rest' hb
  rw [(here_yields hb).1, (here_yields hb).2]
  exact notExpr_comparison (fun u hu => by cases hu; exact hn)
    (h eof rest (hs.mono (by decide)) e rest (Yields.ok _))

theorem comparison_of_sum (h : Reads 5 us e) : Reads 4 us e := by
  intro eof rest hs b rest' hb
  rw [(here_yields hb).1, (here_yields hb).2]
  have hsum : Yields (sumTail eof rest e) e rest := sumTail_stop fun t ht => (hs t ht).sum (by decide)
  exact comparison_plain (h eof rest (hs.mono (by decide)) e rest hsum)
    fun t ht => (hs t ht).comparison (Nat.le_refl _)

theorem sum_of_product (h : Reads 6 us e) : Reads 5 us e := by
  intro eof rest hs b rest' hb
  have hprod : Yields (productTail eof rest e) e rest :=
    productTail_stop fun t ht => (hs t ht).product (Nat.le_refl _)
  exact sumExpr_yields (h eof rest (hs.mono (by decide)) e rest hprod) hb

theorem product_of_unary (h : Reads 7 us e) : Reads 6 us e := by
  intro eof rest hs b rest' hb
  exact product_yields (h eof rest hs e rest (Yields.ok _)) hb

theorem unary_of_primary {r : List Token} (hn : t.isSymbol "-" = false) (h : Reads 8 (t :: r) e) :
    Reads 7 (t :: r) e := by
  intro eof rest hs b rest' hb
  rw [(here_yields hb).1, (here_yields hb).2]
  exact unary_primary (fun u hu => by cases hu; exact hn)
    (h eof rest (hs.mono (by decide)) e rest (Yields.ok _))

/-- One strength to the next weaker, for a phrase that starts as phrases of the stronger one
do. -/
theorem descend {L : Nat} (hL : 0 < L) (h8 : L + 1 ≤ 8) (h : Reads (L + 1) us e)
    (hstart : ∃ t r, us = t :: r ∧ Starts (L + 1) t) : Reads L us e := by
  obtain ⟨t, r, rfl, ht⟩ := hstart
  rcases (show L = 1 ∨ L = 2 ∨ L = 3 ∨ L = 4 ∨ L = 5 ∨ L = 6 ∨ L = 7 by omega) with
    rfl | rfl | rfl | rfl | rfl | rfl | rfl
  · exact or_of_and h
  · exact and_of_not h
  · exact not_of_comparison (ht.not_not (by decide)) h
  · exact comparison_of_sum h
  · exact sum_of_product h
  · exact product_of_unary h
  · exact unary_of_primary ht.not_minus h

end Reads

end ExprParse

namespace Grammar

open ExprParse

/-- Every phrase is read by the rule of its strength, by induction on its derivation. -/
theorem Phrase.reads {L : Nat} {us : List Token} {e : Expr} (h : Phrase L us e) : Reads L us e := by
  induction h with
  | or _ ht _ ih₁ ih₂ => exact ih₁.or ht ih₂
  | and _ ht _ ih₁ ih₂ => exact ih₁.and ht ih₂
  | not ht _ ih => exact .not ht ih
  | comparison _ hop _ ih₁ ih₂ => exact ih₁.comparison hop ih₂
  | sum _ hop _ ih₁ ih₂ => exact ih₁.sum hop ih₂
  | product _ hop _ ih₁ ih₂ => exact ih₁.product hop ih₂
  | neg ht _ ih => exact .neg ht ih
  | num hk hv => exact .num hk hv
  | bool v ht => exact .bool v ht
  | date ht hu hd => exact .date ht hu hd
  | ref hk => exact .ref hk
  | callEmpty hk hf hu hc => exact .callEmpty hk hf hu hc
  | call hk hf hu hfirst hcomma _ hc ihfirst ihmore =>
    obtain ⟨q, r, hqr, hq⟩ := hfirst.starts
    exact .call hk hf hu ihfirst ⟨q, r, hqr, hq.not_close⟩ hcomma ihmore hc
  | paren ho _ hc ih => exact .paren ho ih hc
  | up hL h ih => exact ih.descend hL h.le_eight h.starts

/-- The tokens of a phrase of `or`, followed by what ends every operand, are read as its
derivation. -/
theorem Phrase.orExpr_yields {us : List Token} {e : Expr} (h : Phrase 1 us e) {rest : List Token}
    (hs : Stops 1 rest) (eof : Pos) : Yields (orExpr eof (us ++ rest)) e rest :=
  h.reads.yields_or hs eof

end Grammar

/-- A text without lexical faults is read as the expression `e` exactly when its tokens are a
phrase of the expression grammar whose derivation is `e`. -/
theorem Expr.parse_eq_ok_iff {text : List CodePoint} (hlex : (tokenize text).errors = [])
    (e : Expr) : Expr.parse text = .ok e ↔ Grammar.Phrase 1 (tokenize text).tokens e := by
  simp only [Expr.parse, hlex]
  constructor
  · intro h
    split at h
    · cases h
    · cases h
    · rename_i p hp
      split at h
      · rename_i hrest
        cases h
        obtain ⟨us, hus, hphrase⟩ := ExprParse.orExpr_consumed hp
        rw [hrest, List.append_nil] at hus
        exact hus ▸ hphrase
      · cases h
  · intro h
    have hall := h.orExpr_yields (show ExprParse.Stops 1 [] from fun _ ht => by cases ht)
      (tokenize text).finish
    rw [List.append_nil] at hall
    obtain ⟨p, hp, rfl, hrest⟩ := hall
    simp [hp, hrest]

end FeeSchedule
