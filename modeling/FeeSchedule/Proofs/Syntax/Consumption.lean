import FeeSchedule.Proofs.Syntax.Acceptance

/-!
# `FeeSchedule.Proofs.Syntax.Consumption`: what a reader takes before it stops

A reader stops in one of three ways: it ends with a value, it stops at a syntax fault, or it
stops with a decimal signal. In the first two it leaves a suffix of its tokens, and where
reading resumes after a broken declaration depends on what was taken before that suffix. This
module says, for each reader, which tokens it can take, ended or stopped:

* `TakenFrom P ts left`: `left` is `ts` less a prefix of tokens of `P`. `Leaves R r` says that
  what the result `r` left satisfies `R` (a signal is not looked at), and `Reader.Takes P m`
  that the reader `m` takes only tokens of `P`.
* `ExprParse.orExpr_takes` and its companions, one for each rule of the expression grammar:
  an expression takes only numbers, names, strings, symbols and the keywords of expressions
  (`Token.InExpression`), so no keyword that opens a declaration or ends a block, and it
  never stops with a signal (`LeavesQuietly`).
* The readers of one-line declarations take no keyword that opens a declaration
  (`Read.version_takes`, `Read.group_takes`, `Read.ret_takes`), except that a `VERIFY` takes
  the `FEE` right after its `COMPLETE` or `MONOTONIC` (`Read.directive_leaves`).
* The readers of blocks take their end keyword only last (`Read.input_leaves`,
  `Read.fee_leaves`): the loops of their clauses and bodies never take it.
-/

set_option autoImplicit false

namespace FeeSchedule

/-! ### Tokens taken -/

/-- `left` is what remains of `ts` once a prefix of tokens of `P` is taken. -/
def TakenFrom (P : Token → Prop) (ts left : List Token) : Prop :=
  ∃ us, us ++ left = ts ∧ ∀ u ∈ us, P u

namespace TakenFrom

variable {P Q : Token → Prop} {ts mid left : List Token}

theorem refl (P : Token → Prop) (ts : List Token) : TakenFrom P ts ts :=
  ⟨[], rfl, nofun⟩

theorem cons {t : Token} (ht : P t) (h : TakenFrom P ts left) : TakenFrom P (t :: ts) left := by
  obtain ⟨us, rfl, hus⟩ := h
  exact ⟨t :: us, rfl, List.forall_mem_cons.mpr ⟨ht, hus⟩⟩

theorem trans (h₁ : TakenFrom P ts mid) (h₂ : TakenFrom P mid left) : TakenFrom P ts left := by
  obtain ⟨us, rfl, hus⟩ := h₁
  obtain ⟨vs, rfl, hvs⟩ := h₂
  refine ⟨us ++ vs, List.append_assoc _ _ _, fun u hu => ?_⟩
  rcases List.mem_append.mp hu with hu | hu
  · exact hus u hu
  · exact hvs u hu

theorem mono (h : TakenFrom P ts left) (hPQ : ∀ t, P t → Q t) : TakenFrom Q ts left := by
  obtain ⟨us, hus, hP⟩ := h
  exact ⟨us, hus, fun u hu => hPQ u (hP u hu)⟩

end TakenFrom

/-- What a syntax fault left satisfies `R`. A signal stops all reading and is not looked at. -/
def Stop.Leaves (R : List Token → Prop) : Stop → Prop
  | .abort a => R a.rest
  | .signal _ => True

/-- What a reading left, ended or stopped at a syntax fault, satisfies `R`. -/
def Leaves {α : Type} {ts : List Token} (R : List Token → Prop) :
    Except Stop (Parsed ts α) → Prop
  | .ok p => R p.rest
  | .error e => e.Leaves R

namespace Leaves

variable {α : Type} {ts : List Token} {R : List Token → Prop} {x : Except Stop (Parsed ts α)}

theorem ok_rest {p : Parsed ts α} (h : Leaves R x) (hx : x = .ok p) : R p.rest := by
  subst hx
  exact h

theorem error {e : Stop} (h : Leaves R x) (hx : x = .error e) : e.Leaves R := by
  subst hx
  exact h

end Leaves

theorem Stop.Leaves.mono {e : Stop} {R S : List Token → Prop} (h : e.Leaves R)
    (hRS : ∀ l, R l → S l) : e.Leaves S := by
  cases e with
  | abort a => exact hRS _ h
  | signal s => trivial

theorem Leaves.mono {α : Type} {ts : List Token} {R S : List Token → Prop}
    {x : Except Stop (Parsed ts α)} (h : Leaves R x) (hRS : ∀ l, R l → S l) : Leaves S x := by
  cases x with
  | ok p => exact hRS _ h
  | error e => exact Stop.Leaves.mono h hRS

/-- A fault that left a suffix of `mid`, where `mid` is left of `ts`, left a suffix of `ts`. -/
theorem Stop.Leaves.taken {P : Token → Prop} {e : Stop} {ts mid : List Token}
    (h : e.Leaves (TakenFrom P mid)) (h₀ : TakenFrom P ts mid) : e.Leaves (TakenFrom P ts) := by
  cases e with
  | abort a => exact h₀.trans h
  | signal s => trivial

theorem expectedAt_leaves (P : Token → Prop) (eof : Pos) (ts : List Token) (what : String) :
    (expectedAt eof ts what).Leaves (TakenFrom P ts) :=
  TakenFrom.refl P ts

/-! ### Readings that never signal -/

/-- A syntax fault whose leftover satisfies `R`. A signal is not one. -/
def Stop.FaultLeaves (R : List Token → Prop) : Stop → Prop
  | .abort a => R a.rest
  | .signal _ => False

/-- What a reading left, ended or stopped, satisfies `R`, and it did not stop with a signal.
Expressions are read so: an unreadable number in an expression is a syntax fault. -/
def LeavesQuietly {α : Type} {ts : List Token} (R : List Token → Prop) :
    Except Stop (Parsed ts α) → Prop
  | .ok p => R p.rest
  | .error e => e.FaultLeaves R

theorem Stop.FaultLeaves.leaves {e : Stop} {R : List Token → Prop} (h : e.FaultLeaves R) :
    e.Leaves R := by
  cases e with
  | abort a => exact h
  | signal s => trivial

theorem Stop.FaultLeaves.taken {P : Token → Prop} {e : Stop} {ts mid : List Token}
    (h : e.FaultLeaves (TakenFrom P mid)) (h₀ : TakenFrom P ts mid) :
    e.FaultLeaves (TakenFrom P ts) := by
  cases e with
  | abort a => exact h₀.trans h
  | signal s => exact h

namespace LeavesQuietly

variable {α : Type} {ts : List Token} {R : List Token → Prop} {x : Except Stop (Parsed ts α)}

theorem ok_rest {p : Parsed ts α} (h : LeavesQuietly R x) (hx : x = .ok p) : R p.rest := by
  subst hx
  exact h

theorem error {e : Stop} (h : LeavesQuietly R x) (hx : x = .error e) : e.FaultLeaves R := by
  subst hx
  exact h

theorem leaves (h : LeavesQuietly R x) : Leaves R x := by
  cases x with
  | ok p => exact h
  | error e => exact Stop.FaultLeaves.leaves h

end LeavesQuietly

/-! ### Classes of tokens -/

/-- The token is no keyword of `ws`. -/
def Token.Avoids (ws : List String) (t : Token) : Prop := t.kind = .keyword → t.value ∉ ws

/-- The keywords of expressions. -/
def exprKeywords : List String := ["OR", "AND", "NOT", "CONTAINS", "TRUE", "FALSE", "DATE"]

/-- A token an expression may take: any but a keyword outside `exprKeywords`. -/
def Token.InExpression (t : Token) : Prop := t.kind = .keyword → t.value ∈ exprKeywords

namespace Token

variable {t : Token} {ws : List String} {w : String}

theorem avoids_of_kind (h : t.kind ≠ .keyword) (ws : List String) : t.Avoids ws :=
  fun hk => absurd hk h

theorem avoids_of_isKeyword (h : t.isKeyword w) (hw : w ∉ ws) : t.Avoids ws := by
  simp only [Token.isKeyword, Bool.and_eq_true, beq_iff_eq] at h
  exact fun _ => h.2 ▸ hw

theorem inExpression_of_kind (h : t.kind ≠ .keyword) : t.InExpression :=
  fun hk => absurd hk h

theorem inExpression_of_isKeyword (h : t.isKeyword w) (hw : w ∈ exprKeywords) :
    t.InExpression := by
  simp only [Token.isKeyword, Bool.and_eq_true, beq_iff_eq] at h
  exact fun _ => h.2 ▸ hw

theorem InExpression.avoids (h : t.InExpression) (hws : ∀ w ∈ exprKeywords, w ∉ ws) :
    t.Avoids ws :=
  fun hk => hws _ (h hk)

theorem kind_ne_keyword_of_isSymbol {s : String} (h : t.isSymbol s) : t.kind ≠ .keyword := by
  simp only [Token.isSymbol, Bool.and_eq_true, beq_iff_eq] at h
  rw [h.1]
  decide

end Token

/-! ### Expressions take only tokens of expressions -/

open Token

namespace ExprParse

theorem closing_takes (eof : Pos) (ts : List Token) :
    LeavesQuietly (TakenFrom InExpression ts) (closing eof ts) := by
  unfold closing
  split
  · rename_i t r
    split
    · rename_i ht
      exact .cons (inExpression_of_kind (kind_ne_keyword_of_isSymbol ht)) (.refl _ _)
    · exact .refl _ _
  · exact .refl _ _

/-! Each rule takes what the rules it calls take, after the operator or bracket it reads itself,
which is a symbol or a keyword of expressions, and stops only where they stop or at a syntax
fault of its own: an unreadable number in `primary` is the fault `invalidNumber`, not a signal.
The proofs follow the definitions case by case, with their measure. -/

mutual

theorem orExpr_takes (eof : Pos) (ts : List Token) :
    LeavesQuietly (TakenFrom InExpression ts) (orExpr eof ts) := by
  rw [orExpr]
  split
  · rename_i e he
    exact (andExpr_takes eof ts).error he
  · rename_i l hl
    have := l.le
    have hl' := (andExpr_takes eof ts).ok_rest hl
    split
    · rename_i e he
      exact ((orTail_takes eof l.rest l.value).error he).taken hl'
    · rename_i r hr
      exact hl'.trans ((orTail_takes eof l.rest l.value).ok_rest hr)
termination_by ts.length * 16 + 12

theorem orTail_takes (eof : Pos) (ts : List Token) (acc : Expr) :
    LeavesQuietly (TakenFrom InExpression ts) (orTail eof ts acc) := by
  rw [orTail.eq_def]
  split
  · rename_i t r
    split
    · rename_i ht
      have hr : TakenFrom InExpression (t :: r) r :=
        .cons (inExpression_of_isKeyword ht (by simp [exprKeywords])) (.refl _ _)
      split
      · rename_i e he
        exact ((andExpr_takes eof r).error he).taken hr
      · rename_i a ha
        have := a.le
        have ha' := hr.trans ((andExpr_takes eof r).ok_rest ha)
        split
        · rename_i e he
          exact ((orTail_takes eof a.rest _).error he).taken ha'
        · rename_i r' hr'
          exact ha'.trans ((orTail_takes eof a.rest _).ok_rest hr')
    · exact .refl _ _
  · exact .refl _ _
termination_by ts.length * 16 + 11
decreasing_by all_goals (subst_vars; simp only [List.length_cons]; omega)

theorem andExpr_takes (eof : Pos) (ts : List Token) :
    LeavesQuietly (TakenFrom InExpression ts) (andExpr eof ts) := by
  rw [andExpr]
  split
  · rename_i e he
    exact (notExpr_takes eof ts).error he
  · rename_i l hl
    have := l.le
    have hl' := (notExpr_takes eof ts).ok_rest hl
    split
    · rename_i e he
      exact ((andTail_takes eof l.rest l.value).error he).taken hl'
    · rename_i r hr
      exact hl'.trans ((andTail_takes eof l.rest l.value).ok_rest hr)
termination_by ts.length * 16 + 10

theorem andTail_takes (eof : Pos) (ts : List Token) (acc : Expr) :
    LeavesQuietly (TakenFrom InExpression ts) (andTail eof ts acc) := by
  rw [andTail.eq_def]
  split
  · rename_i t r
    split
    · rename_i ht
      have hr : TakenFrom InExpression (t :: r) r :=
        .cons (inExpression_of_isKeyword ht (by simp [exprKeywords])) (.refl _ _)
      split
      · rename_i e he
        exact ((notExpr_takes eof r).error he).taken hr
      · rename_i a ha
        have := a.le
        have ha' := hr.trans ((notExpr_takes eof r).ok_rest ha)
        split
        · rename_i e he
          exact ((andTail_takes eof a.rest _).error he).taken ha'
        · rename_i r' hr'
          exact ha'.trans ((andTail_takes eof a.rest _).ok_rest hr')
    · exact .refl _ _
  · exact .refl _ _
termination_by ts.length * 16 + 9
decreasing_by all_goals (subst_vars; simp only [List.length_cons]; omega)

theorem notExpr_takes (eof : Pos) (ts : List Token) :
    LeavesQuietly (TakenFrom InExpression ts) (notExpr eof ts) := by
  rw [notExpr.eq_def]
  split
  · rename_i t r
    split
    · rename_i ht
      have hr : TakenFrom InExpression (t :: r) r :=
        .cons (inExpression_of_isKeyword ht (by simp [exprKeywords])) (.refl _ _)
      split
      · rename_i e he
        exact ((notExpr_takes eof r).error he).taken hr
      · rename_i a ha
        have ha' := (notExpr_takes eof r).ok_rest ha
        exact hr.trans ha'
    · exact comparison_takes eof (t :: r)
  · exact comparison_takes eof []
termination_by ts.length * 16 + 8
decreasing_by all_goals (subst_vars; simp only [List.length_cons, List.length_nil]; omega)

theorem comparison_takes (eof : Pos) (ts : List Token) :
    LeavesQuietly (TakenFrom InExpression ts) (comparison eof ts) := by
  rw [comparison]
  split
  · rename_i e he
    exact (sumExpr_takes eof ts).error he
  · rename_i l hl
    have hl' := (sumExpr_takes eof ts).ok_rest hl
    split
    · rename_i t r hrest
      have hlen : r.length < ts.length := by
        have := l.le
        rw [hrest] at this
        simp at this
        omega
      dsimp only
      split
      · rename_i op hop
        -- the operator is a symbol or `CONTAINS`
        have ht : t.InExpression := by
          by_cases hs : t.kind = .symbol
          · exact inExpression_of_kind (by rw [hs]; decide)
          · simp only [hs, if_false] at hop
            split at hop
            · exact inExpression_of_isKeyword ‹_› (by simp [exprKeywords])
            · cases hop
        have hr : TakenFrom InExpression ts r := hl'.trans (hrest ▸ .cons ht (.refl _ _))
        split
        · rename_i e he
          exact ((sumExpr_takes eof r).error he).taken hr
        · rename_i rhs hrhs
          exact hr.trans ((sumExpr_takes eof r).ok_rest hrhs)
      · exact hl'
    · exact hl'
termination_by ts.length * 16 + 7

theorem sumExpr_takes (eof : Pos) (ts : List Token) :
    LeavesQuietly (TakenFrom InExpression ts) (sumExpr eof ts) := by
  rw [sumExpr]
  split
  · rename_i e he
    exact (product_takes eof ts).error he
  · rename_i l hl
    have := l.le
    have hl' := (product_takes eof ts).ok_rest hl
    split
    · rename_i e he
      exact ((sumTail_takes eof l.rest l.value).error he).taken hl'
    · rename_i r hr
      exact hl'.trans ((sumTail_takes eof l.rest l.value).ok_rest hr)
termination_by ts.length * 16 + 6

theorem sumTail_takes (eof : Pos) (ts : List Token) (acc : Expr) :
    LeavesQuietly (TakenFrom InExpression ts) (sumTail eof ts acc) := by
  rw [sumTail.eq_def]
  split
  · rename_i t r
    dsimp only
    split
    · rename_i op hop
      -- the operator is the symbol `+` or `-`
      have ht : t.InExpression := by
        apply inExpression_of_kind
        split at hop
        · exact kind_ne_keyword_of_isSymbol ‹_›
        · split at hop
          · exact kind_ne_keyword_of_isSymbol ‹_›
          · cases hop
      have hr : TakenFrom InExpression (t :: r) r := .cons ht (.refl _ _)
      split
      · rename_i e he
        exact ((product_takes eof r).error he).taken hr
      · rename_i a ha
        have := a.le
        have ha' := hr.trans ((product_takes eof r).ok_rest ha)
        split
        · rename_i e he
          exact ((sumTail_takes eof a.rest _).error he).taken ha'
        · rename_i r' hr'
          exact ha'.trans ((sumTail_takes eof a.rest _).ok_rest hr')
    · exact .refl _ _
  · exact .refl _ _
termination_by ts.length * 16 + 5
decreasing_by all_goals (subst_vars; simp only [List.length_cons]; omega)

theorem product_takes (eof : Pos) (ts : List Token) :
    LeavesQuietly (TakenFrom InExpression ts) (product eof ts) := by
  rw [product]
  split
  · rename_i e he
    exact (unary_takes eof ts).error he
  · rename_i l hl
    have := l.le
    have hl' := (unary_takes eof ts).ok_rest hl
    split
    · rename_i e he
      exact ((productTail_takes eof l.rest l.value).error he).taken hl'
    · rename_i r hr
      exact hl'.trans ((productTail_takes eof l.rest l.value).ok_rest hr)
termination_by ts.length * 16 + 4

theorem productTail_takes (eof : Pos) (ts : List Token) (acc : Expr) :
    LeavesQuietly (TakenFrom InExpression ts) (productTail eof ts acc) := by
  rw [productTail.eq_def]
  split
  · rename_i t r
    dsimp only
    split
    · rename_i op hop
      -- the operator is the symbol `*` or `/`
      have ht : t.InExpression := by
        apply inExpression_of_kind
        split at hop
        · exact kind_ne_keyword_of_isSymbol ‹_›
        · split at hop
          · exact kind_ne_keyword_of_isSymbol ‹_›
          · cases hop
      have hr : TakenFrom InExpression (t :: r) r := .cons ht (.refl _ _)
      split
      · rename_i e he
        exact ((unary_takes eof r).error he).taken hr
      · rename_i a ha
        have := a.le
        have ha' := hr.trans ((unary_takes eof r).ok_rest ha)
        split
        · rename_i e he
          exact ((productTail_takes eof a.rest _).error he).taken ha'
        · rename_i r' hr'
          exact ha'.trans ((productTail_takes eof a.rest _).ok_rest hr')
    · exact .refl _ _
  · exact .refl _ _
termination_by ts.length * 16 + 3
decreasing_by all_goals (subst_vars; simp only [List.length_cons]; omega)

theorem unary_takes (eof : Pos) (ts : List Token) :
    LeavesQuietly (TakenFrom InExpression ts) (unary eof ts) := by
  rw [unary.eq_def]
  split
  · rename_i t r
    split
    · rename_i ht
      have hr : TakenFrom InExpression (t :: r) r :=
        .cons (inExpression_of_kind (kind_ne_keyword_of_isSymbol ht)) (.refl _ _)
      split
      · rename_i e he
        exact ((unary_takes eof r).error he).taken hr
      · rename_i a ha
        have ha' := (unary_takes eof r).ok_rest ha
        exact hr.trans ha'
    · exact primary_takes eof (t :: r)
  · exact primary_takes eof []
termination_by ts.length * 16 + 2
decreasing_by all_goals (subst_vars; simp only [List.length_cons, List.length_nil]; omega)

theorem primary_takes (eof : Pos) (ts : List Token) :
    LeavesQuietly (TakenFrom InExpression ts) (primary eof ts) := by
  rw [primary.eq_def]
  split
  · exact .refl _ _
  · rename_i t r
    split
    · -- a number, read or not
      rename_i hn
      have hr : TakenFrom InExpression (t :: r) r :=
        .cons (inExpression_of_kind (by rw [hn]; decide)) (.refl _ _)
      split
      · exact hr
      · exact hr
    split
    · exact .cons (inExpression_of_isKeyword ‹_› (by simp [exprKeywords])) (.refl _ _)
    split
    · exact .cons (inExpression_of_isKeyword ‹_› (by simp [exprKeywords])) (.refl _ _)
    split
    · -- a date: the keyword, then a string
      rename_i hd
      have hr : TakenFrom InExpression (t :: r) r :=
        .cons (inExpression_of_isKeyword hd (by simp [exprKeywords])) (.refl _ _)
      split
      · rename_i s r'
        split
        · rename_i hs
          have hr' : TakenFrom InExpression (t :: s :: r') r' :=
            hr.trans (.cons (inExpression_of_kind (by rw [hs]; decide)) (.refl _ _))
          split
          · exact hr'
          · exact hr'
        · exact hr
      · exact hr
    split
    · -- a reference or a call: the name, then `(` and the arguments
      rename_i hi
      have hr : TakenFrom InExpression (t :: r) r :=
        .cons (inExpression_of_kind (by rw [hi]; decide)) (.refl _ _)
      split
      · rename_i p r'
        split
        · rename_i hp
          have hr' : TakenFrom InExpression (t :: p :: r') r' :=
            hr.trans (.cons (inExpression_of_kind (kind_ne_keyword_of_isSymbol hp)) (.refl _ _))
          split
          · exact hr'
          · split
            · rename_i e he
              exact ((callRest_takes eof r').error he).taken hr'
            · rename_i a ha
              exact hr'.trans ((callRest_takes eof r').ok_rest ha)
        · exact hr
      · exact hr
    split
    · -- a bracketed expression
      rename_i hp
      have hr : TakenFrom InExpression (t :: r) r :=
        .cons (inExpression_of_kind (kind_ne_keyword_of_isSymbol hp)) (.refl _ _)
      split
      · rename_i e he
        exact ((orExpr_takes eof r).error he).taken hr
      · rename_i a ha
        have := a.le
        have ha' := hr.trans ((orExpr_takes eof r).ok_rest ha)
        split
        · rename_i e he
          exact ((closing_takes eof a.rest).error he).taken ha'
        · rename_i c hc
          exact ha'.trans ((closing_takes eof a.rest).ok_rest hc)
    · exact .refl _ _
termination_by ts.length * 16 + 1
decreasing_by all_goals (subst_vars; simp only [List.length_cons]; omega)

theorem callRest_takes (eof : Pos) (ts : List Token) :
    LeavesQuietly (TakenFrom InExpression ts) (callRest eof ts) := by
  rw [callRest.eq_def]
  split
  · rename_i q r
    split
    · rename_i hq
      exact .cons (inExpression_of_kind (kind_ne_keyword_of_isSymbol hq)) (.refl _ _)
    · exact argsClosed_takes eof (q :: r)
  · exact argsClosed_takes eof []
termination_by ts.length * 16 + 15
decreasing_by all_goals (subst_vars; simp only [List.length_cons, List.length_nil]; omega)

theorem argsClosed_takes (eof : Pos) (ts : List Token) :
    LeavesQuietly (TakenFrom InExpression ts) (argsClosed eof ts) := by
  rw [argsClosed]
  split
  · rename_i e he
    exact (args_takes eof ts).error he
  · rename_i a ha
    have ha' := (args_takes eof ts).ok_rest ha
    split
    · rename_i e he
      exact ((closing_takes eof a.rest).error he).taken ha'
    · rename_i c hc
      exact ha'.trans ((closing_takes eof a.rest).ok_rest hc)
termination_by ts.length * 16 + 14

theorem args_takes (eof : Pos) (ts : List Token) :
    LeavesQuietly (TakenFrom InExpression ts) (args eof ts) := by
  rw [args]
  split
  · rename_i e he
    exact (orExpr_takes eof ts).error he
  · rename_i a ha
    have := a.le
    have ha' := (orExpr_takes eof ts).ok_rest ha
    split
    · rename_i e he
      exact ((argsTail_takes eof a.rest).error he).taken ha'
    · rename_i r hr
      exact ha'.trans ((argsTail_takes eof a.rest).ok_rest hr)
termination_by ts.length * 16 + 13

theorem argsTail_takes (eof : Pos) (ts : List Token) :
    LeavesQuietly (TakenFrom InExpression ts) (argsTail eof ts) := by
  rw [argsTail.eq_def]
  split
  · rename_i t r
    split
    · rename_i ht
      have hr : TakenFrom InExpression (t :: r) r :=
        .cons (inExpression_of_kind (kind_ne_keyword_of_isSymbol ht)) (.refl _ _)
      split
      · rename_i e he
        exact ((orExpr_takes eof r).error he).taken hr
      · rename_i a ha
        have := a.le
        have ha' := hr.trans ((orExpr_takes eof r).ok_rest ha)
        split
        · rename_i e he
          exact ((argsTail_takes eof a.rest).error he).taken ha'
        · rename_i r' hr'
          exact ha'.trans ((argsTail_takes eof a.rest).ok_rest hr')
    · exact .refl _ _
  · exact .refl _ _
termination_by ts.length * 16 + 1
decreasing_by all_goals (subst_vars; simp only [List.length_cons]; omega)

end

end ExprParse

/-! ### Readers -/

/-- The reader leaves, of any tokens `ts`, what `R ts` allows, ended or stopped. -/
def Reader.LeavesBy {α : Type} (R : List Token → List Token → Prop) (m : Reader α) : Prop :=
  ∀ eof ts, Leaves (R ts) (m.run eof ts)

/-- The reader takes only tokens of `P`. -/
def Reader.Takes {α : Type} (P : Token → Prop) (m : Reader α) : Prop :=
  m.LeavesBy (TakenFrom P)

namespace Reader

variable {α β : Type} {P Q : Token → Prop}

/-- One reader after another leaves what the first leaves, or what the second leaves of
that. -/
theorem LeavesBy.bind {R S T : List Token → List Token → Prop} {m : Reader α}
    {f : α → Reader β} (hm : m.LeavesBy R) (hf : ∀ a, (f a).LeavesBy S)
    (hR : ∀ ts l, R ts l → T ts l) (hRS : ∀ ts mid l, R ts mid → S mid l → T ts l) :
    (m >>= f).LeavesBy T := by
  intro eof ts
  rw [Reader.run_bind]
  split
  · rename_i e he
    exact ((hm eof ts).error he).mono (hR ts)
  · rename_i a ha
    have ha' := (hm eof ts).ok_rest ha
    split
    · rename_i e he
      exact ((hf a.value eof a.rest).error he).mono fun l hl => hRS ts a.rest l ha' hl
    · rename_i b hb
      exact hRS ts a.rest b.rest ha' ((hf a.value eof a.rest).ok_rest hb)

/-- What follows a look at the first token reads on from the same tokens, knowing it. -/
theorem LeavesBy.peek_bind {R : List Token → List Token → Prop} {f : Option Token → Reader β}
    (h : ∀ eof ts, Leaves (R ts) ((f ts.head?).run eof ts)) : (peek >>= f).LeavesBy R := by
  intro eof ts
  rw [Reader.run_bind]
  simp only [peek, Parsed.here]
  split
  · rename_i e he
    exact (h eof ts).error he
  · rename_i b hb
    exact (h eof ts).ok_rest hb

/-- Consuming a token that `R` allows to take, then reading on. -/
theorem LeavesBy.advance_bind {R : List Token → List Token → Prop} {g : Unit → Reader β}
    (hg : (g ()).LeavesBy R) (eof : Pos) {t : Token} {r : List Token}
    (ht : ∀ l, R r l → R (t :: r) l) :
    Leaves (R (t :: r)) ((advance >>= g).run eof (t :: r)) := by
  rw [Reader.run_bind]
  simp only [advance, Parsed.next]
  split
  · rename_i e he
    exact ((hg eof r).error he).mono ht
  · rename_i b hb
    exact ht _ ((hg eof r).ok_rest hb)

namespace Takes

theorem bind {m : Reader α} {f : α → Reader β} (hm : m.Takes P) (hf : ∀ a, (f a).Takes P) :
    (m >>= f).Takes P :=
  LeavesBy.bind hm hf (fun _ _ h => h) fun _ _ _ h₁ h₂ => h₁.trans h₂

theorem pure (a : α) : (Pure.pure a : Reader α).Takes P := fun _ ts => TakenFrom.refl P ts

theorem map {m : Reader α} {f : α → β} (hm : m.Takes P) : (f <$> m).Takes P :=
  bind hm fun _ => pure _

theorem expected (what : String) : (Reader.expected what : Reader α).Takes P :=
  fun eof ts => expectedAt_leaves P eof ts what

theorem abortAt (f : SyntaxFault) (pos : Pos) : (Reader.abortAt f pos : Reader α).Takes P :=
  fun _ ts => TakenFrom.refl P ts

theorem stop_signal (s : Signal) : (Reader.stop (.signal s) : Reader α).Takes P :=
  fun _ _ => trivial

theorem mono {m : Reader α} (hm : m.Takes P) (h : ∀ t, P t → Q t) : m.Takes Q :=
  fun eof ts => (hm eof ts).mono fun _ hl => hl.mono h

end Takes

open Token

variable {ws : List String} {w : String}

theorem keyword_takes (h : ∀ t : Token, t.isKeyword w → P t) : (keyword w).Takes P := by
  intro eof ts
  cases ts with
  | nil =>
    rw [keyword_run_nil]
    exact expectedAt_leaves _ _ _ _
  | cons t r =>
    rw [keyword_run_cons]
    split
    · exact .cons (h t ‹_›) (.refl _ _)
    · exact expectedAt_leaves _ _ _ _

theorem keyword?_takes (h : ∀ t : Token, t.isKeyword w → P t) : (keyword? w).Takes P := by
  intro eof ts
  cases ts with
  | nil => exact TakenFrom.refl _ _
  | cons t r =>
    rw [keyword?_run_cons]
    split
    · exact .cons (h t ‹_›) (.refl _ _)
    · exact TakenFrom.refl _ _

theorem symbol?_takes (s : String) : (symbol? s).Takes (Avoids ws) := by
  intro eof ts
  cases ts with
  | nil => exact TakenFrom.refl _ _
  | cons t r =>
    rw [symbol?_run_cons]
    split
    · exact .cons (avoids_of_kind (kind_ne_keyword_of_isSymbol ‹_›) ws) (.refl _ _)
    · exact TakenFrom.refl _ _

theorem ident_takes (what : String) : (ident what).Takes (Avoids ws) := by
  intro eof ts
  cases ts with
  | nil =>
    rw [ident_run_nil]
    exact expectedAt_leaves _ _ _ _
  | cons t r =>
    rw [ident_run_cons]
    split
    · rename_i hi
      exact .cons (avoids_of_kind (by rw [hi]; decide) ws) (.refl _ _)
    · exact expectedAt_leaves _ _ _ _

theorem string_takes (what : String) : (string what).Takes (Avoids ws) := by
  intro eof ts
  cases ts with
  | nil =>
    rw [string_run_nil]
    exact expectedAt_leaves _ _ _ _
  | cons t r =>
    rw [string_run_cons]
    split
    · rename_i hs
      exact .cons (avoids_of_kind (by rw [hs]; decide) ws) (.refl _ _)
    · exact expectedAt_leaves _ _ _ _

theorem date_takes : date.Takes (Avoids ws) := by
  intro eof ts
  cases ts with
  | nil =>
    rw [date_run_nil]
    exact expectedAt_leaves _ _ _ _
  | cons t r =>
    rw [date_run_cons]
    split
    · rename_i hs
      have hr : TakenFrom (Avoids ws) (t :: r) r :=
        .cons (avoids_of_kind (by rw [hs]; decide) ws) (.refl _ _)
      split
      · exact hr
      · exact hr
    · exact expectedAt_leaves _ _ _ _

/-- A signed number takes a minus and a number token; its signals are not looked at. -/
theorem signedNumber_takes : signedNumber.Takes (Avoids ws) := by
  unfold signedNumber
  refine Takes.bind (symbol?_takes "-") fun negative => LeavesBy.peek_bind fun eof ts => ?_
  cases ts with
  | nil => exact expectedAt_leaves _ _ _ _
  | cons t r =>
    dsimp only [List.head?_cons]
    split
    · rename_i hn
      refine LeavesBy.advance_bind (fun eof r => ?_) eof fun _ hl =>
        hl.cons (avoids_of_kind (by rw [hn]; decide) ws)
      split
      · exact Takes.stop_signal _ eof r
      · split
        · split
          · exact Takes.pure _ eof r
          · exact Takes.stop_signal _ eof r
        · exact Takes.pure _ eof r
    · exact expectedAt_leaves _ _ _ _

theorem expr_takes (hws : ∀ w ∈ exprKeywords, w ∉ ws) : expr.Takes (Avoids ws) :=
  fun eof ts => (ExprParse.orExpr_takes eof ts).leaves.mono fun _ hl =>
    hl.mono fun _ ht => ht.avoids hws

end Reader

/-! ### Declarations -/

/-- What a `VERIFY` leaves of `ts`: it takes no keyword that opens a declaration, except the
`FEE` right after its `COMPLETE` or `MONOTONIC`. -/
def DirectiveTaken (ts left : List Token) : Prop :=
  TakenFrom (Token.Avoids topLevel) ts left ∨
    ∃ c f rest, ts = c :: f :: rest ∧ (c.isKeyword "COMPLETE" ∨ c.isKeyword "MONOTONIC") ∧
      f.isKeyword "FEE" ∧ TakenFrom (Token.Avoids topLevel) rest left

/-- What a block leaves of `ts`: tokens other than its end keyword `w` are taken, then
perhaps `w`. -/
def BlockTaken (w : String) (ts left : List Token) : Prop :=
  ∃ mid, TakenFrom (Token.Avoids [w]) ts mid ∧ TakenFrom (·.isKeyword w) mid left

namespace Read

open Reader Token

theorem version_takes {ws : List String} : version.Takes (Avoids ws) := by
  unfold version
  refine Takes.bind (string_takes _) fun id => LeavesBy.peek_bind fun eof ts => ?_
  cases ts with
  | nil => exact TakenFrom.refl _ _
  | cons t r =>
    dsimp only [List.head?_cons]
    split
    · rename_i hs
      exact LeavesBy.advance_bind (Takes.pure _) eof fun _ hl =>
        hl.cons (avoids_of_kind (by rw [hs]; decide) ws)
    · exact TakenFrom.refl _ _

theorem group_takes : group.Takes (Avoids topLevel) := by
  unfold group
  refine Takes.bind (ident_takes _) fun _ =>
    Takes.bind (keyword_takes fun _ h => avoids_of_isKeyword h (by simp [topLevel])) fun _ =>
      Takes.bind (string_takes _) fun _ =>
        Takes.bind (keyword?_takes fun _ h => avoids_of_isKeyword h (by simp [topLevel]))
          fun b => ?_
  split
  · exact Takes.bind signedNumber_takes fun _ => Takes.pure _
  · exact Takes.pure _

theorem ret_takes : ret.Takes (Avoids topLevel) := by
  unfold ret
  refine Takes.bind (ident_takes _) fun _ =>
    Takes.bind (keyword_takes fun _ h => avoids_of_isKeyword h (by simp [topLevel])) fun _ =>
      Takes.bind (string_takes _) fun _ =>
        Takes.bind (keyword?_takes fun _ h => avoids_of_isKeyword h (by simp [topLevel]))
          fun b => ?_
  split
  · exact Takes.bind (expr_takes (by simp [exprKeywords, topLevel])) fun _ => Takes.pure _
  · exact Takes.pure _

end Read

namespace Reader

variable {α β : Type} {w : String} {eof : Pos} {R : List Token → Prop}

/-- A keyword that comes first is consumed, and reading goes on after it. -/
theorem keyword_bind_leaves {g : Unit → Reader β} {t : Token} {r : List Token}
    (ht : t.isKeyword w) (h : Leaves R ((g ()).run eof r)) :
    Leaves R ((keyword w >>= g).run eof (t :: r)) := by
  rw [run_bind, keyword_run_cons, if_pos ht]
  simp only [Parsed.next]
  split
  · rename_i e he
    exact h.error he
  · rename_i b hb
    exact h.ok_rest hb

/-- A keyword that does not come first stops the reading where it is. -/
theorem keyword_bind_stops {g : Unit → Reader β} {P : Token → Prop} {ts : List Token}
    (h : ∀ t ∈ ts.head?, t.isKeyword w = false) :
    Leaves (TakenFrom P ts) ((keyword w >>= g).run eof ts) := by
  rw [run_bind]
  cases ts with
  | nil =>
    rw [keyword_run_nil]
    exact TakenFrom.refl _ _
  | cons t r =>
    rw [keyword_run_cons, if_neg (by simpa using h t rfl)]
    exact TakenFrom.refl _ _

theorem keyword?_bind_leaves {g : Bool → Reader β} {t : Token} {r : List Token}
    (ht : t.isKeyword w) (h : Leaves R ((g true).run eof r)) :
    Leaves R ((keyword? w >>= g).run eof (t :: r)) := by
  rw [run_bind, keyword?_run_cons, if_pos ht]
  simp only [Parsed.next]
  split
  · rename_i e he
    exact h.error he
  · rename_i b hb
    exact h.ok_rest hb

/-- An optional keyword that does not come first is not consumed. -/
theorem keyword?_bind_run_false {g : Bool → Reader β} {ts : List Token}
    (h : ∀ t ∈ ts.head?, t.isKeyword w = false) :
    (keyword? w >>= g).run eof ts = (g false).run eof ts := by
  rw [run_bind]
  have hrun : (keyword? w).run eof ts = .ok (Parsed.here false) := by
    cases ts with
    | nil => exact keyword?_run_nil w
    | cons t r => rw [keyword?_run_cons, if_neg (by simpa using h t rfl)]
  rw [hrun]
  simp only [Parsed.here]
  split
  · rename_i e he
    rw [he]
  · rename_i b hb
    rw [hb]
    rfl

end Reader

namespace Read

open Reader Token

/-- After `COMPLETE` or `MONOTONIC`, a `VERIFY` takes `FEE` and then no keyword that opens a
declaration. -/
theorem fee_after_leaves {g : Unit → Reader Directive} {eof : Pos} {c : Token} {r : List Token}
    (hc : c.isKeyword "COMPLETE" ∨ c.isKeyword "MONOTONIC") (hg : (g ()).Takes (Avoids topLevel)) :
    Leaves (DirectiveTaken (c :: r)) ((keyword "FEE" >>= g).run eof r) := by
  have hca : c.Avoids topLevel := by
    rcases hc with hc | hc <;> exact avoids_of_isKeyword hc (by simp [topLevel])
  cases r with
  | nil =>
    have hstop := @keyword_bind_stops _ "FEE" eof g (Avoids topLevel) [] (by simp)
    exact hstop.mono fun _ hl => .inl (.cons hca hl)
  | cons f r =>
    by_cases hf : f.isKeyword "FEE"
    · exact keyword_bind_leaves hf ((hg eof r).mono fun _ hl => .inr ⟨c, f, r, rfl, hc, hf, hl⟩)
    · have hstop := @keyword_bind_stops _ "FEE" eof g (Avoids topLevel) (f :: r)
        (fun u hu => by cases hu; simpa using hf)
      exact hstop.mono fun _ hl => .inl (.cons hca hl)

theorem directive_leaves : directive.LeavesBy DirectiveTaken := by
  intro eof ts
  unfold directive
  -- first `COMPLETE`
  by_cases hc : ∃ c r, ts = c :: r ∧ c.isKeyword "COMPLETE"
  · obtain ⟨c, r, rfl, hc⟩ := hc
    refine keyword?_bind_leaves hc ?_
    rw [if_pos rfl]
    exact fee_after_leaves (.inl hc) (Takes.bind (ident_takes _) fun _ => Takes.pure _)
  have hnc : ∀ t ∈ ts.head?, t.isKeyword "COMPLETE" = false := by
    intro t ht
    rcases ts with _ | ⟨c, r⟩
    · cases ht
    · obtain rfl : c = t := by simpa using ht
      simpa using fun h => hc ⟨c, r, rfl, h⟩
  rw [keyword?_bind_run_false hnc, if_neg (by simp)]
  -- then `MONOTONIC`
  by_cases hm : ∃ c r, ts = c :: r ∧ c.isKeyword "MONOTONIC"
  · obtain ⟨c, r, rfl, hm⟩ := hm
    refine keyword?_bind_leaves hm ?_
    rw [if_pos rfl]
    refine fee_after_leaves (.inr hm) ?_
    have hkw (w : String) (hw : w ∉ topLevel) : (keyword w).Takes (Avoids topLevel) :=
      keyword_takes fun _ h => avoids_of_isKeyword h hw
    have hkw? (w : String) (hw : w ∉ topLevel) : (keyword? w).Takes (Avoids topLevel) :=
      keyword?_takes fun _ h => avoids_of_isKeyword h hw
    refine Takes.bind (ident_takes _) fun _ =>
      Takes.bind (hkw "WITH" (by simp [topLevel])) fun _ =>
        Takes.bind (hkw "RESPECT" (by simp [topLevel])) fun _ =>
          Takes.bind (hkw "TO" (by simp [topLevel])) fun _ =>
            Takes.bind (ident_takes _) fun _ =>
              Takes.bind (hkw? "INCREASING" (by simp [topLevel])) fun _ => ?_
    split
    · exact Takes.pure _
    refine Takes.bind (hkw? "DECREASING" (by simp [topLevel])) fun _ => ?_
    split
    · exact Takes.pure _
    · exact Takes.expected _
  have hnm : ∀ t ∈ ts.head?, t.isKeyword "MONOTONIC" = false := by
    intro t ht
    rcases ts with _ | ⟨c, r⟩
    · cases ht
    · obtain rfl : c = t := by simpa using ht
      simpa using fun h => hm ⟨c, r, rfl, h⟩
  rw [keyword?_bind_run_false hnm, if_neg (by simp)]
  exact .inl (expectedAt_leaves _ _ _ _)

end Read

/-! ### Blocks -/


namespace BlockTaken

open Reader

variable {α β : Type} {w : String}

theorem of_takenFrom {ts left : List Token} (h : TakenFrom (Token.Avoids [w]) ts left) :
    BlockTaken w ts left :=
  ⟨left, h, .refl _ _⟩

theorem trans {ts mid left : List Token} (h₁ : TakenFrom (Token.Avoids [w]) ts mid)
    (h₂ : BlockTaken w mid left) : BlockTaken w ts left := by
  obtain ⟨mid', h₂, h₃⟩ := h₂
  exact ⟨mid', h₁.trans h₂, h₃⟩

/-- Tokens other than the end keyword, then the rest of a block. -/
theorem bind {m : Reader α} {f : α → Reader β} (hm : m.Takes (Token.Avoids [w]))
    (hf : ∀ a, (f a).LeavesBy (BlockTaken w)) : (m >>= f).LeavesBy (BlockTaken w) :=
  LeavesBy.bind hm hf (fun _ _ h => of_takenFrom h) fun _ _ _ h₁ h₂ => trans h₁ h₂

/-- The end keyword, then nothing. -/
theorem keyword_bind {g : Unit → Reader β} (hg : ∀ a, (g a).Takes fun _ => False) :
    (keyword w >>= g).LeavesBy (BlockTaken w) :=
  LeavesBy.bind (keyword_takes fun _ h => h) (fun a => (hg a).mono fun _ h => h.elim)
    (fun ts _ h => ⟨ts, .refl _ _, h⟩) fun ts _ _ h₁ h₂ => ⟨ts, .refl _ _, h₁.trans h₂⟩

end BlockTaken

namespace Read

open Reader Token

theorem moreSymbols_takes {ws : List String} (eof : Pos) (ts : List Token) :
    Leaves (TakenFrom (Avoids ws) ts) (moreSymbols eof ts) := by
  rw [moreSymbols.eq_def]
  split
  · rename_i t r
    split
    · rename_i hc
      have hr : TakenFrom (Avoids ws) (t :: r) r :=
        .cons (avoids_of_kind (kind_ne_keyword_of_isSymbol hc) ws) (.refl _ _)
      split
      · rename_i e he
        exact (((ident_takes _) eof r).error he).taken hr
      · rename_i x hx
        have := x.le
        have hx' := hr.trans (((ident_takes _) eof r).ok_rest hx)
        split
        · rename_i e he
          exact ((moreSymbols_takes eof x.rest).error he).taken hx'
        · rename_i m hm
          exact hx'.trans ((moreSymbols_takes eof x.rest).ok_rest hm)
    · exact .refl _ _
  · exact .refl _ _
termination_by ts.length
decreasing_by all_goals (subst_vars; simp only [List.length_cons]; omega)

theorem defaultClause_takes (kind : InputKind) (d : InputDraft) :
    (defaultClause kind d).Takes (Avoids ["ENDINPUT"]) := by
  cases kind with
  | number | amount => exact Takes.bind signedNumber_takes fun _ => Takes.pure _
  | date => exact Takes.bind date_takes fun _ => Takes.pure _
  | boolean =>
    refine Takes.bind (keyword?_takes fun _ h => avoids_of_isKeyword h (by simp)) fun _ => ?_
    split
    · exact Takes.pure _
    refine Takes.bind (keyword?_takes fun _ h => avoids_of_isKeyword h (by simp)) fun _ => ?_
    split
    · exact Takes.pure _
    · exact Takes.expected _
  | list => exact Takes.bind (ident_takes _) fun _ => Takes.pure _
  | multilist =>
    exact Takes.bind (ident_takes _) fun _ =>
      Takes.bind (fun eof ts => moreSymbols_takes eof ts) fun _ => Takes.pure _

theorem clause_takes (kind : InputKind) (t : Token) (d : InputDraft) :
    (clause kind t d).Takes (Avoids ["ENDINPUT"]) := by
  have hkw (w : String) (hw : w ≠ "ENDINPUT") : (keyword w).Takes (Avoids ["ENDINPUT"]) :=
    keyword_takes fun _ h => avoids_of_isKeyword h (by simpa using hw)
  unfold clause
  split
  · split
    · exact Takes.bind signedNumber_takes fun _ => Takes.bind (hkw "AND" (by decide)) fun _ =>
        Takes.bind signedNumber_takes fun _ => Takes.pure _
    · exact Takes.bind date_takes fun _ => Takes.bind (hkw "AND" (by decide)) fun _ =>
        Takes.bind date_takes fun _ => Takes.pure _
    · exact Takes.abortAt _ _
  split
  · split
    · exact Takes.bind (ident_takes _) fun _ => Takes.bind (hkw "AS" (by decide)) fun _ =>
        Takes.bind (string_takes _) fun _ => Takes.pure _
    · exact Takes.abortAt _ _
  split
  · exact defaultClause_takes kind d
  split
  · split
    · exact Takes.bind (ident_takes _) fun _ => Takes.pure _
    · exact Takes.abortAt _ _
  · exact Takes.bind (ident_takes _) fun _ => Takes.pure _

/-- The clauses of an input stop before `ENDINPUT`: each starts with a clause keyword. -/
theorem clauses_takes (kind : InputKind) (eof : Pos) (ts : List Token) (d : InputDraft) :
    Leaves (TakenFrom (Avoids ["ENDINPUT"]) ts) (clauses kind eof ts d) := by
  rw [clauses.eq_def]
  split
  · rename_i t r
    split
    · exact .refl _ _
    split
    · rename_i hk
      have hr : TakenFrom (Avoids ["ENDINPUT"]) (t :: r) r := by
        refine .cons (fun _ hmem => ?_) (.refl _ _)
        have hc := List.contains_iff_mem.mp hk.2
        simp only [List.mem_singleton] at hmem
        rw [hmem] at hc
        simp [clauseKeywords] at hc
      split
      · rename_i e he
        exact ((clause_takes kind t d eof r).error he).taken hr
      · rename_i c hc
        have := c.le
        have hc' := hr.trans ((clause_takes kind t d eof r).ok_rest hc)
        split
        · rename_i e he
          exact ((clauses_takes kind eof c.rest c.value).error he).taken hc'
        · rename_i m hm
          exact hc'.trans ((clauses_takes kind eof c.rest c.value).ok_rest hm)
    · exact .refl _ _
  · exact .refl _ _
termination_by ts.length
decreasing_by all_goals (subst_vars; simp only [List.length_cons]; omega)

/-- Finishing an input takes no token. -/
theorem finishInput_takes {P : Token → Prop} (start : Pos) (name text : String)
    (kind : InputKind) (d : InputDraft) : (finishInput start name text kind d).Takes P := by
  unfold finishInput
  cases kind with
  | number | date | amount =>
    dsimp only
    split
    · exact Takes.pure _
    · exact Takes.abortAt _ _
  | boolean | list | multilist => exact Takes.pure _

/-- An input takes `ENDINPUT` only last. -/
theorem input_leaves (start : Pos) : (input start).LeavesBy (BlockTaken "ENDINPUT") := by
  unfold input
  refine BlockTaken.bind (ident_takes _) fun name => LeavesBy.peek_bind fun eof ts => ?_
  -- whatever kind is read, the clauses and the end are read the same way
  have hbody : ∀ kind : InputKind, (string "an input description" >>= fun text =>
      (⟨fun eof ts => clauses kind eof ts {}⟩ : Reader InputDraft) >>= fun d =>
        keyword "ENDINPUT" >>= fun _ => finishInput start name text kind d).LeavesBy
      (BlockTaken "ENDINPUT") := fun kind =>
    BlockTaken.bind (string_takes _) fun text =>
      BlockTaken.bind (fun eof ts => clauses_takes kind eof ts {}) fun d =>
        BlockTaken.keyword_bind fun _ => finishInput_takes start name text kind d
  cases ts with
  | nil => exact BlockTaken.bind (Takes.expected _) hbody eof []
  | cons t r =>
    dsimp only [List.head?_cons]
    split
    · rename_i k hk
      have ht : t.Avoids ["ENDINPUT"] := by
        refine avoids_of_isKeyword (kindOf?_eq_some_iff.mp hk) ?_
        cases k <;> decide
      exact LeavesBy.advance_bind (BlockTaken.bind (Takes.pure _) hbody) eof
        fun _ hl => BlockTaken.trans (.cons ht (.refl _ _)) hl
    · exact BlockTaken.bind (Takes.expected _) hbody eof (t :: r)

theorem feeOptions_takes (eof : Pos) (ts : List Token) (opt : Bool) (cur : Option String) :
    Leaves (TakenFrom (Avoids ["ENDFEE"]) ts) (feeOptions eof ts opt cur) := by
  rw [feeOptions.eq_def]
  split
  · rename_i t r
    split
    · rename_i ho
      have hr : TakenFrom (Avoids ["ENDFEE"]) (t :: r) r :=
        .cons (avoids_of_isKeyword ho (by simp)) (.refl _ _)
      split
      · rename_i e he
        exact ((feeOptions_takes eof r true cur).error he).taken hr
      · rename_i m hm
        exact hr.trans ((feeOptions_takes eof r true cur).ok_rest hm)
    split
    · rename_i hcur
      have hr : TakenFrom (Avoids ["ENDFEE"]) (t :: r) r :=
        .cons (avoids_of_isKeyword hcur (by simp)) (.refl _ _)
      split
      · rename_i e he
        exact (((ident_takes _) eof r).error he).taken hr
      · rename_i c hc
        have := c.le
        have hc' := hr.trans (((ident_takes _) eof r).ok_rest hc)
        split
        · rename_i e he
          exact ((feeOptions_takes eof c.rest opt (some c.value)).error he).taken hc'
        · rename_i m hm
          exact hc'.trans ((feeOptions_takes eof c.rest opt (some c.value)).ok_rest hm)
    · exact .refl _ _
  · exact .refl _ _
termination_by ts.length
decreasing_by all_goals (subst_vars; simp only [List.length_cons]; omega)

/-- The body of a fee stops before `ENDFEE`: its variables and cases are expressions after a
keyword. -/
theorem feeBody_takes (eof : Pos) (ts : List Token) (vars : Array LetVar) (cases : Array Case) :
    Leaves (TakenFrom (Avoids ["ENDFEE"]) ts) (feeBody eof ts vars cases) := by
  have hexpr : expr.Takes (Avoids ["ENDFEE"]) := expr_takes (by simp [exprKeywords])
  rw [feeBody.eq_def]
  split
  · rename_i t r
    split
    · exact .refl _ _
    split
    · rename_i hl
      have hr : TakenFrom (Avoids ["ENDFEE"]) (t :: r) r :=
        .cons (avoids_of_isKeyword hl (by simp)) (.refl _ _)
      split
      · exact hr
      -- a variable: a name, `AS` and an expression
      have hvar : (do
          let n ← ident "a variable name"
          keyword "AS"
          let e ← expr
          pure (LetVar.mk n e) : Reader LetVar).Takes (Avoids ["ENDFEE"]) :=
        Takes.bind (ident_takes _) fun _ =>
          Takes.bind (keyword_takes fun _ h => avoids_of_isKeyword h (by simp)) fun _ =>
            Takes.bind hexpr fun _ => Takes.pure _
      dsimp only
      split
      · rename_i e he
        exact ((hvar eof r).error he).taken hr
      · rename_i v hv
        have := v.le
        have hv' := hr.trans ((hvar eof r).ok_rest hv)
        split
        · rename_i e he
          exact ((feeBody_takes eof v.rest _ cases).error he).taken hv'
        · rename_i m hm
          exact hv'.trans ((feeBody_takes eof v.rest _ cases).ok_rest hm)
    split
    · rename_i hy
      have hr : TakenFrom (Avoids ["ENDFEE"]) (t :: r) r :=
        .cons (avoids_of_isKeyword hy (by simp)) (.refl _ _)
      -- a case: an amount and an optional condition
      have hcase : (do
          let e ← expr
          if ← keyword? "IF" then
            let c ← expr
            pure (Case.mk e (some c))
          else pure (Case.mk e none) : Reader Case).Takes (Avoids ["ENDFEE"]) := by
        refine Takes.bind hexpr fun _ =>
          Takes.bind (keyword?_takes fun _ h => avoids_of_isKeyword h (by simp)) fun _ => ?_
        split
        · exact Takes.bind hexpr fun _ => Takes.pure _
        · exact Takes.pure _
      dsimp only
      split
      · rename_i e he
        exact ((hcase eof r).error he).taken hr
      · rename_i c hc
        have := c.le
        have hc' := hr.trans ((hcase eof r).ok_rest hc)
        split
        · rename_i e he
          exact ((feeBody_takes eof c.rest vars _).error he).taken hc'
        · rename_i m hm
          exact hc'.trans ((feeBody_takes eof c.rest vars _).ok_rest hm)
    · exact .refl _ _
  · exact .refl _ _
termination_by ts.length
decreasing_by all_goals (subst_vars; simp only [List.length_cons]; omega)

/-- A fee takes `ENDFEE` only last. -/
theorem fee_leaves : fee.LeavesBy (BlockTaken "ENDFEE") := by
  unfold fee
  exact BlockTaken.bind (ident_takes _) fun _ =>
    BlockTaken.bind (fun eof ts => feeOptions_takes eof ts false none) fun _ =>
      BlockTaken.bind (fun eof ts => feeBody_takes eof ts #[] #[]) fun _ =>
        BlockTaken.keyword_bind fun _ => Takes.pure _

end Read

end FeeSchedule
