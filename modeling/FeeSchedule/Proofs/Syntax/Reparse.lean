import FeeSchedule.Syntax.Expr.Parse

/-!
# `FeeSchedule.Proofs.Syntax.Reparse`: the expression reader reads printed expressions back

`Expr.render` writes an expression with parentheses only where binding strength requires them.
This module shows that the recursive-descent reader of `FeeSchedule.Syntax.Expr.Parse` reads
those parentheses as intended: from the tokens of a printed expression it gives back the
expression itself. Positions play no part, so the statements are about the lexemes of the tokens
(`Token.lexeme`, class and text), which `Expr.lexemes` lists for a printed expression.

* `Yields r a rest`: the reading `r` succeeds with the value `a` and leaves `rest`. Each rule of
  the grammar has its lemmas for the ways it can succeed (`orExpr_yields`, `orTail_stop`,
  `orTail_step`, ...), and the proofs below cite them instead of unfolding the rules.
* `Reparse L e`: read at binding strength `L` (1 for `OR` up to 8 for a primary, the rule
  `ExprParse.rule L`), the lexemes of `e` give `e` and the reading goes on as the rule's tail
  would after `e`, provided the next token does not continue the expression (`Stops`).
* `reparse`: every expression that can be printed (`Expr.Printable`: no bare symbol, numbers and
  dates whose texts read back) satisfies `Reparse L` at every strength; the proof climbs from the
  expression's own strength down to 1 and from 8 down past it, and one level to the next is a
  lemma about the rule alone (`Reparse.descend`).
* `orExpr_lexemes`: the whole reading of such tokens gives `e` and consumes them all.
-/

set_option autoImplicit false

namespace FeeSchedule

/-- The class and text of a token: all that a successful reading of an expression looks at. -/
def Token.lexeme (t : Token) : TokenKind × String := (t.kind, t.value)

/-! ### The lexemes of a printed expression -/

/-- The lexeme of a unary operator: `-` is a symbol, `NOT` a keyword. -/
def UnaryOp.lexeme : UnaryOp → TokenKind × String
  | .neg => (.symbol, "-")
  | .not => (.keyword, "NOT")

/-- The lexeme of a binary operator: the words `AND`, `OR` and `CONTAINS` are keywords, the
others symbols. -/
def BinaryOp.lexeme (op : BinaryOp) : TokenKind × String :=
  ((match op with
    | .and | .or | .contains => .keyword
    | _ => .symbol), op.text)

namespace Expr

/-- Lexemes in parentheses when `b` holds, as `parenthesize` puts their text. -/
def bracket (b : Bool) (ls : List (TokenKind × String)) : List (TokenKind × String) :=
  if b then (.symbol, "(") :: ls ++ [(.symbol, ")")] else ls

mutual

/-- The lexemes of the text `render` writes, in order. -/
def lexemes : Expr → List (TokenKind × String)
  | .num v => [(.number, v.toText)]
  | .bool b => [(.keyword, if b then "TRUE" else "FALSE")]
  | .date d => [(.keyword, "DATE"), (.string, d.isoText)]
  | .sym s => [(.identifier, s)]
  | .ref n => [(.identifier, n)]
  | .unary op e => op.lexeme :: bracket (e.strength < (Expr.unary op e).strength) e.lexemes
  | .binary op l r =>
    bracket (if op.strength = 4 then l.strength ≤ 4 else l.strength < op.strength) l.lexemes ++
      op.lexeme :: bracket (r.strength ≤ op.strength) r.lexemes
  | .call f args => (.identifier, f.name) :: (.symbol, "(") :: argLexemes args ++ [(.symbol, ")")]

/-- The lexemes of the arguments of a call, separated by commas. -/
def argLexemes : List Expr → List (TokenKind × String)
  | [] => []
  | [e] => e.lexemes
  | e :: es => e.lexemes ++ (.symbol, ",") :: argLexemes es

end

theorem lexemes_ne_nil (e : Expr) : e.lexemes ≠ [] := by
  cases e <;> simp [lexemes, bracket]

/-- The lexemes of an expression as an operand of binding strength at least `L`: in parentheses
when it binds more loosely. -/
def lexemesAt (L : Nat) (e : Expr) : List (TokenKind × String) :=
  bracket (e.strength < L) e.lexemes

theorem lexemesAt_ne_nil (L : Nat) (e : Expr) : e.lexemesAt L ≠ [] := by
  unfold lexemesAt bracket
  split
  · simp
  · exact e.lexemes_ne_nil

theorem strength_pos (e : Expr) : 1 ≤ e.strength := by
  unfold strength
  split
  · rename_i op _ _
    cases op <;> decide
  all_goals omega

theorem strength_le (e : Expr) : e.strength ≤ 8 := by
  unfold strength
  split
  · rename_i op _ _
    cases op <;> decide
  all_goals omega

/-- Between two strengths the parentheses change only at the expression's own strength. -/
theorem lexemesAt_succ {e : Expr} {L : Nat} (h : e.strength ≠ L) :
    e.lexemesAt L = e.lexemesAt (L + 1) := by
  unfold lexemesAt
  congr 1
  simp only [decide_eq_decide]
  omega

theorem lexemesAt_of_le {e : Expr} {L : Nat} (h : L ≤ e.strength) : e.lexemesAt L = e.lexemes := by
  simp [lexemesAt, bracket, Nat.not_lt.mpr h]

/-- A printed operation of strength `s` is its left operand at strength `s` (at 5 for a
comparison, whose operands do not chain), the operator and its right operand at `s + 1`. -/
theorem lexemes_binary (op : BinaryOp) (l r : Expr) :
    (Expr.binary op l r).lexemes =
      l.lexemesAt (if op.strength = 4 then 5 else op.strength) ++
        op.lexeme :: r.lexemesAt (op.strength + 1) := by
  by_cases h : op.strength = 4 <;> simp [lexemes, lexemesAt, h, Nat.lt_succ_iff]

/-- A first lexeme other than an opening parenthesis is printed without parentheses around. -/
theorem head_lexemesAt {e : Expr} {L : Nat} {x : TokenKind × String}
    (h : (e.lexemesAt L).head? = some x) (hx : x ≠ (.symbol, "(")) :
    L ≤ e.strength ∧ e.lexemes.head? = some x := by
  unfold lexemesAt bracket at h
  split at h
  · simp only [List.cons_append, List.head?_cons, Option.some.injEq] at h
    exact absurd h.symm hx
  · rename_i hb
    simp only [decide_eq_true_eq, Nat.not_lt] at hb
    exact ⟨hb, h⟩

/-- Only an expression of strength 3 at most is printed with `NOT` first: a negation, or an
`AND` or `OR` whose left operand starts so. -/
theorem strength_le_of_head_not :
    ∀ {e : Expr}, e.lexemes.head? = some (.keyword, "NOT") → e.strength ≤ 3
  | .unary .not _, _ => Nat.le_refl _
  | .binary op l r, h => by
    -- the first lexeme is the left operand's, which then is not in parentheses
    rw [lexemes_binary, List.head?_append] at h
    have hl : (l.lexemesAt (if op.strength = 4 then 5 else op.strength)).head? =
        some (.keyword, "NOT") := by
      cases hh : (l.lexemesAt _).head? with
      | none => exact absurd (List.head?_eq_none_iff.mp hh) (lexemesAt_ne_nil _ _)
      | some x => rw [hh] at h; simpa using h
    obtain ⟨hL, hl⟩ := head_lexemesAt hl (by decide)
    have := strength_le_of_head_not hl
    simp only [strength]
    split at hL <;> omega
  | .unary .neg _, h => by simp [lexemes, UnaryOp.lexeme] at h
  | .bool b, h => by cases b <;> simp [lexemes] at h
  | .num _, h | .date _, h | .sym _, h | .ref _, h | .call _ _, h => by
    simp [lexemes] at h

/-- As an operand of strength 4 or more nothing is printed with `NOT` first. -/
theorem lexemesAt_head_not (e : Expr) : (e.lexemesAt 4).head? ≠ some (.keyword, "NOT") := by
  intro h
  obtain ⟨h4, hh⟩ := head_lexemesAt h (by decide)
  have := strength_le_of_head_not hh
  omega

theorem lexemesAt_head_minus {e : Expr} (hs : e.strength ≠ 7) :
    (e.lexemesAt 8).head? ≠ some (.symbol, "-") := by
  intro h
  obtain ⟨h8, hh⟩ := head_lexemesAt h (by decide)
  -- only the expressions of strength 8 are printed without parentheses here
  cases e with
  | unary op x => cases op <;> simp [strength] at h8 hs
  | binary op l r => cases op <;> simp [strength, BinaryOp.strength] at h8
  | bool b => cases b <;> simp [lexemes] at hh
  | _ => simp [lexemes] at hh

/-- No printed expression starts with a closing parenthesis. -/
theorem lexemes_head_ne_close : ∀ (e : Expr), e.lexemes.head? ≠ some (.symbol, ")")
  | .binary op l r, h => by
    rw [lexemes_binary, List.head?_append] at h
    have hl : (l.lexemesAt (if op.strength = 4 then 5 else op.strength)).head? =
        some (.symbol, ")") := by
      cases hh : (l.lexemesAt _).head? with
      | none => exact absurd (List.head?_eq_none_iff.mp hh) (lexemesAt_ne_nil _ _)
      | some x => rw [hh] at h; simpa using h
    exact lexemes_head_ne_close l (head_lexemesAt hl (by decide)).2
  | .unary op _, h => by cases op <;> simp [lexemes, UnaryOp.lexeme] at h
  | .bool b, h => by cases b <;> simp [lexemes] at h
  | .num _, h | .date _, h | .sym _, h | .ref _, h | .call _ _, h => by
    simp [lexemes] at h

/-- The lexemes of the arguments of a call: those of the first, then a comma before each of the
others. -/
theorem argLexemes_cons (a : Expr) (as : List Expr) :
    argLexemes (a :: as) = a.lexemes ++ as.flatMap fun x => (.symbol, ",") :: x.lexemes := by
  induction as generalizing a with
  | nil => simp [argLexemes]
  | cons b bs ih => simp [argLexemes, ih]

mutual

/-- Every literal and reference of an expression satisfies `P`. -/
def Leaves (P : Expr → Prop) : Expr → Prop
  | .unary _ e => e.Leaves P
  | .binary _ l r => l.Leaves P ∧ r.Leaves P
  | .call _ args => LeavesAll P args
  | e => P e

/-- `Leaves P` of every expression of a list. -/
def LeavesAll (P : Expr → Prop) : List Expr → Prop
  | [] => True
  | e :: es => e.Leaves P ∧ LeavesAll P es

end

/-- A literal that the reader finds again in its own lexeme: a number or a date whose text reads
back as itself; a bare symbol never does, since its word reads as a reference. -/
def ReadsBack : Expr → Prop
  | .num v => Decimal.ofText v.toText = .ok v
  | .date d => Date.ofIsoText? d.isoText = some d
  | .sym _ => False
  | _ => True

end Expr

namespace ExprParse

variable {eof : Pos}

/-- A reading that succeeds with the value `a` and leaves the tokens `rest`. -/
def Yields {ts : List Token} {α : Type} (r : Except Stop (Parsed ts α)) (a : α)
    (rest : List Token) : Prop :=
  ∃ p : Parsed ts α, r = .ok p ∧ p.value = a ∧ p.rest = rest

theorem Yields.ok {ts : List Token} {α : Type} (p : Parsed ts α) :
    Yields (.ok p) p.value p.rest :=
  ⟨p, rfl, rfl, rfl⟩

/-! ### How each rule succeeds -/

theorem orExpr_yields {ts r rest : List Token} {a b : Expr}
    (h₁ : Yields (andExpr eof ts) a r) (h₂ : Yields (orTail eof r a) b rest) :
    Yields (orExpr eof ts) b rest := by
  obtain ⟨⟨a, r, hs⟩, h₁, rfl, rfl⟩ := h₁
  obtain ⟨q, h₂, rfl, rfl⟩ := h₂
  rw [orExpr, h₁]
  simp only [h₂]
  exact Yields.ok _

theorem orTail_stop {ts : List Token} {acc : Expr}
    (h : ∀ t ∈ ts.head?, t.isKeyword "OR" = false) : Yields (orTail eof ts acc) acc ts := by
  cases ts with
  | nil => rw [orTail.eq_def]; exact Yields.ok _
  | cons t r =>
    rw [orTail.eq_def]
    simp only [h t rfl, Bool.false_eq_true, if_false]
    exact Yields.ok _

theorem orTail_step {t : Token} {r r₁ rest : List Token} {acc a b : Expr}
    (ht : t.isKeyword "OR") (h₁ : Yields (andExpr eof r) a r₁)
    (h₂ : Yields (orTail eof r₁ (.binary .or acc a)) b rest) :
    Yields (orTail eof (t :: r) acc) b rest := by
  obtain ⟨⟨a, r₁, hs⟩, h₁, rfl, rfl⟩ := h₁
  obtain ⟨q, h₂, rfl, rfl⟩ := h₂
  rw [orTail.eq_def]
  simp only [ht, if_true, h₁, h₂]
  exact Yields.ok _

theorem andExpr_yields {ts r rest : List Token} {a b : Expr}
    (h₁ : Yields (notExpr eof ts) a r) (h₂ : Yields (andTail eof r a) b rest) :
    Yields (andExpr eof ts) b rest := by
  obtain ⟨⟨a, r, hs⟩, h₁, rfl, rfl⟩ := h₁
  obtain ⟨q, h₂, rfl, rfl⟩ := h₂
  rw [andExpr, h₁]
  simp only [h₂]
  exact Yields.ok _

theorem andTail_stop {ts : List Token} {acc : Expr}
    (h : ∀ t ∈ ts.head?, t.isKeyword "AND" = false) : Yields (andTail eof ts acc) acc ts := by
  cases ts with
  | nil => rw [andTail.eq_def]; exact Yields.ok _
  | cons t r =>
    rw [andTail.eq_def]
    simp only [h t rfl, Bool.false_eq_true, if_false]
    exact Yields.ok _

theorem andTail_step {t : Token} {r r₁ rest : List Token} {acc a b : Expr}
    (ht : t.isKeyword "AND") (h₁ : Yields (notExpr eof r) a r₁)
    (h₂ : Yields (andTail eof r₁ (.binary .and acc a)) b rest) :
    Yields (andTail eof (t :: r) acc) b rest := by
  obtain ⟨⟨a, r₁, hs⟩, h₁, rfl, rfl⟩ := h₁
  obtain ⟨q, h₂, rfl, rfl⟩ := h₂
  rw [andTail.eq_def]
  simp only [ht, if_true, h₁, h₂]
  exact Yields.ok _

theorem notExpr_not {t : Token} {r rest : List Token} {a : Expr} (ht : t.isKeyword "NOT")
    (h : Yields (notExpr eof r) a rest) : Yields (notExpr eof (t :: r)) (.unary .not a) rest := by
  obtain ⟨⟨a, rest, hs⟩, h, rfl, rfl⟩ := h
  rw [notExpr.eq_def]
  simp only [ht, if_true, h]
  exact Yields.ok _

theorem notExpr_comparison {ts rest : List Token} {a : Expr}
    (hn : ∀ t ∈ ts.head?, t.isKeyword "NOT" = false) (h : Yields (comparison eof ts) a rest) :
    Yields (notExpr eof ts) a rest := by
  cases ts with
  | nil => rw [notExpr.eq_def]; exact h
  | cons t r =>
    rw [notExpr.eq_def]
    simp only [hn t rfl, Bool.false_eq_true, if_false]
    exact h

/-- The comparison operator a token stands for, as `comparison` reads it: a comparison symbol
or the keyword `CONTAINS`. -/
def comparisonOp? (t : Token) : Option BinaryOp :=
  if t.kind = .symbol then BinaryOp.ofComparisonSymbol? t.value
  else if t.isKeyword "CONTAINS" then some .contains
  else none

theorem comparison_plain {ts rest : List Token} {a : Expr}
    (h : Yields (sumExpr eof ts) a rest) (hc : ∀ t ∈ rest.head?, comparisonOp? t = none) :
    Yields (comparison eof ts) a rest := by
  obtain ⟨⟨a, rest, hs⟩, h, rfl, rfl⟩ := h
  rw [comparison, h]
  cases rest with
  | nil => exact Yields.ok _
  | cons t r =>
    have hn := hc t rfl
    simp only [comparisonOp?] at hn
    simp only [hn]
    exact Yields.ok _

theorem comparison_op {ts r rest : List Token} {t : Token} {op : BinaryOp} {l a : Expr}
    (h₁ : Yields (sumExpr eof ts) l (t :: r)) (hop : comparisonOp? t = some op)
    (h₂ : Yields (sumExpr eof r) a rest) :
    Yields (comparison eof ts) (.binary op l a) rest := by
  obtain ⟨⟨l, _, hs⟩, h₁, rfl, hr⟩ := h₁
  obtain ⟨⟨a, rest, hs'⟩, h₂, rfl, rfl⟩ := h₂
  simp only at hr
  subst hr
  simp only [comparisonOp?] at hop
  rw [comparison, h₁]
  simp only [hop, h₂]
  exact Yields.ok _

theorem sumExpr_yields {ts r rest : List Token} {a b : Expr}
    (h₁ : Yields (product eof ts) a r) (h₂ : Yields (sumTail eof r a) b rest) :
    Yields (sumExpr eof ts) b rest := by
  obtain ⟨⟨a, r, hs⟩, h₁, rfl, rfl⟩ := h₁
  obtain ⟨q, h₂, rfl, rfl⟩ := h₂
  rw [sumExpr, h₁]
  simp only [h₂]
  exact Yields.ok _

/-- The additive operator a token stands for, as `sumTail` reads it. -/
def sumOp? (t : Token) : Option BinaryOp :=
  if t.isSymbol "+" then some .add else if t.isSymbol "-" then some .sub else none

theorem sumTail_stop {ts : List Token} {acc : Expr} (h : ∀ t ∈ ts.head?, sumOp? t = none) :
    Yields (sumTail eof ts acc) acc ts := by
  cases ts with
  | nil => rw [sumTail.eq_def]; exact Yields.ok _
  | cons t r =>
    have hn := h t rfl
    simp only [sumOp?] at hn
    rw [sumTail.eq_def]
    simp only [hn]
    exact Yields.ok _

theorem sumTail_step {t : Token} {r r₁ rest : List Token} {op : BinaryOp} {acc a b : Expr}
    (hop : sumOp? t = some op) (h₁ : Yields (product eof r) a r₁)
    (h₂ : Yields (sumTail eof r₁ (.binary op acc a)) b rest) :
    Yields (sumTail eof (t :: r) acc) b rest := by
  obtain ⟨⟨a, r₁, hs⟩, h₁, rfl, rfl⟩ := h₁
  obtain ⟨q, h₂, rfl, rfl⟩ := h₂
  simp only [sumOp?] at hop
  rw [sumTail.eq_def]
  simp only [hop, h₁, h₂]
  exact Yields.ok _

theorem product_yields {ts r rest : List Token} {a b : Expr}
    (h₁ : Yields (unary eof ts) a r) (h₂ : Yields (productTail eof r a) b rest) :
    Yields (product eof ts) b rest := by
  obtain ⟨⟨a, r, hs⟩, h₁, rfl, rfl⟩ := h₁
  obtain ⟨q, h₂, rfl, rfl⟩ := h₂
  rw [product, h₁]
  simp only [h₂]
  exact Yields.ok _

/-- The multiplicative operator a token stands for, as `productTail` reads it. -/
def productOp? (t : Token) : Option BinaryOp :=
  if t.isSymbol "*" then some .mul else if t.isSymbol "/" then some .div else none

theorem productTail_stop {ts : List Token} {acc : Expr}
    (h : ∀ t ∈ ts.head?, productOp? t = none) : Yields (productTail eof ts acc) acc ts := by
  cases ts with
  | nil => rw [productTail.eq_def]; exact Yields.ok _
  | cons t r =>
    have hn := h t rfl
    simp only [productOp?] at hn
    rw [productTail.eq_def]
    simp only [hn]
    exact Yields.ok _

theorem productTail_step {t : Token} {r r₁ rest : List Token} {op : BinaryOp} {acc a b : Expr}
    (hop : productOp? t = some op) (h₁ : Yields (unary eof r) a r₁)
    (h₂ : Yields (productTail eof r₁ (.binary op acc a)) b rest) :
    Yields (productTail eof (t :: r) acc) b rest := by
  obtain ⟨⟨a, r₁, hs⟩, h₁, rfl, rfl⟩ := h₁
  obtain ⟨q, h₂, rfl, rfl⟩ := h₂
  simp only [productOp?] at hop
  rw [productTail.eq_def]
  simp only [hop, h₁, h₂]
  exact Yields.ok _

theorem unary_neg {t : Token} {r rest : List Token} {a : Expr} (ht : t.isSymbol "-")
    (h : Yields (unary eof r) a rest) : Yields (unary eof (t :: r)) (.unary .neg a) rest := by
  obtain ⟨⟨a, rest, hs⟩, h, rfl, rfl⟩ := h
  rw [unary.eq_def]
  simp only [ht, if_true, h]
  exact Yields.ok _

theorem unary_primary {ts rest : List Token} {a : Expr}
    (hn : ∀ t ∈ ts.head?, t.isSymbol "-" = false) (h : Yields (primary eof ts) a rest) :
    Yields (unary eof ts) a rest := by
  cases ts with
  | nil => rw [unary.eq_def]; exact h
  | cons t r =>
    rw [unary.eq_def]
    simp only [hn t rfl, Bool.false_eq_true, if_false]
    exact h

theorem primary_num {t : Token} {r : List Token} {v : Decimal} (hk : t.kind = .number)
    (hv : Decimal.ofText t.value = .ok v) : Yields (primary eof (t :: r)) (.num v) r := by
  rw [primary.eq_def]
  simp only [hk, if_true, hv]
  exact Yields.ok _

theorem primary_bool {t : Token} {r : List Token} (b : Bool)
    (ht : t.lexeme = (.keyword, if b then "TRUE" else "FALSE")) :
    Yields (primary eof (t :: r)) (.bool b) r := by
  obtain ⟨hk, hv⟩ := Prod.mk.inj ht
  rw [primary.eq_def]
  cases b <;> simp [Token.isKeyword, hk, hv] <;> exact Yields.ok _

theorem primary_date {t u : Token} {r : List Token} {d : Date}
    (ht : t.lexeme = (.keyword, "DATE")) (hu : u.kind = .string)
    (hd : Date.ofIsoText? u.value = some d) :
    Yields (primary eof (t :: u :: r)) (.date d) r := by
  obtain ⟨hk, hv⟩ := Prod.mk.inj ht
  rw [primary.eq_def]
  simp [Token.isKeyword, hk, hv, hu, hd]
  exact ⟨_, rfl, rfl, rfl⟩

theorem primary_ref {t : Token} {r : List Token} (ht : t.kind = .identifier)
    (hr : ∀ u ∈ r.head?, u.isSymbol "(" = false) :
    Yields (primary eof (t :: r)) (.ref t.value) r := by
  rw [primary.eq_def]
  cases r with
  | nil => simp [Token.isKeyword, ht]; exact Yields.ok _
  | cons u r' =>
    simp [Token.isKeyword, ht, hr u rfl]
    exact Yields.ok _

theorem primary_call {t u : Token} {r rest : List Token} {f : Builtin} {as : List Expr}
    (ht : t.kind = .identifier) (hu : u.isSymbol "(") (hf : Builtin.ofName? t.value = some f)
    (h : Yields (callRest eof r) as rest) :
    Yields (primary eof (t :: u :: r)) (.call f as) rest := by
  obtain ⟨⟨as, rest, hs⟩, h, rfl, rfl⟩ := h
  rw [primary.eq_def]
  simp [Token.isKeyword, ht, hu, hf, h]
  exact ⟨_, rfl, rfl, rfl⟩

theorem primary_paren {t c : Token} {r rest : List Token} {a : Expr} (ht : t.isSymbol "(")
    (h : Yields (orExpr eof r) a (c :: rest)) (hc : c.isSymbol ")") :
    Yields (primary eof (t :: r)) a rest := by
  obtain ⟨⟨a, _, hs⟩, h, rfl, hr⟩ := h
  simp only at hr
  subst hr
  have hk : t.kind ≠ .number ∧ t.kind ≠ .identifier ∧ t.kind ≠ .keyword := by
    simp only [Token.isSymbol, Bool.and_eq_true, beq_iff_eq] at ht
    simp [ht.1]
  rw [primary.eq_def]
  simp [Token.isKeyword, hk.1, hk.2.1, hk.2.2, ht, h, closing, hc]
  exact ⟨_, rfl, rfl, rfl⟩

theorem callRest_empty {q : Token} {r : List Token} (hq : q.isSymbol ")") :
    Yields (callRest eof (q :: r)) [] r := by
  rw [callRest.eq_def]
  simp only [hq, if_true]
  exact Yields.ok _

theorem callRest_args {ts rest : List Token} {c : Token} {as : List Expr}
    (hq : ∀ q ∈ ts.head?, q.isSymbol ")" = false) (h : Yields (args eof ts) as (c :: rest))
    (hc : c.isSymbol ")") : Yields (callRest eof ts) as rest := by
  obtain ⟨⟨as, _, hs⟩, h, rfl, hr⟩ := h
  simp only at hr
  subst hr
  have hclosed : Yields (argsClosed eof ts) as rest := by
    rw [argsClosed, h]
    simp only [closing, hc, if_true]
    exact ⟨_, rfl, rfl, rfl⟩
  cases ts with
  | nil => rw [callRest.eq_def]; exact hclosed
  | cons q r =>
    rw [callRest.eq_def]
    simp only [hq q rfl, Bool.false_eq_true, if_false]
    exact hclosed

theorem args_yields {ts r rest : List Token} {a : Expr} {as : List Expr}
    (h₁ : Yields (orExpr eof ts) a r) (h₂ : Yields (argsTail eof r) as rest) :
    Yields (args eof ts) (a :: as) rest := by
  obtain ⟨⟨a, r, hs⟩, h₁, rfl, rfl⟩ := h₁
  obtain ⟨⟨as, rest, hs'⟩, h₂, rfl, rfl⟩ := h₂
  rw [args, h₁]
  simp only [h₂]
  exact ⟨_, rfl, rfl, rfl⟩

theorem argsTail_stop {ts : List Token} (h : ∀ t ∈ ts.head?, t.isSymbol "," = false) :
    Yields (argsTail eof ts) [] ts := by
  cases ts with
  | nil => rw [argsTail.eq_def]; exact Yields.ok _
  | cons t r =>
    rw [argsTail.eq_def]
    simp only [h t rfl, Bool.false_eq_true, if_false]
    exact Yields.ok _

theorem argsTail_step {t : Token} {r r₁ rest : List Token} {a : Expr} {as : List Expr}
    (ht : t.isSymbol ",") (h₁ : Yields (orExpr eof r) a r₁) (h₂ : Yields (argsTail eof r₁) as rest) :
    Yields (argsTail eof (t :: r)) (a :: as) rest := by
  obtain ⟨⟨a, r₁, hs⟩, h₁, rfl, rfl⟩ := h₁
  obtain ⟨⟨as, rest, hs'⟩, h₂, rfl, rfl⟩ := h₂
  rw [argsTail.eq_def]
  simp only [ht, if_true, h₁, h₂]
  exact ⟨_, rfl, rfl, rfl⟩

/-! ### Reading at a binding strength -/

/-- The token ends an operand read below binding strength `k`: it is no operator of strength `k`
or more (`OR` 1, `AND` 2, the comparisons 4, `+` and `-` 5, `*` and `/` 6), and no opening
parenthesis, which after a name would start a call. -/
structure Ends (k : Nat) (t : Token) : Prop where
  paren : t.isSymbol "(" = false
  product : k ≤ 6 → productOp? t = none
  sum : k ≤ 5 → sumOp? t = none
  comparison : k ≤ 4 → comparisonOp? t = none
  and : k ≤ 2 → t.isKeyword "AND" = false
  or : k ≤ 1 → t.isKeyword "OR" = false

theorem Ends.mono {k k' : Nat} {t : Token} (h : Ends k t) (hk : k ≤ k') : Ends k' t :=
  ⟨h.paren, fun _ => h.product (by omega), fun _ => h.sum (by omega),
    fun _ => h.comparison (by omega), fun _ => h.and (by omega), fun _ => h.or (by omega)⟩

/-- The first of the tokens, if any, ends an operand read below strength `k`. -/
def Stops (k : Nat) (rest : List Token) : Prop := ∀ t ∈ rest.head?, Ends k t

theorem Stops.mono {k k' : Nat} {rest : List Token} (h : Stops k rest) (hk : k ≤ k') :
    Stops k' rest :=
  fun t ht => (h t ht).mono hk

/-- The rule of the grammar that reads an operand of binding strength at least `L`, from `OR`
(1) to a primary (8). -/
def rule : Nat → Pos → (ts : List Token) → Except Stop (Parsed ts Expr)
  | 1 => orExpr
  | 2 => andExpr
  | 3 => notExpr
  | 4 => comparison
  | 5 => sumExpr
  | 6 => product
  | 7 => unary
  | _ => primary

/-- How the rule for strength `L` goes on after an operand `acc`: the repetitions of `OR`,
`AND`, `+ -` and `* /`; the other rules end after one operand. -/
def tail : Nat → Pos → (ts : List Token) → Expr → Except Stop (Parsed ts Expr)
  | 1 => orTail
  | 2 => andTail
  | 5 => sumTail
  | 6 => productTail
  | _ => fun _ _ acc => .ok (Parsed.here acc)

/-- The strength from which on an operator ends an operand read by the rule for strength `L`:
the rules with a tail read the operators of their own strength, the others do not. -/
def follow (L : Nat) : Nat := if L = 1 ∨ L = 2 ∨ L = 5 ∨ L = 6 then L + 1 else L

/-- Read at strength `L`, the lexemes of `e` give `e`, and the reading goes on as the rule's
tail goes on after `e`, when the tokens after them do not continue the operand. -/
def Reparse (L : Nat) (e : Expr) : Prop :=
  ∀ eof us rest, us.map Token.lexeme = e.lexemesAt L → Stops (follow L) rest →
    ∀ b rest', Yields (tail L eof rest e) b rest' → Yields (rule L eof (us ++ rest)) b rest'

theorem here_yields {ts rest : List Token} {a b : Expr}
    (h : Yields (.ok (Parsed.here a) : Except Stop (Parsed ts Expr)) b rest) : b = a ∧ rest = ts := by
  obtain ⟨p, hp, rfl, rfl⟩ := h
  cases hp
  exact ⟨rfl, rfl⟩

theorem Token.isKeyword_of_lexeme {t : Token} {w : String} (h : t.lexeme ≠ (.keyword, w)) :
    t.isKeyword w = false := by
  simp only [Token.lexeme, ne_eq, Prod.mk.injEq, not_and] at h
  simp only [Token.isKeyword, Bool.and_eq_false_iff, beq_eq_false_iff_ne, ne_eq]
  by_cases hk : t.kind = .keyword
  · exact .inr (h hk)
  · exact .inl hk

theorem Token.isSymbol_of_lexeme {t : Token} {w : String} (h : t.lexeme ≠ (.symbol, w)) :
    t.isSymbol w = false := by
  simp only [Token.lexeme, ne_eq, Prod.mk.injEq, not_and] at h
  simp only [Token.isSymbol, Bool.and_eq_false_iff, beq_eq_false_iff_ne, ne_eq]
  by_cases hk : t.kind = .symbol
  · exact .inr (h hk)
  · exact .inl hk

/-- The first token of `us ++ rest` has the first lexeme of `us`, when there is one. -/
theorem head_lexeme {us rest : List Token} {ls : List (TokenKind × String)}
    (h : us.map Token.lexeme = ls) (hne : ls ≠ []) :
    ∀ t ∈ (us ++ rest).head?, t.lexeme ∈ ls.head? := by
  cases us with
  | nil => subst h; exact absurd rfl hne
  | cons u us =>
    intro t ht
    simp only [List.cons_append, List.head?_cons, Option.mem_def, Option.some.injEq] at ht
    subst ht
    subst h
    simp

/-! ### Tokens by their lexemes -/

theorem Token.isKeyword_of_eq {t : Token} {w : String} (h : t.lexeme = (.keyword, w)) :
    t.isKeyword w = true := by
  obtain ⟨hk, hv⟩ := Prod.mk.inj h
  simp [Token.isKeyword, hk, hv]

theorem Token.isSymbol_of_eq {t : Token} {w : String} (h : t.lexeme = (.symbol, w)) :
    t.isSymbol w = true := by
  obtain ⟨hk, hv⟩ := Prod.mk.inj h
  simp [Token.isSymbol, hk, hv]

/-- The token of an operator ends every operand read below the operator's strength plus one:
it is itself no operator of greater strength. -/
theorem ends_of_lexeme {t : Token} {op : BinaryOp} (h : t.lexeme = op.lexeme) :
    Ends (op.strength + 1) t := by
  cases op <;> simp only [BinaryOp.lexeme, BinaryOp.text, Token.lexeme, Prod.mk.injEq] at h <;>
    obtain ⟨hk, hv⟩ := h <;>
    constructor <;>
    simp [productOp?, sumOp?, comparisonOp?, Token.isSymbol, Token.isKeyword, hk, hv,
      BinaryOp.strength, BinaryOp.ofComparisonSymbol?]

/-- A closing parenthesis or a comma ends every operand. -/
theorem ends_of_closer {t : Token} (k : Nat)
    (h : t.lexeme = (.symbol, ")") ∨ t.lexeme = (.symbol, ",")) : Ends k t := by
  rcases h with h | h <;> obtain ⟨hk, hv⟩ := Prod.mk.inj h <;>
    constructor <;>
    simp [productOp?, sumOp?, comparisonOp?, Token.isSymbol, Token.isKeyword, hk, hv,
      BinaryOp.ofComparisonSymbol?]

theorem sumOp?_of_lexeme {t : Token} {op : BinaryOp} (h : t.lexeme = op.lexeme)
    (hs : op.strength = 5) : sumOp? t = some op := by
  cases op <;> simp [BinaryOp.strength] at hs <;>
    simp only [BinaryOp.lexeme, BinaryOp.text, Token.lexeme, Prod.mk.injEq] at h <;>
    simp [sumOp?, Token.isSymbol, h.1, h.2]

theorem productOp?_of_lexeme {t : Token} {op : BinaryOp} (h : t.lexeme = op.lexeme)
    (hs : op.strength = 6) : productOp? t = some op := by
  cases op <;> simp [BinaryOp.strength] at hs <;>
    simp only [BinaryOp.lexeme, BinaryOp.text, Token.lexeme, Prod.mk.injEq] at h <;>
    simp [productOp?, Token.isSymbol, h.1, h.2]

theorem comparisonOp?_of_lexeme {t : Token} {op : BinaryOp} (h : t.lexeme = op.lexeme)
    (hs : op.strength = 4) : comparisonOp? t = some op := by
  cases op <;> simp [BinaryOp.strength] at hs <;>
    simp only [BinaryOp.lexeme, BinaryOp.text, Token.lexeme, Prod.mk.injEq] at h <;>
    simp [comparisonOp?, Token.isKeyword, h.1, h.2, BinaryOp.ofComparisonSymbol?]

/-- The tokens of a printed operation: those of its left operand, the operator's, and those of
its right operand. -/
theorem split_binary {us : List Token} {op : BinaryOp} {l r : Expr}
    (h : us.map Token.lexeme = (Expr.binary op l r).lexemes) :
    ∃ ul u ur, us = ul ++ u :: ur ∧
      ul.map Token.lexeme = l.lexemesAt (if op.strength = 4 then 5 else op.strength) ∧
      u.lexeme = op.lexeme ∧ ur.map Token.lexeme = r.lexemesAt (op.strength + 1) := by
  rw [Expr.lexemes_binary, List.map_eq_append_iff] at h
  obtain ⟨ul, us', rfl, hul, hus'⟩ := h
  obtain ⟨u, ur, rfl, hu, hur⟩ := List.map_eq_cons_iff.mp hus'
  exact ⟨ul, u, ur, rfl, hul, hu, hur⟩

namespace Reparse

variable {e : Expr}

theorem or_of_and (hL : e.lexemesAt 1 = e.lexemesAt 2) (h : Reparse 2 e) : Reparse 1 e := by
  intro eof us rest hus hs b rest' hb
  have hand : Yields (andTail eof rest e) e rest := andTail_stop fun t ht => (hs t ht).and (Nat.le_refl _)
  exact orExpr_yields (h eof us rest (hus.trans hL) (hs.mono (by decide)) e rest hand) hb

theorem and_of_not (hL : e.lexemesAt 2 = e.lexemesAt 3) (h : Reparse 3 e) : Reparse 2 e := by
  intro eof us rest hus hs b rest' hb
  exact andExpr_yields (h eof us rest (hus.trans hL) hs e rest (Yields.ok _)) hb

theorem not_of_comparison (hL : e.lexemesAt 3 = e.lexemesAt 4) (h : Reparse 4 e) :
    Reparse 3 e := by
  intro eof us rest hus hs b rest' hb
  rw [(here_yields hb).1, (here_yields hb).2]
  have hus' := hus.trans hL
  refine notExpr_comparison (fun t ht => Token.isKeyword_of_lexeme ?_)
    (h eof us rest hus' (hs.mono (by decide)) e rest (Yields.ok _))
  intro heq
  have := @head_lexeme _ rest _ hus' (Expr.lexemesAt_ne_nil _ _) t ht
  rw [heq] at this
  exact Expr.lexemesAt_head_not e (Option.mem_def.mp this)

theorem comparison_of_sum (hL : e.lexemesAt 4 = e.lexemesAt 5) (h : Reparse 5 e) :
    Reparse 4 e := by
  intro eof us rest hus hs b rest' hb
  rw [(here_yields hb).1, (here_yields hb).2]
  have hsum : Yields (sumTail eof rest e) e rest := sumTail_stop fun t ht => (hs t ht).sum (by decide)
  exact comparison_plain (h eof us rest (hus.trans hL) (hs.mono (by decide)) e rest hsum)
    fun t ht => (hs t ht).comparison (Nat.le_refl _)

theorem sum_of_product (hL : e.lexemesAt 5 = e.lexemesAt 6) (h : Reparse 6 e) : Reparse 5 e := by
  intro eof us rest hus hs b rest' hb
  have hprod : Yields (productTail eof rest e) e rest :=
    productTail_stop fun t ht => (hs t ht).product (Nat.le_refl _)
  exact sumExpr_yields (h eof us rest (hus.trans hL) (hs.mono (by decide)) e rest hprod) hb

theorem product_of_unary (hL : e.lexemesAt 6 = e.lexemesAt 7) (h : Reparse 7 e) :
    Reparse 6 e := by
  intro eof us rest hus hs b rest' hb
  exact product_yields (h eof us rest (hus.trans hL) hs e rest (Yields.ok _)) hb

theorem unary_of_primary (hL : e.lexemesAt 7 = e.lexemesAt 8)
    (hn : (e.lexemesAt 8).head? ≠ some (.symbol, "-")) (h : Reparse 8 e) : Reparse 7 e := by
  intro eof us rest hus hs b rest' hb
  rw [(here_yields hb).1, (here_yields hb).2]
  have hus' := hus.trans hL
  refine unary_primary (fun t ht => Token.isSymbol_of_lexeme ?_)
    (h eof us rest hus' (hs.mono (by decide)) e rest (Yields.ok _))
  intro heq
  have := @head_lexeme _ rest _ hus' (Expr.lexemesAt_ne_nil _ _) t ht
  rw [heq] at this
  exact hn (Option.mem_def.mp this)

/-- One strength to the next: away from the expression's own strength its lexemes are the same
at both, and the rule for `L` reads what the rule for `L + 1` reads. -/
theorem descend {L : Nat} (h1 : 1 ≤ L) (h7 : L ≤ 7) (hs : e.strength ≠ L)
    (h : Reparse (L + 1) e) : Reparse L e := by
  have hL := Expr.lexemesAt_succ hs
  match L, h1, h7 with
  | 0, h1, _ => exact absurd h1 (by decide)
  | 1, _, _ => exact or_of_and hL h
  | 2, _, _ => exact and_of_not hL h
  | 3, _, _ => exact not_of_comparison hL h
  | 4, _, _ => exact comparison_of_sum hL h
  | 5, _, _ => exact sum_of_product hL h
  | 6, _, _ => exact product_of_unary hL h
  | 7, _, _ => exact unary_of_primary hL (Expr.lexemesAt_head_minus hs) h
  | _ + 8, _, h7 => exact absurd h7 (by omega)

/-- From its own strength an expression is read back at every weaker one. -/
theorem down (h : Reparse e.strength e) {L : Nat} (h1 : 1 ≤ L) (hL : L ≤ e.strength) :
    Reparse L e := by
  obtain ⟨k, hk⟩ : ∃ k, e.strength = L + k := ⟨e.strength - L, by omega⟩
  induction k generalizing L with
  | zero => simpa [hk] using h
  | succ k ih =>
    have h8 := e.strength_le
    exact descend h1 (by omega) (by omega) (ih (by omega) (by omega) (by omega))

/-- From strength 8, where it is a primary or in parentheses, an expression is read back at every
strength above its own. -/
theorem up (h : Reparse 8 e) {L : Nat} (hs : e.strength < L) (hL : L ≤ 8) : Reparse L e := by
  obtain ⟨k, hk⟩ : ∃ k, 8 = L + k := ⟨8 - L, by omega⟩
  induction k generalizing L with
  | zero => simpa [hk] using h
  | succ k ih => exact descend (by omega) (by omega) (by omega) (ih (by omega) (by omega) (by omega))

/-! #### Each expression at its own strength -/

variable {l r x : Expr}

theorem or (hl : Reparse 1 l) (hr : Reparse 2 r) : Reparse 1 (.binary .or l r) := by
  intro eof us rest hus hs b rest' hb
  rw [Expr.lexemesAt_of_le (by simp [Expr.strength, BinaryOp.strength])] at hus
  obtain ⟨ul, u, ur, rfl, hul, hu, hur⟩ := split_binary hus
  rw [List.append_assoc, List.cons_append]
  -- the left operand is followed by the `OR`, which the tail of `orExpr` reads
  refine hl eof ul (u :: (ur ++ rest)) hul (fun t ht => ?_) b rest' ?_
  · cases ht
    exact ends_of_lexeme hu
  · have hand : Yields (andTail eof rest r) r rest := andTail_stop fun t ht => (hs t ht).and (by decide)
    exact orTail_step (Token.isKeyword_of_eq hu)
      (hr eof ur rest hur (hs.mono (by decide)) r rest hand) hb

theorem and (hl : Reparse 2 l) (hr : Reparse 3 r) : Reparse 2 (.binary .and l r) := by
  intro eof us rest hus hs b rest' hb
  rw [Expr.lexemesAt_of_le (by simp [Expr.strength, BinaryOp.strength])] at hus
  obtain ⟨ul, u, ur, rfl, hul, hu, hur⟩ := split_binary hus
  rw [List.append_assoc, List.cons_append]
  refine hl eof ul (u :: (ur ++ rest)) hul (fun t ht => ?_) b rest' ?_
  · cases ht
    exact ends_of_lexeme hu
  · exact andTail_step (Token.isKeyword_of_eq hu) (hr eof ur rest hur hs r rest (Yields.ok _)) hb

theorem comparison {op : BinaryOp} (hop : op.strength = 4) (hl : Reparse 5 l) (hr : Reparse 5 r) :
    Reparse 4 (.binary op l r) := by
  intro eof us rest hus hs b rest' hb
  rw [(here_yields hb).1, (here_yields hb).2]
  rw [Expr.lexemesAt_of_le (by simp [Expr.strength, hop])] at hus
  obtain ⟨ul, u, ur, rfl, hul, hu, hur⟩ := split_binary hus
  simp only [hop, if_true] at hul hur
  rw [List.append_assoc, List.cons_append]
  -- a comparison does not chain: the left operand ends at the operator, the right one at `rest`
  have hleft : Yields (sumExpr eof (ul ++ u :: (ur ++ rest))) l (u :: (ur ++ rest)) := by
    refine hl eof ul _ hul (fun t ht => ?_) l _ (sumTail_stop fun t ht => ?_)
    · cases ht
      exact (ends_of_lexeme hu).mono (by simp [hop, follow])
    · cases ht
      exact (ends_of_lexeme hu).sum (by omega)
  have hright : Yields (sumExpr eof (ur ++ rest)) r rest :=
    hr eof ur rest hur (hs.mono (by decide)) r rest
      (sumTail_stop fun t ht => (hs t ht).sum (by decide))
  exact comparison_op hleft (comparisonOp?_of_lexeme hu hop) hright

theorem sum {op : BinaryOp} (hop : op.strength = 5) (hl : Reparse 5 l) (hr : Reparse 6 r) :
    Reparse 5 (.binary op l r) := by
  intro eof us rest hus hs b rest' hb
  rw [Expr.lexemesAt_of_le (by simp [Expr.strength, hop])] at hus
  obtain ⟨ul, u, ur, rfl, hul, hu, hur⟩ := split_binary hus
  simp only [hop] at hul hur
  rw [List.append_assoc, List.cons_append]
  refine hl eof ul (u :: (ur ++ rest)) hul (fun t ht => ?_) b rest' ?_
  · cases ht
    exact (ends_of_lexeme hu).mono (by simp [hop, follow])
  · have hprod : Yields (productTail eof rest r) r rest :=
      productTail_stop fun t ht => (hs t ht).product (by decide)
    exact sumTail_step (sumOp?_of_lexeme hu hop)
      (hr eof ur rest hur (hs.mono (by decide)) r rest hprod) hb

theorem product {op : BinaryOp} (hop : op.strength = 6) (hl : Reparse 6 l) (hr : Reparse 7 r) :
    Reparse 6 (.binary op l r) := by
  intro eof us rest hus hs b rest' hb
  rw [Expr.lexemesAt_of_le (by simp [Expr.strength, hop])] at hus
  obtain ⟨ul, u, ur, rfl, hul, hu, hur⟩ := split_binary hus
  simp only [hop] at hul hur
  rw [List.append_assoc, List.cons_append]
  refine hl eof ul (u :: (ur ++ rest)) hul (fun t ht => ?_) b rest' ?_
  · cases ht
    exact (ends_of_lexeme hu).mono (by simp [hop, follow])
  · exact productTail_step (productOp?_of_lexeme hu hop)
      (hr eof ur rest hur hs r rest (Yields.ok _)) hb

theorem not (h : Reparse 3 x) : Reparse 3 (.unary .not x) := by
  intro eof us rest hus hs b rest' hb
  rw [(here_yields hb).1, (here_yields hb).2]
  rw [Expr.lexemesAt_of_le (by simp [Expr.strength])] at hus
  obtain ⟨u, ux, rfl, hu, hux⟩ := List.map_eq_cons_iff.mp hus
  exact notExpr_not (Token.isKeyword_of_eq hu) (h eof ux rest hux hs x rest (Yields.ok _))

theorem neg (h : Reparse 7 x) : Reparse 7 (.unary .neg x) := by
  intro eof us rest hus hs b rest' hb
  rw [(here_yields hb).1, (here_yields hb).2]
  rw [Expr.lexemesAt_of_le (by simp [Expr.strength])] at hus
  obtain ⟨u, ux, rfl, hu, hux⟩ := List.map_eq_cons_iff.mp hus
  exact unary_neg (Token.isSymbol_of_eq hu) (h eof ux rest hux hs x rest (Yields.ok _))

theorem num {v : Decimal} (hv : Decimal.ofText v.toText = .ok v) : Reparse 8 (.num v) := by
  intro eof us rest hus hs b rest' hb
  rw [(here_yields hb).1, (here_yields hb).2]
  obtain ⟨u, rfl, hu⟩ := List.map_eq_singleton_iff.mp hus
  obtain ⟨hk, hval⟩ := Prod.mk.inj hu
  exact primary_num hk (hval ▸ hv)

theorem bool (v : Bool) : Reparse 8 (.bool v) := by
  intro eof us rest hus hs b rest' hb
  rw [(here_yields hb).1, (here_yields hb).2]
  obtain ⟨u, rfl, hu⟩ := List.map_eq_singleton_iff.mp hus
  exact primary_bool v hu

theorem date {d : Date} (hd : Date.ofIsoText? d.isoText = some d) : Reparse 8 (.date d) := by
  intro eof us rest hus hs b rest' hb
  rw [(here_yields hb).1, (here_yields hb).2]
  obtain ⟨u, us', rfl, hu, hus'⟩ := List.map_eq_cons_iff.mp hus
  obtain ⟨w, rfl, hw⟩ := List.map_eq_singleton_iff.mp hus'
  obtain ⟨hk, hval⟩ := Prod.mk.inj hw
  exact primary_date hu hk (hval ▸ hd)

theorem ref (n : String) : Reparse 8 (.ref n) := by
  intro eof us rest hus hs b rest' hb
  rw [(here_yields hb).1, (here_yields hb).2]
  obtain ⟨u, rfl, hu⟩ := List.map_eq_singleton_iff.mp hus
  obtain ⟨hk, rfl⟩ := Prod.mk.inj hu
  -- no parenthesis follows, so the name is a reference and not a call
  exact primary_ref hk fun t ht => (hs t ht).paren

/-- In parentheses an expression is read as a primary: the rule for strength 1 reads it, up to
the closing parenthesis. -/
theorem paren (hs8 : e.strength < 8) (h : Reparse 1 e) : Reparse 8 e := by
  intro eof us rest hus hs b rest' hb
  rw [(here_yields hb).1, (here_yields hb).2]
  simp only [Expr.lexemesAt, Expr.bracket, hs8, decide_true, if_true] at hus
  obtain ⟨o, us', rfl, ho, hus'⟩ := List.map_eq_cons_iff.mp hus
  obtain ⟨ue, cs, rfl, hue, hcs⟩ := List.map_eq_append_iff.mp hus'
  obtain ⟨c, rfl, hc⟩ := List.map_eq_singleton_iff.mp hcs
  have hclose : Stops 1 (c :: rest) := fun t ht => by
    cases ht
    exact ends_of_closer _ (.inl hc)
  have hor : Yields (orExpr eof (ue ++ c :: rest)) e (c :: rest) :=
    h eof ue (c :: rest) (by rw [hue, Expr.lexemesAt_of_le e.strength_pos])
      (hclose.mono (by decide)) e (c :: rest)
      (orTail_stop fun t ht => (hclose t ht).or (Nat.le_refl _))
  have hts : o :: (ue ++ [c]) ++ rest = o :: (ue ++ c :: rest) := by simp
  rw [hts]
  exact primary_paren (Token.isSymbol_of_eq ho) hor (Token.isSymbol_of_eq hc)

/-- After the arguments that follow the first, each after a comma, the tokens go on with what
ends them all. -/
theorem stops_after_commas {as : List Expr} {uas rest : List Token}
    (huas : uas.map Token.lexeme = as.flatMap fun x => (.symbol, ",") :: x.lexemes)
    (hrest : Stops 1 rest) : Stops 1 (uas ++ rest) := by
  cases as with
  | nil => simp only [List.flatMap_nil, List.map_eq_nil_iff] at huas; simpa [huas] using hrest
  | cons x xs =>
    simp only [List.flatMap_cons, List.cons_append] at huas
    obtain ⟨k, _, rfl, hk, _⟩ := List.map_eq_cons_iff.mp huas
    intro t ht
    cases ht
    exact ends_of_closer _ (.inr hk)

/-- The arguments after the first, each after its comma, are read back by `argsTail`. -/
theorem argsTail_lexemes : ∀ {as : List Expr}, (∀ x ∈ as, Reparse 1 x) →
    ∀ {uas rest : List Token}, uas.map Token.lexeme = (as.flatMap fun x => (.symbol, ",") :: x.lexemes) →
    Stops 1 rest → (∀ t ∈ rest.head?, t.isSymbol "," = false) →
    Yields (argsTail eof (uas ++ rest)) as rest
  | [], _, _, _, huas, _, hcomma => by
    simp only [List.flatMap_nil, List.map_eq_nil_iff] at huas
    subst huas
    exact argsTail_stop hcomma
  | x :: xs, h, _, rest, huas, hrest, hcomma => by
    simp only [List.flatMap_cons, List.cons_append] at huas
    obtain ⟨k, us', rfl, hk, hus'⟩ := List.map_eq_cons_iff.mp huas
    obtain ⟨ux, uxs, rfl, hux, huxs⟩ := List.map_eq_append_iff.mp hus'
    have hmore := stops_after_commas huxs hrest
    have hx : Yields (orExpr eof (ux ++ (uxs ++ rest))) x (uxs ++ rest) :=
      h x List.mem_cons_self eof ux _ (by rw [hux, Expr.lexemesAt_of_le x.strength_pos])
        (hmore.mono (by decide)) x _ (orTail_stop fun t ht => (hmore t ht).or (Nat.le_refl _))
    rw [List.cons_append, List.append_assoc]
    exact argsTail_step (Token.isSymbol_of_eq hk) hx
      (argsTail_lexemes (fun y hy => h y (List.mem_cons_of_mem x hy)) huxs hrest hcomma)

theorem call (f : Builtin) (as : List Expr) (h : ∀ x ∈ as, Reparse 1 x) :
    Reparse 8 (.call f as) := by
  intro eof us rest hus hs b rest' hb
  rw [(here_yields hb).1, (here_yields hb).2]
  rw [Expr.lexemesAt_of_le (by simp [Expr.strength])] at hus
  obtain ⟨u, us₁, rfl, hu, hus₁⟩ := List.map_eq_cons_iff.mp hus
  obtain ⟨o, us₂, rfl, ho, hus₂⟩ := List.map_eq_cons_iff.mp hus₁
  obtain ⟨uas, cs, rfl, huas, hcs⟩ := List.map_eq_append_iff.mp hus₂
  obtain ⟨c, rfl, hc⟩ := List.map_eq_singleton_iff.mp hcs
  obtain ⟨hk, hv⟩ := Prod.mk.inj hu
  have hts : u :: o :: (uas ++ [c]) ++ rest = u :: o :: (uas ++ c :: rest) := by simp
  rw [hts]
  have hname : Builtin.ofName? u.value = some f := by
    rw [hv]
    cases f <;> rfl
  refine primary_call hk (Token.isSymbol_of_eq ho) hname ?_
  -- the arguments, then the closing parenthesis
  cases as with
  | nil =>
    simp only [Expr.argLexemes, List.map_eq_nil_iff] at huas
    subst huas
    exact callRest_empty (Token.isSymbol_of_eq hc)
  | cons a as =>
    rw [Expr.argLexemes_cons, List.map_eq_append_iff] at huas
    obtain ⟨ua, uas', rfl, hua, huas'⟩ := huas
    have hclose : Stops 1 (c :: rest) := fun t ht => by
      cases ht
      exact ends_of_closer _ (.inl hc)
    have hmore := stops_after_commas huas' hclose
    have ha : Yields (orExpr eof (ua ++ (uas' ++ c :: rest))) a (uas' ++ c :: rest) :=
      h a List.mem_cons_self eof ua _ (by rw [hua, Expr.lexemesAt_of_le a.strength_pos])
        (hmore.mono (by decide)) a _ (orTail_stop fun t ht => (hmore t ht).or (Nat.le_refl _))
    have htail : Yields (argsTail eof (uas' ++ c :: rest)) as (c :: rest) :=
      argsTail_lexemes (fun y hy => h y (List.mem_cons_of_mem a hy)) huas' hclose
        fun t ht => by cases ht; exact Token.isSymbol_of_lexeme (by rw [hc]; decide)
    -- the first argument does not start with the closing parenthesis
    have hfirst : ∀ q ∈ (ua ++ uas' ++ c :: rest).head?, q.isSymbol ")" = false := by
      intro q hq
      have := @head_lexeme _ (uas' ++ c :: rest) _ hua a.lexemes_ne_nil q (by simpa using hq)
      refine Token.isSymbol_of_lexeme fun heq => a.lexemes_head_ne_close ?_
      rw [heq] at this
      exact Option.mem_def.mp this
    refine callRest_args hfirst ?_ (Token.isSymbol_of_eq hc)
    rw [List.append_assoc]
    exact args_yields ha htail

/-- Read back at its own strength, an expression is read back at every strength: below it by
`down`, in parentheses at 8 from strength 1, and between by `up`. -/
theorem of_own (h : Reparse e.strength e) {L : Nat} (h1 : 1 ≤ L) (h8 : L ≤ 8) : Reparse L e := by
  have hone : Reparse 1 e := down h (Nat.le_refl _) e.strength_pos
  have height : Reparse 8 e := by
    by_cases hs : e.strength = 8
    · rwa [hs] at h
    · exact paren (by have := e.strength_le; omega) hone
  by_cases hL : L ≤ e.strength
  · exact down h h1 hL
  · exact up height (by omega) h8

end Reparse

mutual

/-- Every expression whose literals read back is read back at every binding strength; the
induction is on the expression, each case read at its own strength first. -/
theorem reparse : ∀ (e : Expr), e.Leaves Expr.ReadsBack → ∀ L, 1 ≤ L → L ≤ 8 → Reparse L e
  | .num _, h, _, h1, h8 => Reparse.of_own (Reparse.num h) h1 h8
  | .bool v, _, _, h1, h8 => Reparse.of_own (Reparse.bool v) h1 h8
  | .date _, h, _, h1, h8 => Reparse.of_own (Reparse.date h) h1 h8
  | .sym _, h, _, _, _ => h.elim
  | .ref n, _, _, h1, h8 => Reparse.of_own (Reparse.ref n) h1 h8
  | .unary .not x, h, _, h1, h8 =>
    Reparse.of_own (Reparse.not (reparse x h 3 (by decide) (by decide))) h1 h8
  | .unary .neg x, h, _, h1, h8 =>
    Reparse.of_own (Reparse.neg (reparse x h 7 (by decide) (by decide))) h1 h8
  | .binary op l r, h, _, h1, h8 => by
    have hl := reparse l h.1
    have hr := reparse r h.2
    refine Reparse.of_own ?_ h1 h8
    cases op
    case or => exact Reparse.or (hl 1 (by decide) (by decide)) (hr 2 (by decide) (by decide))
    case and => exact Reparse.and (hl 2 (by decide) (by decide)) (hr 3 (by decide) (by decide))
    case add | sub =>
      exact Reparse.sum rfl (hl 5 (by decide) (by decide)) (hr 6 (by decide) (by decide))
    case mul | div =>
      exact Reparse.product rfl (hl 6 (by decide) (by decide)) (hr 7 (by decide) (by decide))
    all_goals
      exact Reparse.comparison rfl (hl 5 (by decide) (by decide)) (hr 5 (by decide) (by decide))
  | .call f as, h, _, h1, h8 => Reparse.of_own (Reparse.call f as (reparseAll as h)) h1 h8

/-- `reparse` at strength 1 for each argument of a call. -/
theorem reparseAll : ∀ (as : List Expr), Expr.LeavesAll Expr.ReadsBack as → ∀ x ∈ as, Reparse 1 x
  | [], _, _, hx => absurd hx List.not_mem_nil
  | a :: as, h, x, hx => by
    rcases List.mem_cons.mp hx with hxa | hx
    · rw [hxa]
      exact reparse a h.1 1 (by decide) (by decide)
    · exact reparseAll as h.2 x hx

end

/-- The tokens of a printed expression whose literals read back are read back as the expression,
and nothing of them is left. -/
theorem orExpr_lexemes {e : Expr} (he : e.Leaves Expr.ReadsBack) {us : List Token}
    (hus : us.map Token.lexeme = e.lexemes) (eof : Pos) :
    Yields (orExpr eof us) e [] := by
  have h := reparse e he 1 (by decide) (by decide) eof us []
    (by rw [hus, Expr.lexemesAt_of_le e.strength_pos]) (fun _ ht => by cases ht) e []
    (orTail_stop fun _ ht => by cases ht)
  rwa [List.append_nil] at h

end ExprParse

end FeeSchedule
