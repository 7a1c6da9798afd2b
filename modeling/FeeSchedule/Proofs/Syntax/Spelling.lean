import FeeSchedule.Proofs.Syntax.Reparse
import FeeSchedule.Schedule.Parse
import FeeSchedule.Syntax.Lexer

/-!
# `FeeSchedule.Proofs.Syntax.Spelling`: printed expressions read back as themselves

The text `Expr.render` writes for an expression is read by the lexer as tokens whose lexemes
(class and text) are `Expr.lexemes`, with no lexical error, and the reader then gives back the
expression. What the lexer needs of the expression is that its references are words that are
not reserved and its numbers are written as ASCII digits with at most one point
(`Expr.Spelled`); the text of a date is always a string without apostrophe. A number printed
in exponent form, such as `1E-7`, is not spelled so: the lexer has no exponents and reads it as
the number `1` followed by the word `E`.

* `Lexer.Scans B cs ls`: scanning the code points `cs` in front of anything `B` admits makes
  tokens with the lexemes `ls`. Pieces of text combine by `Scans.append`; each kind of token
  has its piece (`scans_word`, `scans_numeral`, `scans_symbol`, `scans_quoted`, `scans_blank`),
  proved from the one step of the lexer it takes.
* `scans_render`: a printed expression scans to its lexemes before a blank, a closing
  parenthesis, a comma or the end of the text, by induction on the expression.
* `tokenize_render`: the whole text gives no error and tokens with the expression's lexemes.
* `parse_render`: with `ExprParse.orExpr_lexemes`, reading the printed text gives the
  expression back when its literals also read back from their texts (`Expr.ReadsBack`).
-/

set_option autoImplicit false

namespace FeeSchedule

namespace Lexer

/-- Whether a character starts a word and no other token: it is no white space, digit, `#` or
apostrophe, and it is a letter or an underscore. -/
def startsWord (c : Char) : Bool :=
  !Unicode.isBlank c && c != '#' && c != '\'' && !Unicode.isDigit c && isWordStart c

/-- Whether the lexer reads the text as one word: a first character that starts a word,
followed by characters that continue it. -/
def isWord (w : String) : Bool :=
  match w.toList with
  | [] => false
  | c :: cs => startsWord c && cs.all isWordChar

/-- The text of a number token: ASCII digits, then possibly a point and more ASCII digits. -/
def Numeral (cs : List Char) : Prop :=
  ∃ w f : List Char, cs = w ++ f ∧ w ≠ [] ∧ (∀ c ∈ w, c.isDigit) ∧
    (f = [] ∨ ∃ g, f = '.' :: g ∧ g ≠ [] ∧ ∀ c ∈ g, c.isDigit)

/-- Scanning the code points `cs` in front of any `rest` that `B` admits makes tokens with the
lexemes `ls` and no error, wherever the text starts. -/
def Scans (B : List CodePoint → Prop) (cs : List CodePoint) (ls : List (TokenKind × String)) :
    Prop :=
  ∀ rest p toks errs, B rest → ∃ (ts : List Token) (p' : Pos), ts.map Token.lexeme = ls ∧
    scan (cs ++ rest) p toks errs = scan rest p' (ts.reverse ++ toks) errs

/-! ### One step of the lexer -/

theorem scan_token {c : CodePoint} {r : List CodePoint} {p : Pos} {toks : List Token}
    {errs : List LexError} {n : Nat} {t : Token} (h : step c r p = (n, some (.inl t))) :
    ∃ p', scan (c :: r) p toks errs = scan (r.drop n) p' (t :: toks) errs := by
  rw [scan, h]
  exact ⟨_, rfl⟩

theorem scan_skip {c : CodePoint} {r : List CodePoint} {p : Pos} {toks : List Token}
    {errs : List LexError} {n : Nat} (h : step c r p = (n, none)) :
    ∃ p', scan (c :: r) p toks errs = scan (r.drop n) p' toks errs := by
  rw [scan, h]
  exact ⟨_, rfl⟩

namespace Scans

variable {B B₁ B₂ : List CodePoint → Prop} {cs cs₁ cs₂ : List CodePoint}
  {ls ls₁ ls₂ : List (TokenKind × String)}

/-- Two pieces of text one after the other scan to their lexemes one after the other, when the
first piece admits what follows it. -/
theorem append (h₁ : Scans B₁ cs₁ ls₁) (h₂ : Scans B₂ cs₂ ls₂)
    (hB : ∀ rest, B₂ rest → B₁ (cs₂ ++ rest)) : Scans B₂ (cs₁ ++ cs₂) (ls₁ ++ ls₂) := by
  intro rest p toks errs hr
  obtain ⟨ts₁, p₁, hl₁, he₁⟩ := h₁ (cs₂ ++ rest) p toks errs (hB rest hr)
  obtain ⟨ts₂, p₂, hl₂, he₂⟩ := h₂ rest p₁ (ts₁.reverse ++ toks) errs hr
  refine ⟨ts₁ ++ ts₂, p₂, by simp [hl₁, hl₂], ?_⟩
  rw [List.append_assoc, he₁, he₂]
  simp

theorem mono (h : Scans B cs ls) (hB : ∀ rest, B₂ rest → B rest) : Scans B₂ cs ls :=
  fun rest p toks errs hr => h rest p toks errs (hB rest hr)

/-- A piece that one step of the lexer reads whole, as a token with the lexeme `l`. -/
theorem of_step {c : CodePoint} {l : TokenKind × String}
    (h : ∀ rest p, B rest → ∃ t : Token, t.lexeme = l ∧ step c (cs ++ rest) p = (cs.length, some (.inl t))) :
    Scans B (c :: cs) [l] := by
  intro rest p toks errs hr
  obtain ⟨t, hl, hs⟩ := h rest p hr
  obtain ⟨p', he⟩ := @scan_token _ _ _ toks errs _ _ hs
  refine ⟨[t], p', by simp [hl], ?_⟩
  rw [List.cons_append, he, List.drop_left]
  rfl

/-- A piece that one step of the lexer skips whole. -/
theorem of_skip {c : CodePoint} (h : ∀ rest p, B rest → step c (cs ++ rest) p = (cs.length, none)) :
    Scans B (c :: cs) [] := by
  intro rest p toks errs hr
  obtain ⟨p', he⟩ := @scan_skip _ _ _ toks errs _ (h rest p hr)
  refine ⟨[], p', rfl, ?_⟩
  rw [List.cons_append, he, List.drop_left]
  rfl

end Scans

/-! ### The pieces of a printed text -/

theorem scans_blank : Scans (fun _ => True) [.char ' '] [] := by
  refine Scans.of_skip fun rest p _ => ?_
  have hb : Unicode.isBlank ' ' = true := by decide +kernel
  simp [step, CodePoint.satisfies, hb]

/-- A blank in front of a piece of text adds no token. -/
theorem Scans.after_blank {B : List CodePoint → Prop} {cs : List CodePoint}
    {ls : List (TokenKind × String)} (h : Scans B cs ls) : Scans B (.char ' ' :: cs) ls :=
  scans_blank.append h fun _ _ => trivial

@[simp] theorem satisfies_char (f : Char → Bool) (c : Char) :
    (CodePoint.char c).satisfies f = f c := rfl

/-- A list whose first element fails `p` keeps nothing under `takeWhile p`. -/
theorem takeWhile_of_head {α : Type} {p : α → Bool} {l : List α}
    (h : ∀ x ∈ l.head?, p x = false) : l.takeWhile p = [] := by
  cases l with
  | nil => rfl
  | cons x r => simp [h x rfl]

/-- The characters of `cs` and then a first code point that fails `p`: `takeWhile` keeps exactly
the characters. -/
theorem takeWhile_chars {p : Char → Bool} {cs : List Char} {rest : List CodePoint}
    (hcs : ∀ x ∈ cs, p x = true) (hrest : ∀ x ∈ rest.head?, x.satisfies p = false) :
    (cs.map CodePoint.char ++ rest).takeWhile (·.satisfies p) = cs.map CodePoint.char := by
  rw [List.takeWhile_append_of_pos, takeWhile_of_head hrest, List.append_nil]
  intro x hx
  obtain ⟨c, hc, rfl⟩ := List.mem_map.mp hx
  exact hcs c hc

theorem mend_chars (cs : List Char) : CodePoint.mend (cs.map CodePoint.char) = String.ofList cs := by
  simp [CodePoint.mend, Function.comp_def, CodePoint.toChar]

/-- A word, before a code point that does not continue it, is one token: a keyword when it is
reserved, an identifier otherwise. -/
theorem scans_word {w : String} (hw : isWord w = true) :
    Scans (fun rest => ∀ x ∈ rest.head?, x.satisfies isWordChar = false) (CodePoint.ofString w)
      [(if keywords.contains w then .keyword else .identifier, w)] := by
  unfold isWord at hw
  obtain ⟨c, cs, hl⟩ : ∃ c cs, w.toList = c :: cs := by
    cases h : w.toList with
    | nil => simp [h] at hw
    | cons c cs => exact ⟨c, cs, rfl⟩
  rw [hl] at hw
  simp only [startsWord, Bool.and_eq_true, Bool.not_eq_eq_eq_not, Bool.not_true, bne_iff_ne,
    ne_eq, List.all_eq_true] at hw
  obtain ⟨⟨⟨⟨⟨hb, hh⟩, hq⟩, hd⟩, hs⟩, hcs⟩ := hw
  have hw' : String.ofList (c :: cs) = w := by rw [← hl, String.ofList_toList]
  simp only [CodePoint.ofString, hl, List.map_cons]
  refine Scans.of_step fun rest p hrest =>
    ⟨⟨if keywords.contains w then .keyword else .identifier, w, p, cs.length + 1⟩, rfl, ?_⟩
  have hn := takeWhile_chars hcs hrest
  have htake : (cs.map CodePoint.char ++ rest).take cs.length = cs.map CodePoint.char :=
    List.take_left' (by simp)
  have hmend : CodePoint.mend (.char c :: cs.map .char) = w := by
    rw [← List.map_cons, mend_chars, hw']
  simp [step, CodePoint.isChar, isDigitPoint, hb, hh, hq, hd, hs, hn, htake, hmend]

/-- An ASCII digit is a digit of the lexer and starts no other token. -/
theorem ascii_digit {c : Char} (h : c.isDigit = true) :
    Unicode.isDigit c = true ∧ Unicode.isBlank c = false ∧ c ≠ '#' ∧ c ≠ '\'' := by
  have key : ∀ n < 128, (Char.ofNat n).isDigit = true → Unicode.isDigit (Char.ofNat n) = true ∧
      Unicode.isBlank (Char.ofNat n) = false ∧ Char.ofNat n ≠ '#' ∧ Char.ofNat n ≠ '\'' := by
    decide +kernel
  have hn : c.toNat < 128 := by
    simp only [Char.isDigit, Bool.and_eq_true, decide_eq_true_eq] at h
    have h9 : c.val.toNat ≤ 57 := by
      have := h.2
      rw [UInt32.le_iff_toNat_le] at this
      simpa using this
    exact Nat.lt_of_le_of_lt h9 (by decide)
  simpa using key c.toNat hn (by simpa using h)

/-- What ends a number: a code point that is no digit and no point. -/
def EndsNumber (rest : List CodePoint) : Prop :=
  ∀ x ∈ rest.head?, isDigitPoint x = false ∧ x ≠ .char '.'

theorem digits_chars {cs : List Char} (h : ∀ c ∈ cs, c.isDigit = true) :
    ∀ x ∈ cs, Unicode.isDigit x = true :=
  fun x hx => (ascii_digit (h x hx)).1

/-- The digits after the first one of a numeral, and its point and fraction, are what
`numberExtra` takes. -/
theorem numberExtra_numeral {w f : List Char} (hw : ∀ c ∈ w, c.isDigit = true)
    (hf : f = [] ∨ ∃ g, f = '.' :: g ∧ g ≠ [] ∧ ∀ c ∈ g, c.isDigit = true)
    {rest : List CodePoint} (hrest : EndsNumber rest) :
    numberExtra (w.map CodePoint.char ++ (f.map CodePoint.char ++ rest)) = w.length + f.length := by
  have hfirst : ∀ x ∈ (f.map CodePoint.char ++ rest).head?, x.satisfies Unicode.isDigit = false := by
    rcases hf with rfl | ⟨g, rfl, -, -⟩
    · exact fun x hx => (hrest x (by simpa using hx)).1
    · intro x hx
      simp only [List.map_cons, List.cons_append, List.head?_cons, Option.mem_def,
        Option.some.injEq] at hx
      subst hx
      have : Unicode.isDigit '.' = false := by decide +kernel
      simpa using this
  have hwhole : (w.map CodePoint.char ++ (f.map CodePoint.char ++ rest)).takeWhile isDigitPoint =
      w.map CodePoint.char :=
    takeWhile_chars (digits_chars hw) hfirst
  unfold numberExtra
  simp only [hwhole, List.length_map]
  rw [List.drop_left' (List.length_map _)]
  rcases hf with rfl | ⟨g, rfl, hg, hgd⟩
  · -- no point: the number ends where `rest` begins
    simp only [List.map_nil, List.nil_append, List.length_nil, Nat.add_zero]
    split
    · exact absurd rfl (hrest _ rfl).2
    · rfl
  · -- a point and at least one digit: the fraction is read to its end
    obtain ⟨g₀, g', rfl⟩ := List.exists_cons_of_ne_nil hg
    have hg₀ : isDigitPoint (.char g₀) = true := (ascii_digit (hgd g₀ (by simp))).1
    have hg' : (g'.map CodePoint.char ++ rest).takeWhile isDigitPoint = g'.map CodePoint.char :=
      takeWhile_chars (digits_chars fun c hc => hgd c (by simp [hc]))
        fun x hx => (hrest x hx).1
    simp only [List.map_cons, List.cons_append, hg₀, if_true, hg', List.length_map,
      List.length_cons]
    omega

/-- A number, before a code point that neither continues its digits nor is a point, is one
number token. -/
theorem scans_numeral {cs : List Char} (hn : Numeral cs) :
    Scans EndsNumber (cs.map CodePoint.char) [(.number, String.ofList cs)] := by
  obtain ⟨w, f, rfl, hw, hwd, hf⟩ := hn
  obtain ⟨c, w', rfl⟩ := List.exists_cons_of_ne_nil hw
  obtain ⟨hc, hb, hh, hq⟩ := ascii_digit (hwd c (by simp))
  have hw'd : ∀ x ∈ w', x.isDigit = true := fun x hx => hwd x (by simp [hx])
  have hmend : CodePoint.mend (.char c :: (w'.map CodePoint.char ++ f.map CodePoint.char)) =
      String.ofList (c :: (w' ++ f)) := by
    rw [← List.map_append, ← List.map_cons, mend_chars]
  simp only [List.cons_append, List.map_cons, List.map_append]
  refine Scans.of_step fun rest p hrest =>
    ⟨⟨.number, CodePoint.mend (.char c :: (w'.map CodePoint.char ++ f.map CodePoint.char)), p,
      w'.length + f.length + 1⟩, by rw [Token.lexeme, hmend], ?_⟩
  have hx := numberExtra_numeral hw'd hf hrest
  have htake : (w'.map CodePoint.char ++ (f.map CodePoint.char ++ rest)).take
      (w'.length + f.length) = w'.map CodePoint.char ++ f.map CodePoint.char := by
    rw [← List.append_assoc]
    exact List.take_left' (by simp)
  simp [step, CodePoint.isChar, isDigitPoint, hb, hh, hq, hc, hx, htake]

/-- Whether a character starts an operator symbol and no other token. -/
def startsSymbol (c : Char) : Bool :=
  !Unicode.isBlank c && c != '#' && c != '\'' && !Unicode.isDigit c && !isWordStart c

/-- A symbol, in front of whatever does not make it the prefix of a longer one, is one symbol
token. -/
theorem scans_symbol {s : String} {c : Char} {cs : List Char} (hl : s.toList = c :: cs)
    (hc : startsSymbol c = true) {B : List CodePoint → Prop}
    (hs : ∀ rest, B rest → symbolAt (CodePoint.ofString s ++ rest) = some s) :
    Scans B (CodePoint.ofString s) [(.symbol, s)] := by
  simp only [startsSymbol, Bool.and_eq_true, Bool.not_eq_eq_eq_not, Bool.not_true, bne_iff_ne,
    ne_eq] at hc
  obtain ⟨⟨⟨⟨hb, hh⟩, hq⟩, hd⟩, hw⟩ := hc
  have hlen : s.length = cs.length + 1 := by
    rw [← String.length_toList, hl, List.length_cons]
  simp only [CodePoint.ofString, hl, List.map_cons, List.cons_append] at hs ⊢
  refine Scans.of_step fun rest p hr => ⟨⟨.symbol, s, p, s.length⟩, rfl, ?_⟩
  simp [step, CodePoint.isChar, isDigitPoint, hb, hh, hq, hd, hw, hs rest hr, hlen]

/-- What may follow a printed expression: the end of the text, a blank, a closing parenthesis
or a comma. -/
def Closes (rest : List CodePoint) : Prop :=
  ∀ x ∈ rest.head?, x = .char ' ' ∨ x = .char ')' ∨ x = .char ','

namespace Closes

variable {rest : List CodePoint}

theorem not_word (h : Closes rest) : ∀ x ∈ rest.head?, x.satisfies isWordChar = false := by
  intro x hx
  rcases h x hx with rfl | rfl | rfl <;> decide +kernel

theorem endsNumber (h : Closes rest) : EndsNumber rest := by
  intro x hx
  rcases h x hx with rfl | rfl | rfl <;> exact ⟨by decide +kernel, by decide⟩

theorem not_quote (h : Closes rest) : ∀ x ∈ rest.head?, x ≠ .char '\'' := by
  intro x hx
  rcases h x hx with rfl | rfl | rfl <;> decide

/-- A text that starts with a blank, a closing parenthesis or a comma may follow. -/
theorem closes_cons {c : Char} (hc : c = ' ' ∨ c = ')' ∨ c = ',') (r : List CodePoint) :
    Closes (.char c :: r) := by
  intro x hx
  rw [List.head?_cons, Option.mem_def, Option.some.injEq] at hx
  subst hx
  rcases hc with rfl | rfl | rfl <;> simp

end Closes

/-- The characters of a string without apostrophe or line break, then its closing apostrophe
before anything but another apostrophe: the body is those characters, closed. -/
theorem stringBody_chars {cs : List Char} (hcs : ∀ c ∈ cs, c ≠ '\'' ∧ c ≠ '\n')
    {rest : List CodePoint} (hrest : ∀ x ∈ rest.head?, x ≠ .char '\'') :
    stringBody (cs.map CodePoint.char ++ .char '\'' :: rest) =
      (cs.map CodePoint.char, cs.length + 1, true) := by
  induction cs with
  | nil =>
    cases rest with
    | nil => rfl
    | cons x r =>
      have hx : x ≠ .char '\'' := hrest x rfl
      simp [stringBody, hx]
  | cons c cs ih =>
    obtain ⟨hq, hn⟩ := hcs c List.mem_cons_self
    have ih := ih fun d hd => hcs d (List.mem_cons_of_mem c hd)
    simp [stringBody, hq, hn, ih]

/-- A string of characters that are no apostrophe and no line break, in apostrophes, before
anything but an apostrophe, is one string token. -/
theorem scans_quoted {cs : List Char} (hcs : ∀ c ∈ cs, c ≠ '\'' ∧ c ≠ '\n') :
    Scans (fun rest => ∀ x ∈ rest.head?, x ≠ .char '\'')
      (.char '\'' :: (cs.map CodePoint.char ++ [.char '\''])) [(.string, String.ofList cs)] := by
  refine Scans.of_step fun rest p hrest =>
    ⟨⟨.string, String.ofList cs, p, cs.length + 2⟩, rfl, ?_⟩
  have hq : Unicode.isBlank '\'' = false := by decide +kernel
  simp [step, CodePoint.isChar, hq, stringBody_chars hcs hrest, mend_chars]

theorem ofString_append (s t : String) :
    CodePoint.ofString (s ++ t) = CodePoint.ofString s ++ CodePoint.ofString t := by
  simp [CodePoint.ofString]

theorem ofString_blank : CodePoint.ofString " " = [.char ' '] := by
  simp [CodePoint.ofString]

/-- An opening parenthesis does not continue a word. -/
theorem paren_not_word (rest : List CodePoint) :
    ∀ x ∈ (CodePoint.ofString "(" ++ rest).head?, x.satisfies isWordChar = false := by
  intro x hx
  simp [CodePoint.ofString] at hx
  subst hx
  decide +kernel

/-- The symbols an operator is written with, which nothing longer starts when a blank follows. -/
theorem symbolAt_blank {s : String}
    (hs : s ∈ ["!=", "<=", ">=", "=", "<", ">", "+", "-", "*", "/"]) (rest : List CodePoint) :
    symbolAt (CodePoint.ofString s ++ .char ' ' :: rest) = some s := by
  simp only [List.mem_cons, List.not_mem_nil, or_false] at hs
  rcases hs with rfl | rfl | rfl | rfl | rfl | rfl | rfl | rfl | rfl | rfl <;>
    simp [symbolAt, symbols, CodePoint.ofString, ← String.length_toList]

/-- A symbol of an operator, before a blank, is its one token. -/
theorem scans_opSymbol {w : String} {c : Char} {cs : List Char} (hl : w.toList = c :: cs)
    (hc : startsSymbol c = true)
    (hw : w ∈ ["!=", "<=", ">=", "=", "<", ">", "+", "-", "*", "/"]) :
    Scans (fun rest => rest.head? = some (.char ' ')) (CodePoint.ofString w) [(.symbol, w)] :=
  scans_symbol hl hc fun rest hrest => by
    cases rest with
    | nil => cases hrest
    | cons x r =>
      rw [List.head?_cons, Option.some.injEq] at hrest
      rw [hrest]
      exact symbolAt_blank hw r

/-- A reserved word, before a code point that does not continue it, is its one keyword
token. -/
theorem scans_keyword {w : String} (hw : isWord w = true) (hk : keywords.contains w = true)
    {B : List CodePoint → Prop}
    (hB : ∀ rest, B rest → ∀ x ∈ rest.head?, x.satisfies isWordChar = false) :
    Scans B (CodePoint.ofString w) [(.keyword, w)] := by
  have h := (scans_word hw).mono hB
  rwa [hk, if_pos rfl] at h

/-- A word that is not reserved, before a code point that does not continue it, is its one
identifier token. -/
theorem scans_name {w : String} (hw : isWord w = true) (hk : keywords.contains w = false)
    {B : List CodePoint → Prop}
    (hB : ∀ rest, B rest → ∀ x ∈ rest.head?, x.satisfies isWordChar = false) :
    Scans B (CodePoint.ofString w) [(.identifier, w)] := by
  have h := (scans_word hw).mono hB
  rwa [hk, if_neg Bool.false_ne_true] at h

/-- What a blank is not: a code point that continues a word. -/
theorem blank_not_word : ∀ rest : List CodePoint, rest.head? = some (.char ' ') →
    ∀ x ∈ rest.head?, x.satisfies isWordChar = false := by
  intro rest hrest x hx
  rw [hrest, Option.mem_def, Option.some.injEq] at hx
  subst hx
  decide +kernel

/-- An operator, before a blank, is its one token. -/
theorem scans_op (op : BinaryOp) :
    Scans (fun rest => rest.head? = some (.char ' ')) (CodePoint.ofString op.text) [op.lexeme] := by
  cases op
  case and => exact scans_keyword (by decide +kernel) (by decide) blank_not_word
  case or => exact scans_keyword (by decide +kernel) (by decide) blank_not_word
  case contains => exact scans_keyword (by decide +kernel) (by decide) blank_not_word
  all_goals exact scans_opSymbol rfl (by decide +kernel) (by decide)

theorem Scans.nil {B : List CodePoint → Prop} : Scans B [] [] :=
  fun _ p _ _ _ => ⟨[], p, rfl, rfl⟩

/-- The symbols that no longer symbol starts with. -/
theorem symbolAt_single {s : String} (hs : s ∈ ["-", "(", ")", ","]) (rest : List CodePoint) :
    symbolAt (CodePoint.ofString s ++ rest) = some s := by
  simp only [List.mem_cons, List.not_mem_nil, or_false] at hs
  rcases hs with rfl | rfl | rfl | rfl <;>
    simp [symbolAt, symbols, CodePoint.ofString, ← String.length_toList]

/-- A symbol that no longer symbol starts with is its one token, before anything. -/
theorem scans_single {s : String} {c : Char} (hl : s.toList = [c]) (hc : startsSymbol c = true)
    (hs : s ∈ ["-", "(", ")", ","]) {B : List CodePoint → Prop} :
    Scans B (CodePoint.ofString s) [(.symbol, s)] :=
  scans_symbol hl hc fun rest _ => symbolAt_single hs rest

/-- Such a symbol in front of a piece of text is its first token. -/
theorem Scans.after_single {s : String} {c : Char} (hl : s.toList = [c])
    (hc : startsSymbol c = true) (hs : s ∈ ["-", "(", ")", ","]) {B : List CodePoint → Prop}
    {cs : List CodePoint} {ls : List (TokenKind × String)} (h : Scans B cs ls) :
    Scans B (CodePoint.ofString s ++ cs) ((.symbol, s) :: ls) :=
  (scans_single (B := fun _ => True) hl hc hs).append h fun _ _ => trivial

/-- A printed text in parentheses when `b` holds scans to its lexemes in parentheses. -/
theorem scans_parenthesize {s : String} {ls : List (TokenKind × String)}
    (h : Scans Closes (CodePoint.ofString s) ls) (b : Bool) :
    Scans Closes (CodePoint.ofString (Expr.parenthesize b s)) (Expr.bracket b ls) := by
  cases b
  · exact h
  · -- the opening parenthesis, the text before the closing one, then the closing one
    have hclose : Scans Closes (CodePoint.ofString s ++ CodePoint.ofString ")")
        (ls ++ [(.symbol, ")")]) :=
      h.append (scans_single (s := ")") rfl (by decide +kernel) (by decide))
        fun rest _ x hx => by simp [CodePoint.ofString] at hx; simp [← hx]
    have hopen := hclose.after_single (s := "(") rfl (by decide +kernel) (by decide)
    simpa [Expr.parenthesize, Expr.bracket, ofString_append] using hopen

end Lexer

/-! ### Printed expressions -/

/-- The digits of `n` padded to `w` places are ASCII digits. -/
theorem Date.padded_isDigit (w n : Nat) : ∀ c ∈ (Date.padded w n).toList, c.isDigit = true := by
  intro c hc
  simp only [Date.padded, String.toList_ofList, List.mem_append, List.mem_replicate] at hc
  rcases hc with ⟨-, rfl⟩ | hc
  · rfl
  · exact Nat.isDigit_of_mem_toDigits (by decide) (by decide) hc

/-- The ISO text of a date is made of ASCII digits and hyphens. -/
theorem Date.isoText_chars (dt : Date) :
    ∀ c ∈ dt.isoText.toList, c.isDigit = true ∨ c = '-' := by
  intro c hc
  rcases h : dt.toYmd with ⟨y, m, d⟩
  simp only [Date.isoText, h, String.toList_append, List.mem_append] at hc
  -- three padded numbers and two hyphens
  rcases hc with (((hc | hc) | hc) | hc) | hc
  · exact .inl (Date.padded_isDigit 4 y c hc)
  · exact .inr (by simpa using hc)
  · exact .inl (Date.padded_isDigit 2 m c hc)
  · exact .inr (by simpa using hc)
  · exact .inl (Date.padded_isDigit 2 d c hc)

/-- A literal or name that the lexer reads as the lexeme it is printed as: a number printed as
ASCII digits with at most one point, a name that is a word and not a reserved one. -/
def Expr.Spelled : Expr → Prop
  | .num v => Lexer.Numeral v.toText.toList
  | .sym s | .ref s => Lexer.isWord s = true ∧ keywords.contains s = false
  | _ => True

namespace Lexer

/-- The characters of a date's text are neither apostrophes nor line breaks. -/
theorem isoText_plain (dt : Date) : ∀ c ∈ dt.isoText.toList, c ≠ '\'' ∧ c ≠ '\n' := by
  intro c hc
  rcases Date.isoText_chars dt c hc with hd | rfl
  · constructor
    · rintro rfl
      exact absurd hd (by decide)
    · rintro rfl
      exact absurd hd (by decide)
  · decide

mutual

/-- A printed expression whose literals and names are spelled scans to its lexemes, before the
end of the text, a blank, a closing parenthesis or a comma; the induction is on the
expression. -/
theorem scans_render : ∀ e : Expr, e.Leaves Expr.Spelled →
    Scans Closes (CodePoint.ofString e.render) e.lexemes
  | .num v, h => by
    have hn := scans_numeral h
    rw [String.ofList_toList] at hn
    exact hn.mono fun _ hr => hr.endsNumber
  | .bool b, _ => by
    cases b
    · exact scans_keyword (w := "FALSE") (by decide +kernel) (by decide) fun _ hr => hr.not_word
    · exact scans_keyword (w := "TRUE") (by decide +kernel) (by decide) fun _ hr => hr.not_word
  | .date d, _ => by
    -- the keyword, a blank, then the text in apostrophes
    have hq := scans_quoted (isoText_plain d)
    rw [String.ofList_toList] at hq
    have hcode : CodePoint.ofString (Expr.date d).render = CodePoint.ofString "DATE" ++
        (.char ' ' :: .char '\'' :: (d.isoText.toList.map CodePoint.char ++ [.char '\''])) := by
      simp [Expr.render, CodePoint.ofString]
    rw [hcode]
    exact (scans_keyword (by decide +kernel) (by decide) blank_not_word).append
      (hq.mono fun _ hr => hr.not_quote).after_blank fun _ _ => rfl
  | .sym s, h => scans_name h.1 h.2 fun _ hr => hr.not_word
  | .ref s, h => scans_name h.1 h.2 fun _ hr => hr.not_word
  | .unary .not x, h => by
    -- the keyword, a blank, then the operand
    have hcode : CodePoint.ofString (Expr.unary .not x).render = CodePoint.ofString "NOT" ++
        .char ' ' :: CodePoint.ofString
          (Expr.parenthesize (x.strength < (Expr.unary .not x).strength) x.render) := by
      simp only [Expr.render, ofString_append]
      rfl
    rw [hcode]
    exact (scans_keyword (by decide +kernel) (by decide) blank_not_word).append
      (scans_parenthesize (scans_render x h) _).after_blank fun _ _ => rfl
  | .unary .neg x, h => by
    have hcode : CodePoint.ofString (Expr.unary .neg x).render = CodePoint.ofString "-" ++
        CodePoint.ofString
          (Expr.parenthesize (x.strength < (Expr.unary .neg x).strength) x.render) := by
      simp only [Expr.render, ofString_append]
    rw [hcode]
    exact (scans_parenthesize (scans_render x h) _).after_single rfl (by decide +kernel)
      (by decide)
  | .binary op l r, h => by
    -- the left operand, a blank, the operator, a blank, then the right operand
    simp only [Expr.render, ofString_append, ofString_blank, List.append_assoc,
      List.singleton_append]
    exact (scans_parenthesize (scans_render l h.1) _).append
      ((scans_op op).append (scans_parenthesize (scans_render r h.2) _).after_blank
        fun _ _ => rfl).after_blank
      fun _ _ => Closes.closes_cons (.inl rfl) _
  | .call f args, h => by
    -- the name, the opening parenthesis, the arguments, then the closing parenthesis
    have hname : isWord f.name = true ∧ keywords.contains f.name = false := by
      cases f <;> exact ⟨by decide +kernel, by decide⟩
    simp only [Expr.render, ofString_append, List.append_assoc]
    have hargs := (scans_renderAll args h).append
      (scans_single (s := ")") (B := Closes) rfl (by decide +kernel) (by decide)) fun _ _ => rfl
    exact (scans_name hname.1 hname.2 fun _ hr => hr).append
      (hargs.after_single rfl (by decide +kernel) (by decide))
      fun rest _ => by
        simp only [List.append_assoc]
        exact paren_not_word _

/-- The arguments of a call, separated by a comma and a blank, scan to their lexemes before the
closing parenthesis. -/
theorem scans_renderAll : ∀ args : List Expr, Expr.LeavesAll Expr.Spelled args →
    Scans (fun rest => rest.head? = some (.char ')'))
      (CodePoint.ofString (", ".intercalate (Expr.renderAll args))) (Expr.argLexemes args)
  | [], _ => by
    simp only [Expr.renderAll, String.intercalate_nil]
    exact Scans.nil
  | [e], h => by
    simp only [Expr.renderAll, String.intercalate_singleton]
    exact (scans_render e h.1).mono fun _ hr => by
      intro x hx
      rw [hr, Option.mem_def, Option.some.injEq] at hx
      exact hx ▸ .inr (.inl rfl)
  | e :: e' :: es, h => by
    -- the first argument, a comma, a blank, then the others
    have hcode : CodePoint.ofString (", ".intercalate (Expr.renderAll (e :: e' :: es))) =
        CodePoint.ofString e.render ++ CodePoint.ofString "," ++ .char ' ' ::
          CodePoint.ofString (", ".intercalate (Expr.renderAll (e' :: es))) := by
      simp [Expr.renderAll, CodePoint.ofString]
    rw [hcode, List.append_assoc]
    exact (scans_render e h.1).append
      ((scans_renderAll (e' :: es) h.2).after_blank.after_single rfl (by decide +kernel)
        (by decide))
      fun _ _ => Closes.closes_cons (.inr (.inr rfl)) _

end

end Lexer

/-- The lexer reads a printed expression whose references and numbers are spelled as tokens
without error, as the expression's lexemes. -/
theorem tokenize_render {e : Expr} (h : e.Leaves Expr.Spelled) :
    (tokenize (CodePoint.ofString e.render)).errors = [] ∧
      (tokenize (CodePoint.ofString e.render)).tokens.map Token.lexeme = e.lexemes := by
  obtain ⟨ts, p', hts, hscan⟩ :=
    Lexer.scans_render e h [] Pos.start [] [] fun _ hx => by cases hx
  rw [List.append_nil] at hscan
  rw [tokenize, hscan, Lexer.scan, List.append_nil, List.reverse_reverse]
  exact ⟨rfl, hts⟩

/-- Printing an expression and reading the text back gives the expression, when its literals
read back from their texts and its references and numbers are spelled as single tokens. -/
theorem parse_render {e : Expr} (hread : e.Leaves Expr.ReadsBack)
    (hspell : e.Leaves Expr.Spelled) : Expr.parse (CodePoint.ofString e.render) = .ok e := by
  obtain ⟨herr, htoks⟩ := tokenize_render hspell
  obtain ⟨p, hp, hval, hrest⟩ :=
    ExprParse.orExpr_lexemes hread htoks (tokenize (CodePoint.ofString e.render)).finish
  simp only [Expr.parse, herr, hp, hrest, hval]

/-- The condition `NOT (pages + extra) * MAX(copies, 2) < limit`, whose printing needs
parentheses around the sum only. -/
def copiesCondition : Expr :=
  .unary .not (.binary .lt
    (.binary .mul (.binary .add (.ref "pages") (.ref "extra"))
      (.call .max [.ref "copies", .num (Decimal.ofNat 2)]))
    (.ref "limit"))

theorem copies_condition_reads_back :
    Expr.parse (CodePoint.ofString copiesCondition.render) = .ok copiesCondition := by
  have two : Decimal.ofText (Decimal.ofNat 2).toText = .ok (Decimal.ofNat 2) := by
    have hascii : Decimal.asciiReading "2" = some ['2'] := by decide +kernel
    have hread : Decimal.ofAscii? ['2'] = some (Decimal.ofNat 2) := by decide
    simp only [Decimal.ofText, show (Decimal.ofNat 2).toText = "2" from rfl, hascii,
      Option.bind_some, hread]
    rfl
  have numeral : Lexer.Numeral (Decimal.ofNat 2).toText.toList :=
    ⟨['2'], [], rfl, List.cons_ne_nil _ _, fun c hc => by rw [List.mem_singleton.mp hc]; rfl,
      .inl rfl⟩
  have word : ∀ s ∈ ["pages", "extra", "copies", "limit"],
      Lexer.isWord s = true ∧ keywords.contains s = false := by decide +kernel
  exact parse_render ⟨⟨⟨trivial, trivial⟩, trivial, two, trivial⟩, trivial⟩
    ⟨⟨⟨word _ (by simp), word _ (by simp)⟩, word _ (by simp), numeral, trivial⟩,
      word _ (by simp)⟩

end FeeSchedule
