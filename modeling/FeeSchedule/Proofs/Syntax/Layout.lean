import Mathlib.Data.List.TakeWhile
import FeeSchedule.Syntax.Lexer

/-!
# `FeeSchedule.Proofs.Syntax.Layout`: the lexer divides the whole text and places it truly

The lexer (`tokenize`) reads a text one step after another, and each step takes a stretch of
code points that starts where the last one ended. This module shows that these stretches
divide the text, each exactly once, into white space and comments that are skipped, the
texts of tokens, and the spans of lexical errors, and that each token and error carries the
place where its stretch starts.

* `Pos.after`: the place after some code points, counted afresh: the line after as many line
  feeds as they hold, the column after as many code points as follow the last line feed.
  Reading a character moves a place as `Pos.next` does (`Pos.after_append_single`), so the
  places the lexer computes step by step are these (`Pos.advance_after`).
* `Lexer.Divides pre cs items`: the code points `cs`, which follow `pre`, are one stretch after
  another a white-space code point, a comment up to the end of its line, the text of a token,
  an unexpected code point, or an unterminated string up to the end of its line; the tokens
  and errors `items`, in the order of the text, each start where their stretch starts and are
  as wide as it.
* `Lexer.StepShape`, `Lexer.step_shape`: what one step of the lexer can do, said once.
* `Lexer.scan_divides`: the run of the lexer, by the recursion of `scan`.
* `tokenize_divides`: every text is divided so; its tokens and errors start at increasing
  offsets and do not overlap, each at the line and column its offset gives, and the end of
  the text is the place after all of it.
-/

set_option autoImplicit false

namespace FeeSchedule

/-! ### Places -/

namespace Pos

/-- The place just after the code points `l`: the line after as many line feeds as `l` holds,
the column after as many code points as follow the last of them, and the offset after all of
`l`. -/
def after (l : List CodePoint) : Pos :=
  ⟨l.count (.char '\n') + 1, (l.reverse.takeWhile (· != .char '\n')).length + 1, l.length⟩

theorem after_nil : after [] = start := rfl

@[simp] theorem offset_after (l : List CodePoint) : (after l).offset = l.length := rfl

/-- A line feed moves to the first column of the next line, any other code point one column
to the right. -/
theorem after_append_single (l : List CodePoint) (c : CodePoint) :
    after (l ++ [c]) = (after l).next c.toChar := by
  by_cases hc : c = .char '\n'
  · subst hc
    simp [after, next, CodePoint.toChar, List.count_append]
  · -- only the code point `.char '\n'` is read as a line feed, a surrogate included
    have hchar : c.toChar ≠ '\n' := by
      cases c with
      | char x =>
        simp only [CodePoint.toChar]
        rintro rfl
        exact hc rfl
      | surrogate k => simp [CodePoint.toChar]
    have hne : (c != .char '\n') = true := by simpa using hc
    have hcount : (l ++ [c]).count (.char '\n') = l.count (.char '\n') := by
      simp [List.count_append, hc]
    simp [after, next, hchar, hcount, hne]

/-- Advancing from the place after `l` over the characters of `m` is the place after both. -/
theorem advance_after (l m : List CodePoint) :
    (after l).advance (m.map CodePoint.toChar) = after (l ++ m) := by
  induction m generalizing l with
  | nil => simp [advance]
  | cons c m ih =>
    rw [List.map_cons, advance, List.foldl_cons, ← after_append_single, ← advance, ih]
    simp

end Pos

/-! ### Stretches of text -/

namespace Lexer

/-- Code points that end at the end of their line: nothing follows them but a line feed or
the end of the text. -/
def AtLineEnd (r : List CodePoint) : Prop := ∀ x ∈ r.head?, x = .char '\n'

/-- Where a token or an error starts. -/
def itemPos : Token ⊕ LexError → Pos := Sum.elim Token.pos LexError.pos

/-- How many code points a token or an error spans. -/
def itemWidth : Token ⊕ LexError → Nat := Sum.elim Token.width LexError.width

@[simp] theorem itemPos_inl (t : Token) : itemPos (.inl t) = t.pos := rfl

@[simp] theorem itemPos_inr (e : LexError) : itemPos (.inr e) = e.pos := rfl

@[simp] theorem itemWidth_inl (t : Token) : itemWidth (.inl t) = t.width := rfl

@[simp] theorem itemWidth_inr (e : LexError) : itemWidth (.inr e) = e.width := rfl

/-- `Divides pre cs items`: the code points `cs`, which follow the code points `pre`, are one
stretch after another
* a white-space code point, or a comment: `#` and the code points up to its line's end, both
  skipped;
* the text of a token;
* an unexpected code point, or an unterminated string: an apostrophe and the code points up to
  its line's end, both errors;

and `items` are the tokens and errors of the stretches in order, each at the place after the
code points before its stretch and as wide as its stretch. -/
inductive Divides : List CodePoint → List CodePoint → List (Token ⊕ LexError) → Prop
  | nil (pre : List CodePoint) : Divides pre [] []
  | blank {pre r : List CodePoint} {c : CodePoint} {items : List (Token ⊕ LexError)} :
      c.satisfies Unicode.isBlank → Divides (pre ++ [c]) r items → Divides pre (c :: r) items
  | comment {pre body r : List CodePoint} {items : List (Token ⊕ LexError)} :
      (∀ x ∈ body, x ≠ .char '\n') → AtLineEnd r → Divides (pre ++ .char '#' :: body) r items →
        Divides pre (.char '#' :: body ++ r) items
  | token {pre cs r : List CodePoint} {items : List (Token ⊕ LexError)} (t : Token) :
      cs ≠ [] → t.pos = Pos.after pre → t.width = cs.length → Divides (pre ++ cs) r items →
        Divides pre (cs ++ r) (.inl t :: items)
  | unexpected {pre r : List CodePoint} {c : CodePoint} {items : List (Token ⊕ LexError)}
      (e : LexError) :
      e.fault = .unexpected c → e.pos = Pos.after pre → e.width = 1 →
        Divides (pre ++ [c]) r items → Divides pre (c :: r) (.inr e :: items)
  | unterminated {pre body r : List CodePoint} {items : List (Token ⊕ LexError)}
      (e : LexError) :
      e.fault = .unterminated → (∀ x ∈ body, x ≠ .char '\n') → AtLineEnd r →
        e.pos = Pos.after pre → e.width = body.length + 1 →
        Divides (pre ++ .char '\'' :: body) r items →
          Divides pre (.char '\'' :: body ++ r) (.inr e :: items)

/-! ### One step -/

section Lists

variable {α : Type} (p : α → Bool) (l : List α)

theorem length_takeWhile_le : (l.takeWhile p).length ≤ l.length := by
  have h := congrArg List.length (List.takeWhile_append_dropWhile (p := p) (l := l))
  rw [List.length_append] at h
  omega

theorem take_length_takeWhile : l.take (l.takeWhile p).length = l.takeWhile p := by
  have h := @List.take_left' _ (l.takeWhile p) (l.dropWhile p) _ rfl
  rwa [List.takeWhile_append_dropWhile] at h

theorem drop_length_takeWhile : l.drop (l.takeWhile p).length = l.dropWhile p := by
  have h := @List.drop_left' _ (l.takeWhile p) (l.dropWhile p) _ rfl
  rwa [List.takeWhile_append_dropWhile] at h

/-- What `dropWhile` leaves starts with an element that fails the test, if with any. -/
theorem head_dropWhile : ∀ x ∈ (l.dropWhile p).head?, p x = false := by
  induction l with
  | nil => simp
  | cons a l ih =>
    rw [List.dropWhile_cons]
    split
    · exact ih
    · rename_i hp
      simpa using hp

end Lists

/-- A comment: the code points up to the end of the line, none of them a line feed. -/
theorem comment_body (r : List CodePoint) :
    let n := (r.takeWhile (!·.isChar '\n')).length
    (∀ x ∈ r.take n, x ≠ .char '\n') ∧ AtLineEnd (r.drop n) := by
  refine ⟨fun x hx => ?_, fun x hx => ?_⟩
  · rw [take_length_takeWhile] at hx
    have hnot := List.mem_takeWhile_imp hx
    simp only [CodePoint.isChar, Bool.not_eq_eq_eq_not, Bool.not_true, beq_eq_false_iff_ne] at hnot
    exact hnot
  · rw [drop_length_takeWhile] at hx
    have hnl := head_dropWhile _ _ x hx
    simpa [CodePoint.isChar] using hnl

/-- The body of a string consumes no more code points than there are. -/
theorem stringBody_le (r : List CodePoint) : (stringBody r).2.1 ≤ r.length := by
  fun_induction stringBody r with
  | case3 r v n ok hbody ih =>
    rw [hbody] at ih
    dsimp only at ih ⊢
    simp only [List.length_cons]
    omega
  | case5 c r _ _ _ v n ok hbody ih =>
    rw [hbody] at ih
    dsimp only at ih ⊢
    simp only [List.length_cons]
    omega
  | _ => simp

/-- The body of a string that is not closed runs up to the end of its line. -/
theorem stringBody_unclosed (r : List CodePoint) (h : (stringBody r).2.2 = false) :
    (∀ x ∈ r.take (stringBody r).2.1, x ≠ .char '\n') ∧ AtLineEnd (r.drop (stringBody r).2.1) := by
  fun_induction stringBody r with
  | case1 => exact ⟨by simp, by simp [AtLineEnd]⟩
  | case2 rest => exact ⟨by simp, by simp [AtLineEnd]⟩
  | case3 r v n ok hbody ih =>
    rw [hbody] at ih
    dsimp only at h ih ⊢
    obtain ⟨hnl, hend⟩ := ih h
    -- the doubled apostrophe is no line feed
    refine ⟨fun x hx => ?_, by simpa using hend⟩
    simp only [List.take_succ_cons, List.mem_cons] at hx
    rcases hx with rfl | rfl | hx
    · simp
    · simp
    · exact hnl x hx
  | case4 => simp at h
  | case5 c r hnl' _ _ v n ok hbody ih =>
    rw [hbody] at ih
    dsimp only at h ih ⊢
    obtain ⟨hnl, hend⟩ := ih h
    refine ⟨fun x hx => ?_, by simpa using hend⟩
    simp only [List.take_succ_cons, List.mem_cons] at hx
    rcases hx with rfl | hx
    · exact hnl'
    · exact hnl x hx

/-- The rest of a number consumes no more code points than there are. -/
theorem numberExtra_le (r : List CodePoint) : numberExtra r ≤ r.length := by
  have hwhole := length_takeWhile_le isDigitPoint r
  unfold numberExtra
  dsimp only
  split
  · rename_i d rest hdrop
    -- the point and the digit after it are there, and the digits after them too
    have hlen := congrArg List.length hdrop
    have hrest := length_takeWhile_le isDigitPoint rest
    simp only [List.length_drop, List.length_cons] at hlen
    split <;> omega
  · exact hwhole

/-- An operator symbol takes at least one code point, and no more than there are. -/
theorem symbolAt_length {cs : List CodePoint} {s : String} (h : symbolAt cs = some s) :
    0 < s.length ∧ s.length ≤ cs.length := by
  have hmem := List.mem_of_find?_eq_some h
  have htake : cs.take s.length = CodePoint.ofString s := by
    simpa using List.find?_some h
  have hlen := congrArg List.length htake
  rw [List.length_take, CodePoint.length_ofString] at hlen
  refine ⟨Nat.pos_of_ne_zero fun h0 => ?_, by omega⟩
  have hempty : s = "" := String.length_eq_zero_iff.mp h0
  subst hempty
  simp [symbols] at hmem

/-- What one step of the lexer can do at a code point `c` followed by `r`, from the place `p`:
consume `c` and `n` more code points, and make nothing, a token or an error. -/
inductive StepShape (c : CodePoint) (r : List CodePoint) (p : Pos) :
    Nat → Option (Token ⊕ LexError) → Prop
  /-- Skip a white-space code point. -/
  | blank : c.satisfies Unicode.isBlank → StepShape c r p 0 none
  /-- Skip a comment up to the end of its line. -/
  | comment {n : Nat} : c = .char '#' → (∀ x ∈ r.take n, x ≠ .char '\n') →
      AtLineEnd (r.drop n) → StepShape c r p n none
  /-- Make a token at `p` as wide as the code points consumed. -/
  | token {n : Nat} (t : Token) : t.pos = p → t.width = n + 1 →
      StepShape c r p n (some (.inl t))
  /-- Make an error for the unexpected code point `c`. -/
  | unexpected (e : LexError) : e.fault = .unexpected c → e.pos = p → e.width = 1 →
      StepShape c r p 0 (some (.inr e))
  /-- Make an error for a string whose line ends before it is closed. -/
  | unterminated {n : Nat} (e : LexError) : c = .char '\'' → e.fault = .unterminated →
      (∀ x ∈ r.take n, x ≠ .char '\n') → AtLineEnd (r.drop n) → e.pos = p →
      e.width = n + 1 → StepShape c r p n (some (.inr e))

theorem eq_of_isChar {c : CodePoint} {x : Char} (h : c.isChar x = true) : c = .char x := by
  simpa [CodePoint.isChar] using h

/-- One step of the lexer consumes no more code points than there are, and does one of the
things `StepShape` lists. -/
theorem step_shape (c : CodePoint) (r : List CodePoint) (p : Pos) :
    (step c r p).1 ≤ r.length ∧ StepShape c r p (step c r p).1 (step c r p).2 := by
  unfold step
  split
  · exact ⟨Nat.zero_le _, .blank ‹_›⟩
  split
  · obtain ⟨hbody, hend⟩ := comment_body r
    exact ⟨length_takeWhile_le _ _, .comment (eq_of_isChar ‹_›) hbody hend⟩
  split
  · rename_i hquote
    have hle := stringBody_le r
    have hunclosed := stringBody_unclosed r
    rcases hb : stringBody r with ⟨v, n, closed⟩
    rw [hb] at hle hunclosed
    cases closed with
    | true => exact ⟨hle, .token _ rfl rfl⟩
    | false =>
      obtain ⟨hbody, hend⟩ := hunclosed rfl
      exact ⟨hle, .unterminated _ (eq_of_isChar hquote) rfl hbody hend rfl rfl⟩
  split
  · exact ⟨numberExtra_le r, .token _ rfl rfl⟩
  split
  · exact ⟨length_takeWhile_le _ _, .token _ rfl rfl⟩
  split
  · rename_i s hs
    obtain ⟨hpos, hle⟩ := symbolAt_length hs
    simp only [List.length_cons] at hle
    exact ⟨by omega, .token _ rfl (by dsimp only; omega)⟩
  · exact ⟨Nat.zero_le _, .unexpected _ rfl rfl rfl⟩

/-! ### The run -/

/-- The lexer, run over code points that follow `pre` from the place after `pre`, divides them
(`Divides`), adds their tokens and errors to those read before, and ends at the place after
all of them. -/
theorem scan_divides : ∀ (cs pre : List CodePoint) (toks : List Token) (errs : List LexError),
    ∃ items, Divides pre cs items ∧
      scan cs (Pos.after pre) toks errs = ⟨toks.reverse ++ items.filterMap Sum.getLeft?,
        errs.reverse ++ items.filterMap Sum.getRight?, Pos.after (pre ++ cs)⟩
  | [], pre, toks, errs => ⟨[], .nil pre, by rw [scan]; simp⟩
  | c :: r, pre, toks, errs => by
    obtain ⟨hle, hshape⟩ := step_shape c r (Pos.after pre)
    generalize hs : step c r (Pos.after pre) = st at hle hshape
    obtain ⟨n, found⟩ := st
    -- the step consumes `c :: r.take n`, and the run goes on after it
    have hsplit : c :: r = (c :: r.take n) ++ r.drop n := by simp
    have hplace : (Pos.after pre).advance ((c :: r.take n).map CodePoint.toChar) =
        Pos.after (pre ++ c :: r.take n) := Pos.advance_after _ _
    have hend : pre ++ c :: r.take n ++ r.drop n = pre ++ c :: r := by simp
    rw [scan, hs]
    dsimp only
    rw [hplace]
    cases hshape with
    | blank hblank =>
      obtain ⟨items, hdiv, hrun⟩ := scan_divides (r.drop 0) (pre ++ c :: r.take 0) toks errs
      simp only [List.drop_zero, List.take_zero] at hdiv hrun
      refine ⟨items, .blank hblank hdiv, ?_⟩
      rw [List.drop_zero, List.take_zero, hrun]
      simp
    | comment hc hbody hline =>
      subst hc
      obtain ⟨items, hdiv, hrun⟩ := scan_divides (r.drop n) (pre ++ .char '#' :: r.take n) toks errs
      refine ⟨items, ?_, ?_⟩
      · rw [← List.take_append_drop n r]
        exact .comment hbody hline hdiv
      · rw [hrun, hend]
    | token t hpos hwidth =>
      obtain ⟨items, hdiv, hrun⟩ := scan_divides (r.drop n) (pre ++ c :: r.take n) (t :: toks) errs
      refine ⟨.inl t :: items, ?_, ?_⟩
      · rw [hsplit]
        exact .token t (List.cons_ne_nil _ _) hpos (by simp [hwidth]; omega) hdiv
      · dsimp only
        rw [hrun, hend]
        simp [List.filterMap_cons]
    | unexpected e hfault hpos hwidth =>
      obtain ⟨items, hdiv, hrun⟩ := scan_divides (r.drop 0) (pre ++ c :: r.take 0) toks (e :: errs)
      simp only [List.drop_zero, List.take_zero] at hdiv hrun
      refine ⟨.inr e :: items, .unexpected e hfault hpos hwidth hdiv, ?_⟩
      dsimp only
      rw [List.drop_zero, List.take_zero, hrun]
      simp [List.filterMap_cons]
    | unterminated e hc hfault hbody hline hpos hwidth =>
      subst hc
      obtain ⟨items, hdiv, hrun⟩ :=
        scan_divides (r.drop n) (pre ++ .char '\'' :: r.take n) toks (e :: errs)
      refine ⟨.inr e :: items, ?_, ?_⟩
      · rw [← List.take_append_drop n r]
        exact .unterminated e hfault hbody hline hpos (by simp [hwidth]; omega) hdiv
      · dsimp only
        rw [hrun, hend]
        simp [List.filterMap_cons]
termination_by cs => cs.length
decreasing_by all_goals (simp only [List.length_drop, List.length_cons]; omega)

/-! ### What a division says of its tokens and errors -/

/-- A token or an error that lies among the code points `cs` following `pre`: it starts after
`pre`, ends before the end of `cs`, spans at least one code point, and starts at the place
after the code points before it. -/
def Within (pre cs : List CodePoint) (a : Token ⊕ LexError) : Prop :=
  pre.length ≤ (itemPos a).offset ∧ (itemPos a).offset + itemWidth a ≤ pre.length + cs.length ∧
    0 < itemWidth a ∧ itemPos a = Pos.after ((pre ++ cs).take (itemPos a).offset)

/-- What lies among the code points after `pre ++ m` lies among `m` and them after `pre`. -/
theorem Within.shift {pre m r : List CodePoint} {a : Token ⊕ LexError}
    (h : Within (pre ++ m) r a) : Within pre (m ++ r) a := by
  obtain ⟨hstart, hend, hwidth, hpos⟩ := h
  simp only [List.length_append] at hstart hend
  refine ⟨by omega, by simp only [List.length_append]; omega, hwidth, ?_⟩
  rwa [List.append_assoc] at hpos

/-- The stretch of a token or an error that starts right after `pre` lies among the code
points after `pre`. -/
theorem within_head {pre cs r : List CodePoint} {a : Token ⊕ LexError}
    (hpos : itemPos a = Pos.after pre) (hwidth : itemWidth a = cs.length) (hcs : cs ≠ []) :
    Within pre (cs ++ r) a := by
  have hlen : 0 < cs.length := List.length_pos_iff.mpr hcs
  refine ⟨by simp [hpos], by simp [hpos, hwidth], by omega, ?_⟩
  rw [hpos, Pos.offset_after, List.take_left]

namespace Divides

variable {pre cs : List CodePoint} {items : List (Token ⊕ LexError)}

/-- Every token and error of a division lies among the divided code points. -/
theorem within (h : Divides pre cs items) : ∀ a ∈ items, Within pre cs a := by
  induction h with
  | nil => simp
  | blank _ _ ih => exact fun a ha => (ih a ha).shift
  | comment _ _ _ ih => exact fun a ha => (ih a ha).shift
  | token t hcs hpos hwidth _ ih =>
    intro a ha
    rcases List.mem_cons.mp ha with rfl | ha
    · exact within_head hpos hwidth hcs
    · exact (ih a ha).shift
  | @unexpected pre r c items e _ hpos hwidth _ ih =>
    intro a ha
    rcases List.mem_cons.mp ha with rfl | ha
    · exact @within_head pre [c] r _ hpos hwidth (List.cons_ne_nil _ _)
    · exact (ih a ha).shift
  | @unterminated pre body r items e _ _ _ hpos hwidth _ ih =>
    intro a ha
    rcases List.mem_cons.mp ha with rfl | ha
    · exact @within_head pre (.char '\'' :: body) r _ hpos (by simp [hwidth])
        (List.cons_ne_nil _ _)
    · exact (ih a ha).shift

/-- The tokens and errors of a division do not overlap, each ending before the next starts. -/
theorem pairwise (h : Divides pre cs items) :
    items.Pairwise fun a b => (itemPos a).offset + itemWidth a ≤ (itemPos b).offset := by
  induction h with
  | nil => exact .nil
  | blank _ _ ih => exact ih
  | comment _ _ _ ih => exact ih
  | @token pre cs r items t hcs hpos hwidth hrest ih =>
    -- the later ones start after the token's stretch
    refine List.pairwise_cons.mpr ⟨fun b hb => ?_, ih⟩
    have hb := (hrest.within b hb).1
    simp only [List.length_append] at hb
    simp only [itemPos_inl, itemWidth_inl, hpos, hwidth, Pos.offset_after]
    exact hb
  | @unexpected pre r c items e _ hpos hwidth hrest ih =>
    refine List.pairwise_cons.mpr ⟨fun b hb => ?_, ih⟩
    have hb := (hrest.within b hb).1
    simp only [List.length_append, List.length_singleton] at hb
    simp only [itemPos_inr, itemWidth_inr, hpos, hwidth, Pos.offset_after]
    exact hb
  | @unterminated pre body r items e _ _ _ hpos hwidth hrest ih =>
    refine List.pairwise_cons.mpr ⟨fun b hb => ?_, ih⟩
    have hb := (hrest.within b hb).1
    simp only [List.length_append, List.length_cons] at hb
    simp only [itemPos_inr, itemWidth_inr, hpos, hwidth, Pos.offset_after]
    omega

end Divides

end Lexer

/-- The lexer divides every text into white space and comments that it skips, the texts of its
tokens and the spans of its errors, each code point in exactly one stretch (`Lexer.Divides`).
Its tokens and errors, in the order of the text, start at increasing offsets without
overlapping, each spans at least one code point within the text, and each starts at the line
and column that the code points before its offset give (`Pos.after`): one more than the line
feeds among them, and one more than the code points after the last line feed. The text ends at
the place after all of it. -/
theorem tokenize_divides (s : List CodePoint) :
    ∃ items, Lexer.Divides [] s items ∧
      (tokenize s).tokens = items.filterMap Sum.getLeft? ∧
      (tokenize s).errors = items.filterMap Sum.getRight? ∧
      (tokenize s).finish = Pos.after s ∧
      items.Pairwise (fun a b =>
        (Lexer.itemPos a).offset + Lexer.itemWidth a ≤ (Lexer.itemPos b).offset) ∧
      ∀ a ∈ items, 0 < Lexer.itemWidth a ∧ (Lexer.itemPos a).offset + Lexer.itemWidth a ≤ s.length ∧
        Lexer.itemPos a = Pos.after (s.take (Lexer.itemPos a).offset) := by
  obtain ⟨items, hdiv, hrun⟩ := Lexer.scan_divides s [] [] []
  rw [Pos.after_nil, List.nil_append] at hrun
  refine ⟨items, hdiv, by simp [tokenize, hrun], by simp [tokenize, hrun],
    by simp [tokenize, hrun], hdiv.pairwise, fun a ha => ?_⟩
  obtain ⟨-, hend, hwidth, hpos⟩ := hdiv.within a ha
  simp only [List.length_nil, Nat.zero_add, List.nil_append] at hend hpos
  exact ⟨hwidth, hend, hpos⟩

end FeeSchedule
