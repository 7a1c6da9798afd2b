import FeeSchedule.Proofs.Syntax.Consumption
import FeeSchedule.Proofs.Syntax.Totality
import Mathlib.Data.List.Chain

/-!
# `FeeSchedule.Proofs.Syntax.Recovery`: each broken declaration costs one diagnostic

`Schedule.parse` does not stop at a declaration that does not read: it reports it and resumes
after it (`resumeAfter`). This module proves that the recovery is local when the declarations
of a text are laid out as a script lays them out (`Grammar.Laid`, `Grammar.Layout`): the text
gets exactly one syntax diagnostic for each declaration that does not read on its own, and none
for the others, whatever their number and order (`parse_reports_broken_declarations`).

A declaration does not read on its own when it is outside the grammar of `Grammar.Decl`, or
when it is a `VERSION` after a `VERSION` whose identifier was read (`Grammar.Broken`): such a
`VERSION` sets the version even when more of it breaks. `Grammar.Reported` pairs each
declaration with its diagnostics.

The layout asks what the resumption rules need:

* each declaration opens with a keyword of `topLevel` on a new line;
* a block (`INPUT`, `FEE`) ends with its own end keyword and holds no other;
* no other token of a declaration is a keyword of `topLevel` that opens a line, but the
  `GROUP` of an input, since reading resumes at such keywords;
* a one-line declaration holds no other keyword of `topLevel` at all, but the `FEE` second in
  the body of a `VERIFY`: what follows a one-line declaration that reads is read as the next
  declaration, on the same line or not;
* a `VERIFY` that ends right after `COMPLETE` or `MONOTONIC` is not followed by a `FEE`
  declaration, which it would read as its own;
* no token but a keyword has the text of a block keyword or an end keyword, since resuming
  compares these texts alone.

The proof follows one declaration at a time (`gather_declaration`): what its reader took is a
prefix of it (`Read.declaration_within`, from `FeeSchedule.Proofs.Syntax.Consumption`), and from
there skipping ends exactly after it (`skipBroken_append`). A reader that ends inside the
declaration leaves the rest of it to the next step, which breaks at once and skips the rest.
The induction over the declarations is `gather_reports`. Reading such a text ends
(`Schedule.parse_ends_of_layout`): no token of it but a keyword has the text of a block
keyword, so reading is never stuck at one.

A layout can be decided (`Grammar.Layout.decidable`), so that a text is checked against it by
evaluation, as in `broken_group_reported`. Without the conditions on `VERIFY` the count fails:
in `verify_complete_takes_next_fee` two declarations that each break on their own get one
diagnostic together.
-/

set_option autoImplicit false

namespace FeeSchedule

open Grammar Reader Token

/-! ### The layout of a script -/

/-- A keyword that opens a declaration. -/
def Token.IsTopLevel (t : Token) : Prop := t.kind = .keyword ∧ t.value ∈ topLevel

instance : DecidablePred Token.IsTopLevel := fun t =>
  inferInstanceAs (Decidable (t.kind = .keyword ∧ t.value ∈ topLevel))

/-- The token stands on a later line than `prev`, the token before it, when there is one. -/
def Token.OpensLine (prev : Option Token) (t : Token) : Prop :=
  ∀ p ∈ prev, p.pos.line < t.pos.line

instance (prev : Option Token) (t : Token) : Decidable (t.OpensLine prev) :=
  inferInstanceAs (Decidable (∀ p ∈ prev, p.pos.line < t.pos.line))

/-- The end keyword of the block a token opens: `ENDINPUT` after `INPUT`, `ENDFEE` after
`FEE`. -/
def Token.blockEnd (t : Token) : Option String :=
  if t.isKeyword "INPUT" then some "ENDINPUT" else if t.isKeyword "FEE" then some "ENDFEE"
  else none

namespace Grammar

/-- The declaration `t :: body` stands between the token `prev` and the token `next` as a script
lays declarations out (see the module header). -/
structure Laid (prev : Option Token) (t : Token) (body : List Token) (next : Option Token) :
    Prop where
  head : t.IsTopLevel
  opens : t.OpensLine prev
  ends : ∀ w ∈ t.blockEnd, ∃ mid e, body = mid ++ [e] ∧ e.isKeyword w ∧
    ∀ u ∈ mid, u.isKeyword w = false
  lines : (t :: body).IsChain fun p u =>
    u.IsTopLevel → p.pos.line < u.pos.line → t.isKeyword "INPUT" ∧ u.isKeyword "GROUP"
  oneLine : t.blockEnd = none → ∀ (k : Nat) (hk : k < body.length), body[k].IsTopLevel →
    k = 1 ∧ t.isKeyword "VERIFY" ∧ body[k].isKeyword "FEE"
  crossing : t.isKeyword "VERIFY" → ∀ c, body = [c] →
    (c.isKeyword "COMPLETE" ∨ c.isKeyword "MONOTONIC") → ∀ n ∈ next, n.isKeyword "FEE" = false
  plain : ∀ u ∈ t :: body, u.kind ≠ .keyword → u.value ∉ ["INPUT", "FEE", "ENDINPUT", "ENDFEE"]

/-- The declarations `ds` stand one after another after the token `prev`, each laid out as a
script lays it out before the next. -/
inductive Layout : Option Token → List (List Token) → Prop where
  | nil (prev : Option Token) : Layout prev []
  | cons {prev : Option Token} {t : Token} {body : List Token} {ds : List (List Token)} :
      Laid prev t body ds.flatten.head? → Layout (t :: body).getLast? ds →
      Layout prev ((t :: body) :: ds)

/-- What follows the declarations before `ds` is the first of them, which opens a declaration
and its line, or nothing. -/
theorem Layout.next {prev : Option Token} {ds : List (List Token)} (h : Layout prev ds) :
    ∀ n ∈ ds.flatten.head?, n.IsTopLevel ∧ n.OpensLine prev := by
  cases h with
  | nil => nofun
  | cons hlaid _ =>
    intro n hn
    obtain rfl : _ = n := by simpa using hn
    exact ⟨hlaid.head, hlaid.opens⟩

/-- A body ends with the keyword `w` and holds no other, told by its last token. -/
theorem endsWith_iff {body : List Token} {w : String} :
    (∃ mid e, body = mid ++ [e] ∧ e.isKeyword w ∧ ∀ u ∈ mid, u.isKeyword w = false) ↔
      body.getLast?.any (·.isKeyword w) ∧ ∀ u ∈ body.dropLast, u.isKeyword w = false := by
  constructor
  · rintro ⟨mid, e, rfl, he, hmid⟩
    simpa [he] using hmid
  · rintro ⟨he, hmid⟩
    have hne : body ≠ [] := by
      rintro rfl
      simp at he
    refine ⟨body.dropLast, body.getLast hne, (List.dropLast_append_getLast hne).symm, ?_, hmid⟩
    simpa [List.getLast?_eq_some_getLast hne] using he

/-- A body of one token, told by its length. -/
theorem forall_singleton_iff {body : List Token} {P : Token → Prop} :
    (∀ c, body = [c] → P c) ↔ ∀ c ∈ body, body.length = 1 → P c := by
  constructor
  · intro h c hc hlen
    obtain ⟨a, rfl⟩ := List.length_eq_one_iff.mp hlen
    obtain rfl : c = a := List.mem_singleton.mp hc
    exact h c rfl
  · rintro h c rfl
    exact h c (List.mem_singleton_self c) rfl

/-- `Laid` with each condition in a form that can be decided. -/
theorem laid_iff {prev next : Option Token} {t : Token} {body : List Token} :
    Laid prev t body next ↔ t.IsTopLevel ∧ t.OpensLine prev ∧
      (∀ w ∈ t.blockEnd, body.getLast?.any (·.isKeyword w) ∧
        ∀ u ∈ body.dropLast, u.isKeyword w = false) ∧
      (t :: body).IsChain (fun p u =>
        u.IsTopLevel → p.pos.line < u.pos.line → t.isKeyword "INPUT" ∧ u.isKeyword "GROUP") ∧
      (t.blockEnd = none → ∀ (k : Nat) (hk : k < body.length), body[k].IsTopLevel →
        k = 1 ∧ t.isKeyword "VERIFY" ∧ body[k].isKeyword "FEE") ∧
      (t.isKeyword "VERIFY" → ∀ c ∈ body, body.length = 1 →
        (c.isKeyword "COMPLETE" ∨ c.isKeyword "MONOTONIC") → ∀ n ∈ next,
          n.isKeyword "FEE" = false) ∧
      ∀ u ∈ t :: body, u.kind ≠ .keyword → u.value ∉ ["INPUT", "FEE", "ENDINPUT", "ENDFEE"] := by
  constructor
  · intro h
    exact ⟨h.head, h.opens, fun w hw => endsWith_iff.mp (h.ends w hw), h.lines, h.oneLine,
      fun hv => forall_singleton_iff.mp (h.crossing hv), h.plain⟩
  · rintro ⟨hhead, hopens, hends, hlines, hone, hcross, hplain⟩
    exact ⟨hhead, hopens, fun w hw => endsWith_iff.mpr (hends w hw), hlines, hone,
      fun hv => forall_singleton_iff.mpr (hcross hv), hplain⟩

set_option synthInstance.maxSize 512 in
instance (prev : Option Token) (t : Token) (body : List Token) (next : Option Token) :
    Decidable (Laid prev t body next) :=
  decidable_of_iff' _ laid_iff

/-- Whether declarations are laid out as a script lays them out, one declaration at a time. -/
instance Layout.decidable : (prev : Option Token) → (ds : List (List Token)) →
    Decidable (Layout prev ds)
  | prev, [] => isTrue (.nil prev)
  | _, [] :: _ => isFalse nofun
  | prev, (t :: body) :: ds =>
    haveI := Layout.decidable (t :: body).getLast? ds
    decidable_of_iff (Laid prev t body ds.flatten.head? ∧ Layout (t :: body).getLast? ds)
      ⟨fun h => .cons h.1 h.2, fun h => by cases h with | cons h₁ h₂ => exact ⟨h₁, h₂⟩⟩

/-- A `VERSION` whose identifier is read: reading it sets the version, even when more of the
declaration breaks. -/
def setsVersion : List Token → Bool
  | v :: s :: _ => v.isKeyword "VERSION" && s.kind == .string
  | _ => false

/-- A declaration that does not read on its own: one outside the grammar, or a `VERSION` when
one was read before it (`seen`). -/
def Broken (seen : Bool) (d : List Token) : Prop := ¬Decl d ∨ (seen ∧ IsVersion d)

/-- `Reported seen ds fs`: `fs` gives each declaration of `ds` its syntax diagnostics, one for
a broken declaration and none for the others; `seen` tells whether a version was read before
them. -/
inductive Reported : Bool → List (List Token) → List (List Diagnostic) → Prop where
  | nil (seen : Bool) : Reported seen [] []
  | broken {seen : Bool} {d : List Token} {ds : List (List Token)} {fs : List (List Diagnostic)}
      (m : String) (line : Nat) :
      Broken seen d → Reported (seen || setsVersion d) ds fs →
      Reported seen (d :: ds) ([Diagnostic.reading m line] :: fs)
  | whole {seen : Bool} {d : List Token} {ds : List (List Token)} {fs : List (List Diagnostic)} :
      ¬Broken seen d → Reported (seen || setsVersion d) ds fs → Reported seen (d :: ds) ([] :: fs)

end Grammar

/-! ### Skipping a broken declaration -/

/-- Skipping passes over tokens that neither end the block nor open a line with a keyword to
resume at, and goes on after the last of them. -/
theorem skipBroken_append {blockEnd : Option String} {resume : List String} (rest : List Token) :
    ∀ {prev : Token} {vs : List Token},
      (prev :: vs).IsChain (fun p u =>
        ¬(u.kind = .keyword ∧ resume.contains u.value ∧ u.pos.line > p.pos.line)) →
      (∀ u ∈ vs, ¬(u.kind = .keyword ∧ blockEnd = some u.value)) →
      skipBroken blockEnd resume prev (vs ++ rest) =
        skipBroken blockEnd resume ((prev :: vs).getLast (List.cons_ne_nil _ _)) rest := by
  intro prev vs
  induction vs generalizing prev with
  | nil => intro _ _; rfl
  | cons u vs ih =>
    intro hchain hend
    obtain ⟨hu, htail⟩ := List.isChain_cons_cons.mp hchain
    rw [List.cons_append, skipBroken, if_neg (hend u (.head _)), if_neg hu,
      ih htail fun v hv => hend v (.tail _ hv), List.getLast_cons (List.cons_ne_nil _ _)]

theorem skipBroken_end {blockEnd : Option String} {resume : List String} {prev e : Token}
    (he : e.kind = .keyword ∧ blockEnd = some e.value) (rest : List Token) :
    skipBroken blockEnd resume prev (e :: rest) = rest := by
  rw [skipBroken, if_pos he]

/-- Skipping stops at the next declaration, which opens its line with a keyword to resume at. -/
theorem skipBroken_next {blockEnd : Option String} {resume : List String} {prev : Token}
    {rest : List Token}
    (hnext : ∀ n ∈ rest.head?, n.kind = .keyword ∧ n.value ∈ resume ∧ blockEnd ≠ some n.value ∧
      prev.pos.line < n.pos.line) :
    skipBroken blockEnd resume prev rest = rest := by
  cases rest with
  | nil => rfl
  | cons n rest =>
    obtain ⟨hk, hres, hend, hline⟩ := hnext n rfl
    rw [skipBroken, if_neg fun h => hend h.2, if_pos ⟨hk, List.contains_iff_mem.mpr hres, hline⟩]

/-! ### What the reader of a declaration leaves -/

/-- What reading the body of a declaration left: a suffix of the body, then what follows it. -/
def StopsWithin (body rest left : List Token) : Prop := ∃ vs, vs <:+ body ∧ left = vs ++ rest

theorem StopsWithin.suffix {body body' rest left : List Token} (h : StopsWithin body rest left)
    (hs : body <:+ body') : StopsWithin body' rest left := by
  obtain ⟨vs, hvs, rfl⟩ := h
  exact ⟨vs, hvs.trans hs, rfl⟩

/-- A reader that takes only tokens of `P` stops within the body when the token after it is not
one of `P`. -/
theorem within_of_takenFrom {P : Token → Prop} {body rest left : List Token}
    (h : TakenFrom P (body ++ rest) left) (hr : ∀ n ∈ rest.head?, ¬P n) :
    StopsWithin body rest left := by
  obtain ⟨us, hus, hP⟩ := h
  rcases List.append_eq_append_iff.mp hus with ⟨vs, rfl, rfl⟩ | ⟨cs, rfl, hrest⟩
  · exact ⟨vs, List.suffix_append _ _, rfl⟩
  · -- it took all the body and what follows `cs` in the rest: `cs` is empty
    cases cs with
    | nil => exact ⟨[], List.nil_suffix, by simpa using hrest.symm⟩
    | cons x cs => exact absurd (hP x (by simp)) (hr x (by simp [hrest]))

theorem Token.IsTopLevel.isKeyword_eq_false {t : Token} (h : t.IsTopLevel) {w : String}
    (hw : w ∉ topLevel) : t.isKeyword w = false := by
  have hne : t.value ≠ w := fun heq => hw (heq ▸ h.2)
  simp [Token.isKeyword, hne]

theorem Token.IsTopLevel.not_avoids {t : Token} (h : t.IsTopLevel) : ¬t.Avoids topLevel :=
  fun ha => ha h.1 h.2

/-- A block that takes its end keyword only last stops within its body, which ends with that
keyword and holds no other. -/
theorem within_of_blockTaken {w : String} {mid rest left : List Token} {e : Token}
    (h : BlockTaken w (mid ++ [e] ++ rest) left) (he : e.isKeyword w)
    (hmid : ∀ u ∈ mid, u.isKeyword w = false) (hr : ∀ n ∈ rest.head?, n.isKeyword w = false) :
    StopsWithin (mid ++ [e]) rest left := by
  obtain ⟨m, h₁, h₂⟩ := h
  -- the tokens other than `w` stop at `e` at the latest
  have he' : ¬e.Avoids [w] := by
    simp only [Token.isKeyword, Bool.and_eq_true, beq_iff_eq] at he
    exact fun ha => ha he.1 (by simp [he.2])
  obtain ⟨vs, hvs, rfl⟩ :=
    within_of_takenFrom (by simpa using h₁) (fun n hn => by cases hn; exact he')
  -- then the keywords `w` stop before the rest
  have h₂' : TakenFrom (fun t => t.isKeyword w = true) ((vs ++ [e]) ++ rest) left := by
    simpa using h₂
  refine (within_of_takenFrom h₂' fun n hn => by simp [hr n hn]).suffix ?_
  obtain ⟨p, rfl⟩ := hvs
  exact ⟨p, by simp⟩

/-- A `VERIFY` stops within its body: it takes the `FEE` of the next declaration only after a
`COMPLETE` or `MONOTONIC` that ends the body, which the layout rules out. -/
theorem within_of_directiveTaken {body rest left : List Token}
    (h : DirectiveTaken (body ++ rest) left) (hr : ∀ n ∈ rest.head?, n.IsTopLevel)
    (hcross : ∀ c, body = [c] → (c.isKeyword "COMPLETE" ∨ c.isKeyword "MONOTONIC") →
      ∀ n ∈ rest.head?, n.isKeyword "FEE" = false) :
    StopsWithin body rest left := by
  have hnot : ∀ n ∈ rest.head?, ¬n.Avoids topLevel := fun n hn => (hr n hn).not_avoids
  rcases h with h | ⟨c, f, rest', hts, hc, hf, h⟩
  · exact within_of_takenFrom h hnot
  rcases body with _ | ⟨b, _ | ⟨b', body'⟩⟩
  · -- no body: the next declaration would open with `COMPLETE` or `MONOTONIC`
    subst hts
    have htop := hr c rfl
    rcases hc with hc | hc
    · exact absurd hc (by simp [htop.isKeyword_eq_false (by simp [topLevel] : "COMPLETE" ∉ _)])
    · exact absurd hc (by simp [htop.isKeyword_eq_false (by simp [topLevel] : "MONOTONIC" ∉ _)])
  · -- a body of one word: the `FEE` taken is the next declaration's
    simp only [List.cons_append, List.nil_append, List.cons.injEq] at hts
    obtain ⟨rfl, rfl⟩ := hts
    exact absurd hf (by simp [hcross b rfl hc f rfl])
  · simp only [List.cons_append, List.cons.injEq] at hts
    obtain ⟨rfl, rfl, rfl⟩ := hts
    exact (within_of_takenFrom h hnot).suffix ((List.suffix_cons _ _).trans (List.suffix_cons _ _))

/-- The keyword that opens a declaration is one of six. -/
theorem Token.IsTopLevel.cases {t : Token} (h : t.IsTopLevel) :
    t.isKeyword "VERSION" ∨ t.isKeyword "GROUP" ∨ t.isKeyword "INPUT" ∨ t.isKeyword "FEE" ∨
      t.isKeyword "RETURN" ∨ t.isKeyword "VERIFY" := by
  obtain ⟨hk, hmem⟩ := h
  simp only [topLevel, List.mem_cons, List.not_mem_nil, or_false] at hmem
  simp only [Token.isKeyword, hk, beq_self_eq_true, Bool.true_and, beq_iff_eq]
  exact hmem

/-- The reader of a declaration laid out in a script stops within it. -/
theorem Read.declaration_within {eof : Pos} {prev : Option Token} {t : Token}
    {body rest : List Token} (hlaid : Laid prev t body rest.head?)
    (hnext : ∀ n ∈ rest.head?, n.IsTopLevel) :
    Leaves (StopsWithin body rest) ((Read.declaration t).run eof (body ++ rest)) := by
  have hnot : ∀ n ∈ rest.head?, ¬n.Avoids topLevel := fun n hn => (hnext n hn).not_avoids
  -- a block ends with its end keyword, which does not open the next declaration
  have hblock : ∀ w, t.blockEnd = some w → w ∉ topLevel →
      ∀ {α : Type} (m : Reader α), m.LeavesBy (BlockTaken w) →
        Leaves (StopsWithin body rest) (m.run eof (body ++ rest)) := by
    intro w hw hwt α m hm
    obtain ⟨mid, e, rfl, he, hmid⟩ := hlaid.ends w hw
    exact (hm eof _).mono fun _ h =>
      within_of_blockTaken h he hmid fun n hn => (hnext n hn).isKeyword_eq_false hwt
  unfold Read.declaration
  split
  · exact (LeavesBy.map version_takes eof _).mono fun _ h => within_of_takenFrom h hnot
  split
  · exact (LeavesBy.map group_takes eof _).mono fun _ h => within_of_takenFrom h hnot
  split
  · rename_i hi
    exact hblock "ENDINPUT" (by simp [Token.blockEnd, hi]) (by simp [topLevel]) _
      (LeavesBy.map (input_leaves t.pos))
  split
  · rename_i hi hf
    exact hblock "ENDFEE" (by simp [Token.blockEnd, hi, hf]) (by simp [topLevel]) _
      (LeavesBy.map fee_leaves)
  split
  · exact (LeavesBy.map ret_takes eof _).mono fun _ h => within_of_takenFrom h hnot
  · -- what is left opens with `VERIFY`
    rename_i hv hg hi hf hr
    have hverify : t.isKeyword "VERIFY" := by
      rcases hlaid.head.cases with h | h | h | h | h | h <;> simp_all
    exact (LeavesBy.map directive_leaves eof _).mono fun _ h =>
      within_of_directiveTaken h hnext (hlaid.crossing hverify)

/-! ### Resuming after a declaration -/

/-- Within a declaration laid out in a script, no token after a given one is a keyword to
resume at that opens a line: skipping passes over them. -/
theorem Grammar.Laid.skips {prev next : Option Token} {t : Token} {body : List Token}
    (hlaid : Laid prev t body next) (resume : List String)
    (hresume : ∀ u : Token, u.kind = .keyword → u.value ∈ resume →
      u.IsTopLevel ∧ (t.isKeyword "INPUT" → u.value ≠ "GROUP"))
    {p : Token} {vs : List Token} (hs : p :: vs <:+ t :: body) :
    (p :: vs).IsChain fun p u =>
      ¬(u.kind = .keyword ∧ resume.contains u.value ∧ u.pos.line > p.pos.line) := by
  refine (hlaid.lines.suffix hs).imp fun a u h hresumes => ?_
  obtain ⟨hk, hmem, hline⟩ := hresumes
  obtain ⟨htop, hgroup⟩ := hresume u hk (List.contains_iff_mem.mp hmem)
  obtain ⟨hi, hu⟩ := h htop hline
  simp only [Token.isKeyword, Bool.and_eq_true, beq_iff_eq] at hu
  exact hgroup hi hu.2

/-- The last token read of a declaration, and the suffix of its body still unread, are a suffix
of the declaration. -/
theorem getLast_cons_suffix (t : Token) (us vs : List Token) :
    (t :: us).getLast (List.cons_ne_nil _ _) :: vs <:+ t :: (us ++ vs) := by
  have h := List.dropLast_append_getLast (List.cons_ne_nil t us)
  refine ⟨(t :: us).dropLast, ?_⟩
  calc (t :: us).dropLast ++ (t :: us).getLast (List.cons_ne_nil _ _) :: vs
      = ((t :: us).dropLast ++ [(t :: us).getLast (List.cons_ne_nil _ _)]) ++ vs := by simp
    _ = t :: (us ++ vs) := by rw [h]; rfl

theorem getLast_cons_getLast (t : Token) (us vs : List Token) :
    ((t :: us).getLast (List.cons_ne_nil _ _) :: vs).getLast (List.cons_ne_nil _ _) =
      (t :: (us ++ vs)).getLast (List.cons_ne_nil _ _) := by
  cases vs with
  | nil => simp
  | cons v vs => simp [List.getLast_append_of_ne_nil]

/-- After a one-line declaration, skipping from its last token stops at the next declaration. -/
theorem skipBroken_after {t : Token} {body rest : List Token}
    (hnext : ∀ n ∈ rest.head?, n.IsTopLevel ∧ n.OpensLine (t :: body).getLast?) :
    skipBroken none topLevel ((t :: body).getLast (List.cons_ne_nil _ _)) rest = rest := by
  refine skipBroken_next fun n hn => ?_
  obtain ⟨⟨hk, hmem⟩, hline⟩ := hnext n hn
  exact ⟨hk, hmem, nofun, hline _ (List.getLast?_eq_some_getLast _)⟩

theorem Token.value_eq_of_isKeyword {t : Token} {w : String} (h : t.isKeyword w) :
    t.value = w := by
  simp only [Token.isKeyword, Bool.and_eq_true, beq_iff_eq] at h
  exact h.2

/-- A one-line declaration that broke with a suffix of its body unread is skipped to its end:
reading resumes at the next declaration. -/
theorem resumeAfter_oneLine {prev : Option Token} {t : Token} {us vs rest : List Token}
    (hlaid : Laid prev t (us ++ vs) rest.head?)
    (hnext : ∀ n ∈ rest.head?, n.IsTopLevel ∧ n.OpensLine (t :: (us ++ vs)).getLast?)
    (hone : t.blockEnd = none) :
    resumeAfter t prev (t :: (us ++ vs ++ rest)) (vs ++ rest) = rest := by
  have hi : t.value ≠ "INPUT" := fun h => by
    simp [Token.blockEnd, Token.isKeyword, hlaid.head.1, h] at hone
  have hf : t.value ≠ "FEE" := fun h => by
    simp [Token.blockEnd, Token.isKeyword, hlaid.head.1, h] at hone
  have hts : t :: (us ++ vs ++ rest) = (t :: us) ++ (vs ++ rest) := by simp
  unfold resumeAfter
  simp only [hi, hf, if_false, Option.isSome_none, Bool.false_eq_true, false_and]
  rw [if_neg (by simp only [List.length_append, List.length_cons]; omega), hts, lastRead_append,
    List.getLast?_eq_some_getLast (List.cons_ne_nil _ _)]
  -- skip the rest of the body, then stop at the next declaration
  have hchain := hlaid.skips topLevel (fun u hk hmem => ⟨⟨hk, hmem⟩, fun h => by
    simp [Token.blockEnd, h] at hone⟩) (getLast_cons_suffix t us vs)
  rw [Option.orElse_some, Option.getD_some,
    skipBroken_append rest hchain (fun _ _ h => by cases h.2), getLast_cons_getLast]
  exact skipBroken_after hnext

/-- A block keyword and its end keyword, by their texts. -/
theorem Token.blockEnd_eq_some {t : Token} {w : String} (hw : t.blockEnd = some w) :
    (t.value = "INPUT" ∧ w = "ENDINPUT") ∨ (t.value = "FEE" ∧ w = "ENDFEE") := by
  unfold Token.blockEnd at hw
  split at hw
  · rename_i hi
    exact .inl ⟨value_eq_of_isKeyword hi, (Option.some.inj hw).symm⟩
  · split at hw
    · rename_i hf
      exact .inr ⟨value_eq_of_isKeyword hf, (Option.some.inj hw).symm⟩
    · cases hw

/-- The keywords to resume at after an input: those of `topLevel` but `GROUP`. -/
theorem mem_erase_group {x : String} (h : x ∈ topLevel.erase "GROUP") :
    x ∈ topLevel ∧ x ≠ "GROUP" := by
  have hnd : topLevel.Nodup := by simp [topLevel]
  exact (hnd.mem_erase_iff.mp h).symm

/-- No token of a block but its end keyword has the text of the end keyword. -/
theorem Grammar.Laid.value_ne_end {prev next : Option Token} {t : Token} {body : List Token}
    (hlaid : Laid prev t body next) {w : String} (hw : t.blockEnd = some w) {mid : List Token}
    {e : Token} (hbody : body = mid ++ [e]) (hmid : ∀ u ∈ mid, u.isKeyword w = false) :
    ∀ u ∈ t :: mid, u.value ≠ w := by
  have hwords := Token.blockEnd_eq_some hw
  intro u hu
  rcases List.mem_cons.mp hu with rfl | hu
  · rcases hwords with ⟨h, rfl⟩ | ⟨h, rfl⟩ <;> simp [h]
  · by_cases hk : u.kind = .keyword
    · have := hmid u hu
      simp only [Token.isKeyword, hk, beq_self_eq_true, Bool.true_and] at this
      exact fun h => by simp [h] at this
    · have hplain := hlaid.plain u (by simp [hbody, hu]) hk
      rcases hwords with ⟨-, rfl⟩ | ⟨-, rfl⟩ <;> exact fun h => hplain (by simp [h])

/-- A block that broke with a suffix of its body unread is skipped through its end keyword, or
left at once when that keyword was the last token read. -/
theorem resumeAfter_block {prev : Option Token} {t : Token} {us vs rest : List Token}
    {w : String} (hlaid : Laid prev t (us ++ vs) rest.head?) (hw : t.blockEnd = some w) :
    resumeAfter t prev (t :: (us ++ vs ++ rest)) (vs ++ rest) = rest := by
  obtain ⟨mid, e, hbody, he, hmid⟩ := hlaid.ends w hw
  have hne := hlaid.value_ne_end hw hbody hmid
  have hwords := Token.blockEnd_eq_some hw
  have hstart : (if t.value = "INPUT" then some "ENDINPUT" else if t.value = "FEE" then
      some "ENDFEE" else none) = some w := by
    rcases hwords with ⟨h, rfl⟩ | ⟨h, rfl⟩ <;> simp [h]
  have hts : t :: (us ++ vs ++ rest) = (t :: us) ++ (vs ++ rest) := by simp
  unfold resumeAfter
  simp only [hstart, Option.isSome_some, true_and]
  rw [hts, lastRead_append, List.getLast?_eq_some_getLast (List.cons_ne_nil _ _),
    Option.orElse_some, Option.map_some, Option.getD_some]
  rcases List.eq_nil_or_concat vs with rfl | ⟨vs', v, rfl⟩
  · -- the end keyword was the last token read: resume right after it
    obtain rfl : us = mid ++ [e] := by simpa using hbody
    rw [if_pos (by simp [List.getLast_append_of_ne_nil, value_eq_of_isKeyword he])]
    rfl
  -- the end keyword is unread: skip up to it and past it
  rw [List.concat_eq_append] at hbody hlaid ⊢
  rw [← List.append_assoc] at hbody
  obtain ⟨rfl, hv⟩ := List.append_inj' hbody rfl
  have hve : e = v := (List.singleton_inj.mp hv).symm
  subst hve
  have hlast : (t :: us).getLast (List.cons_ne_nil _ _) ∈ t :: (us ++ vs') := by
    have := List.getLast_mem (List.cons_ne_nil t us)
    simp only [List.mem_cons, List.mem_append] at this ⊢
    tauto
  rw [if_neg fun h => hne _ hlast (Option.some.inj h),
    if_neg (by simp only [List.length_append, List.length_cons]; omega), List.append_assoc,
    List.singleton_append]
  have hresume : ∀ u : Token, u.kind = .keyword →
      u.value ∈ (if t.value = "INPUT" then topLevel.erase "GROUP" else topLevel) →
      u.IsTopLevel ∧ (t.isKeyword "INPUT" → u.value ≠ "GROUP") := by
    intro u hk hmem
    split at hmem
    · exact ⟨⟨hk, (mem_erase_group hmem).1⟩, fun _ => (mem_erase_group hmem).2⟩
    · rename_i hi
      exact ⟨⟨hk, hmem⟩, fun h => absurd (value_eq_of_isKeyword h) hi⟩
  have hchain := hlaid.skips _ hresume (getLast_cons_suffix t us (vs' ++ [e]))
  rw [← List.cons_append] at hchain
  rw [skipBroken_append _ hchain.left_of_append fun u hu hend => by
    obtain ⟨hk, hval⟩ := hend
    have := hmid u (List.mem_append_right _ hu)
    rw [Option.some.inj hval] at this
    simp [Token.isKeyword, hk] at this]
  have he' := he
  simp only [Token.isKeyword, Bool.and_eq_true, beq_iff_eq] at he'
  exact skipBroken_end ⟨he'.1, by rw [he'.2]⟩ rest

/-- What a one-line declaration that read left of its body opens no declaration: reading it
breaks at once, and skipping goes on to the next declaration. -/
theorem resumeAfter_leftover {prev : Option Token} {t u : Token} {us vs rest : List Token}
    (hlaid : Laid prev t (us ++ u :: vs) rest.head?)
    (hnext : ∀ n ∈ rest.head?, n.IsTopLevel ∧ n.OpensLine (t :: (us ++ u :: vs)).getLast?)
    (hone : t.blockEnd = none) (hu : ¬u.IsTopLevel) (prev' : Option Token) :
    resumeAfter u prev' (u :: (vs ++ rest)) (u :: (vs ++ rest)) = rest := by
  -- the token opens no block, by its text
  have hblock : u.value ≠ "INPUT" ∧ u.value ≠ "FEE" := by
    by_cases hk : u.kind = .keyword
    · exact ⟨fun h => hu ⟨hk, by simp [topLevel, h]⟩, fun h => hu ⟨hk, by simp [topLevel, h]⟩⟩
    · have hplain := hlaid.plain u (by simp) hk
      exact ⟨fun h => hplain (by simp [h]), fun h => hplain (by simp [h])⟩
  unfold resumeAfter
  simp only [hblock.1, hblock.2, if_false, Option.isSome_none, Bool.false_eq_true, false_and]
  rw [if_pos trivial, List.tail_cons]
  have hchain := hlaid.skips topLevel (fun x hk hmem => ⟨⟨hk, hmem⟩, fun h => by
    simp [Token.blockEnd, h] at hone⟩) (⟨t :: us, by simp⟩ : u :: vs <:+ t :: (us ++ u :: vs))
  have hlast : (u :: vs).getLast (List.cons_ne_nil _ _) =
      (t :: (us ++ u :: vs)).getLast (List.cons_ne_nil _ _) := by
    simp [List.getLast_append_of_ne_nil]
  rw [skipBroken_append rest hchain (fun _ _ h => by cases h.2), hlast]
  exact skipBroken_after hnext


/-! ### Reading one declaration -/

/-- A version reads once its identifier is a string: the label after it is optional. -/
theorem Read.version_run_string (eof : Pos) {s : Token} (r : List Token)
    (hs : s.kind = .string) : ∃ p, Read.version.run eof (s :: r) = .ok p := by
  unfold Read.version
  rw [run_bind, string_run_cons, if_pos hs]
  simp only [Parsed.next]
  cases r with
  | nil => exact ⟨_, rfl⟩
  | cons l r =>
    by_cases hl : l.kind = .string
    · simp only [run_bind, peek, Parsed.here, List.head?_cons, hl, if_true, advance, Parsed.next]
      exact ⟨_, rfl⟩
    · simp only [run_bind, peek, Parsed.here, List.head?_cons, hl, if_false]
      exact ⟨_, rfl⟩

/-- A declaration whose reading breaks does not set the version: a `VERSION` breaks only before
its identifier. -/
theorem setsVersion_eq_false_of_abort {eof : Pos} {t : Token} {body rest : List Token}
    {a : Abort} (h : (Read.declaration t).run eof (body ++ rest) = .error (.abort a)) :
    setsVersion (t :: body) = false := by
  cases body with
  | nil => rfl
  | cons s r =>
    by_cases hv : t.isKeyword "VERSION"
    · by_cases hs : s.kind = .string
      · obtain ⟨p, hp⟩ := Read.version_run_string eof (r ++ rest) hs
        rw [List.cons_append, Read.declaration, if_pos hv, map_run, run_bind, hp] at h
        cases h
      · simp [setsVersion, hs]
    · simp [setsVersion, hv]

theorem setsVersion_cons_of_not {t : Token} (hv : ¬t.isKeyword "VERSION") (ts : List Token) :
    setsVersion (t :: ts) = false := by
  cases ts with
  | nil => rfl
  | cons s r => simp [setsVersion, hv]

/-- A version of the grammar sets the version, whatever follows it. -/
theorem Grammar.Decl.setsVersion {t : Token} {us : List Token} (hd : Decl (t :: us))
    (hv : t.isKeyword "VERSION") (vs : List Token) : setsVersion (t :: (us ++ vs)) = true := by
  cases hd with
  | version _ hs | versionLabelled _ hs _ => simp [Grammar.setsVersion, hv, hs]
  | group hw _ _ _ | groupWeighted hw _ _ _ _ _ | input hw _ _ _ _ _ _ | fee hw _ _ _ _ _
  | ret hw _ _ _ | retConditional hw _ _ _ _ _ | complete hw _ _ _
  | monotonic hw _ _ _ _ _ _ _ _ =>
    simp [value_eq_of_isKeyword hw, Token.isKeyword] at hv

/-- A block of the grammar ends with its end keyword. -/
theorem Grammar.Decl.ends {t : Token} {us : List Token} (hd : Decl (t :: us)) {w : String}
    (hw : t.blockEnd = some w) : ∃ us' e, us = us' ++ [e] ∧ e.isKeyword w := by
  have hwords := Token.blockEnd_eq_some hw
  cases hd with
  | @input _ n k s e _ cs hi _ _ _ _ _ he =>
    obtain rfl : w = "ENDINPUT" := by
      rcases hwords with ⟨-, h⟩ | ⟨h, -⟩
      · exact h
      · simp [value_eq_of_isKeyword hi] at h
    exact ⟨n :: k :: s :: cs.flatten, e, by simp, he⟩
  | @fee _ n e os ls ys hf _ _ _ _ he =>
    obtain rfl : w = "ENDFEE" := by
      rcases hwords with ⟨h, -⟩ | ⟨-, h⟩
      · simp [value_eq_of_isKeyword hf] at h
      · exact h
    exact ⟨n :: os.flatten ++ ls.flatten ++ ys.flatten, e, by simp, he⟩
  | version hv _ | versionLabelled hv _ _ | group hv _ _ _ | groupWeighted hv _ _ _ _ _
  | ret hv _ _ _ | retConditional hv _ _ _ _ _ | complete hv _ _ _
  | monotonic hv _ _ _ _ _ _ _ _ =>
    rcases hwords with ⟨h, -⟩ | ⟨h, -⟩ <;> simp [value_eq_of_isKeyword hv] at h

/-- A directive of the grammar has at least three tokens after its `VERIFY`. -/
theorem Grammar.Decl.verify_length {t : Token} {us : List Token} (hd : Decl (t :: us))
    (hv : t.isKeyword "VERIFY") : 3 ≤ us.length := by
  cases hd with
  | complete => simp
  | monotonic => simp
  | version hw _ | versionLabelled hw _ _ | group hw _ _ _ | groupWeighted hw _ _ _ _ _
  | input hw _ _ _ _ _ _ | fee hw _ _ _ _ _ | ret hw _ _ _ | retConditional hw _ _ _ _ _ =>
    simp [value_eq_of_isKeyword hw, Token.isKeyword] at hv

/-- A laid out block does not read with part of its body left: a block of the grammar ends
with its end keyword, which is the last token of the block. -/
theorem Grammar.Laid.oneLine_of_read {prev next : Option Token} {t u : Token}
    {us vs : List Token} (hlaid : Laid prev t (us ++ u :: vs) next) (hdecl : Decl (t :: us)) :
    t.blockEnd = none := by
  cases hw : t.blockEnd with
  | none => rfl
  | some w =>
    obtain ⟨us', e', rfl, he'⟩ := hdecl.ends hw
    obtain ⟨mid, e, hbody, -, hmid⟩ := hlaid.ends w hw
    have hmem : e' ∈ mid := by
      have h := congrArg List.dropLast hbody
      rw [List.dropLast_concat, List.dropLast_append_of_ne_nil (List.cons_ne_nil _ _)] at h
      rw [← h]
      simp
    have := hmid e' hmem
    rw [he'] at this
    cases this

/-- What a laid out one-line declaration that reads leaves of its body opens no declaration:
the only keyword of `topLevel` such a body holds is second, and a directive that reads has at
least three tokens after `VERIFY`. -/
theorem Grammar.Laid.leftover {prev next : Option Token} {t u : Token} {us vs : List Token}
    (hlaid : Laid prev t (us ++ u :: vs) next) (hdecl : Decl (t :: us))
    (hone : t.blockEnd = none) : ¬u.IsTopLevel := fun hu => by
  have hk : us.length < (us ++ u :: vs).length := by simp
  obtain ⟨h1, hv, -⟩ := hlaid.oneLine hone us.length hk (by simpa using hu)
  have := hdecl.verify_length hv
  omega

theorem Token.IsTopLevel.kind_contains {t : Token} (h : t.IsTopLevel) :
    t.kind = .keyword ∧ topLevel.contains t.value :=
  ⟨h.1, List.contains_iff_mem.mpr h.2⟩

theorem readDeclaration_error {eof : Pos} {t : Token} {r : List Token} {g : Gathered} {e : Stop}
    (ht : t.IsTopLevel) (h : (Read.declaration t).run eof r = .error e) :
    readDeclaration eof t r g = .error e := by
  rw [readDeclaration, if_pos ht.kind_contains, h]

/-- A declaration that reads is taken, unless it is a second version. -/
theorem readDeclaration_ok {eof : Pos} {t : Token} {r : List Token} {g : Gathered}
    {d : Parsed r Declaration} (ht : t.IsTopLevel) (h : (Read.declaration t).run eof r = .ok d)
    (hv : ¬(t.isKeyword "VERSION" ∧ g.version.isSome)) : readDeclaration eof t r g = .ok d := by
  obtain ⟨-, -, -, hiff⟩ := Read.declaration_consumed ht.kind_contains h
  rw [readDeclaration, if_pos ht.kind_contains, h]
  dsimp only
  split
  · rename_i v hval
    rw [if_neg fun hs => hv ⟨hiff.mp ⟨v, hval⟩, hs⟩]
  · rfl

/-- A second version breaks after it was read. -/
theorem readDeclaration_repeated {eof : Pos} {t : Token} {r : List Token} {g : Gathered}
    {d : Parsed r Declaration} (ht : t.IsTopLevel) (h : (Read.declaration t).run eof r = .ok d)
    (hv : t.isKeyword "VERSION") (hs : g.version.isSome) :
    readDeclaration eof t r g = .error (.abort ⟨.repeatedVersion, t.pos, d.rest⟩) := by
  obtain ⟨-, -, -, hiff⟩ := Read.declaration_consumed ht.kind_contains h
  obtain ⟨v, hval⟩ := hiff.mpr hv
  rw [readDeclaration, if_pos ht.kind_contains, h]
  dsimp only
  rw [hval, if_pos hs]

/-- A token that opens no declaration breaks at once, with nothing read. -/
theorem readDeclaration_not_topLevel {t : Token} (ht : ¬t.IsTopLevel) (eof : Pos) (r : List Token)
    (g : Gathered) : readDeclaration eof t r g =
      .error (.abort ⟨.expected "VERSION, GROUP, INPUT, FEE, RETURN or VERIFY"
        (describeHead (t :: r)), posHead eof (t :: r), t :: r⟩) := by
  rw [readDeclaration, if_neg fun h => ht ⟨h.1, List.contains_iff_mem.mp h.2⟩]
  rfl

/-- A reading that settles does not break. -/
theorem Reader.Settles.ne_abort {α : Type} {ts rest : List Token} {r : Except Stop (Parsed ts α)}
    {P : α → Prop} (h : Settles r P rest) (a : Abort) : r ≠ .error (.abort a) := by
  rintro rfl
  rcases h with ⟨p, hp, -⟩ | ⟨s, hs⟩
  · cases hp
  · cases hs

/-- A reading that settles and ends leaves what it settles on. -/
theorem Reader.Settles.rest_eq {α : Type} {ts rest : List Token} {r : Except Stop (Parsed ts α)}
    {P : α → Prop} (h : Settles r P rest) {p : Parsed ts α} (hp : r = .ok p) : p.rest = rest := by
  subst hp
  rcases h with ⟨q, hq, -, hrest⟩ | ⟨s, hs⟩
  · obtain rfl := Except.ok.inj hq
    exact hrest
  · cases hs

/-! ### One step of gathering -/

/-- A declaration whose reading broke with a suffix of its body unread costs one fault, and
reading goes on at the next declaration. -/
theorem gather_abort_within {eof : Pos} {prev : Option Token} {t : Token}
    {us vs rest : List Token} {g : Gathered} {a : Abort}
    (hlaid : Laid prev t (us ++ vs) rest.head?)
    (hnext : ∀ n ∈ rest.head?, n.IsTopLevel ∧ n.OpensLine (t :: (us ++ vs)).getLast?)
    (hd : readDeclaration eof t (us ++ vs ++ rest) g = .error (.abort a))
    (ha : a.rest = vs ++ rest) (σ : Array Event) :
    (gather eof prev (t :: (us ++ vs ++ rest)) g).run σ =
      (gather eof (t :: (us ++ vs)).getLast? rest
        { g with faults := g.faults.push (faultAt a.fault.message a.pos) }).run
        (σ.push (.skipping t.pos.line)) := by
  have hres : resumeAfter t prev (t :: (us ++ vs ++ rest)) a.rest = rest := by
    rw [ha]
    cases hw : t.blockEnd with
    | none => exact resumeAfter_oneLine hlaid hnext hw
    | some w => exact resumeAfter_block hlaid hw
  have hlt : rest.length < (t :: (us ++ vs ++ rest)).length := by
    simp only [List.length_cons, List.length_append]
    omega
  rw [gather_cons_abort hd (by rw [hres]; exact hlt) σ, hres,
    show t :: (us ++ vs ++ rest) = (t :: (us ++ vs)) ++ rest by simp, lastRead_append,
    List.getLast?_eq_some_getLast (List.cons_ne_nil _ _), Option.orElse_some]

/-- What a one-line declaration that read left of its body costs one fault, and reading goes on
at the next declaration. -/
theorem gather_leftover {eof : Pos} {prev : Option Token} {t u : Token}
    {us vs rest : List Token} {g : Gathered} (hlaid : Laid prev t (us ++ u :: vs) rest.head?)
    (hnext : ∀ n ∈ rest.head?, n.IsTopLevel ∧ n.OpensLine (t :: (us ++ u :: vs)).getLast?)
    (hone : t.blockEnd = none) (hu : ¬u.IsTopLevel) (prev' : Option Token) (σ : Array Event) :
    ∃ m p, (gather eof prev' (u :: (vs ++ rest)) g).run σ =
      (gather eof (t :: (us ++ u :: vs)).getLast? rest
        { g with faults := g.faults.push (faultAt m p) }).run (σ.push (.skipping u.pos.line)) := by
  have hres := resumeAfter_leftover hlaid hnext hone hu prev'
  have hlt : rest.length < (u :: (vs ++ rest)).length := by
    simp only [List.length_cons, List.length_append]
    omega
  have hlast : lastRead prev' (u :: (vs ++ rest)) rest = (t :: (us ++ u :: vs)).getLast? := by
    rw [show u :: (vs ++ rest) = (u :: vs) ++ rest by simp, lastRead_append,
      List.getLast?_eq_some_getLast (List.cons_ne_nil _ _), Option.orElse_some,
      List.getLast?_eq_some_getLast (List.cons_ne_nil _ _)]
    simp [List.getLast_append_of_ne_nil]
  have h : (gather eof prev' (u :: (vs ++ rest)) g).run σ = _ :=
    gather_cons_abort (readDeclaration_not_topLevel hu eof _ g) (by rw [hres]; exact hlt) σ
  rw [hres, hlast] at h
  exact ⟨_, _, h⟩

/-- Adding the reading of a declaration sets the version exactly when the declaration sets
it. -/
theorem Gathered.version_add_isSome (g : Gathered) {t : Token} {us : List Token}
    {x : Declaration} (hd : Decl (t :: us)) (hx : (∃ v, x = .version v) ↔ t.isKeyword "VERSION")
    (vs : List Token) :
    (g.add x).version.isSome = (g.version.isSome || setsVersion (t :: (us ++ vs))) := by
  by_cases hv : t.isKeyword "VERSION"
  · obtain ⟨v, rfl⟩ := hx.mpr hv
    simp [Gathered.add, hd.setsVersion hv vs]
  · rw [Gathered.version_add_of_ne fun v hxv => hv (hx.mp ⟨v, hxv⟩),
      setsVersion_cons_of_not hv, Bool.or_false]

/-- The gathering `g'` is `g` after the declaration `d`: the version is set when `d` sets it,
and `d` added one fault when it is broken and none otherwise. -/
structure Gathered.After (d : List Token) (g g' : Gathered) : Prop where
  version : g'.version.isSome = (g.version.isSome || setsVersion d)
  faults : (Broken g.version.isSome d ∧ ∃ m p, g'.faults = g.faults.push (faultAt m p)) ∨
    (¬Broken g.version.isSome d ∧ g'.faults = g.faults)

/-- A second version costs one fault and leaves the version as it was. -/
theorem Gathered.after_repeated {g : Gathered} {t : Token} {body : List Token}
    (hv : t.isKeyword "VERSION") (hs : g.version.isSome) (m : String) (p : Pos) :
    g.After (t :: body) { g with faults := g.faults.push (faultAt m p) } :=
  ⟨by simp [hs], .inl ⟨.inr ⟨hs, by simp [IsVersion, hv]⟩, m, p, rfl⟩⟩

/-- A declaration laid out in a script is gathered on its own: reading goes on at the next
declaration, having set the version when the declaration sets it and added one fault when it
is broken, or stops with a decimal signal. -/
theorem gather_declaration {eof : Pos} {prev : Option Token} {t : Token} {body rest : List Token}
    (hlaid : Laid prev t body rest.head?)
    (hnext : ∀ n ∈ rest.head?, n.IsTopLevel ∧ n.OpensLine (t :: body).getLast?)
    (g : Gathered) (σ : Array Event) :
    (∃ s σ', (gather eof prev (t :: (body ++ rest)) g).run σ = (.error (.signal s), σ')) ∨
      ∃ g' σ', (gather eof prev (t :: (body ++ rest)) g).run σ =
        (gather eof (t :: body).getLast? rest g').run σ' ∧ g.After (t :: body) g' := by
  have htop := hlaid.head
  have hleads : Leads topLevel rest := fun n hn => (hnext n hn).1
  have hwithin : Leaves (StopsWithin body rest) ((Read.declaration t).run eof (body ++ rest)) :=
    Read.declaration_within hlaid fun n hn => (hnext n hn).1
  cases hrun : (Read.declaration t).run eof (body ++ rest) with
  | error e =>
    cases e with
    | signal s => exact .inl ⟨s, σ, gather_cons_signal (readDeclaration_error htop hrun) σ⟩
    | abort a =>
      -- the reader stopped within the declaration, which therefore does not read
      obtain ⟨vs, ⟨us, rfl⟩, hleft⟩ := hwithin.error hrun
      have hbroken : ¬Decl (t :: (us ++ vs)) := fun hd =>
        (Read.declaration_settles hd hleads).ne_abort a hrun
      refine .inr ⟨_, _, gather_abort_within hlaid hnext (readDeclaration_error htop hrun) hleft σ,
        ?_⟩
      exact ⟨by simp [setsVersion_eq_false_of_abort hrun], .inl ⟨.inl hbroken, _, _, rfl⟩⟩
  | ok d =>
    obtain ⟨vs, ⟨us, rfl⟩, hleft⟩ := hwithin.ok_rest hrun
    obtain ⟨us', hus', hdecl, hiff⟩ := Read.declaration_consumed htop.kind_contains hrun
    obtain rfl : us = us' := by
      rw [hleft, List.append_assoc] at hus'
      exact (List.append_cancel_right hus').symm
    by_cases hrep : t.isKeyword "VERSION" ∧ g.version.isSome
    · -- a second version breaks once it is read, whatever it left
      exact .inr ⟨_, _, gather_abort_within hlaid hnext
        (readDeclaration_repeated htop hrun hrep.1 hrep.2) hleft σ,
        Gathered.after_repeated hrep.1 hrep.2 _ _⟩
    have hok := readDeclaration_ok (g := g) htop hrun hrep
    rcases vs with _ | ⟨u, vs⟩
    · -- the reader took the whole declaration
      refine .inr ⟨g.add d.value, σ, ?_, g.version_add_isSome hdecl hiff [],
        .inr ⟨?_, Gathered.faults_add g d.value⟩⟩
      · rw [gather_cons_ok hok σ, hleft, List.nil_append,
          show t :: (us ++ [] ++ rest) = (t :: (us ++ [])) ++ rest by simp, lastRead_append,
          List.getLast?_eq_some_getLast (List.cons_ne_nil _ _), Option.orElse_some]
      · rintro (h | ⟨hs, hv⟩)
        · exact h (by simpa using hdecl)
        · exact hrep ⟨by simpa [IsVersion] using hv, hs⟩
    -- the reader left a suffix of the declaration unread
    have hbroken : ¬Decl (t :: (us ++ u :: vs)) := fun hd => by
      have := congrArg List.length ((Read.declaration_settles hd hleads).rest_eq hrun ▸ hleft)
      simp only [List.length_append, List.length_cons] at this
      omega
    have hone := hlaid.oneLine_of_read hdecl
    have hstep : (gather eof prev (t :: (us ++ u :: vs ++ rest)) g).run σ = _ :=
      gather_cons_ok hok σ
    rw [hleft, List.cons_append] at hstep
    obtain ⟨m, p, hleftover⟩ := gather_leftover hlaid hnext hone (hlaid.leftover hdecl hone)
      (lastRead prev (t :: (us ++ u :: vs ++ rest)) (u :: (vs ++ rest))) (g := g.add d.value) σ
    refine .inr ⟨_, _, hstep.trans hleftover, g.version_add_isSome hdecl hiff (u :: vs),
      .inl ⟨.inl hbroken, m, p, ?_⟩⟩
    rw [Gathered.faults_add]

/-! ### Every declaration -/

/-- Gathering declarations laid out in a script adds to the faults the diagnostics that
`Reported` gives them, or stops with a decimal signal. -/
theorem gather_reports {eof : Pos} {prev : Option Token} {ds : List (List Token)}
    (hlayout : Layout prev ds) (g : Gathered) (σ : Array Event) :
    (∃ s σ', (gather eof prev ds.flatten g).run σ = (.error (.signal s), σ')) ∨
      ∃ g' σ' fs, (gather eof prev ds.flatten g).run σ = (.ok g', σ') ∧
        Reported g.version.isSome ds fs ∧ g'.faults.toList = g.faults.toList ++ fs.flatten := by
  -- one declaration at a time, each from the state the one before it left
  induction hlayout generalizing g σ with
  | nil prev =>
    refine .inr ⟨g, σ, [], ?_, .nil _, by simp⟩
    rw [List.flatten_nil, gather]
    rfl
  | cons hlaid hrest ih =>
    rename_i prev t body ds
    rw [List.flatten_cons, List.cons_append]
    rcases gather_declaration hlaid hrest.next g σ with ⟨s, σ', h⟩ | ⟨g₁, σ₁, h, hafter⟩
    · exact .inl ⟨s, σ', h⟩
    rw [h]
    rcases ih g₁ σ₁ with ⟨s, σ', h'⟩ | ⟨g', σ', fs, h', hrep, hfaults⟩
    · exact .inl ⟨s, σ', h'⟩
    rw [hafter.version] at hrep
    rcases hafter.faults with ⟨hb, m, p, hf⟩ | ⟨hb, hf⟩
    · unfold faultAt at hf
      refine .inr ⟨g', σ', _, h',
        .broken (m ++ " (column " ++ toString p.column ++ ")") p.line hb hrep, ?_⟩
      rw [hfaults, hf, Array.toList_push]
      simp
    · refine .inr ⟨g', σ', _, h', .whole hb hrep, ?_⟩
      rw [hfaults, hf]
      simp

/-- The diagnostics `Reported` gives are syntax diagnostics. -/
theorem Grammar.Reported.stage {seen : Bool} {ds : List (List Token)}
    {fs : List (List Diagnostic)} (h : Reported seen ds fs) :
    ∀ x ∈ fs.flatten, x.stage = .reading := by
  induction h with
  | nil => simp
  | broken m line _ _ ih =>
    intro x hx
    simp only [List.flatten_cons, List.singleton_append, List.mem_cons] at hx
    rcases hx with rfl | hx
    · rfl
    · exact ih x hx
  | whole _ _ ih => simpa using ih

/-- No token of a text laid out as a script is a word that reading would be stuck at, since no
token but a keyword has the text of a block keyword. -/
theorem Grammar.Layout.plain {prev : Option Token} {ds : List (List Token)}
    (h : Layout prev ds) :
    ∀ u ∈ ds.flatten, u.kind ≠ .keyword → u.value ∉ ["INPUT", "FEE", "ENDINPUT", "ENDFEE"] := by
  induction h with
  | nil => simp
  | cons hlaid _ ih =>
    intro u hu
    rcases List.mem_append.mp (List.flatten_cons ▸ hu) with hu | hu
    · exact hlaid.plain u hu
    · exact ih u hu

/-- Reading a text laid out as a script ends: it gives a result, or the signal of a number
token that does not read. No token of the text is stuck after the one before it
(`Grammar.Layout.plain`), and reading stops at no other. -/
theorem Schedule.parse_ends_of_layout {text : List CodePoint} {ds : List (List Token)}
    (hds : (tokenize text).tokens = ds.flatten) (hlayout : Layout none ds) :
    (∃ r, (Schedule.parse text).run'.1 = .ok r) ∨
      ∃ s, (Schedule.parse text).run'.1 = .error (.signal s) ∧
        ∃ t ∈ (tokenize text).tokens, t.Unreadable s := by
  cases h : (Schedule.parse text).run'.1 with
  | ok r => exact .inl ⟨r, rfl⟩
  | error e =>
    have hfrom := Schedule.parse_halts h
    cases e with
    | signal s => exact .inr ⟨s, rfl, hfrom⟩
    | loops p =>
      -- the stuck token would be a string with the text of a block keyword
      obtain ⟨u, t, hut, -, hkind, hval⟩ := hfrom
      have ht : t ∈ ds.flatten := hds ▸ hut.subset (by simp)
      exact absurd (by rcases hval with ⟨hv, -⟩ | ⟨hv, -⟩ <;> simp [hv])
        (hlayout.plain t ht hkind)

/-- Checking a schedule gives no syntax diagnostic. -/
theorem Schedule.check_reading (s : Schedule) : s.check.filter (·.stage == .reading) = [] := by
  simp [Schedule.check, List.filter_append, List.filter_map, List.filter_flatMap,
    Function.comp_def, Diagnostic.ofFault]

/-- Reading a text whose declarations are laid out as a script lays them out reports one syntax
diagnostic for each declaration that does not read on its own and none for the others, in any
number and order; or it stops with the signal of a number token that does not read. -/
theorem parse_reports_broken_declarations {text : List CodePoint} {ds : List (List Token)}
    (hlex : (tokenize text).errors = []) (hds : (tokenize text).tokens = ds.flatten)
    (hlayout : Layout none ds) :
    (∃ r, (Schedule.parse text).run'.1 = .ok r ∧ ∃ fs, Reported false ds fs ∧
      (r.diagnostics.filter (·.stage == .reading)).Perm fs.flatten) ∨
    ∃ s, (Schedule.parse text).run'.1 = .error (.signal s) ∧
      ∃ t ∈ (tokenize text).tokens, t.Unreadable s := by
  rcases Schedule.parse_ends_of_layout hds hlayout with ⟨r, hr⟩ | hs
  · refine .inl ⟨r, hr, ?_⟩
    unfold Schedule.parse Traced.run' at hr
    rw [Traced.run_bind] at hr
    rcases hg : (gather (tokenize text).finish none (tokenize text).tokens {}).run #[] with
      ⟨res, σ⟩
    rw [hg] at hr
    rw [hds] at hg
    rcases @gather_reports (tokenize text).finish none ds hlayout {} #[] with
      ⟨s, σ', h⟩ | ⟨g, σ', fs, h, hrep, hfaults⟩
    · rw [hg] at h
      obtain ⟨rfl, -⟩ := Prod.mk.inj h
      cases hr
    rw [hg] at h
    obtain ⟨rfl, -⟩ := Prod.mk.inj h
    refine ⟨fs, hrep, ?_⟩
    have hall : ∀ x ∈ g.faults.toList, x.stage = .reading := by
      rw [hfaults]
      exact hrep.stage
    dsimp only at hr
    simp only [hlex, List.map_nil, List.nil_append] at hr
    split at hr
    · -- no declaration broke: the diagnostics are those of the check
      rename_i hempty
      rw [Traced.run_note, Traced.run_pure, Except.ok.injEq] at hr
      subst hr
      rw [List.isEmpty_iff, hfaults] at hempty
      simp only [List.nil_append] at hempty
      rw [Schedule.check_reading, hempty]
    · -- the faults are all syntax diagnostics, sorted by line
      rw [Traced.run_note, Traced.run_pure, Except.ok.injEq] at hr
      subst hr
      dsimp only [byLine]
      rw [List.filter_eq_self.mpr fun x hx => by
        simp [hall x ((List.mergeSort_perm _ _).mem_iff.mp hx)]]
      refine (List.mergeSort_perm _ _).trans ?_
      rw [hfaults]
      simp
  · exact .inr hs

/-- A version, a group without its `AS`, and a fee, one on each line. -/
def brokenGroupScript : List CodePoint :=
  CodePoint.ofString "VERSION '1'\nGROUP g 's'\nFEE f YIELD 1 ENDFEE"

/-- The declarations of `brokenGroupScript`. -/
def brokenGroupDeclarations : List (List Token) :=
  let ts := (tokenize brokenGroupScript).tokens
  [ts.take 2, (ts.drop 2).take 3, ts.drop 5]

theorem broken_group_reported :
    (tokenize brokenGroupScript).errors = [] ∧
      (tokenize brokenGroupScript).tokens = brokenGroupDeclarations.flatten ∧
      Layout none brokenGroupDeclarations ∧
      ((∃ r, (Schedule.parse brokenGroupScript).run'.1 = .ok r ∧
          ∃ fs, Reported false brokenGroupDeclarations fs ∧
            (r.diagnostics.filter (·.stage == .reading)).Perm fs.flatten) ∨
        ∃ s, (Schedule.parse brokenGroupScript).run'.1 = .error (.signal s) ∧
          ∃ t ∈ (tokenize brokenGroupScript).tokens, t.Unreadable s) := by
  have hlex : (tokenize brokenGroupScript).errors = [] := by decide +kernel
  have hds : (tokenize brokenGroupScript).tokens = brokenGroupDeclarations.flatten := by
    decide +kernel
  have hlayout : Layout none brokenGroupDeclarations := by decide +kernel
  exact ⟨hlex, hds, hlayout, parse_reports_broken_declarations hlex hds hlayout⟩

example :
    ((Schedule.parse (CodePoint.ofString "VERSION '1'\nGROUP g 's'\nFEE f YIELD 1 ENDFEE")).run'.1
      |>.toOption.map fun r => (r.diagnostics.filter (·.stage == .reading)).length) = some 1 := by
  decide +kernel

/-- A `VERIFY` that ends right after `COMPLETE` reads the `FEE` that opens the next line as its
own: each of the two declarations breaks on its own with one syntax diagnostic, and the text of
both gets one. -/
theorem verify_complete_takes_next_fee :
    ((Schedule.parse (CodePoint.ofString "VERIFY COMPLETE")).run'.1.toOption.map
        fun r => (r.diagnostics.filter (·.stage == .reading)).length) = some 1 ∧
      ((Schedule.parse (CodePoint.ofString "FEE f YIELD * ENDFEE")).run'.1.toOption.map
        fun r => (r.diagnostics.filter (·.stage == .reading)).length) = some 1 ∧
      ((Schedule.parse (CodePoint.ofString "VERIFY COMPLETE\nFEE f YIELD * ENDFEE")).run'.1
        |>.toOption.map fun r => (r.diagnostics.filter (·.stage == .reading)).length) = some 1 := by
  decide +kernel

end FeeSchedule
