import FeeSchedule.Unicode.Letter
import FeeSchedule.Unicode.Numeric
import FeeSchedule.Unicode.Digit
import FeeSchedule.Unicode.Blank

/-!
# `FeeSchedule.Cli.Wrap`: filling text into lines

Help texts are filled into lines of a given width. The text is first cut into chunks: runs
of white space, words, and the pieces of a hyphenated word. A word breaks after a hyphen
that follows two letters (or a letter, a hyphen and a letter) and comes before a letter,
possibly after one more hyphen: `per-case` gives `per-` and `case`. A run of two or more
hyphens between a word character and a word character is a chunk of its own. Here a letter
is a word character that is not a decimal digit.

Lines are filled greedily: chunks are added while they fit, white space at the start of a
line after the first and at the end of every line is dropped, and a chunk longer than a
whole line is cut, after its last hyphen within the line when there is one.
-/

namespace FeeSchedule.Cli

/-- A word character: a letter, a character with a numeric value, or an underscore. -/
def isWordChar (c : Char) : Bool := Unicode.isLetter c || Unicode.isNumeric c || c == '_'

/-- A letter for hyphenation: a word character that is not a decimal digit. -/
def isHyphenLetter (c : Char) : Bool := isWordChar c && (Unicode.decimalValue? c).isNone

/-- A character that may stand before a run of hyphens that splits two words. -/
def isWordPunct (c : Char) : Bool := isWordChar c || "!\"'&.,?".toList.contains c

/-- Whether a word may break after the hyphen that follows `before` (reversed: nearest
first) and precedes `after`. -/
def breaksAfterHyphen (before after : List Char) : Bool :=
  let behind := match before with
    | a :: b :: rest =>
      (isHyphenLetter a && isHyphenLetter b)
        || (isHyphenLetter a && b == '-' && match rest with
          | c :: _ => isHyphenLetter c
          | [] => false)
    | _ => false
  let ahead := match after with
    | a :: '-' :: b :: _ => isHyphenLetter a && isHyphenLetter b
    | a :: b :: _ => isHyphenLetter a && isHyphenLetter b
    | _ => false
  behind && ahead

/-- Whether `cs` starts with a run of two or more hyphens followed by a word character. -/
def startsDashRun (cs : List Char) : Bool :=
  let rest := cs.dropWhile (· == '-')
  cs.length - rest.length ≥ 2 && match rest with
    | c :: _ => isWordChar c
    | [] => false

/-- The chunks of a word (no white space in it). `acc` is the current chunk so far and
`seen` the whole word so far, both reversed; `dashes` says whether the chunk is a run of
hyphens that makes a chunk of its own. -/
def wordChunks (dashes : Bool) (acc seen : List Char) : List Char → List String
  | [] => if acc.isEmpty then [] else [String.ofList acc.reverse]
  | c :: cs =>
    if dashes then
      if c == '-' then wordChunks true (c :: acc) (c :: seen) cs
      else String.ofList acc.reverse :: wordChunks false [c] (c :: seen) cs
    else if !acc.isEmpty && c == '-' && breaksAfterHyphen seen cs then
      String.ofList (c :: acc).reverse :: wordChunks false [] (c :: seen) cs
    else if !acc.isEmpty && (acc.head?.map isWordPunct).getD false && startsDashRun (c :: cs) then
      String.ofList acc.reverse :: wordChunks true [c] (c :: seen) cs
    else wordChunks false (c :: acc) (c :: seen) cs

/-- The chunks of a text whose white space is single spaces: words cut by `wordChunks`,
with a space chunk between two words. -/
def chunks (text : String) : List String :=
  (text.splitOn " ").foldl (fun acc w =>
    let cs := wordChunks false [] [] w.toList
    if acc.isEmpty then cs else acc ++ " " :: cs) []

/-- Cuts a chunk longer than the room left on a line: after its last hyphen within the room
when something other than hyphens stands before it, otherwise at the room. -/
def cutLong (chunk : String) (room : Nat) : String × String :=
  let cs := chunk.toList
  let within := cs.take room
  let hyphen := (within.zipIdx.filter (·.1 == '-')).getLast?.map (·.2)
  let cut := match hyphen with
    | some h => if h > 0 && (cs.take h).any (· != '-') then h + 1 else room
    | none => room
  (String.ofList (cs.take cut), String.ofList (cs.drop cut))

/-- Fills chunks into lines of at most `width` characters, as described in the module
header. `fuel` bounds the number of lines. -/
def fillChunks (width : Nat) : Nat → List String → List String → List String
  | 0, _, lines => lines
  | _, [], lines => lines
  | fuel + 1, cs, lines =>
    let cs := match cs with
      | " " :: rest => if lines.isEmpty then cs else rest
      | _ => cs
    let rec take (len : Nat) (line : List String) : List String → List String × Nat × List String
      | [] => (line, len, [])
      | c :: rest =>
        if len + c.length ≤ width then take (len + c.length) (line ++ [c]) rest
        else (line, len, c :: rest)
    let (line, len, rest) := take 0 [] cs
    let (line, rest) := match rest with
      | c :: more =>
        if c.length > width then
          let (head, tail) := cutLong c (if width = 0 then 1 else width - len)
          (line ++ [head], if tail.isEmpty then more else tail :: more)
        else (line, rest)
      | [] => (line, rest)
    let line := match line.getLast? with
      | some " " => line.dropLast
      | _ => line
    let lines := if line.isEmpty then lines else lines ++ [String.join line]
    fillChunks width fuel rest lines

/-- A text filled into lines of at most `width` characters: white space runs become single
spaces, the ends are trimmed, and the chunks are filled greedily. -/
def wrap (width : Nat) (text : String) : List String :=
  let words := text.toList.foldr (fun c (acc : List (List Char)) =>
    if Unicode.isBlank c then [] :: acc
    else match acc with
      | w :: ws => (c :: w) :: ws
      | [] => [[c]]) [[]]
  let words := (words.filter (!·.isEmpty)).map String.ofList
  let cs := chunks (" ".intercalate words)
  fillChunks width (cs.foldl (fun n c => n + c.length + 1) 1) cs []

end FeeSchedule.Cli
