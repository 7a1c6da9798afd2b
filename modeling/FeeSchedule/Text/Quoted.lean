import FeeSchedule.Unicode.Printable
import FeeSchedule.Unicode.CodePoint

/-!
# `FeeSchedule.Text.Quoted`: text between quotes in messages

Messages show a piece of text between quotes, so that blanks, quotes and control
characters inside it stay visible. The rules:

* the text is put between apostrophes, unless it holds an apostrophe and no double quote,
  in which case it is put between double quotes;
* a backslash is doubled, and the chosen quote is escaped by a backslash;
* tab, line feed and carriage return are written `\t`, `\n` and `\r`;
* any other character that is not printable is written as a hexadecimal escape of its
  code point: `\x` and two digits up to `ff`, `\u` and four digits up to `ffff`, and `\U`
  and eight digits beyond, all in lower case. A surrogate standing alone is not printable,
  so it is written `\ud800`.

Printable characters, the letters of every script among them, stand for themselves.
-/

namespace FeeSchedule.Text

/-- The lower-case hexadecimal digits of `n`, padded with zeros to `width` digits. -/
def hexDigits (width : Nat) (n : Nat) : List Char :=
  let ds := Nat.toDigits 16 n
  List.replicate (width - ds.length) '0' ++ ds

/-- How one character is written inside quotes delimited by `q`. -/
def escapeChar (q : Char) (c : Char) : List Char :=
  if c = '\\' then ['\\', '\\']
  else if c = q then ['\\', c]
  else if c = '\t' then ['\\', 't']
  else if c = '\n' then ['\\', 'n']
  else if c = '\r' then ['\\', 'r']
  else if c.toNat < 0x20 ∨ c.toNat = 0x7f then '\\' :: 'x' :: hexDigits 2 c.toNat
  else if c.toNat < 0x7f then [c]
  else if Unicode.isPrintable c then [c]
  else if c.toNat ≤ 0xff then '\\' :: 'x' :: hexDigits 2 c.toNat
  else if c.toNat ≤ 0xffff then '\\' :: 'u' :: hexDigits 4 c.toNat
  else '\\' :: 'U' :: hexDigits 8 c.toNat

/-- How one code point is written inside quotes delimited by `q`. -/
def escapePoint (q : Char) : CodePoint → List Char
  | .char c => escapeChar q c
  | .surrogate k => '\\' :: 'u' :: hexDigits 4 (0xD800 + k.val)

/-- The quote that delimits `s`: a double quote when `s` holds an apostrophe and no double
quote, an apostrophe otherwise. -/
def quoteFor (s : List CodePoint) : Char :=
  if s.contains (.char '\'') && !s.contains (.char '"') then '"' else '\''

/-- The text `s` between quotes, with the escapes described above. -/
def quotedPoints (s : List CodePoint) : String :=
  let q := quoteFor s
  String.ofList (q :: s.flatMap (escapePoint q) ++ [q])

/-- The string `s` between quotes, with the escapes described above. -/
def quoted (s : String) : String := quotedPoints (CodePoint.ofString s)

end FeeSchedule.Text
