import FeeSchedule.Unicode.Range

/-!
# `FeeSchedule.Unicode.Blank`: white space

The characters that separate tokens of a schedule and that surround a number or a date in
ingested text: Unicode's `White_Space` characters together with the information separators
U+001C to U+001F, which the bidirectional class `B`/`S` puts among the separators. The
table has ten ranges; tab, line feed, vertical tab, form feed and carriage return are the
first of them.
-/

namespace FeeSchedule.Unicode

/-- Ranges of the white-space class. -/
def blankTable : RangeTable := #[
  (0x9, 0xD), (0x1C, 0x20), (0x85, 0x85), (0xA0, 0xA0), (0x1680, 0x1680),
  (0x2000, 0x200A), (0x2028, 0x2029), (0x202F, 0x202F), (0x205F, 0x205F), (0x3000, 0x3000)]

/-- Whether `c` is white space: tab to carriage return, the information separators, space,
next line, no-break space and the Unicode space separators. -/
def isBlank (c : Char) : Bool := blankTable.contains c.toNat

/-- A text without the white space at its ends. -/
def strip (s : String) : String :=
  String.ofList ((s.toList.dropWhile isBlank).reverse.dropWhile isBlank).reverse

end FeeSchedule.Unicode
