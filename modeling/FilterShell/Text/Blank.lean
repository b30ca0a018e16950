import FilterShell.Text.Basic

/-!
# Blank characters

The characters that count as white space when a number is read from text: the ASCII controls
that separate, and every Unicode space, line and paragraph separator.  An integer may not have the
four information separators around it (`Rune.isMargin`).  The language itself separates tokens by
fewer characters still (`Rune.isBlank`), all of which are here.
-/

namespace FilterShell.Rune

/-- White space in the wide sense. -/
def isSpace (r : Rune) : Bool :=
  (9 ≤ r.code && r.code ≤ 13) || (0x1C ≤ r.code && r.code ≤ 0x20) ||
  (0x2000 ≤ r.code && r.code ≤ 0x200A) ||
  [0x85, 0xA0, 0x1680, 0x2028, 0x2029, 0x202F, 0x205F, 0x3000].contains r.code

/-- White space that may stand around an integer. -/
def isMargin (r : Rune) : Bool := r.isSpace && !(0x1C ≤ r.code && r.code ≤ 0x1F)

end FilterShell.Rune

namespace FilterShell.Text

/-- `t` without the characters of a class at its ends. -/
def trim (p : Rune → Bool) (t : Text) : Text :=
  ((t.dropWhile p).reverse.dropWhile p).reverse

end FilterShell.Text
