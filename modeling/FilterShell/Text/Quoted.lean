import FilterShell.Text.Printable

/-!
# Quoted text

How messages show a text: between single quotes, or between double quotes if the text holds a
single quote and no double one.  The quote in use and the backslash get a backslash, line feed,
carriage return and tab their letters, and an unprintable code point its number in two, four or
eight places.
-/

namespace FilterShell

namespace Rune

/-- One code point between quotes of the given kind. -/
def quoted (quote r : Rune) : Text :=
  if r = quote || r = ofChar '\\' then [ofChar '\\', r]
  else if r = ofChar '\n' then Text.ofString "\\n"
  else if r = ofChar '\r' then Text.ofString "\\r"
  else if r = ofChar '\t' then Text.ofString "\\t"
  else if r.isPrintable then [r]
  else if r.code < 0x100 then Text.ofString "\\x" ++ Text.hex 2 r.code
  else if r.code < 0x10000 then Text.ofString "\\u" ++ Text.hex 4 r.code
  else Text.ofString "\\U" ++ Text.hex 8 r.code

end Rune

namespace Text

/-- The quote that surrounds `t`. -/
def quoteFor (t : Text) : Rune :=
  if t.contains (Rune.ofChar '\'') && !t.contains (Rune.ofChar '"') then Rune.ofChar '"'
  else Rune.ofChar '\''

/-- `t` as messages show it. -/
def quoted (t : Text) : Text :=
  let quote := quoteFor t
  quote :: t.flatMap (Rune.quoted quote) ++ [quote]

end Text

end FilterShell
