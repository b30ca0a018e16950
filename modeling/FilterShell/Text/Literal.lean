import FilterShell.Text.Basic

/-!
# String literals

How the language writes a text: between double quotes, in ASCII.  Quote and backslash get a
backslash, five controls have letters, and everything else outside the printable ASCII range is
written by number, four places in base sixteen, as a pair of surrogates above `0x10000`.
-/

namespace FilterShell

namespace Rune

/-- One code point between the quotes. -/
def escaped (r : Rune) : Text :=
  if r = ofChar '\x08' then Text.ofString "\\b"
  else if r = ofChar '\t' then Text.ofString "\\t"
  else if r = ofChar '\n' then Text.ofString "\\n"
  else if r = ofChar '\x0c' then Text.ofString "\\f"
  else if r = ofChar '\r' then Text.ofString "\\r"
  else if r = ofChar '"' then Text.ofString "\\\""
  else if r = ofChar '\\' then Text.ofString "\\\\"
  else if r.code > 0x10000 then
    Text.ofString "\\u" ++ Text.hex 4 (0xD800 + (r.code - 0x10000) / 0x400)
      ++ Text.ofString "\\u" ++ Text.hex 4 (0xDC00 + (r.code - 0x10000) % 0x400)
  else if r.code < 0x20 || r.code ≥ 0x7F then Text.ofString "\\u" ++ Text.hex 4 r.code
  else [r]

end Rune

namespace Text

/-- The literal that writes `t`. -/
def literal (t : Text) : Text :=
  Rune.ofChar '"' :: t.flatMap Rune.escaped ++ [Rune.ofChar '"']

end Text

end FilterShell
