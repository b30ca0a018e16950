import FilterShell.Text.Basic

/-!
# UTF-8

The octets of a text, and the text that a list of octets encodes.  Only shortest forms of characters count: no overlong
form, no surrogate, nothing above `0x10FFFF`.
-/

namespace FilterShell.Text

/-- The octets of a character. -/
def runeOctets (r : Rune) : List Nat :=
  let n := r.code
  if n < 0x80 then [n]
  else if n < 0x800 then [0xC0 + n / 64, 0x80 + n % 64]
  else if n < 0x10000 then [0xE0 + n / 4096, 0x80 + n / 64 % 64, 0x80 + n % 64]
  else [0xF0 + n / 262144, 0x80 + n / 4096 % 64, 0x80 + n / 64 % 64, 0x80 + n % 64]

/-- The octets of a text. -/
def toUtf8 (t : Text) : List Nat := (t.map runeOctets).flatten

/-- A continuation octet. -/
def isTail (b : Nat) : Bool := 0x80 ≤ b && b ≤ 0xBF

/-- The text that the octets encode, if they encode one. -/
def ofUtf8? : List Nat → Option Text
  | []        => some []
  | a :: rest =>
    if a ≤ 0x7F then return (← Rune.ofNat? a) :: (← ofUtf8? rest)
    else match rest with
      | b :: rest =>
        if 0xC2 ≤ a && a ≤ 0xDF && isTail b then
          return (← Rune.ofNat? ((a - 0xC0) * 64 + (b - 0x80))) :: (← ofUtf8? rest)
        else match rest with
          | c :: rest =>
            if 0xE0 ≤ a && a ≤ 0xEF && isTail b && isTail c
                && (a != 0xE0 || 0xA0 ≤ b) && (a != 0xED || b ≤ 0x9F) then
              return (← Rune.ofNat? ((a - 0xE0) * 4096 + (b - 0x80) * 64 + (c - 0x80)))
                :: (← ofUtf8? rest)
            else match rest with
              | d :: rest =>
                if 0xF0 ≤ a && a ≤ 0xF4 && isTail b && isTail c && isTail d
                    && (a != 0xF0 || 0x90 ≤ b) && (a != 0xF4 || b ≤ 0x8F) then
                  return (← Rune.ofNat?
                      ((a - 0xF0) * 262144 + (b - 0x80) * 4096 + (c - 0x80) * 64 + (d - 0x80)))
                    :: (← ofUtf8? rest)
                else none
              | [] => none
          | [] => none
      | [] => none

end FilterShell.Text
