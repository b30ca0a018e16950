import FilterShell.Text.Blank

/-!
# Digits and integers

Decimal digits come in many scripts; each script's ten digits are consecutive code points, so
the table holds the zeros only.  `Text.readInt?` reads an integer: white space around it, a sign,
in base sixteen also the mark `0x`, and digits of any script with single underscores between
them.
-/

namespace FilterShell

namespace Rune

/-- The zero of each script that has decimal digits. -/
def zeros : List Nat :=
  [0x30, 0x660, 0x6F0, 0x7C0, 0x966, 0x9E6, 0xA66, 0xAE6, 0xB66, 0xBE6, 0xC66, 0xCE6, 0xD66,
   0xDE6, 0xE50, 0xED0, 0xF20, 0x1040, 0x1090, 0x17E0, 0x1810, 0x1946, 0x19D0, 0x1A80, 0x1A90,
   0x1B50, 0x1BB0, 0x1C40, 0x1C50, 0xA620, 0xA8D0, 0xA900, 0xA9D0, 0xA9F0, 0xAA50, 0xABF0,
   0xFF10, 0x104A0, 0x10D30, 0x11066, 0x110F0, 0x11136, 0x111D0, 0x112F0, 0x11450, 0x114D0,
   0x11650, 0x116C0, 0x11730, 0x118E0, 0x11950, 0x11C50, 0x11D50, 0x11DA0, 0x16A60, 0x16AC0,
   0x16B50, 0x1D7CE, 0x1D7D8, 0x1D7E2, 0x1D7EC, 0x1D7F6, 0x1E140, 0x1E2F0, 0x1E950, 0x1FBF0]

/-- The value of a decimal digit of any script. -/
def decimal? (r : Rune) : Option Nat :=
  (zeros.find? fun z => z ≤ r.code && r.code < z + 10).map (r.code - ·)

/-- The value of a digit in a base up to sixteen: a decimal digit or a letter `a`–`f`. -/
def digit? (base : Nat) (r : Rune) : Option Nat :=
  let value := match r.decimal? with
    | some d => some d
    | none   =>
      if 97 ≤ r.code && r.code ≤ 102 then some (r.code - 87)
      else if 65 ≤ r.code && r.code ≤ 70 then some (r.code - 55)
      else none
  value.filter (· < base)

end Rune

namespace Text

/-- Digits with single underscores between them, after the digits read so far: `value` is
theirs, and `afterDigit` says that the last character was a digit, so that an underscore or the end
may follow. -/
def readDigits? (base value : Nat) (afterDigit : Bool) : Text → Option Nat
  | []     => if afterDigit then some value else none
  | r :: t =>
    if r = Rune.ofChar '_' then
      if afterDigit then readDigits? base value false t else none
    else match r.digit? base with
      | some d => readDigits? base (value * base + d) true t
      | none   => none

/-- Removes the mark `0x` of base sixteen and one underscore after it. -/
def dropMark (base : Nat) (t : Text) : Text :=
  if base = 16 then
    match t with
    | z :: x :: rest =>
      if z.decimal? = some 0 && (x = Rune.ofChar 'x' || x = Rune.ofChar 'X') then
        match rest with
        | u :: rest' => if u = Rune.ofChar '_' then rest' else rest
        | []         => rest
      else t
    | _ => t
  else t

/-- The integer that `t` writes in the given base. -/
def readInt? (base : Nat) (t : Text) : Option Int :=
  match t.trim Rune.isMargin with
  | []     => none
  | r :: s =>
    if r = Rune.ofChar '-' then
      (readDigits? base 0 false (dropMark base s)).map fun n => -(n : Int)
    else if r = Rune.ofChar '+' then
      (readDigits? base 0 false (dropMark base s)).map fun n => (n : Int)
    else
      (readDigits? base 0 false (dropMark base (r :: s))).map fun n => (n : Int)

end Text

end FilterShell
