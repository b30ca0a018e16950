import FilterShell.Text.Digit

/-!
# Decimal numbers

A number is a sign, a coefficient and a power of ten, so that `1.0` and `1.00` are two numbers
of one value; beside these there are two infinities and the not-a-numbers, quiet or signaling,
with a payload.

The text form is scientific: digits with a point, and an exponent when the exponent of the last
digit is positive or the number has more than five zeros after the point.  Reading also accepts white
space around the number, underscores anywhere, digits of any script, letters of either case.
-/

namespace FilterShell

inductive Decimal where
  /-- `coefficient * 10 ^ exponent` with a sign, also on zero. -/
  | finite (negative : Bool) (coefficient : Nat) (exponent : Int)
  | infinite (negative : Bool)
  /-- Not a number; `payload` is extra information, zero if there is none. -/
  | nan (negative signaling : Bool) (payload : Nat)
deriving DecidableEq

namespace Decimal

/-- The integer `n`. -/
def ofNat (n : Nat) : Decimal := .finite false n 0

/-- The integer `n`. -/
def ofInt (n : Int) : Decimal := .finite (n < 0) n.natAbs 0

instance : Inhabited Decimal := ⟨ofNat 0⟩

/-- The number of digits of a coefficient; zero has one. -/
def digits (n : Nat) : Nat := (Nat.toDigits 10 n).length

/-- The number is no number. -/
def isNaN : Decimal → Bool
  | .nan .. => true
  | _       => false

/-- The number is a not-a-number that may not even be compared. -/
def isSignaling : Decimal → Bool
  | .nan _ s _ => s
  | _          => false

/-! ### Writing -/

/-- The sign in front of a number. -/
def signText (negative : Bool) : Text := if negative then "-" else ""

/-- A finite number without its sign. -/
def finiteText (coefficient : Nat) (exponent : Int) : Text :=
  let int := Text.ofNat coefficient
  let len : Int := int.length
  let left := exponent + len
  let point := if exponent ≤ 0 && left > -6 then left else 1
  let shown : Text :=
    if point ≤ 0 then
      Text.ofString "0." ++ Text.repeated (-point).toNat (Text.ofString "0") ++ int
    else if point ≥ len then
      int ++ Text.repeated (point - len).toNat (Text.ofString "0")
    else int.take point.toNat ++ Text.ofString "." ++ int.drop point.toNat
  let power : Text :=
    if left = point then []
    else if left - point ≥ 0 then Text.ofString "E+" ++ Text.ofInt (left - point)
    else Text.ofString "E" ++ Text.ofInt (left - point)
  shown ++ power

/-- The text form of a number. -/
def text : Decimal → Text
  | .finite negative coefficient exponent => signText negative ++ finiteText coefficient exponent
  | .infinite negative                    => signText negative ++ Text.ofString "Infinity"
  | .nan negative signaling payload       =>
    signText negative ++ Text.ofString (if signaling then "sNaN" else "NaN")
      ++ (if payload = 0 then [] else Text.ofNat payload)

/-! ### Reading -/

/-- The characters that the reader looks at: no white space at the ends, no underscores, small
letters, and digits of any script as ASCII digits. -/
def folded (t : Text) : Text :=
  ((t.trim Rune.isSpace).filter (· ≠ Rune.ofChar '_')).map fun r =>
    match r.decimal? with
    | some d => Rune.ofChar (Nat.digitChar d)
    | none   => match r.toChar? with
      | some c => Rune.ofChar c.toLower
      | none   => r

/-- The number that a list of ASCII digits writes. -/
def natOf (t : Text) : Nat := t.foldl (fun n r => n * 10 + (r.code - 48)) 0

/-- An optional sign at the start, and the rest. -/
def splitSign : Text → Bool × Text
  | []     => (false, [])
  | r :: t =>
    if r = Rune.ofChar '-' then (true, t)
    else if r = Rune.ofChar '+' then (false, t)
    else (false, r :: t)

/-- The exponent part `e12`, `e+12` or `e-12`; nothing stands for zero. -/
def readExponent? : Text → Option Int
  | []     => some 0
  | r :: t =>
    if r = Rune.ofChar 'e' then
      let (negative, ds) := splitSign t
      if ds.isEmpty || !ds.all Rune.isDigit then none
      else some (if negative then -(natOf ds : Int) else natOf ds)
    else none

/-- A finite number, unless its exponent is beyond the limits of exact numbers. -/
def bounded? (negative : Bool) (coefficient : Nat) (exponent : Int) : Option Decimal :=
  if exponent + digits coefficient - 1 > 999999999999999999 then none
  else if exponent < -1999999999999999997 then none
  else some (.finite negative coefficient exponent)

/-- Digits with an optional point and exponent. -/
def readFinite? (negative : Bool) (t : Text) : Option Decimal := do
  let int := t.takeWhile Rune.isDigit
  let rest := t.dropWhile Rune.isDigit
  let (frac, rest) := match rest with
    | r :: rest' =>
      if r = Rune.ofChar '.' then (rest'.takeWhile Rune.isDigit, rest'.dropWhile Rune.isDigit)
      else ([], rest)
    | [] => ([], [])
  if int.isEmpty && frac.isEmpty then none
  let power ← readExponent? rest
  bounded? negative (natOf (int ++ frac)) (power - frac.length)

/-- The payload of a not-a-number. -/
def readPayload? (negative signaling : Bool) (t : Text) : Option Decimal :=
  if t.all Rune.isDigit then some (.nan negative signaling (natOf t)) else none

/-- The number that `t` writes. -/
def read? (t : Text) : Option Decimal :=
  let (negative, body) := splitSign (folded t)
  if body = Text.ofString "inf" || body = Text.ofString "infinity" then
    some (.infinite negative)
  else match body.dropStart? "nan" with
    | some payload => readPayload? negative false payload
    | none         => match body.dropStart? "snan" with
      | some payload => readPayload? negative true payload
      | none         => readFinite? negative body

end Decimal

end FilterShell
