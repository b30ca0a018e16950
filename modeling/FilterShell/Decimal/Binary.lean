import FilterShell.Decimal.Arithmetic

/-!
# Binary numbers

Data from outside may hold binary floating point numbers of double precision.  A finite one is
`mantissa * 2 ^ exponent`; its decimal value is exact.  This module reads such a number from text
(to the nearest one, a tie to the even mantissa), gives its exact decimal value, and writes the
fewest digits that read back as the same number.
-/

namespace FilterShell

inductive Binary where
  /-- `mantissa * 2 ^ exponent`; the mantissa has 53 bits unless the exponent is `-1074`. -/
  | finite (negative : Bool) (mantissa : Nat) (exponent : Int)
  | infinite (negative : Bool)
  | nan
deriving DecidableEq

namespace Binary

/-- The nearest number to a positive `n / d` whose mantissa has `bits` bits, exponents from `least`
up; a tie goes to the even mantissa. -/
def nearest (bits : Nat) (least : Int) (n d : Nat) : Nat × Int :=
  -- `2 ^ guess` is within a factor of two of `n / d`.
  let guess : Int := (Nat.log2 n : Int) - Nat.log2 d
  let scaled (q : Int) : Nat :=
    if q ≥ 0 then Decimal.roundDiv n (d * Nat.pow 2 q.toNat)
    else Decimal.roundDiv (n * Nat.pow 2 (-q).toNat) d
  let below : Bool :=
    -- whether `n / d < 2 ^ guess`
    if guess ≥ 0 then n < d * Nat.pow 2 guess.toNat else n * Nat.pow 2 (-guess).toNat < d
  let q := max (if below then guess - bits else guess - bits + 1) least
  let m := scaled q
  if m = Nat.pow 2 bits then (Nat.pow 2 (bits - 1), q + 1) else (m, q)

/-- The nearest number to `n / d`: 53 bits, exponents from `-1074` up. -/
def ofRatio (negative : Bool) (n d : Nat) : Binary :=
  if n = 0 then .finite negative 0 (-1074)
  else
    let (m, q) := nearest 53 (-1074) n d
    if q > 971 then .infinite negative else .finite negative m q

/-- The nearest number to a decimal one. -/
def ofDecimal : Decimal → Binary
  | .finite negative m e =>
    if m = 0 then .finite negative 0 (-1074)
    else if e + Decimal.digits m > 400 then .infinite negative
    else if e + Decimal.digits m < -400 then .finite negative 0 (-1074)
    else if e ≥ 0 then ofRatio negative (m * Nat.pow 10 e.toNat) 1
    else ofRatio negative m (Nat.pow 10 (-e).toNat)
  | .infinite negative => .infinite negative
  | .nan ..            => .nan

/-- The exact decimal value. -/
def toDecimal : Binary → Decimal
  | .finite negative m q =>
    if m = 0 then .finite negative 0 0
    else if q ≥ 0 then .finite negative (m * Nat.pow 2 q.toNat) 0
    else
      -- Cancel the powers of two first, so that no digit is a needless zero.
      let twos := min (-q).toNat (twosIn 1100 m)
      let m := m / Nat.pow 2 twos
      let places := (-q).toNat - twos
      .finite negative (m * Nat.pow 5 places) (-(places : Int))
  | .infinite negative => .infinite negative
  | .nan               => .nan false false 0
where
  /-- How often two divides a number, at most `fuel` times. -/
  twosIn : Nat → Nat → Nat
    | 0, _        => 0
    | fuel + 1, n => if n % 2 = 0 && n != 0 then twosIn fuel (n / 2) + 1 else 0

/-- The integer part, toward zero; none for an infinity or a not-a-number. -/
def toInt? : Binary → Option Int
  | .finite negative m q =>
    let magnitude : Nat := if q ≥ 0 then m * Nat.pow 2 q.toNat else m / Nat.pow 2 (-q).toNat
    some (if negative then -(magnitude : Int) else magnitude)
  | _ => none

/-! ### Shortest text -/

/-- The decimal with `places` digits that is nearest to a positive number, as digits and
exponent of the last digit. -/
def nearestWith (m : Nat) (q : Int) (lead : Int) (places : Nat) : Nat × Int :=
  let last := lead - places + 1
  let (n, d) := if q ≥ 0 then (m * Nat.pow 2 q.toNat, 1) else (m, Nat.pow 2 (-q).toNat)
  let c := if last ≥ 0 then Decimal.roundDiv n (d * Nat.pow 10 last.toNat)
    else Decimal.roundDiv (n * Nat.pow 10 (-last).toNat) d
  (c, last)

/-- The fewest digits that read back as the number. -/
def shortest (m : Nat) (q : Int) : Nat × Int :=
  let exact := toDecimal (.finite false m q)
  match exact with
  | .finite _ c e =>
    let lead := e + Decimal.digits c - 1
    let candidates := (List.range 17).map fun k => nearestWith m q lead (k + 1)
    (candidates.find? fun (c, e) => ofDecimal (.finite false c e) = .finite false m q).getD
      (nearestWith m q lead 17)
  | _ => (0, 0)

/-- The text of a number: positional from `0.0001` up to sixteen digits before the point, with a
point always; otherwise scientific with an exponent of at least two digits. -/
def text : Binary → Text
  | .infinite negative => Decimal.signText negative ++ Text.ofString "inf"
  | .nan               => "nan"
  | .finite negative m q =>
    Decimal.signText negative ++
    if m = 0 then Text.ofString "0.0"
    else
      let (c, e) := shortest m q
      let ds := Text.ofNat c
      let trimmed := (ds.reverse.dropWhile (· = Rune.ofChar '0')).reverse
      let e := e + (ds.length - trimmed.length : Nat)
      let ds := trimmed
      let point := e + ds.length
      if -4 < point && point ≤ 16 then
        if point ≤ 0 then
          Text.ofString "0." ++ Text.repeated (-point).toNat (Text.ofString "0") ++ ds
        else if point.toNat ≥ ds.length then
          ds ++ Text.repeated (point.toNat - ds.length) (Text.ofString "0") ++ Text.ofString ".0"
        else ds.take point.toNat ++ Text.ofString "." ++ ds.drop point.toNat
      else
        let power := point - 1
        let shown := if ds.length ≤ 1 then ds else ds.take 1 ++ Text.ofString "." ++ ds.drop 1
        let width := Text.ofNat power.natAbs
        shown ++ Text.ofString (if power < 0 then "e-" else "e+")
          ++ (if width.length < 2 then Text.ofString "0" ++ width else width)

/-- The number that `t` writes. -/
def read? (t : Text) : Option Binary :=
  match Decimal.read? t with
  | some (.nan _ true _) => none
  | some d               => some (ofDecimal d)
  | none                 => none

end Binary

end FilterShell
