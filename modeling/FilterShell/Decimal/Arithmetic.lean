import FilterShell.Decimal.Order

/-!
# Decimal arithmetic

Sums and products are exact and then rounded to 28 digits, a tie going to the even neighbour;
exponents stay between `-999999` and `999999`, gradual underflow below that.  A result without a
value is an invalid operation, a result that is too large an overflow.

`isWhole?` asks whether the remainder modulo one is zero.  The question has no answer for an
infinity, and for a number whose integer part has more than 28 digits.
-/

namespace FilterShell.Decimal

/-- Why an operation has no result. -/
inductive Signal where
  | invalidOperation
  | overflow
deriving DecidableEq

/-- The number of digits of a result. -/
def precision : Nat := 28

/-- The greatest exponent of the leading digit of a result. -/
def maxExponent : Int := 999999

/-- The least exponent of the leading digit of a result with full precision. -/
def minExponent : Int := -999999

/-- The least exponent of the last digit of a result. -/
def tiny : Int := minExponent - precision + 1

/-- The greatest exponent of the last digit of a result with full precision. -/
def top : Int := maxExponent - precision + 1

/-- `n / d` rounded to the nearest integer, a tie to the even one. -/
def roundDiv (n d : Nat) : Nat :=
  let q := n / d
  let r := n % d
  if 2 * r < d then q
  else if 2 * r > d then q + 1
  else if q % 2 = 0 then q else q + 1

/-- A result rounded to the precision and the exponent range. -/
def rounded : Decimal → Except Signal Decimal
  | .nan negative signaling payload => .ok (.nan negative signaling (payload % Nat.pow 10 precision))
  | .infinite negative              => .ok (.infinite negative)
  | .finite negative coefficient exponent =>
    if coefficient = 0 then .ok (.finite negative 0 (min (max exponent tiny) maxExponent))
    else
      let least := exponent + digits coefficient - precision
      if least > top then .error .overflow
      else
        let least := max least tiny
        if exponent < least then
          let gap := (least - exponent).toNat
          let c :=
            -- All digits lie more than one place below the last one that is kept.
            if gap > digits coefficient then 0 else roundDiv coefficient (Nat.pow 10 gap)
          if digits c > precision then
            if least + 1 > top then .error .overflow
            else .ok (.finite negative (c / 10) (least + 1))
          else .ok (.finite negative c least)
        else .ok (.finite negative coefficient exponent)

/-- The operand that decides the result when one is a not-a-number. -/
def nanResult? : Decimal → Decimal → Option (Except Signal Decimal)
  | a, b =>
    if a.isSignaling || b.isSignaling then some (.error .invalidOperation)
    else if a.isNaN then some (rounded a)
    else if b.isNaN then some (rounded b)
    else none

/-- The sum of two finite numbers.  An operand that lies wholly below the last digit of the
result is replaced by a small one of the same sign. -/
def addFinite (s : Bool) (m : Nat) (e : Int) (s' : Bool) (n : Nat) (f : Int) :
    Except Signal Decimal :=
  let low := min e f
  if m = 0 && n = 0 then rounded (.finite (s && s') 0 low)
  else if m = 0 then
    let low := max low (f - precision - 1)
    rounded (.finite s' (n * Nat.pow 10 (f - low).toNat) low)
  else if n = 0 then
    let low := max low (e - precision - 1)
    rounded (.finite s (m * Nat.pow 10 (e - low).toNat) low)
  else
    -- `(hm, he)` is the operand with the greater exponent.
    let (hs, hm, he, ls, lm, le) := if e < f then (s', n, f, s, m, e) else (s, m, e, s', n, f)
    let floor : Int := he + min (-1) ((digits hm : Int) - precision - 2)
    let (lm, le) := if le + digits lm - 1 < floor then (1, floor) else (lm, le)
    let hm := hm * Nat.pow 10 (he - le).toNat
    let signed : Int := (if hs then -(hm : Int) else hm) + (if ls then -(lm : Int) else lm)
    if signed = 0 then rounded (.finite false 0 low)
    else rounded (.finite (signed < 0) signed.natAbs le)

/-- The sum. -/
def add (a b : Decimal) : Except Signal Decimal :=
  match nanResult? a b with
  | some r => r
  | none   => match a, b with
    | .infinite s, .infinite s'     => if s = s' then .ok a else .error .invalidOperation
    | .infinite _, _                => .ok a
    | _, .infinite _                => .ok b
    | .finite s m e, .finite s' n f => addFinite s m e s' n f
    | _, _                          => .error .invalidOperation

/-- The product. -/
def mul (a b : Decimal) : Except Signal Decimal :=
  match nanResult? a b with
  | some r => r
  | none   => match a, b with
    | .infinite s, .infinite s'     => .ok (.infinite (s != s'))
    | .infinite s, .finite s' n _   =>
      if n = 0 then .error .invalidOperation else .ok (.infinite (s != s'))
    | .finite s m _, .infinite s'   =>
      if m = 0 then .error .invalidOperation else .ok (.infinite (s != s'))
    | .finite s m e, .finite s' n f => rounded (.finite (s != s') (m * n) (e + f))
    | _, _                          => .error .invalidOperation

/-- Whether the remainder modulo one is zero. -/
def isWhole? : Decimal → Except Signal Bool
  | .nan _ signaling _ => if signaling then .error .invalidOperation else .ok false
  | .infinite _        => .error .invalidOperation
  | .finite negative m e =>
    if m = 0 then .ok true
    else if e + digits m - 1 > precision then .error .invalidOperation
    else if e ≥ 0 then
      if m * Nat.pow 10 e.toNat < Nat.pow 10 precision then .ok true else .error .invalidOperation
    else
      let places := (-e).toNat
      -- The whole number lies below one place after the point if it has too few digits.
      let rest := if places > digits m then m else m % Nat.pow 10 places
      if places ≤ digits m && m / Nat.pow 10 places ≥ Nat.pow 10 precision then
        .error .invalidOperation
      else match rounded (.finite negative rest e) with
        | .ok (.finite _ c _) => .ok (c == 0)
        | .ok _               => .ok false
        | .error signal       => .error signal

/-- The integer part, toward zero; zero for what is not finite. -/
def toInt : Decimal → Int
  | .finite negative m e =>
    let magnitude : Nat :=
      if e ≥ 0 then m * Nat.pow 10 e.toNat
      else if (-e).toNat > digits m then 0
      else m / Nat.pow 10 (-e).toNat
    if negative then -(magnitude : Int) else magnitude
  | _ => 0

end FilterShell.Decimal
