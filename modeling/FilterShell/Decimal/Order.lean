import FilterShell.Decimal.Basic

/-!
# Comparing decimal numbers

Numbers are compared by value, so numbers that differ only in trailing zeros are the same here.
A not-a-number has no place in the order: comparing one is left to the caller.  `residue` is a
number below a prime that depends on the value alone; it serves as the hash of a number.
-/

namespace FilterShell.Decimal

/-- Compares `m * 10 ^ e` with `n * 10 ^ f`.  The exponents are brought together only if the
leading digits stand at the same place. -/
def compareMagnitude (m : Nat) (e : Int) (n : Nat) (f : Int) : Ordering :=
  if m = 0 || n = 0 then compare m n
  else
    let high := e + digits m
    let high' := f + digits n
    if high < high' then .lt
    else if high' < high then .gt
    else
      let low := min e f
      compare (m * Nat.pow 10 (e - low).toNat) (n * Nat.pow 10 (f - low).toNat)

/-- Compares by value; a not-a-number counts as equal to everything. -/
def compare : Decimal → Decimal → Ordering
  | .nan .., _ | _, .nan ..           => .eq
  | .infinite a, .infinite b          => if a = b then .eq else if a then .lt else .gt
  | .infinite a, .finite ..           => if a then .lt else .gt
  | .finite .., .infinite b           => if b then .gt else .lt
  | .finite s m e, .finite s' n f     =>
    if m = 0 && n = 0 then .eq
    else match s && m != 0, s' && n != 0 with
      | false, false => compareMagnitude m e n f
      | true, true   => compareMagnitude n f m e
      | true, false  => .lt
      | false, true  => .gt

/-- The modulus of residues, a prime. -/
def modulus : Nat := Nat.pow 2 61 - 1

/-- `base ^ n` modulo the modulus. -/
def powMod (base n : Nat) : Nat :=
  if _h : n = 0 then 1
  else
    let half := powMod (base * base % modulus) (n / 2)
    if n % 2 = 1 then half * base % modulus else half
termination_by n
decreasing_by omega

/-- The inverse of ten modulo the modulus. -/
def tenInverse : Nat := 2075258708292324556

/-- A number that is the same for numbers of one value. -/
def residue : Decimal → Nat
  | .finite negative coefficient exponent =>
    let power := if exponent ≥ 0 then powMod 10 exponent.toNat
      else powMod tenInverse (-exponent).toNat
    let r := coefficient * power % modulus
    if negative && r != 0 then modulus - r else r
  | .infinite negative => if negative then modulus - 314159 else 314159
  | .nan ..            => 0

end FilterShell.Decimal
