import FilterShell.Value.Given

/-!
# Comparing a value with given data

A value is compared with data by making the data a value first.  Two kinds of values have rules of
their own: an array equals no data that is not an array already and is less than all of it, and
whether a number differs from a plain number is decided without making a value.
-/

namespace FilterShell

inductive Comparison where
  | equal | notEqual | less | greater | lessOrEqual | greaterOrEqual

/-- The comparison with its sides exchanged. -/
def Comparison.flipped : Comparison → Comparison
  | .equal          => .equal
  | .notEqual       => .notEqual
  | .less           => .greater
  | .greater        => .less
  | .lessOrEqual    => .greaterOrEqual
  | .greaterOrEqual => .lessOrEqual

namespace Given

/-- The number that data is, if it is one. -/
def asNumber? : Given → Option Decimal
  | .bool b              => some (.ofNat (if b then 1 else 0))
  | .int n               => some (.ofInt n)
  | .binary x            => some x.toDecimal
  | .value (.number _ d) => some d
  | _                    => none

end Given

namespace Value

def equalGiven (a : Value) (g : Given) : Reading Bool :=
  match a, g with
  | .array .., .value b => a.equal b
  | .array .., _        => return false
  | _, g                => do a.equal (← g.toValue)

def notEqualGiven (a : Value) (g : Given) : Reading Bool :=
  match a with
  | .number _ d => match g.asNumber? with
    | some d' => return !(← Relations.equalNumbers d d')
    | none    => return true
  | _           => return !(← a.equalGiven g)

def lessGiven (a : Value) (g : Given) : Reading Bool :=
  match a, g with
  | .array .., .value b => a.less b
  | .array .., _        => return true
  | _, g                => do a.less (← g.toValue)

end Value

/-- Data is less than a whole number; texts and lists cannot be compared with one. -/
def Given.isBelow (g : Given) (n : Nat) : Reading Bool :=
  match g with
  | .bool b   => return (if b then 1 else 0) < n
  | .int k    => return k < n
  | .binary x => return !x.toDecimal.isNaN && Decimal.compare x.toDecimal (.ofNat n) = .lt
  | .value v  => v.lessGiven (.int n)
  | _         => throw .misfit

namespace Value

/-- The outcome of a comparison. -/
def compareGiven (c : Comparison) (a : Value) (g : Given) : Reading Bool := do
  match c with
  | .equal          => a.equalGiven g
  | .notEqual       => a.notEqualGiven g
  | .less           => a.lessGiven g
  | .greater        => if ← a.lessGiven g then return false else a.notEqualGiven g
  | .lessOrEqual    => if ← a.lessGiven g then return true else a.equalGiven g
  | .greaterOrEqual => return !(← a.lessGiven g)

end Value

end FilterShell
