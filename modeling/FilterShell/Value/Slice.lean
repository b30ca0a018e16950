import FilterShell.Value.Compare

/-!
# Slices

A slice of an array starts at one place, stops before another and goes forward by a step.  Bounds
that count from the end take the length of the array; with other bounds only as much is read as the
slice reaches over.  No slice goes backward.

Bounds that are given from outside may be no whole numbers.  Such a slice never gives anything, but
what it reads and why it fails depends on whether a bound is less than zero.
-/

namespace FilterShell

structure Slice where
  start : Option Int := none
  stop  : Option Int := none
  step  : Option Int := none

namespace Slice

/-- A bound that is given from outside, if it is a whole number or left out. -/
def bound? : Given → Option (Option Int)
  | .null   => some none
  | .int n  => some (some n)
  | .bool b => some (some (if b then 1 else 0))
  | _       => none

/-- The slice that data gives, if all of it is whole numbers. -/
def ofGiven? (start stop step : Given) : Option Slice := do
  return ⟨← bound? start, ← bound? stop, ← bound? step⟩

/-- The start that data gives is less than zero; without one, a slice starts at zero. -/
def startsBelow (start : Given) : Reading Bool :=
  match start with
  | .null => return false
  | g     => g.isBelow 0

/-- Why data gives no slice. -/
def refused (start stop step : Given) (length : Reading Nat) : Reading Fault := do
  let negative ← if ← startsBelow start then pure true else stop.isBelow 0
  if !negative then return .badStep
  let _ ← length
  match bound? step with
  | some (some 0) => return .badStep
  | _             => return .misfit

/-- The largest number that can be a bound or a step. -/
def maxBound : Int := Int.pow 2 63 - 1

/-- A bound in a sequence of a length: it counts from the end if it is negative, and stays
between `low` and `high`. -/
def placed (length low high bound : Int) : Int :=
  let b := if bound < 0 then bound + length else bound
  max low (min high b)

/-- Start, stop and step in a sequence of a length. -/
def within (s : Slice) (length : Nat) : Except Fault (Int × Int × Int) := do
  let n : Int := length
  let step := s.step.getD 1
  if step = 0 then throw .badStep
  if 0 < step then
    return ((s.start.map (placed n 0 n)).getD 0, (s.stop.map (placed n 0 n)).getD n, step)
  return ((s.start.map (placed n (-1) (n - 1))).getD (n - 1),
    (s.stop.map (placed n (-1) (n - 1))).getD (-1), step)

/-- Start, stop and step, where no length is needed: a slice with a stop before its start goes
backward unless it says otherwise. -/
def direct (start stop : Int) (step : Option Int) : Int × Int × Int :=
  (start, stop, step.getD (if stop < start then -1 else 1))

/-- Start, stop and step of a slice.  The length is read only if a bound counts from the end. -/
def bounds (s : Slice) (length : Reading Nat) : Reading (Nat × Nat × Nat) := do
  let start := s.start.getD 0
  let measured : Reading (Int × Int × Int) := do s.within (← length)
  let (start, stop, step) ← match s.stop with
    | none      => if start < 0 then measured else throw .misfit
    | some stop => if start < 0 || stop < 0 then measured else pure (direct start stop s.step)
  if start < 0 || stop < 0 || step < 1 then throw .badStep
  if maxBound < start || maxBound < stop || maxBound < step then throw .badStep
  return (start.toNat, stop.toNat, step.toNat)

/-- The first element of a list and then every `step`-th. -/
def every {α : Type} (step : Nat) : List α → List α
  | []     => []
  | x :: r => x :: every step (r.drop (step - 1))
termination_by xs => xs.length
decreasing_by rw [List.length_drop, List.length_cons]; omega

/-- The elements of a list from `start` to `stop` by a step. -/
def pick {α : Type} (start stop step : Nat) (xs : List α) : List α :=
  every step ((xs.take stop).drop start)

end Slice

namespace Value

/-- The part of an array that a slice names, as a new array.  A slice of a string is checked but
reads no characters, and gives nothing. -/
def slice (v : Value) (s : Slice) : Reading (Option Value) := do
  match v with
  | .array id items   =>
    let (start, stop, step) ← s.bounds v.length
    let _ ← Reading.reach id items.length (max start stop)
    let taken := items.take (← Reading.progress id).taken
    return some (← ofItems (Slice.pick start stop step taken))
  | .string ..        =>
    let _ ← s.bounds v.length
    return none
  | .object ..        => throw .sliceOfObject
  | _                 => throw .misfit

/-- The part of an array that a slice names whose bounds are given from outside. -/
def sliceGiven (v : Value) (start stop step : Given) : Reading (Option Value) := do
  match v, Slice.ofGiven? start stop step with
  | .array .., none | .string .., none => throw (← Slice.refused start stop step v.length)
  | _, s                               => v.slice (s.getD {})

end Value

end FilterShell
