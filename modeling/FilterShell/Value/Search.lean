import FilterShell.Value.Compare
import FilterShell.Value.Index

/-!
# Going through values

Strings and arrays are gone through place by place, and each place is read when it is needed;
objects are gone through by their keys.  To search is to go through until the data that is looked
for is found.
-/

namespace FilterShell

namespace Given

mutual

/-- Data must be fit for a key. -/
def checkKey : Given → Reading Unit
  | .list _ | .dict _ => throw .unhashable
  | .tuple gs         => checkKeys gs
  | .value v          => do let _ ← v.hash
  | _                 => return

def checkKeys : List Given → Reading Unit
  | []     => return
  | g :: r => do
    checkKey g
    checkKeys r

end

/-- The value that data is as a key of an object, or nothing for data that is no key of any. -/
def key? (g : Given) : Reading (Option Value) := do
  match g with
  | .value v           => return some v
  | .error _ | .thing | .channel _ => return none
  | .text t            => if t.isWellFormed then some <$> Value.ofText t else return none
  | .list _ | .dict _ | .tuple _ =>
    g.checkKey
    return none
  | g                  => some <$> g.toValue

/-- The place that data is, if it is a whole number. -/
def place? : Given → Option Int
  | .int k  => some k
  | .bool b => some (if b then 1 else 0)
  | _       => none

end Given

namespace Value

/-- The character or item at a place, if there is one. -/
def part? (v : Value) (k : Nat) : Reading (Option Given) := do
  match v with
  | .string id pieces => return (← Reading.rune? id pieces k).map fun r => .text [r]
  | .array id items   => return (← Reading.item? id items k).map .value
  | _                 => throw .misfit

/-- How many reads by place a string or an array allows at most before its end is met. -/
def places : Value → Nat
  | .string _ pieces => pieces.flatten.length + 1
  | .array _ items   => items.length + 1
  | _                => 0

/-- The characters or items from place `k` on, `n` at most. -/
def partsFrom (v : Value) (k : Nat) : Nat → Reading (List Given)
  | 0     => return []
  | n + 1 => do
    match ← v.part? k with
    | some g => return g :: (← v.partsFrom (k + 1) n)
    | none   => return []

/-- What is met when a value is gone through, up to a limit. -/
def visit (v : Value) (limit : Option Nat) : Reading (List Given) := do
  match v with
  | .string .. | .array .. => v.partsFrom 0 (match limit with
    | some n => min n v.places
    | none   => v.places)
  | .object id pairs       =>
    let known := (← Relations.taken id pairs).map fun (k, _) => Given.value k
    match limit with
    | some n => if n ≤ known.length then return known.take n
    | none   => pure ()
    return (← v.relations.mapKeys id pairs pure).map .value
  | _                      => throw .misfit

/-- The characters or items from the last to the first. -/
def backward (v : Value) : Reading (List Given) := do
  match v with
  | .string .. | .array .. =>
    let _ ← v.length
    return (← v.visit none).reverse
  | _                      => throw .misfit

/-- What is met at a place equals the data that is looked for. -/
def partEqual (part sought : Given) : Reading Bool := do
  match part, sought with
  | .value v, .value w                  => if v.same w then return true else v.equalGiven sought
  | .value v, g                         => v.equalGiven g
  | .text t, .text u                    => return t = u
  | .text t, .value (.string id pieces) => return t = (← Reading.wholeText id pieces)
  | _, _                                => return false

/-- The first place from `k` on, of `n`, where the data is. -/
def seek? (v : Value) (sought : Given) (k : Nat) : Nat → Reading (Option Nat)
  | 0     => return none
  | n + 1 => do
    match ← v.part? k with
    | none   => return none
    | some g => if ← partEqual g sought then return some k else v.seek? sought (k + 1) n

/-- The value under a key that is given from outside. -/
def lookupGiven? (v : Value) (key : Given) : Reading (Option Value) := do
  match v with
  | .object id pairs =>
    (Relations.upTo (depthPairs pairs)).takePairs id pairs (pairs.length + 1)
    match ← key.key? with
    | some k => (v.relationsWith k).lookup? id pairs k
    | none   => return none
  | _                => throw .noOperation

/-- The data is an item, a character or a key. -/
def contains (v : Value) (sought : Given) : Reading Bool := do
  match v with
  | .string .. | .array .. => return (← v.seek? sought 0 v.places).isSome
  | .object ..             => return (← v.lookupGiven? sought).isSome
  | _                      => throw .misfit

/-- The first place of the data. -/
def indexOf (v : Value) (sought : Given) : Reading Nat := do
  match v with
  | .string .. | .array .. => match ← v.seek? sought 0 v.places with
    | some k => return k
    | none   => throw .notFound
  | _                      => throw .noOperation

/-- How often the data is at the places from `k` on, of `n`. -/
def countFrom (v : Value) (sought : Given) (k : Nat) : Nat → Reading Nat
  | 0     => return 0
  | n + 1 => do
    match ← v.part? k with
    | none   => return 0
    | some g =>
      let here ← partEqual g sought
      return (← v.countFrom sought (k + 1) n) + (if here then 1 else 0)

/-- How often the data occurs. -/
def occurrences (v : Value) (sought : Given) : Reading Nat := do
  match v with
  | .string .. | .array .. =>
    v.countFrom sought 0 v.places
  | _                      => throw .noOperation

/-- How much has been taken of a string or an array. -/
def takenLength : Value → Reading Nat
  | .string id pieces => return (← Reading.takenText id pieces).length
  | .array id _       => return (← Reading.progress id).taken
  | _                 => return 0

/-- Why data that is no whole number is no place: the value is taken piece by piece until it is
longer than the data says, or until its end.  There are `n` pieces at most. -/
def misplaced (v : Value) (key : Given) (take : Reading (Option Nat)) : Nat → Reading Fault
  | 0     => return .outOfBounds (← key.asText)
  | n + 1 => do
    if ← key.isBelow (← v.takenLength) then return .misfit
    match ← take with
    | some _ => v.misplaced key take n
    | none   => return .outOfBounds (← key.asText)

/-- What `read` finds at the place that data is. -/
def atPlace {α : Type} (v : Value) (key : Given) (id size : Nat) (read : Int → Reading α) :
    Reading α := do
  match key.place? with
  | none   => throw (← v.misplaced key (Reading.take? id size) (size + 1))
  | some k =>
    try read k
    catch
      | .outOfBounds _ => throw (.outOfBounds (← key.asText))
      | f              => throw f

/-- What is under a place or a key. -/
def itemGiven (v : Value) (key : Given) : Reading Given := do
  match v with
  | .object ..        => match ← v.lookupGiven? key with
    | some w => return .value w
    | none   => throw .noKey
  | .array id items   =>
    return .value (← v.atPlace key id items.length (Reading.itemAt id items))
  | .string id pieces =>
    return .text [← v.atPlace key id pieces.length (Reading.runeAt id pieces)]
  | _                 => throw .misfit

end Value

end FilterShell
