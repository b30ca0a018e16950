import FilterShell.Value.Sort
import FilterShell.Value.Store
import FilterShell.Decimal.Order

/-!
# Equality, order and hash

Values of different kinds are unequal and ordered by kind: exceptions, null, booleans, numbers,
strings, arrays, objects.  Within a kind, exceptions are compared by name, numbers by value,
strings and arrays item by item, and objects by their sorted keys and then by the values of these.

An object is a table of entries.  The key of a pair that is taken from its queue is hashed, and if a
key of the same hash is there and equal, the value is replaced.  A pair whose key cannot be hashed is
lost.

To compare two containers is to read them, so the relations are given one level of nesting at a
time: `Relations.next` for values whose items are related by the given ones, and `Relations.upTo n`
for values nested `n` deep.
-/

namespace FilterShell

structure Relations where
  hash  : Value → Reading Nat
  equal : Value → Value → Reading Bool
  less  : Value → Value → Reading Bool

/-- The hash of a text. -/
def Text.hash (t : Text) : Nat :=
  t.foldl (fun h r => (h * 1114113 + r.code + 1) % Decimal.modulus) 0

namespace Relations

/-- The two are one and the same, or equal. -/
def alike (R : Relations) (a b : Value) : Reading Bool :=
  if a.same b then return true else R.equal a b

/-- Not less, and not equal either. -/
def greater (R : Relations) (a b : Value) : Reading Bool := do
  if ← R.less a b then return false
  return !(← R.equal a b)

/-! ### Tables -/

/-- The place in the table of the entry with a key. -/
def find? (R : Relations) (pairs : List (Value × Value)) (hash : Nat) (key : Value) :
    List Entry → Reading (Option Nat)
  | []     => return none
  | e :: r => do
    let here ← match pairs[e.key]? with
      | some (k, _) => if e.hash = hash then R.alike k key else pure false
      | none        => pure false
    if here then return some 0
    return (← R.find? pairs hash key r).map (· + 1)

/-- Puts the pair at a place into the table. -/
def enter (R : Relations) (id : Nat) (pairs : List (Value × Value)) (place : Nat) :
    Reading Unit := do
  match pairs[place]? with
  | none        => return
  | some (k, _) =>
    let h ← R.hash k
    let found ← R.find? pairs h k (← Reading.progress id).entries
    let p ← Reading.progress id
    let entries := match found with
      | some i => p.entries.modify i fun e => { e with value := place }
      | none   => p.entries ++ [⟨h, place, place⟩]
    Reading.note id { p with entries }

/-- Takes the next pair of an object and gives its place; nothing at the end. -/
def takePair? (R : Relations) (id : Nat) (pairs : List (Value × Value)) :
    Reading (Option Nat) := do
  let place ← Reading.take? id pairs.length
  if let some i := place then R.enter id pairs i
  return place

/-- Takes pairs up to the end, `n` reads at most. -/
def takePairs (R : Relations) (id : Nat) (pairs : List (Value × Value)) : Nat → Reading Unit
  | 0     => return
  | n + 1 => do
    match ← R.takePair? id pairs with
    | some _ => R.takePairs id pairs n
    | none   => return

/-- The entries in the table. -/
def tableOf (pairs : List (Value × Value)) (entries : List Entry) : List (Value × Value) :=
  entries.filterMap fun e => do
    let (k, _) ← pairs[e.key]?
    let (_, v) ← pairs[e.value]?
    return (k, v)

/-- The entries that have been taken. -/
def taken (id : Nat) (pairs : List (Value × Value)) : Reading (List (Value × Value)) := do
  return tableOf pairs (← Reading.progress id).entries

/-- All entries of an object. -/
def entries (R : Relations) (id : Nat) (pairs : List (Value × Value)) :
    Reading (List (Value × Value)) := do
  R.takePairs id pairs (pairs.length + 1)
  taken id pairs

/-- All entries of an object, read by way of its length: a first pair with a bad key is left
out. -/
def sizedEntries (R : Relations) (id : Nat) (pairs : List (Value × Value)) :
    Reading (List (Value × Value)) := do
  try R.takePairs id pairs (pairs.length + 1)
  catch
    | .unhashable => pure ()
    | f           => throw f
  R.entries id pairs

/-- Ends a listing of the keys that were taken: the end must be next, or pairs with keys that were
listed; a new key is a fault, and stays in the table. -/
def endKeys (R : Relations) (id : Nat) (pairs : List (Value × Value)) : Nat → Reading Unit
  | 0     => return
  | n + 1 => do
    let known := (← Reading.progress id).entries.length
    match ← R.takePair? id pairs with
    | none   => return
    | some _ =>
      if known < (← Reading.progress id).entries.length then throw .keysChanged
      R.endKeys id pairs n

/-- Applies a computation to the keys of an object: those that were taken before, then the listing
ends. -/
def mapKeys {α : Type} (R : Relations) (id : Nat) (pairs : List (Value × Value))
    (f : Value → Reading α) : Reading (List α) := do
  let results ← (← taken id pairs).mapM fun (k, _) => f k
  R.endKeys id pairs (pairs.length + 1)
  return results

/-- The list of all keys, read by way of the length. -/
def keys (R : Relations) (id : Nat) (pairs : List (Value × Value)) : Reading (List Value) := do
  try R.takePairs id pairs (pairs.length + 1)
  catch
    | .unhashable => pure ()
    | f           => throw f
  R.mapKeys id pairs pure

/-- The value of a key. -/
def lookup? (R : Relations) (id : Nat) (pairs : List (Value × Value)) (key : Value) :
    Reading (Option Value) := do
  R.takePairs id pairs (pairs.length + 1)
  let h ← R.hash key
  match ← R.find? pairs h key (← Reading.progress id).entries with
  | none   => return none
  | some i => return (← taken id pairs)[i]?.map (·.2)

/-- The value of a key that must be there. -/
def lookup (R : Relations) (id : Nat) (pairs : List (Value × Value)) (key : Value) :
    Reading Value := do
  match ← R.lookup? id pairs key with
  | some v => return v
  | none   => throw .noKey

/-! ### Sets of entries -/

/-- The entries of a set with their hashes. -/
abbrev Hashed := List ((Nat × Nat) × Value × Value)

/-- An entry of the set is alike the given one. -/
def hasEntry (R : Relations) (h : Nat × Nat) (k v : Value) : Hashed → Reading Bool
  | []                => return false
  | (h', k', v') :: r => do
    if h' = h then
      if ← R.alike k' k then
        if ← R.alike v' v then return true
    R.hasEntry h k v r

/-- The set of entries; keys and values are hashed. -/
def hashed (R : Relations) (entries : List (Value × Value)) : Reading Hashed :=
  entries.foldlM (fun set (k, v) => do
    let h := (← R.hash k, ← R.hash v)
    if ← R.hasEntry h k v set then return set
    return set ++ [(h, k, v)]) []

/-- Every entry of the first set is in the second. -/
def subset (R : Relations) (set : Hashed) : Hashed → Reading Bool
  | []             => return true
  | (h, k, v) :: r => do
    if ← R.hasEntry h k v set then R.subset set r
    else return false

/-! ### Lists -/

/-- Arrays of equal items. -/
def equalItems (R : Relations) : List Value → List Value → Reading Bool
  | [], []         => return true
  | x :: r, y :: s => do
    if ← R.equal x y then R.equalItems r s
    else return false
  | _, _           => return false

/-- The first array is less: at the first difference, or because it ends first. -/
def lessItems (R : Relations) : List Value → List Value → Reading Bool
  | _, []          => return false
  | [], _ :: _     => return true
  | x :: r, y :: s => do
    if ← R.less x y then return true
    if ← R.greater x y then return false
    R.lessItems r s

/-- The first items that are not alike. -/
def difference? (R : Relations) : List Value → List Value → Reading (Option (Value × Value))
  | x :: r, y :: s => do
    if ← R.alike x y then R.difference? r s
    else return some (x, y)
  | _, _           => return none

/-- The first list of keys is less. -/
def lessKeys (R : Relations) (xs ys : List Value) : Reading Bool := do
  match ← R.difference? xs ys with
  | some (x, y) => R.less x y
  | none        => return xs.length < ys.length

/-- The first list of keys is greater. -/
def greaterKeys (R : Relations) (xs ys : List Value) : Reading Bool := do
  match ← R.difference? xs ys with
  | some (x, y) => R.greater x y
  | none        => return ys.length < xs.length

/-- An entry is less than another: by key, then by value. -/
def lessEntry (R : Relations) : Value × Value → Value × Value → Reading Bool
  | (k, v), (k', v') => do
    if ← R.alike k k' then
      if ← R.alike v v' then return false
      R.less v v'
    else R.less k k'

/-! ### One level -/

/-- Numbers are equal if their values are; a quiet not-a-number equals nothing. -/
def equalNumbers (a b : Decimal) : Reading Bool :=
  if a.isSignaling || b.isSignaling then throw (.arithmetic .invalidOperation)
  else return !a.isNaN && !b.isNaN && Decimal.compare a b = .eq

/-- The order of numbers, in which not-a-numbers have no place. -/
def lessNumbers (a b : Decimal) : Reading Bool :=
  if a.isNaN || b.isNaN then throw (.arithmetic .invalidOperation)
  else return Decimal.compare a b = .lt

/-- A string is less: at the first difference, or because it ends first.  The second string is
read first, and the first one not at all if the second is empty. -/
def lessStrings (id : Nat) (pieces : List Text) (id' : Nat) (pieces' : List Text) :
    Reading Bool := do
  let t' ← Reading.wholeText id' pieces'
  if t'.isEmpty then return false
  return (← Reading.wholeText id pieces).lt t'

/-- The values of the keys in turn: the first that differ decide. -/
def lessByKeys (R : Relations) (id : Nat) (pairs : List (Value × Value))
    (id' : Nat) (pairs' : List (Value × Value)) : List Value → Reading Bool
  | []     => return false
  | k :: r => do
    if ← R.less (← R.lookup id pairs k) (← R.lookup id' pairs' k) then return true
    if ← R.greater (← R.lookup id pairs k) (← R.lookup id' pairs' k) then return false
    R.lessByKeys id pairs id' pairs' r

/-- An object is less: by its sorted keys, then by their values. -/
def lessObjects (R : Relations) (id : Nat) (pairs : List (Value × Value))
    (id' : Nat) (pairs' : List (Value × Value)) : Reading Bool := do
  let ks ← sortBy R.less (← R.keys id pairs)
  let ks' ← sortBy R.less (← R.keys id' pairs')
  if ← R.lessKeys ks ks' then return true
  if ← R.greaterKeys ks ks' then return false
  R.lessByKeys id pairs id' pairs' ks

/-- The hash of an empty array. -/
def emptyHash : Nat := Decimal.modulus + 1

/-- The hash of null. -/
def nullHash : Nat := Decimal.modulus + 2

/-- The hash of a not-a-number is made of its identity. -/
def nanHash (id : Nat) : Nat := Decimal.modulus + 3 + id

/-- The hash of a number; a signaling not-a-number has none. -/
def numberHash (id : Nat) (d : Decimal) : Reading Nat :=
  if d.isSignaling then throw .unhashable
  else return if d.isNaN then nanHash id else d.residue

/-- The hash of a value: arrays have that of their first item, and objects one made of their
keys. -/
def nextHash (R : Relations) : Value → Reading Nat
  | .exception e      => return e.name.hash
  | .null             => return nullHash
  | .bool b           => return if b then 1 else 0
  | .number id d      => numberHash id d
  | .string id pieces => return (← Reading.wholeText id pieces).hash
  | .array id items   => do
    match ← Reading.item? id items 0 with
    | some v => R.hash v
    | none   => return emptyHash
  | .object id pairs  => return (← R.mapKeys id pairs R.hash).foldl (· ^^^ ·) 0

def nextEqual (R : Relations) : Value → Value → Reading Bool
  | .exception e, .exception e'          => return e.name = e'.name
  | .null, .null                         => return true
  | .bool b, .bool b'                    => return b = b'
  | .number _ d, .number _ d'            => equalNumbers d d'
  | .string id pieces, .string id' pieces' =>
    return (← Reading.wholeText id pieces) = (← Reading.wholeText id' pieces')
  | .array id items, .array id' items'   => do
    R.equalItems (← Reading.allItems id items) (← Reading.allItems id' items')
  | .object id pairs, .object id' pairs' => do
    let set ← R.hashed (← R.entries id pairs)
    let set' ← R.hashed (← R.entries id' pairs')
    if set.length ≠ set'.length then return false
    R.subset set' set
  | _, _                                 => return false

def nextLess (R : Relations) : Value → Value → Reading Bool
  | .exception e, .exception e'          => return e.name.lt e'.name
  | .bool b, .bool b'                    => return !b && b'
  | .number _ d, .number _ d'            => lessNumbers d d'
  | .string id pieces, .string id' pieces' => lessStrings id pieces id' pieces'
  | .array id items, .array id' items'   => do
    let ys ← Reading.allItems id' items'
    if ys.isEmpty then return false
    R.lessItems (← Reading.allItems id items) ys
  | .object id pairs, .object id' pairs' => R.lessObjects id pairs id' pairs'
  | a, b                                 => return a.kind.rank < b.kind.rank

/-- The relations between values whose items are related by `R`. -/
def next (R : Relations) : Relations where
  hash  := R.nextHash
  equal := R.nextEqual
  less  := R.nextLess

/-- The relations between values that are nested at most so deep. -/
def upTo : Nat → Relations
  | 0     => next ⟨fun _ => return 0, fun _ _ => return false, fun _ _ => return false⟩
  | n + 1 => next (upTo n)

end Relations

namespace Value

/-- The relations that serve for a value. -/
def relations (v : Value) : Relations := .upTo v.depth

/-- The relations that serve for two values. -/
def relationsWith (a b : Value) : Relations := .upTo (max a.depth b.depth)

def hash (v : Value) : Reading Nat := v.relations.hash v

def equal (a b : Value) : Reading Bool := (a.relationsWith b).equal a b

def less (a b : Value) : Reading Bool := (a.relationsWith b).less a b

def greater (a b : Value) : Reading Bool := (a.relationsWith b).greater a b

def lessOrEqual (a b : Value) : Reading Bool := do
  if ← a.less b then return true
  a.equal b

def greaterOrEqual (a b : Value) : Reading Bool := return !(← a.less b)

def notEqual (a b : Value) : Reading Bool := return !(← a.equal b)

/-- Sorts values. -/
def sort (vs : List Value) : Reading (List Value) := sortBy less vs

end Value

end FilterShell
