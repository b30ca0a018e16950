import FilterShell.Value.Relations

/-!
# Places in strings and arrays

A place is counted from the start and is read as far as needed.  A negative place counts from the
end of what has been taken so far, and takes nothing.
-/

namespace FilterShell.Reading

/-- The element of a list at a place that may count from the end. -/
def fromEnd? {α : Type} (xs : List α) (k : Int) : Option α :=
  if 0 ≤ k then xs[k.toNat]?
  else if 0 ≤ k + xs.length then xs[(k + xs.length).toNat]?
  else none

/-- The item of an array at a place. -/
def itemAt (id : Nat) (items : List Value) (k : Int) : Reading Value := do
  if 0 ≤ k then
    match ← item? id items k.toNat with
    | some v => return v
    | none   => throw (.outOfBounds (Text.ofInt k))
  else
    match fromEnd? (items.take (← progress id).taken) k with
    | some v => return v
    | none   => throw .notRead

/-- The character of a string at a place. -/
def runeAt (id : Nat) (pieces : List Text) (k : Int) : Reading Rune := do
  if 0 ≤ k then
    match ← rune? id pieces k.toNat with
    | some r => return r
    | none   => throw (.outOfBounds (Text.ofInt k))
  else
    match fromEnd? (← takenText id pieces) k with
    | some r => return r
    | none   => throw .notRead

end FilterShell.Reading
