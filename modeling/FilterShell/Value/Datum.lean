import FilterShell.Value.Relations

/-!
# Values read to the end

A datum is what a value holds once everything in it has been read: texts instead of pieces, and
one entry for each key of an object.  `Value.settle` reads a value to the end.
-/

namespace FilterShell

inductive Datum where
  | exception (e : Exception)
  | null
  | bool (b : Bool)
  | number (d : Decimal)
  | text (t : Text)
  | list (items : List Datum)
  | object (entries : List (Datum × Datum))
  deriving Inhabited

namespace Value

/-- Reads a value to the end, its items by `below`. -/
def settleWith (R : Relations) (below : Value → Reading Datum) : Value → Reading Datum
  | .exception e      => return .exception e
  | .null             => return .null
  | .bool b           => return .bool b
  | .number _ d       => return .number d
  | .string id pieces => return .text (← Reading.wholeText id pieces)
  | .array id items   => do
    return .list (← (← Reading.allItems id items).mapM below)
  | .object id pairs  => do
    return .object (← (← R.entries id pairs).mapM fun (k, v) => do return (← below k, ← below v))

/-- Reads a value that is nested at most so deep to the end. -/
def settleTo : Nat → Value → Reading Datum
  | 0     => settleWith (.upTo 0) fun _ => return .null
  | n + 1 => settleWith (.upTo n) (settleTo n)

/-- Reads a value to the end. -/
def settle (v : Value) : Reading Datum := settleTo v.depth v

/-! ### Single reads -/

/-- The number of characters, items or entries. -/
def length : Value → Reading Nat
  | .string id pieces => return (← Reading.wholeText id pieces).length
  | .array id items   => return (← Reading.allItems id items).length
  | .object id pairs  => return (← (Relations.upTo (depthPairs pairs)).entries id pairs).length
  | _                 => throw .noLength

/-- A value counts as true unless it is null, false or an empty container. -/
def truth : Value → Reading Bool
  | .null                        => return false
  | .bool b                      => return b
  | .exception _ | .number ..    => return true
  | v                            => return (← v.length) != 0

/-- The value has a JSON text.  Only an empty container can be asked. -/
def isPlain (v : Value) : Reading Bool :=
  match v with
  | .exception _     => return false
  | .array id items  => do
    match ← Reading.item? id items 0 with
    | some _ => throw .containerCheck
    | none   => return true
  | .object id pairs => do
    let _ ← v.relations.mapKeys id pairs fun _ => (throw .containerCheck : Reading Unit)
    return true
  | _                => return true

end Value

end FilterShell
