import FilterShell.Eval.Meaning
import FilterShell.Decimal.Order

/-!
# Adding and multiplying

The outputs of two operands are paired off; the shorter list starts again when it ends.  If one of
them gives nothing, the outputs of the other are the result.
-/

namespace FilterShell.Combine

/-- An output of one operand alone, or of both. -/
inductive Paired where
  | single (v : Value)
  | both (left right : Value)

/-- Pairs off two lists that are not empty, the shorter one repeated. -/
def cycle (left right : List Value) : List Paired :=
  (List.range (max left.length right.length)).filterMap fun i => do
    return .both (← left[i % left.length]?) (← right[i % right.length]?)

def paired (left right : List Value) : List Paired :=
  if left.isEmpty then right.map .single
  else if right.isEmpty then left.map .single
  else cycle left right

/-- Applies an operation to all pairs, in turn. -/
def all (op : Value → Value → Reading Value) : List Paired → StateM Store Produced
  | []                => return {}
  | .single v :: rest => (Produced.ofValues [v]).andThen (all op rest)
  | .both a b :: rest => do
    (← Produced.ofReading (return [← op a b])).andThen (all op rest)

/-- A number out of arithmetic. -/
def ofDecimal : Except Decimal.Signal Decimal → Reading Value
  | .ok d    => Value.ofDecimal d
  | .error s => throw (.arithmetic s)

/-- Numbers are added; arrays and strings are joined. -/
def add (a b : Value) : Reading Value := do
  match a, b with
  | .number _ x, .number _ y       => ofDecimal (x.add y)
  | .array i xs, .array j ys       =>
    Value.ofItems ((← Reading.allItems i xs) ++ (← Reading.allItems j ys))
  | .string i ps, .string j qs     =>
    Value.ofText ((← Reading.wholeText i ps) ++ (← Reading.wholeText j qs))
  | .object .., .object ..         => throw .noOperation
  | _, _                           => return .failure "type"

/-- The number is whole. -/
def isWhole (d : Decimal) : Reading Bool :=
  match d.isWhole? with
  | .ok b    => return b
  | .error s => throw (.arithmetic s)

/-- The most pieces that a text or list can have. -/
def maxCount : Int := Int.pow 2 63 - 1

/-- The most pieces that fit into memory. -/
def maxHeld : Int := Int.pow 2 34

/-- How often something of a size is repeated: not at all for a negative number, and once is
enough for nothing. -/
def repeatCount (size : Nat) (n : Int) : Reading Nat := do
  if n > maxCount || n < -maxCount - 1 then throw .countTooLarge
  if n * size > maxCount then throw .countTooLarge
  if n * size > maxHeld then throw .outOfMemory
  return if size = 0 then min n.toNat 1 else n.toNat

/-- A text repeated. -/
def repeatText (i : Nat) (pieces : List Text) (d : Decimal) : Reading Value := do
  if !(← isWhole d) then return .failure "integer"
  let t ← Reading.wholeText i pieces
  Value.ofText (t.repeated (← repeatCount t.length d.toInt))

/-- An array repeated. -/
def repeatItems (i : Nat) (items : List Value) (d : Decimal) : Reading Value := do
  if !(← isWhole d) then return .failure "integer"
  let vs ← Reading.allItems i items
  Value.ofItems (List.replicate (← repeatCount vs.length d.toInt) vs).flatten

/-- Numbers are multiplied; a string or array is repeated. -/
def multiply (a b : Value) : Reading Value :=
  match a, b with
  | .number _ x, .number _ y                   => ofDecimal (x.mul y)
  | .string i ps, .number _ d | .number _ d, .string i ps => repeatText i ps d
  | .array i vs, .number _ d | .number _ d, .array i vs   => repeatItems i vs d
  | _, _                                       => return .failure "type"

end FilterShell.Combine
