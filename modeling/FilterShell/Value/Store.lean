import FilterShell.Command.System
import FilterShell.Value.Basic

/-!
# How far containers have been read

What is put into a container waits in a queue until a read takes it.  A read of a place takes as
much as it needs, a read of the length takes everything up to the end.  A `Store` keeps, for every
identity, how much has been taken; a container that it does not know is complete and unread.  The
store is all that programs change, so the system that they start commands on is in it too.
-/

namespace FilterShell

/-- An entry of an object: the hash of its key, and the places of the pairs that gave the key and
the value. -/
structure Entry where
  hash  : Nat
  key   : Nat
  value : Nat

structure Progress where
  /-- How many pieces, items or pairs have been taken. -/
  taken   : Nat := 0
  /-- The end has been taken. -/
  ended   : Bool := false
  /-- Where the ends wait that have not been taken: each is the number of pieces before it.  A
  complete container has one end behind everything. -/
  ends    : Option (List Nat) := none
  /-- The entries of an object, by first appearance of their keys. -/
  entries : List Entry := []

namespace Progress

/-- Where the next end waits in a container of `size` pieces. -/
def end? (p : Progress) (size : Nat) : Option Nat :=
  match p.ends with
  | none    => some size
  | some es => es.head?

/-- Progress after taking everything up to an end, and the end. -/
def atEnd (p : Progress) (e : Nat) : Progress :=
  { p with taken := e, ended := true, ends := p.ends.map List.tail }

end Progress

structure Store where
  /-- The next identity to give. -/
  next     : Nat := 0
  progress : List (Nat × Progress) := []
  system   : System := {}

namespace Store

/-- How far a container has been read. -/
def get (s : Store) (id : Nat) : Progress := (s.progress.lookup id).getD {}

/-- Notes how far a container has been read. -/
def put (s : Store) (id : Nat) (p : Progress) : Store :=
  { s with progress := (id, p) :: s.progress.filter (·.1 != id) }

end Store

/-- A computation that reads containers.  What it has read stays read when it fails. -/
abbrev Reading := ExceptT Fault (StateM Store)

namespace Reading

/-- The outcome of a computation, its fault included. -/
def outcome {α : Type} (r : Reading α) : StateM Store (Except Fault α) := r.run

/-- A new identity. -/
def fresh : Reading Nat := do
  let s ← getThe Store
  set { s with next := s.next + 1 }
  return s.next

def progress (id : Nat) : Reading Progress := do return (← getThe Store).get id

def note (id : Nat) (p : Progress) : Reading Unit := modify (·.put id p)

/-- Takes the next piece of a container of `size` pieces and gives its place; nothing at the end. -/
def take? (id size : Nat) : Reading (Option Nat) := do
  let p ← progress id
  if p.ended then return none
  if p.end? size = some p.taken then
    note id (p.atEnd p.taken)
    return none
  if p.taken < size then
    note id { p with taken := p.taken + 1 }
    return some p.taken
  throw .nothingWaiting

/-- Takes everything and gives the number of pieces. -/
def drain (id size : Nat) : Reading Nat := do
  let p ← progress id
  if p.ended then return p.taken
  match p.end? size with
  | some e =>
    note id (p.atEnd e)
    return e
  | none =>
    note id { p with taken := size }
    throw .nothingWaiting

/-- Takes pieces until `n` are taken; tells whether there are that many. -/
def reach (id size n : Nat) : Reading Bool := do
  let p ← progress id
  if n ≤ p.taken then return true
  if p.ended then return false
  match p.end? size with
  | some e =>
    if n ≤ e then
      note id { p with taken := n }
      return true
    else
      note id (p.atEnd e)
      return false
  | none =>
    if n ≤ size then
      note id { p with taken := n }
      return true
    else
      note id { p with taken := size }
      throw .nothingWaiting

/-! ### Strings and arrays -/

/-- The whole text of a string. -/
def wholeText (id : Nat) (pieces : List Text) : Reading Text := do
  let n ← drain id pieces.length
  return (pieces.take n).flatten

/-- The text of a string that has been taken. -/
def takenText (id : Nat) (pieces : List Text) : Reading Text := do
  let p ← progress id
  return (pieces.take p.taken).flatten

/-- How many pieces hold the character at place `k`; one more than all if there is none. -/
def piecesFor : Nat → List Text → Nat
  | _, []     => 1
  | k, p :: r => if k < p.length then 1 else piecesFor (k - p.length) r + 1

/-- The character of a string at place `k`. -/
def rune? (id : Nat) (pieces : List Text) (k : Nat) : Reading (Option Rune) := do
  let t ← takenText id pieces
  match t[k]? with
  | some r => return some r
  | none   =>
    let n := piecesFor k pieces
    if ← reach id pieces.length n then return (pieces.take n).flatten[k]?
    return none

/-- All items of an array. -/
def allItems (id : Nat) (items : List Value) : Reading (List Value) := do
  let n ← drain id items.length
  return items.take n

/-- The item of an array at place `k`. -/
def item? (id : Nat) (items : List Value) (k : Nat) : Reading (Option Value) := do
  if ← reach id items.length (k + 1) then return items[k]?
  return none

/-- Applies a computation to the items of an array in turn, taking each item when it is needed
and the end after the last. -/
def mapItems {α : Type} (id : Nat) (items : List Value) (f : Value → Reading α) :
    Reading (List α) := go items.length 0
where
  /-- The items from place `k` on, `n` at most. -/
  go : Nat → Nat → Reading (List α)
    | 0, _     => do
      let _ ← drain id items.length
      return []
    | n + 1, k => do
      match ← item? id items k with
      | none   => return []
      | some v =>
        let x ← f v
        return x :: (← go n (k + 1))

end Reading

/-- The value of a number; a not-a-number gets a new identity. -/
def Value.ofDecimal (d : Decimal) : Reading Value := do
  if d.isNaN then return .number (← Reading.fresh) d
  return .number 0 d

end FilterShell
