import FilterShell.Channel.Basic
import FilterShell.Value.Datum

/-!
# Workspaces

A workspace holds channels and values under names and lets them be used step by step.  Strings,
arrays and objects are channels too: what is pushed into one goes into its content wherever the
value is held, and the producer's side of it is kept under its identity.

What is moved from one channel into another is not looked at before it is taken.  So a text in an
array may be no string (it is noted as bare), and what does not fit into a string or an object is held
back, with all that waits behind it, until a read meets it and fails.
-/

namespace FilterShell

/-- A piece that is pushed into a container. -/
inductive Piece where
  | text (t : Text)
  | item (v : Value)
  /-- An entry, and what it was made of. -/
  | pair (k v : Value) (whole : Given)

namespace Value

mutual

/-- Adds a piece to the container of an identity, wherever it is. -/
def grow (id : Nat) (p : Piece) : Value → Value
  | .string i pieces => match p with
    | .text t => .string i (if i = id then pieces ++ [t] else pieces)
    | _       => .string i pieces
  | .array i items   =>
    let items := growItems id p items
    match p with
    | .item v => .array i (if i = id then items ++ [v] else items)
    | _       => .array i items
  | .object i pairs  =>
    let pairs := growPairs id p pairs
    match p with
    | .pair k v _ => .object i (if i = id then pairs ++ [(k, v)] else pairs)
    | _           => .object i pairs
  | v => v

def growItems (id : Nat) (p : Piece) : List Value → List Value
  | []     => []
  | v :: r => grow id p v :: growItems id p r

def growPairs (id : Nat) (p : Piece) : List (Value × Value) → List (Value × Value)
  | []          => []
  | (k, v) :: r => (grow id p k, grow id p v) :: growPairs id p r

end

mutual

/-- The container of an identity is the value or in it. -/
def mentions (id : Nat) : Value → Bool
  | .string i _     => i = id
  | .array i items  => i = id || itemsMention id items
  | .object i pairs => i = id || pairsMention id pairs
  | _               => false

def itemsMention (id : Nat) : List Value → Bool
  | []     => false
  | v :: r => mentions id v || itemsMention id r

def pairsMention (id : Nat) : List (Value × Value) → Bool
  | []          => false
  | (k, v) :: r => mentions id k || mentions id v || pairsMention id r

end

/-- How many pieces a container holds. -/
def size : Value → Nat
  | .string _ pieces => pieces.length
  | .array _ items   => items.length
  | .object _ pairs  => pairs.length
  | _                => 0

end Value

/-- The piece has the container of an identity in it. -/
def Piece.mentions (id : Nat) : Piece → Bool
  | .text _     => false
  | .item v     => v.mentions id
  | .pair k v _ => k.mentions id || v.mentions id

/-- What is held back from a container. -/
inductive Held where
  /-- Something that does not fit: the read that takes it fails. -/
  | misfit (f : Fault)
  | piece (p : Piece)
  | stop

/-- What a name stands for. -/
inductive Ref where
  | channel (i : Nat)
  | value (v : Value)

structure Workspace where
  channels : List Channel := []
  /-- The producers' sides of containers; one that is not here was complete when it was made. -/
  inlets   : List (Nat × Inlet) := []
  names    : List (Text × Ref) := []
  /-- Attributes of values that are no channels, by name. -/
  labels   : List (Text × Attributes) := []
  /-- The strings that stand for bare texts. -/
  bare     : List Nat := []
  /-- What entries of objects were made of, by object and place. -/
  wholes   : List ((Nat × Nat) × Given) := []
  /-- What is held back from containers, a misfit first. -/
  held     : List (Nat × List Held) := []
  /-- The containers that are in themselves. -/
  knots    : List Nat := []
  store    : Store := {}

namespace Workspace

/-- The container of an identity, as it is now. -/
def container? (w : Workspace) (id : Nat) : Option Value :=
  w.names.findSome? fun (_, r) => match r with
    | .value v => if v.id? = some id then some v else none
    | _        => none

/-- Adds a piece to the end of a container, wherever the workspace holds it. -/
def grow (w : Workspace) (id : Nat) (p : Piece) : Workspace :=
  { w with
    names    := w.names.map fun (n, r) => (n, match r with
      | .value v => .value (v.grow id p)
      | r        => r)
    channels := w.channels.map fun c => { c with
      waiting := c.waiting.map fun
        | .item (.value v) => .item (.value (v.grow id p))
        | s                => s }
    wholes   := match p, w.container? id with
      | .pair _ _ g, some v => ((id, v.size), g) :: w.wholes
      | _, _                => w.wholes
    knots    := if p.mentions id then id :: w.knots else w.knots }

/-- Adds an end behind all pieces of a container. -/
def stop (w : Workspace) (id : Nat) : Workspace :=
  match w.container? id with
  | none   => w
  | some v =>
    let p := w.store.get id
    { w with store := w.store.put id { p with ends := some (p.ends.getD [v.size] ++ [v.size]) } }

/-- Gives what was held back to a container, up to the next misfit. -/
def release (w : Workspace) (id : Nat) : List Held → Workspace
  | .piece p :: r => (w.grow id p).release id r
  | .stop :: r    => (w.stop id).release id r
  | rest          =>
    let others := w.held.filter (·.1 ≠ id)
    { w with held := if rest.isEmpty then others else (id, rest) :: others }

/-- The container whose next piece is a misfit that a read has met, with the fault and what is held
back behind it. -/
def misfit? (w : Workspace) : Option (Nat × Fault × List Held) :=
  w.held.findSome? fun (id, held) => match held, w.container? id with
    | .misfit f :: rest, some v =>
      if v.size ≤ (w.store.get id).taken then some (id, f, rest) else none
    | _, _                      => none

end Workspace

/-- A step in a workspace.  What it has done stays done when it fails. -/
abbrev Work := ExceptT Fault (StateM Workspace)

namespace Work

/-- A computation that reads containers.  A read that finds nothing waiting may have met a misfit;
the misfit is gone then. -/
def reading {α : Type} (r : Reading α) : Work α := do
  let w ← getThe Workspace
  let (result, store) := r.run.run w.store
  let w := { w with store }
  match result, w.misfit? with
  | .error .nothingWaiting, some (id, f, rest) =>
    set (w.release id rest)
    throw f
  | result, _ =>
    set w
    result

/-- What a name stands for. -/
def lookup (name : Text) : Work Ref := do
  match (← getThe Workspace).names.lookup name with
  | some r => return r
  | none   => throw .noKey

/-- Gives a name to something. -/
def bind (name : Text) (r : Ref) : Work Unit :=
  modify fun w => { w with
    names  := (name, r) :: w.names.filter (·.1 ≠ name)
    labels := w.labels.filter (·.1 ≠ name) }

/-- The container of an identity, as it is now. -/
def contents (id : Nat) : Work Value := do
  match (← getThe Workspace).container? id with
  | some v => return v
  | none   => throw .noOperation

def channelAt (i : Nat) : Work Channel := do
  return ((← getThe Workspace).channels[i]?).getD {}

def setChannel (i : Nat) (c : Channel) : Work Unit :=
  modify fun w => { w with channels := w.channels.set i c }

/-- A new channel. -/
def newChannel (c : Channel) : Work Nat := do
  let w ← getThe Workspace
  set { w with channels := w.channels ++ [c] }
  return w.channels.length

/-- The producer's side of a container. -/
def inletAt (id : Nat) : Work Inlet := do
  return ((← getThe Workspace).inlets.lookup id).getD .complete

def setInlet (id : Nat) (p : Inlet) : Work Unit :=
  modify fun w => { w with inlets := (id, p) :: w.inlets.filter (·.1 ≠ id) }

/-- Holds something back from a container. -/
def hold (id : Nat) (h : Held) : Work Unit :=
  modify fun w =>
    { w with held := (id, (w.held.lookup id).getD [] ++ [h]) :: w.held.filter (·.1 ≠ id) }

/-- Something is held back from a container. -/
def holdsBack (id : Nat) : Work Bool := do
  return ((← getThe Workspace).held.lookup id).isSome

/-! ### Bare texts -/

/-- A value that stands for a bare text. -/
def bareText (t : Text) : Work Value := do
  let w ← getThe Workspace
  let id := w.store.next
  set { w with store := { w.store with next := id + 1 }, bare := id :: w.bare }
  return .string id [t]

/-- A value as it is given out: one that stands for a bare text is that text. -/
def expose (v : Value) : Work Given := do
  match v with
  | .string id pieces =>
    if (← getThe Workspace).bare.contains id then return .text pieces.flatten else return .value v
  | v                 => return .value v

end Work

end FilterShell
