import FilterShell.Fault
import FilterShell.Decimal.Binary

/-!
# Values

The values that programs work on.  A string, array or object is filled and read piece by piece, and
can be reached by several ways; so each carries an identity, under which a `Store` keeps how far it has
been read.  A value itself holds everything that was put into its containers: the pieces of a string,
the items of an array, and the pairs of an object in the order they came, repeated keys included.

A not-a-number equals nothing, itself included, but it can still be found again where it was put:
it has an identity too.
-/

namespace FilterShell

/-- What an exception tells beyond its name. -/
inductive Detail where
  | null
  | flag (b : Bool)
  | int (n : Int)
  | binary (x : Binary)
  | text (t : Text)
  | list (items : List Detail)
  | record (fields : List (Text × Detail))
  /-- A set of numbers of arguments. -/
  | counts (ns : List Int)
  | filter (f : Filter)
  | fault (f : Fault)
  deriving Inhabited

/-- An exception of the shell; exceptions are told apart by their names alone. -/
structure Exception where
  name    : Text
  details : List (Text × Detail) := []
  /-- The name was given as a string value, which messages show. -/
  boxed   : Bool := false
  deriving Inhabited

inductive Value where
  | exception (e : Exception)
  | null
  | bool (b : Bool)
  /-- A number; its identity tells not-a-numbers apart and is zero for all others. -/
  | number (id : Nat) (d : Decimal)
  | string (id : Nat) (pieces : List Text)
  | array (id : Nat) (items : List Value)
  | object (id : Nat) (pairs : List (Value × Value))
  deriving Inhabited

namespace Value

/-- The kinds of values, in the order of the values. -/
inductive Kind where
  | exception | null | bool | number | string | array | object
  deriving DecidableEq

def kind : Value → Kind
  | .exception _ => .exception
  | .null        => .null
  | .bool _      => .bool
  | .number ..   => .number
  | .string ..   => .string
  | .array ..    => .array
  | .object ..   => .object

/-- The place of a kind in the order of the kinds. -/
def Kind.rank : Kind → Nat
  | .exception => 0
  | .null      => 1
  | .bool      => 2
  | .number    => 3
  | .string    => 4
  | .array     => 5
  | .object    => 6

/-- The name of a kind. -/
def Kind.word : Kind → String
  | .exception => "JQSHException"
  | .null      => "Null"
  | .bool      => "Boolean"
  | .number    => "Number"
  | .string    => "String"
  | .array     => "Array"
  | .object    => "Object"

/-- A whole number. -/
def ofNat (n : Nat) : Value := .number 0 (.ofNat n)

/-- An exception with nothing but a name. -/
def failure (name : String) : Value := .exception { name }

/-- The exception of a value that is one. -/
def exception? : Value → Option Exception
  | .exception e => some e
  | _            => none

def isException (v : Value) : Bool := v.exception?.isSome

/-- The identity of a container. -/
def id? : Value → Option Nat
  | .string i _ | .array i _ | .object i _ => some i
  | _                                      => none

/-- Both are the same container or the same not-a-number. -/
def same : Value → Value → Bool
  | .number i d, .number j d' => d.isNaN && d'.isNaN && i = j
  | a, b                      => match a.id?, b.id? with
    | some i, some j => i = j
    | _, _           => false

mutual

/-- How deep containers are nested in a value. -/
def depth : Value → Nat
  | .array _ items   => depthItems items
  | .object _ pairs  => depthPairs pairs
  | _                => 0

def depthItems : List Value → Nat
  | []     => 0
  | v :: r => max (depth v + 1) (depthItems r)

def depthPairs : List (Value × Value) → Nat
  | []          => 0
  | (k, v) :: r => max (max (depth k + 1) (depth v + 1)) (depthPairs r)

end

end Value

end FilterShell
