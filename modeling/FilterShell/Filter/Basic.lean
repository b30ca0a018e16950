import FilterShell.Decimal.Basic

/-!
# Filters

A filter is a program: it reads a stream of values and writes one.  Operands may be missing; the empty
filter stands in their place.

`if` and `try` hold a list of clauses, each a keyword with a filter: `if true then 1 end` has the
clauses `if` and `then`.  A dot between two filters is an operator; filters that follow each
other without an operator are one application with several parts.

Tokens that were not scanned may lack their text.  A name or string that is read from such a token
can be shown in messages, but not written.
-/

namespace FilterShell

/-- The operators with two operands, tightest first. -/
inductive Operator where
  | dot | multiply | add | pair | comma | assign | pipe | semicolon
deriving DecidableEq, Repr

inductive Filter where
  | empty
  | parens (body : Filter)
  | array (body : Filter)
  | object (body : Filter)
  | conditional (clauses : List (Text × Filter))
  | attempt (clauses : List (Text × Filter))
  | name (name : Text)
  /-- A name whose text is missing. -/
  | nameless
  /-- A number as written, and its value. -/
  | number (digits : Text) (value : Decimal)
  | string (text : Text)
  /-- A string whose text is missing. -/
  | textless
  | binary (operator : Operator) (left right : Filter)
  /-- Several filters after each other. -/
  | apply (parts : List Filter)
  | command (body : Filter)
  | globalVariable (body : Filter)
deriving Inhabited

namespace Filter

/-- The kinds of filters. -/
inductive Kind where
  | empty | parens | array | object | conditional | attempt | name | number | string
  | pipe | add | apply | assign | comma | multiply | pair | semicolon
  | command | globalVariable
deriving DecidableEq, Repr

/-- The kind of an operator's filter. -/
def Kind.ofOperator : Operator → Kind
  | .dot       => .apply
  | .multiply  => .multiply
  | .add       => .add
  | .pair      => .pair
  | .comma     => .comma
  | .assign    => .assign
  | .pipe      => .pipe
  | .semicolon => .semicolon

/-- The kind of a filter. -/
def kind : Filter → Kind
  | .empty            => .empty
  | .parens _         => .parens
  | .array _          => .array
  | .object _         => .object
  | .conditional _    => .conditional
  | .attempt _        => .attempt
  | .name _           => .name
  | .nameless         => .name
  | .number _ _       => .number
  | .string _         => .string
  | .textless         => .string
  | .binary op _ _    => .ofOperator op
  | .apply _          => .apply
  | .command _        => .command
  | .globalVariable _ => .globalVariable

/-- The words for the kinds. -/
def Kind.words : List (Kind × String) :=
  [(.empty, "Filter"), (.parens, "Parens"), (.array, "Array"), (.object, "Object"),
   (.conditional, "Conditional"), (.attempt, "Try"), (.name, "Name"),
   (.number, "NumberLiteral"), (.string, "StringLiteral"), (.pipe, "Pipe"), (.add, "Add"),
   (.apply, "Apply"), (.assign, "Assign"), (.comma, "Comma"), (.multiply, "Multiply"),
   (.pair, "Pair"), (.semicolon, "Semicolon"), (.command, "Command"),
   (.globalVariable, "GlobalVariable")]

/-- The word for a kind. -/
def Kind.word (k : Kind) : String :=
  match words.find? (·.1 = k) with
  | some (_, w) => w
  | none        => ""

/-- The kind with a given word. -/
def Kind.ofWord? (w : String) : Option Kind := (words.find? (·.2 = w)).map (·.1)

/-- Nothing stands here. -/
def isEmpty : Filter → Bool
  | .empty => true
  | _      => false

end Filter

end FilterShell
