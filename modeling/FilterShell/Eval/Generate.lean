import FilterShell.Eval.Combine

/-!
# Generators

What the filters yield that pass their operands' outputs on: brackets, clauses and operators.  An
operand is run where it is started, each on its own part of the input; a comma and a pair start the
right one first.  Outputs that are passed on, or of which only the first is needed, are taken as they
come; where all of them are needed, the generator waits for their end.
-/

namespace FilterShell.Generate

/-- Parentheses change nothing. -/
def parens (body : Program) : Generator := fun input => do
  return .ofRun (← body input)

/-- One array of all outputs, exceptions included. -/
def array (body : Program) : Generator := fun input => do
  let result ← body input
  if !result.closed then return .waiting
  Produced.ofReading do return [← Value.ofItems result.outputs]

/-- Collects the outputs that are pairs; the others give exceptions. -/
def pairs : List Value → StateM Store (Produced × List (Value × Value))
  | []     => return ({}, [])
  | v :: r => do
    match ← v.pair.run with
    | .ok p              =>
      let (produced, ps) ← pairs r
      return (produced, p :: ps)
    | .error .notPair    =>
      let (produced, ps) ← pairs r
      return ({ produced with documents := .value (.failure "type") :: produced.documents }, ps)
    | .error .pairLength =>
      let (produced, ps) ← pairs r
      return ({ produced with documents := .value (.failure "length") :: produced.documents }, ps)
    | .error f           => return (.ofFault f, [])

/-- One object of all outputs, which must be pairs. -/
def object (body : Program) : Generator := fun input => do
  let result ← body input
  let (produced, ps) ← pairs result.outputs
  produced.andThen do
    if !result.closed then return .waiting
    Produced.ofReading do return [← Value.ofPairs ps]

/-- What is yielded if the first output of an operand is needed and there is none: an exception, once it is
known that none will come. -/
def missing (r : Run) : Produced := if r.closed then .failure "empty" else .waiting

/-- The clauses of a conditional in turn.  Each condition reads a part of the input and decides
about the bodies up to the next condition; what a body has read is gone for what comes after
it. -/
def conditional : List (Text × Meaning) → Option Bool → Generator
  | [], _, _                        => return {}
  | (word, clause) :: rest, last, input => do
    if word = Text.ofString "if" || word = Text.ofString "elif" || word = Text.ofString "elseIf" then
      let result ← clause.run input.copy
      match result.outputs with
      | []     => return missing result
      | v :: _ =>
        if v.isException then return .ofValues [v]
        match ← v.truth.run with
        | .error f => return .ofFault f
        | .ok b    => conditional rest (some b) (input.next result.rest)
    else if word = Text.ofString "then" || word = Text.ofString "else" then
      match last with
      | none   => return .ofFault .missingClause
      | some b =>
        if b = (word = Text.ofString "then") then
          let result ← clause.run input
          (Produced.ofRun result).andThen (conditional rest last result.rest)
        else conditional rest last input
    else return .ofFault .unknownClause

/-- What the clauses of an attempt say. -/
structure Handlers where
  body      : Option Meaning := none
  /-- The exceptions that are caught and what handles them; a later one counts. -/
  caught    : List (Text × Meaning) := []
  otherwise : Option Meaning := none
  success   : Option Meaning := none
  /-- The names in `catch` clauses so far. -/
  names     : List Text := []

/-- What is yielded where a text was needed and there is none. -/
def noText (f : Fault) : Produced := if f.waits then .waiting else .failure "sensibleString"

/-- Reads off the clauses of an attempt.  A `then` handles all names that were caught so far. -/
def handlers : List (Text × Meaning) → Handlers → Stream →
    StateM Store (Except Produced (Handlers × Stream))
  | [], h, input                     => return .ok (h, input)
  | (word, clause) :: rest, h, input => do
    if word = Text.ofString "try" then handlers rest { h with body := some clause } input
    else if word = Text.ofString "catch" then
      match ← sensibleText clause.filter clause.run input.copy with
      | (.ok name, left) => handlers rest { h with names := h.names ++ [name] } (input.next left)
      | (.error f, _)    => return .error (noText f)
    else if word = Text.ofString "then" then
      handlers rest { h with caught := h.names.map (·, clause) ++ h.caught } input
    else if word = Text.ofString "except" then
      handlers rest { h with otherwise := some clause } input
    else if word = Text.ofString "else" then
      handlers rest { h with success := some clause } input
    else handlers rest h input

/-- Runs the body; its first exception is handled by the clause that catches its name.  Without an exception
the end of the body is waited for. -/
def attempt (clauses : List (Text × Meaning)) : Generator := fun input => do
  match ← handlers clauses {} input with
  | .error produced => return produced
  | .ok (h, input)  =>
    match h.body with
    | none      => return .ofFault .missingClause
    | some body =>
      let result ← body.run input.copy
      match result.outputs.findSome? Value.exception? with
      | some e =>
        match h.caught.lookup e.name <|> h.otherwise with
        | some m => return .ofRun (← m.run (input.next result.rest))
        | none   => return .ofValues [.exception e]
      | none =>
        if !result.closed then return .waiting
        match h.success with
        | some m => return .ofRun (← m.run (input.next result.rest))
        | none   => return .ofValues result.outputs

/-- The outputs of the first are the input of the second. -/
def pipe (left right : Program) : Generator := fun input => do
  let first ← left input
  return .ofRun (← right first.stream)

/-- The outputs of both.  The right one is started first. -/
def comma (left right : Program) : Generator := fun input => do
  let second ← right input.copy
  let first ← left (input.next second.rest)
  (Produced.ofRun first).andThen (return .ofRun second)

/-- Pairs of each output of the first with the first output of the second, which is started first. -/
def pair (left right : Program) : Generator := fun input => do
  let second ← right input.copy
  match second.outputs with
  | []     => return missing second
  | w :: _ =>
    let first ← left (input.next second.rest)
    (← Produced.ofReading (first.outputs.mapM fun v => Value.ofItems [v, w])).andThen
      (return .ending first.closed)

/-- An operation on the paired outputs of both; the right one is not started before the left one has
ended. -/
def combined (op : Value → Value → Reading Value) (left right : Program) : Generator :=
  fun input => do
    let first ← left input.copy
    if !first.closed then return .waiting
    let second ← right (input.next first.rest)
    if !second.closed then return .waiting
    Combine.all op (Combine.paired first.outputs second.outputs)

end FilterShell.Generate
