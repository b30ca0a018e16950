import FilterShell.Eval.Combine

/-!
# Built-in functions

The functions that programs can call, by name and number of arguments.  Arguments are filters;
each function runs them on the streams that it makes.
-/

namespace FilterShell

/-- Functions by name, each with the numbers of arguments it takes; no number stands for any. -/
abbrev Registry (α : Type) := List (Text × List (Option Int × α))

namespace Registry

variable {α : Type}

/-- The function of a name for a number of arguments. -/
def find? (r : Registry α) (name : Text) (count : Int) : Option α := do
  let vector ← r.lookup name
  vector.lookup (some count) <|> vector.lookup none

/-- The function of a name for a number of arguments, or why there is none. -/
def get (r : Registry α) (name : Text) (count : Int) : Except Fault α :=
  match r.find? name count, r.lookup name with
  | some f, _      => .ok f
  | none, some _   => .error .noKey
  | none, none     => .error .unknownFunction

/-- A function that takes `expected` arguments is called with `found`. -/
def checkCount (expected : Option Int) (found : Int) : Except Fault Unit :=
  match expected with
  | none   => .ok ()
  | some n => if n = found then .ok () else .error (.argumentCount n found)

/-- Some function has the name. -/
def knows (r : Registry α) (name : Text) : Bool := (r.lookup name).isSome

/-- The numbers of arguments that functions of a name take. -/
def counts (r : Registry α) (name : Text) : List (Option Int) :=
  ((r.lookup name).getD []).map (·.1)

/-- Adds a function; one of the same name and number of arguments is replaced. -/
def define (r : Registry α) (name : Text) (count : Option Int) (f : α) : Registry α :=
  let vector := (r.lookup name).getD []
  let vector :=
    if vector.any (·.1 = count) then vector.map fun (n, g) => (n, if n = count then f else g)
    else vector ++ [(count, f)]
  if r.knows name then r.map fun (n, v) => (n, if n = name then vector else v)
  else r ++ [(name, vector)]

end Registry

/-- A built-in function: its own name, and what it yields. -/
structure Builtin where
  name     : String
  generate : List Meaning → Generator

namespace Builtin

/-- One value, whatever the input. -/
def constant (v : Value) : Generator := fun _ => return .ofValues [v]

/-- The arguments of the program. -/
def argv : Generator := fun input =>
  return if input.env.withheld.context then .waiting
    else { documents := input.env.context.argv.map .text }

/-- Whether the program is the main one. -/
def isMain : Generator := fun input =>
  return if input.env.withheld.context then .waiting else .ofValues [.bool input.env.context.isMain]

/-- The first output of an index as a whole number; otherwise an exception. -/
def wholeIndex (index : Run) : Reading (Except Value Int) := do
  match index.outputs with
  | []            =>
    if !index.closed then throw .nothingWaiting
    return .error (.failure "empty")
  | .number _ d :: _ =>
    if ← Combine.isWhole d then return .ok d.toInt
    return .error (.failure "integer")
  | _ :: _        => return .error (.failure "type")

/-- The argument at a place; a negative place counts from the end. -/
def argument? (args : List Text) (k : Int) : Option Text :=
  let place := if k < 0 then k + args.length else k
  if place < 0 then none else args[place.toNat]?

/-- The argument of the program at a place. -/
def argvAt (index : Meaning) : Generator := fun input => do
  let result ← index.run input
  Produced.ofReading do
    match ← wholeIndex result with
    | .error e => return [e]
    | .ok k    =>
      if input.env.withheld.context then throw .nothingWaiting
      else match argument? input.env.context.argv k with
        | some t => return [← Value.ofText t]
        | none   => return [.failure "index"]

/-- Runs a filter on each value alone. -/
def each (body : Meaning) : List Value → Environment → StateM Store Produced
  | [], _       => return {}
  | v :: r, env => do
    (Produced.ofRun (← body.run { values := [v], env })).andThen (each body r env)

/-- The characters of a text as numbers. -/
def codes (t : Text) : Produced := .ofValues (t.map fun c => .ofNat c.code)

/-- The characters of strings as numbers.  Another value gives an exception and ends the outputs,
unless it is an empty container. -/
def explode : List Value → StateM Store Produced
  | []     => return {}
  | v :: r => do
    match v with
    | .string id pieces =>
      match ← (Reading.wholeText id pieces).run with
      | .ok t    => (codes t).andThen (explode r)
      -- the end of the string never comes, but its pieces do
      | .error f => return { codes pieces.flatten with fault := some f }
    | v =>
      let isEmpty : Reading Unit := match v with
        | .array id items  => do
          if (← Reading.item? id items 0).isSome then throw .misfit
        | .object id pairs => do
          let _ ← v.relations.mapKeys id pairs fun _ => (throw .misfit : Reading Unit)
        | _                => throw .misfit
      let first : Reading (List Value) := do
        isEmpty
        return []
      (Produced.failure "type").andThen do
        (← Produced.ofReading first).andThen (explode r)

/-- The rounds of `for`, one for each value.  What the body writes is split: one part is yielded, and the
other one is the input of the next round. -/
def forRounds (body : Meaning) : List Value → Stream → StateM Store Produced
  | [], _          => return {}
  | _ :: r, stream => do
    let (next, current) := (← body.run stream).stream.split
    (Produced.ofStream current).andThen (forRounds body r next)

/-- All stages of a reduction. -/
def forEach (initial body : Meaning) : Generator := fun input => do
  let (counted, start) := input.split
  let stream := (← initial.run start).stream
  (← forRounds body counted.values stream).andThen (return .ending counted.closed)

/-- The rounds of `reduce`, one for each value: each body reads what the one before it writes. -/
def reduceRounds (body : Meaning) : List Value → Stream → StateM Store Stream
  | [], stream     => return stream
  | _ :: r, stream => do reduceRounds body r (← body.run stream).stream

/-- The last stage of a reduction, which is known at the end of the input. -/
def reduce (initial body : Meaning) : Generator := fun input => do
  let (counted, start) := input.split
  let stream := (← initial.run start).stream
  let last ← reduceRounds body counted.values stream
  return if counted.closed then .ofStream last else .waiting

/-- The largest number that may be looked up as that of a character. -/
def maxCode : Int := Int.pow 2 31 - 1

/-- The pieces of an imploded string, and what is yielded behind it. -/
def implodedPieces (closed : Bool) : List Value → List Text × Produced
  | []     => ([], .ending closed)
  | v :: r =>
    match v with
    | .number _ d =>
      match d.isWhole? with
      | .error s  => ([], .ofFault (.arithmetic s))
      | .ok false => ([], .failure "integer")
      | .ok true  =>
        if d.toInt > maxCode || d.toInt < -maxCode - 1 then ([], .ofFault .countTooLarge)
        else match Rune.ofNat? d.toInt.toNat with
          | some c =>
            if d.toInt < 0 || c.isSurrogate then ([], .failure "unicode")
            else
              let (pieces, behind) := implodedPieces closed r
              ([c] :: pieces, behind)
          | none   => ([], .failure "unicode")
    | _ => ([], .failure "type")

/-- Behind the string there is nothing, an exception, or a fault. -/
theorem implodedPieces_cases (closed : Bool) (vs : List Value) : (implodedPieces closed vs).2 = {} ∨
    (∃ name, (implodedPieces closed vs).2 = .failure name) ∨
      ∃ f, (implodedPieces closed vs).2 = .ofFault f := by
  induction vs with
  | nil =>
    cases closed with
    | true => exact .inl rfl
    | false => exact .inr (.inr ⟨_, rfl⟩)
  | cons v r ih =>
    cases v with
    | number id d =>
      rw [implodedPieces]
      split
      · exact .inr (.inr ⟨_, rfl⟩)
      · exact .inr (.inl ⟨_, rfl⟩)
      · split
        · exact .inr (.inr ⟨_, rfl⟩)
        · split
          · split
            · exact .inr (.inl ⟨_, rfl⟩)
            · exact ih
          · exact .inr (.inl ⟨_, rfl⟩)
    | _ => exact .inr (.inl ⟨_, rfl⟩)

/-- One string of the characters with the given numbers.  It is yielded before they are read, so it
stays when one of them faults; but then it never ends. -/
def implode : Generator := fun input => do
  let (pieces, behind) := implodedPieces input.closed input.values
  let string : Reading (List Value) := do
    let id ← Reading.fresh
    if behind.fault.isSome then Reading.note id { ends := some [] }
    return [.string id ([] :: pieces)]
  (← Produced.ofReading string).andThen (return behind)

/-- The value at a place of the input. -/
def nth (index : Meaning) : Generator := fun input => do
  let (counted, start) := input.split
  let result ← index.run start
  Produced.ofReading do
    match ← wholeIndex result with
    | .error e => return [e]
    | .ok k    => match counted.values[k.toNat]? with
      | some v => return [v]
      | none   =>
        if !counted.closed then throw .nothingWaiting
        return [.failure "numValues"]

/-- The whole numbers below each number. -/
def range : List Value → StateM Store Produced
  | []     => return {}
  | v :: r => do
    let numbers : Reading (List Value) := do
      match v with
      | .number _ d =>
        if ← Combine.isWhole d then
          return (List.range d.toInt.toNat).map fun n => .ofNat n
        return [.failure "integer"]
      | _ => return [.failure "type"]
    (← Produced.ofReading numbers).andThen (range r)

/-- A function that takes no arguments. -/
def plain (name : String) (g : Generator) : Option Int × Builtin :=
  (some 0, ⟨name, fun _ => g⟩)

/-- A function of one argument. -/
def unary (name : String) (g : Meaning → Generator) : Option Int × Builtin :=
  (some 1, ⟨name, fun
    | [a] => g a
    | _   => fun _ => return {}⟩)

/-- A function of two arguments. -/
def binary (name : String) (g : Meaning → Meaning → Generator) : Option Int × Builtin :=
  (some 2, ⟨name, fun
    | [a, b] => g a b
    | _      => fun _ => return {}⟩)

/-- All built-in functions. -/
def registry : Registry Builtin :=
  [("argv", [plain "argv" argv, unary "argv" argvAt]),
   ("each", [unary "each" fun body input => each body input.values input.env]),
   ("empty", [plain "empty" fun _ => return {}]),
   ("explode", [plain "explode" fun input => explode input.values]),
   ("false", [plain "false" (constant (.bool false))]),
   ("isMain", [plain "isMain" isMain]),
   ("for", [binary "jqsh_for" forEach]),
   ("implode", [plain "implode" implode]),
   ("nth", [unary "nth" nth]),
   ("null", [plain "null" (constant .null)]),
   ("range", [plain "range" fun input => range input.values]),
   ("reduce", [binary "reduce" reduce]),
   ("true", [plain "true" (constant (.bool true))])]

end Builtin

end FilterShell
