import FilterShell.Eval.Stream
import FilterShell.Json.Basic

/-!
# What filters mean

Most filters are given by a generator, which reads a stream and yields values until it is done, fails
or waits forever; the last of these is the fault `nothingWaiting`.  `Program.ofGenerator` makes a
program of it, and `Program.ofBuiltin` does so for the functions that programs can call.

All filters work side by side.  Programs are run by one schedule: a filter that is started goes on as
far as it can before anything else happens.

`Meaning` is what is known of an operand.
-/

namespace FilterShell

/-- What a generator yields, and the fault that ended it. -/
structure Produced where
  documents : List Json.Document := []
  fault     : Option Fault := none

abbrev Generator := Stream → StateM Store Produced

namespace Produced

/-- Values, and no fault. -/
def ofValues (vs : List Value) : Produced := { documents := vs.map .value }

/-- One exception of a name. -/
def failure (name : String) : Produced := ofValues [Value.failure name]

def ofFault (f : Fault) : Produced := { fault := some f }

/-- Nothing, and then a wait that never ends. -/
def waiting : Produced := ofFault .nothingWaiting

/-- Nothing more, at the end of a stream that ends or never does. -/
def ending (closed : Bool) : Produced := if closed then {} else waiting

/-- The values of a stream, as they come. -/
def ofStream (s : Stream) : Produced := { ending s.closed with documents := s.values.map .value }

/-- The outputs of a filter, as they come. -/
def ofRun (r : Run) : Produced := ofStream r.stream

/-- What is yielded first, and what is yielded then unless a fault comes first. -/
def andThen (first : Produced) (second : StateM Store Produced) : StateM Store Produced := do
  match first.fault with
  | some _ => return first
  | none   =>
    let rest ← second
    return { rest with documents := first.documents ++ rest.documents }

/-- The outcome of a computation that yields values. -/
def ofReading (r : Reading (List Value)) : StateM Store Produced := do
  match ← r.run with
  | .ok vs   => return ofValues vs
  | .error f => return ofFault f

/-- The values, made one by one, and the fault that ended this. -/
def values : List Json.Document → StateM Store (List Value × Option Fault)
  | []     => return ([], none)
  | d :: r => do
    match ← d.toValue.run with
    | .error f => return ([], some f)
    | .ok v    =>
      let (vs, f) ← values r
      return (v :: vs, f)

end Produced

namespace Fault

/-- The fault is a wait that never ends. -/
def waits : Fault → Bool
  | .nothingWaiting => true
  | _               => false

/-- The exception that a fault inside a filter becomes. -/
def toException (f : Fault) : Value :=
  .exception { name := "internal", details := [("python_exception", .fault f)] }

/-- The exception that ends the outputs of a filter with this fault; one that waits has none. -/
def exception? (f : Fault) : Option Value := if f.waits then none else some f.toException

end Fault

/-- Values up to the first exception, that included. -/
def cutAtException : List Value → List Value
  | []     => []
  | v :: r => if v.isException then [v] else v :: cutAtException r

/-- The values before the first exception, the exception, and the values behind it. -/
def splitAtException : List Value → List Value × Option (Value × List Value)
  | []     => ([], none)
  | v :: r =>
    if v.isException then ([], some (v, r))
    else
      let (before, found) := splitAtException r
      (v :: before, found)

namespace Program

/-- The program of a generator.  Its outputs end with the first exception, and a fault becomes one.

An exception in the input ends the outputs too.  The generator gets to read it, but not that nothing
follows: what it yields only then is not passed on. -/
def ofGenerator (g : Generator) : Program := fun input => do
  let (before, found) := splitAtException input.values
  let read : Stream := match found with
    | some (e, _) => { input.forwarded with values := before ++ [e], closed := false }
    | none        => { input.forwarded with values := before }
  let produced ← g read
  let (vs, f) ← Produced.values produced.documents
  let fault := f <|> produced.fault
  let outputs := cutAtException (vs ++ (fault.bind Fault.exception?).toList)
  -- an exception that comes of a fault ends the outputs at once
  let threw := !vs.any Value.isException && fault.any (!·.waits)
  match found with
  | some (e, after) =>
    return { outputs := if threw then outputs else outputs ++ [e], env := input.env.filled
             rest    := { input with values := after } }
  | none =>
    let done := fault.isNone || outputs.any Value.isException
    return { outputs, env := if threw then input.env.filled else input.env, rest := input.read
             closed  := threw || input.isComplete && done }

/-- The program of a built-in function.  All that it yields is passed on, and a fault ends it without a
word.  An exception in the input is passed on as soon as it is read, and is the last that is read. -/
def ofBuiltin (g : Generator) : Program := fun input => do
  let (before, found) := splitAtException input.values
  let start ← get
  let produced ← g { input.forwarded with values := before, closed := found.isSome || input.closed }
  let (vs, f) ← Produced.values produced.documents
  let done := !(f <|> produced.fault).any Fault.waits
  match found with
  | some (e, after) =>
    -- what it yields only at the end of the input comes behind the exception
    let early := ((g { input.forwarded with values := before, closed := false }).run start).1
    let n := early.documents.length
    return { outputs := vs.take n ++ e :: vs.drop n, env := input.env
             rest    := { input with values := after }, closed := input.env.isComplete && done }
  | none =>
    return { outputs := vs, env := input.env, rest := input.read, closed := input.isComplete && done }

/-- A program that gives outputs and one exception, and forgets the environment. -/
def thrown (outputs : List Value) (e : Value) (rest : Stream) : Run :=
  { outputs := outputs ++ [e], env := {}, rest }

end Program

structure Meaning where
  filter   : Filter
  run      : Program
  generate : Generator := fun _ => return {}
  /-- The operand of a command or a global variable. -/
  inner    : Program := fun input => return { outputs := [], env := input.env, rest := input }

namespace Meaning

/-- The meaning of a filter that is given by a generator. -/
def ofGenerator (filter : Filter) (g : Generator) : Meaning where
  filter
  run      := .ofGenerator g
  generate := g

end Meaning

/-- The text of the first output of a filter, where a text is needed; a name stands for itself. -/
def sensibleText (f : Filter) (run : Program) (input : Stream) :
    StateM Store (Except Fault Text × Stream) := do
  match f with
  | .name n => return (.ok n, input)
  | _       =>
    let result ← run input
    match result.outputs with
    | [] => return (.error (if result.closed then .exhausted else .nothingWaiting), result.rest)
    | .string id pieces :: _ => return (← (Reading.wholeText id pieces).run, result.rest)
    | v :: _ => return (.error (.textNeeded v.kind.word), result.rest)

end FilterShell
