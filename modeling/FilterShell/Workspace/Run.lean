import FilterShell.Workspace.Flow
import FilterShell.Value.Search
import FilterShell.Eval.Run
import FilterShell.Filter.Parse

/-!
# Running a program on a channel

A plain channel is read from its front, and what the program does not read stays there.  A string, an
array or an object can be read in two ways: most filters go through it from the first place on,
whatever has been taken before, and the others take what has not been taken yet (`Filter.intake`).

A dot alone passes on what it takes without making values of it, so the pieces of a string stay
texts.
-/

namespace FilterShell

/-- What a program reads of a container that is its input. -/
inductive Intake where
  | nothing
  /-- Everything from the first place on, up to an exception. -/
  | everything
  /-- What has not been taken. -/
  | untaken

namespace Filter

/-- The filter passes on its input. -/
def passesOn : Filter → Bool
  | .binary .dot l r => l.isEmpty && r.isEmpty
  | .apply parts     => parts.all isEmpty
  | _                => false

/-- What a filter reads of a container that is its input, where `locals` are the variables. -/
def intake (locals : Namespace) : Filter → Intake
  | .name n =>
    if (locals.lookup n).isNone && (Builtin.registry.find? n 0).isSome then .everything
    else .nothing
  | .binary .dot (.number _ _) (.number _ _) | .apply [.number _ _, .number _ _] => .nothing
  | .binary .dot .. | .apply _ | .binary .assign .. | .binary .semicolon .. => .untaken
  | .globalVariable (.name _) => .nothing
  | .globalVariable f => f.intake locals
  | _ => .everything

end Filter

/-- The input that a container is from place `k` on, up to an exception, `n` values at most. -/
def Value.inputFrom (v : Value) (k : Nat) : Nat → Reading (List Value)
  | 0     => return []
  | n + 1 => do
    match ← v.part? k with
    | none   => return []
    | some g =>
      let w ← g.toValue
      if w.isException then return [w]
      return w :: (← v.inputFrom (k + 1) n)

/-- The input that a container is: the characters of a string, the items of an array or the keys of
an object. -/
def Value.input (v : Value) : Reading (List Value) := do
  match v with
  | .object .. => return cutAtException (← (← v.visit none).mapM Given.toValue)
  | v          => v.inputFrom 0 v.places

namespace Work

/-- The variables that data holds: a list of values under each name. -/
def namespaceOf : Option Setting → Reading Namespace
  | some (.data (.dict es)) => es.mapM fun (k, g) => do
    return (← k.asText, ← Given.toValues (← g.parts))
  | _                       => return []

/-- The environment that attributes make; what is missing does not come. -/
def environment (a : Attributes) : Reading Environment := do
  return {
    globals  := ← namespaceOf a.globals
    locals   := ← namespaceOf a.locals
    formats  := ← namespaceOf a.formats
    context  := match a.context with
      | some (.context c) => c
      | _                 => {}
    withheld := ⟨a.globals.isNone, a.locals.isNone, a.formats.isNone, a.context.isNone⟩ }

/-- The stream that a plain channel is for a program. -/
def streamOf (i : Nat) : Work Stream := do
  let c ← channelAt i
  let values ← (Channel.toStop c.waiting).1.mapM fun g => reading g.toValue
  let env ← reading (environment c.attributes)
  return { values, env, drained := c.ended, closed := c.ended || c.waiting.any Signal.isStop }

/-- Runs a filter on a stream. -/
def runFilter (f : Filter) (input : Stream) : Work Run := do
  let w ← getThe Workspace
  let (result, store) := (f.run input).run w.store
  set { w with store }
  return result

/-- Runs a filter on a plain channel; what it does not read stays there. -/
def runOnPlain (f : Filter) (i : Nat) : Work Run := do
  let input ← streamOf i
  let c ← channelAt i
  let result ← runFilter f input
  let left := result.rest.values.map fun v => Signal.item (.value v)
  let behind := (Channel.toStop c.waiting).2
  setChannel i { c with
    waiting := if c.ended then c.waiting
      else if result.rest.drained then behind
      else left ++ (if input.closed then .stop :: behind else [])
    ended   := result.rest.drained }
  return result

/-- Runs a filter on a container. -/
def runOnContainer (f : Filter) (id : Nat) : Work Run := do
  let env ← reading (environment (← inletAt id).attributes)
  let input : Stream ← match f.intake env.locals with
    | .nothing    => pure { env }
    | .everything => do
      let v ← contents id
      pure { values := ← reading v.input, env }
    | .untaken    => do
      let drained := (← reading (Reading.progress id)).ended
      let items ← popAll (.container id)
      pure { values := ← items.mapM fun g => reading g.toValue, env, drained }
  runFilter f input

/-- Runs a program on a channel and takes all its outputs. -/
def runOn (n : Node) (source : Text) : Work (List Given) := do
  match Filter.ofSource .everything false source with
  | .error e => throw (.parse e)
  | .ok f    =>
    if f.passesOn then popAll n
    else
      let result ← match n with
        | .plain i      => runOnPlain f i
        | .container id => runOnContainer f id
      if !result.closed then throw .nothingWaiting
      return result.outputs.map .value

end Work

end FilterShell
