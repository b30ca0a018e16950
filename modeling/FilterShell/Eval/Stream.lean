import FilterShell.Value.Store

/-!
# Streams

Filters read a stream of values and write another.  A stream carries an environment with it: the
global and local variables, the formats, and the context of the program.

A stream need not end, and parts of its environment need not come.  A reader that asks for what
never comes waits forever: it writes nothing more, and does not end its own stream either.

When a stream is split, each reader gets a copy of what is still to be read, and the stream itself
counts as read to its end, as drained.  What is split off a drained stream is one new, empty stream,
with a new environment, and all readers share it: what the first of them reads is gone for the others.
-/

namespace FilterShell

/-- Variables and what they hold. -/
abbrev Namespace := List (Text × List Value)

namespace Namespace

/-- Binds a name; what it held is forgotten. -/
def bind (ns : Namespace) (name : Text) (values : List Value) : Namespace :=
  if ns.any (·.1 = name) then ns.map fun (n, vs) => if n = name then (n, values) else (n, vs)
  else ns ++ [(name, values)]

end Namespace

/-- The arguments of a program, and whether it is the main one. -/
structure Context where
  argv   : List Text := []
  isMain : Bool := true

namespace Context

/-- A context of its own with the same arguments. -/
def copy (c : Context) : Context := { argv := c.argv, isMain := c.isMain }

def addArgument (c : Context) (argument : Text) : Context := { c with argv := c.argv ++ [argument] }

/-- The context of a module that is imported; there is no way to make it. -/
def imported (_ : Context) : Except Fault Context := .error .moduleContext

end Context

/-- The parts of an environment that never come. -/
structure Withheld where
  globals : Bool := false
  locals  : Bool := false
  formats : Bool := false
  context : Bool := false
  deriving DecidableEq

structure Environment where
  globals  : Namespace := []
  locals   : Namespace := []
  formats  : Namespace := []
  context  : Context := {}
  withheld : Withheld := {}

namespace Environment

/-- All parts come. -/
def isComplete (env : Environment) : Bool := env.withheld = {}

/-- The variables and formats come. -/
def hasNames (env : Environment) : Bool :=
  !(env.withheld.globals || env.withheld.locals || env.withheld.formats)

/-- An environment of which nothing comes. -/
def unknown : Environment := { withheld := ⟨true, true, true, true⟩ }

/-- What does not come is taken to be empty. -/
def filled (env : Environment) : Environment := { env with withheld := {} }

/-- The same, but the local variables never come. -/
def withoutLocals (env : Environment) : Environment :=
  { env with locals := [], withheld := { env.withheld with locals := true } }

/-- The same, but the global variables never come. -/
def withoutGlobals (env : Environment) : Environment :=
  { env with globals := [], withheld := { env.withheld with globals := true } }

end Environment

structure Stream where
  values  : List Value := []
  env     : Environment := {}
  drained : Bool := false
  /-- The stream ends.  Otherwise its end never comes. -/
  closed  : Bool := true

namespace Stream

/-- The stream ends, and all of its environment comes. -/
def isComplete (s : Stream) : Bool := s.closed && s.env.isComplete

/-- What is still to be read, handed on through a new stream. -/
def forwarded (s : Stream) : Stream := { s with drained := false }

/-- The stream after it has been split. -/
def spent (s : Stream) : Stream := { s with values := [], drained := true, closed := true }

/-- The stream after everything has been read; only the end of it can be missing. -/
def read (s : Stream) : Stream := { s with values := [], drained := s.closed }

/-- A part of the stream for the first reader after a split. -/
def copy (s : Stream) : Stream := if s.drained then {} else s

/-- A part of the stream for the reader after one that has left `rest` of its own part. -/
def next (s rest : Stream) : Stream := if s.drained then rest else s

/-- Both parts of a split, before anything is read of them. -/
def split (s : Stream) : Stream × Stream := (s.copy, s.copy)

end Stream

/-- What running a filter gives: its outputs, whether they end, the environment after it, and what
is left of the input. -/
structure Run where
  outputs : List Value
  env     : Environment
  rest    : Stream
  closed  : Bool := true

namespace Run

/-- The outputs as the input of another filter. -/
def stream (r : Run) : Stream := { values := r.outputs, env := r.env, closed := r.closed }

/-- Outputs that never end, of a filter that waits forever; of its environment nothing comes. -/
def waiting (outputs : List Value) (rest : Stream) : Run :=
  { outputs, env := .unknown, rest, closed := false }

end Run

/-- A filter at work. -/
abbrev Program := Stream → StateM Store Run

end FilterShell
