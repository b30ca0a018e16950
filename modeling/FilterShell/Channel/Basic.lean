import FilterShell.Eval.Stream
import FilterShell.Value.Given

/-!
# Channels

A channel is a queue between a producer and a consumer.  The producer pushes items and ends the
channel; the consumer pops items until it meets the end.  `closed` says that the producer has
ended it and `ended` that the consumer has met the end; more ends may wait behind the first, and
are never met.

A channel also carries attributes, the parts of an environment, each of which may still be
missing.
-/

namespace FilterShell

/-- What waits in a channel. -/
inductive Signal where
  | item (g : Given)
  | stop

def Signal.isStop : Signal → Bool
  | .item _ => false
  | .stop   => true

/-- The attributes of a channel. -/
inductive Attribute where
  | globals | locals | formats | context
  deriving DecidableEq

/-- What an attribute is set to. -/
inductive Setting where
  | data (g : Given)
  | context (c : Context)

structure Attributes where
  globals : Option Setting := none
  locals  : Option Setting := none
  formats : Option Setting := none
  context : Option Setting := none

namespace Attributes

def get? (a : Attributes) : Attribute → Option Setting
  | .globals => a.globals
  | .locals  => a.locals
  | .formats => a.formats
  | .context => a.context

def set (a : Attributes) (which : Attribute) (s : Setting) : Attributes :=
  match which with
  | .globals => { a with globals := some s }
  | .locals  => { a with locals := some s }
  | .formats => { a with formats := some s }
  | .context => { a with context := some s }

/-- Missing attributes are set to empty namespaces and a new context. -/
def completed (a : Attributes) : Attributes where
  globals := a.globals <|> some (.data (.dict []))
  locals  := a.locals <|> some (.data (.dict []))
  formats := a.formats <|> some (.data (.dict []))
  context := a.context <|> some (.context {})

end Attributes

/-- The attributes that are namespaces. -/
def Attribute.namespaces : List Attribute := [.globals, .locals, .formats]

/-- All attributes. -/
def Attribute.all : List Attribute := namespaces ++ [.context]

/-- The producer's side of a channel, also of one that is a string, an array or an object. -/
structure Inlet where
  closed     : Bool := false
  attributes : Attributes := {}
  /-- The channels that were split off. -/
  followers  : List Nat := []
  /-- What is pushed is passed on to the followers. -/
  spreading  : Bool := false

/-- The producer's side of a channel that was complete when it was made. -/
def Inlet.complete : Inlet := { closed := true, attributes := ({} : Attributes).completed }

structure Channel extends Inlet where
  waiting : List Signal := []
  ended   : Bool := false

namespace Channel

/-- An empty channel that has ended, with an environment of its own. -/
def finished : Channel := { Inlet.complete with waiting := [.stop] }

/-- Puts something into the queue. -/
def put (c : Channel) (s : Signal) : Channel := { c with waiting := c.waiting ++ [s] }

/-- The producer ends the channel. -/
def close (c : Channel) : Channel := { c.put .stop with closed := true }

/-- The consumer pops an item. -/
def pop (c : Channel) : Except Fault Given × Channel :=
  if c.ended then (.error .exhausted, c)
  else match c.waiting with
    | []           => (.error .nothingWaiting, c)
    | .item g :: r => (.ok g, { c with waiting := r })
    | .stop :: r   => (.error .exhausted, { c with waiting := r, ended := true })

/-- The items in front of the first end, and what is behind it. -/
def toStop : List Signal → List Given × List Signal
  | []           => ([], [])
  | .stop :: r   => ([], r)
  | .item g :: r => let (gs, rest) := toStop r; (g :: gs, rest)

/-- Takes the items that wait, up to the end.  The channel appears to have ended; what is pushed
later is found behind a mark. -/
def detach (c : Channel) : List Given × Channel :=
  let (gs, rest) := toStop (c.waiting ++ [.stop])
  (gs, { c with waiting := rest, ended := true })

end Channel

end FilterShell
