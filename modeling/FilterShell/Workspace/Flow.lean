import FilterShell.Workspace.Basic

/-!
# Flow through channels

Items are pushed into channels and popped from them, a channel is ended, or moved into another, or
split.  A split channel appears to have ended at once: what waits in it is copied into the channels
that are split off, its followers, and what is pushed into it later is passed on to them, the end
included.  Attributes are passed on too, each when it is first set.

Channels are plain ones, or the strings, arrays and objects themselves.
-/

namespace FilterShell

/-- A channel of a workspace. -/
inductive Node where
  | plain (i : Nat)
  | container (id : Nat)

namespace Work

/-- The channel that a name stands for. -/
def node (name : Text) : Work Node := do
  match ← lookup name with
  | .channel i => return .plain i
  | .value v   => match v.id? with
    | some id => return .container id
    | none    => throw .noOperation

def inlet : Node → Work Inlet
  | .plain i      => return (← channelAt i).toInlet
  | .container id => inletAt id

def putInlet (n : Node) (p : Inlet) : Work Unit :=
  match n with
  | .plain i      => do setChannel i { ← channelAt i with toInlet := p }
  | .container id => setInlet id p

/-! ### Attributes -/

/-- Sets an attribute of a channel.  When it is set for the first time, it is set for the followers
as well; `fuel` bounds how far this goes. -/
def setFor (which : Attribute) (s : Setting) : Nat → Nat → Work Unit
  | 0, _        => return
  | fuel + 1, i => do
    let c ← channelAt i
    setChannel i { c with attributes := c.attributes.set which s }
    if (c.attributes.get? which).isNone then c.followers.forM (setFor which s fuel)

/-- Sets an attribute of a channel. -/
def setAttribute (n : Node) (which : Attribute) (s : Setting) : Work Unit := do
  let fuel := (← getThe Workspace).channels.length + 1
  match n with
  | .plain i      => setFor which s fuel i
  | .container id =>
    let p ← inletAt id
    setInlet id { p with attributes := p.attributes.set which s }
    if (p.attributes.get? which).isNone then p.followers.forM (setFor which s fuel)

/-- An attribute of a channel, once it is set. -/
def getAttribute (n : Node) (which : Attribute) : Work Setting := do
  match (← inlet n).attributes.get? which with
  | some s => return s
  | none   => throw .nothingWaiting

/-- Sets the attributes that are missing. -/
def completeAttributes (n : Node) : Work Unit := do
  let attributes := (← inlet n).attributes
  Attribute.all.forM fun a =>
    match attributes.get? a, attributes.completed.get? a with
    | none, some s => setAttribute n a s
    | _, _         => return

/-! ### Taking -/

/-- What a container gives when the piece at a place is taken from it. -/
def whole (v : Value) (place : Nat) : Work Given := do
  match v with
  | .string _ pieces => return .text (pieces[place]?.getD [])
  | .array _ items   => expose (items[place]?.getD .null)
  | .object id pairs =>
    match (← getThe Workspace).wholes.lookup (id, place) with
    | some g => return g
    | none   =>
      let (k, w) := pairs[place]?.getD (.null, .null)
      return .value (← reading (Value.ofItems [k, w]))
  | _                => throw .noOperation

/-- Takes an item out of a channel. -/
def pop (n : Node) : Work Given := do
  match n with
  | .plain i      =>
    let (result, c) := (← channelAt i).pop
    setChannel i c
    result
  | .container id =>
    let v ← contents id
    let place ← reading (match v with
      | .object _ pairs => v.relations.takePair? id pairs
      | v               => Reading.take? id v.size)
    match place with
    | none   => throw .exhausted
    | some k => whole v k

/-- How many reads a channel allows at most before its end is met. -/
def supply : Node → Work Nat
  | .plain i      => return (← channelAt i).waiting.length + 1
  | .container id => return (← contents id).size + 1

/-- Takes items until the end, `n` reads at most. -/
def popMany (node : Node) : Nat → Work (List Given)
  | 0     => return []
  | n + 1 => do
    let item ← try some <$> pop node
      catch
        | .exhausted => pure none
        | f          => throw f
    match item with
    | some g => return g :: (← popMany node n)
    | none   => return []

/-- Takes all items. -/
def popAll (n : Node) : Work (List Given) := do popMany n (← supply n)

/-- The data has been taken out of the channel, of `n` items at most. -/
def popUntil (node : Node) (sought : Given) (equal : Given → Given → Reading Bool) :
    Nat → Work Bool
  | 0     => return false
  | n + 1 => do
    match ← popMany node 1 with
    | g :: _ =>
      if ← reading (equal g sought) then return true
      popUntil node sought equal n
    | []     => return false

mutual

/-- Data in which every channel is the list of what it gives. -/
def collect : Given → Work Given
  | .channel i => return .list (← popAll (.plain i))
  | .list gs   => return .list (← collectAll gs)
  | .tuple gs  => return .tuple (← collectAll gs)
  | .dict es   => return .dict (← collectEntries es)
  | g          => return g

def collectAll : List Given → Work (List Given)
  | []     => return []
  | g :: r => do return (← collect g) :: (← collectAll r)

def collectEntries : List (Given × Given) → Work (List (Given × Given))
  | []          => return []
  | (k, g) :: r => do
    let entry := (← collect k, ← collect g)
    return entry :: (← collectEntries r)

end

/-! ### Giving -/

/-- Gives a signal to channels in turn by `give`; tells whether all of them took it.  A channel
that has ended already takes no item, and those after it are not asked. -/
def spread (give : Signal → Nat → Work Unit) (s : Signal) : List Nat → Work Bool
  | []      => return true
  | i :: is => do
    match s with
    | .stop   => give s i
    | .item g =>
      if (← channelAt i).closed then return false
      give (.item (.value (← reading g.toValue))) i
    spread give s is

/-- Puts a signal into the queue of a channel, or passes it on to the followers; `fuel` bounds how
far this goes. -/
def feedFor : Nat → Signal → Nat → Work Unit
  | 0, _, _        => return
  | fuel + 1, s, i => do
    let c ← channelAt i
    match s, c.spreading with
    | .item _, false => setChannel i (c.put s)
    | .item _, true  =>
      if !(← spread (feedFor fuel) s c.followers) then setChannel i { c with spreading := false }
    | .stop, false   => setChannel i c.close
    | .stop, true    =>
      setChannel i { c with closed := true, spreading := false }
      let _ ← spread (feedFor fuel) s c.followers

/-- Puts a signal into the queue of a channel, or passes it on to the followers. -/
def feed (s : Signal) (i : Nat) : Work Unit := do
  feedFor ((← getThe Workspace).channels.length + 1) s i

/-- Passes a signal on to the followers of a container. -/
def passOn (id : Nat) (s : Signal) : Work Unit := do
  let p ← inletAt id
  let all ← spread feed s p.followers
  match s with
  | .stop   => setInlet id { p with spreading := false }
  | .item _ => if !all then setInlet id { p with spreading := false }

/-- The piece that an item is in a container of the kind of `v`. -/
def piece (v : Value) (g : Given) : Reading Piece := do
  match v, g with
  | .string .., .text t => if t.isWellFormed then return .text t else throw .loneSurrogate
  | .string .., _       => throw .notText
  | .object .., g       => do
    let w ← g.toValue
    let (k, v) ← w.pair
    return .pair k v (.value w)
  | _, g                => return .item (← g.toValue)

/-- Puts a piece behind all others in a container; the ends that wait stay where they are. -/
def append (id : Nat) (p : Piece) : Work Unit := do
  if ← holdsBack id then return (← hold id (.piece p))
  let v ← contents id
  let progress ← reading (Reading.progress id)
  if progress.ends.isNone && !progress.ended then
    reading (Reading.note id { progress with ends := some [v.size] })
  modify (·.grow id p)
  if (← inletAt id).spreading then
    let v ← contents id
    let progress ← reading (Reading.progress id)
    reading (Reading.note id { progress with taken := progress.taken + 1 })
    if let .object _ pairs := v then reading (v.relations.enter id pairs progress.taken)
    passOn id (.item (← whole v progress.taken))

/-- Something that does not fit comes into a container: it waits there, or ends the passing on to
followers. -/
def refuse (id : Nat) (f : Fault) : Work Unit := do
  let p ← inletAt id
  if p.spreading then setInlet id { p with spreading := false } else hold id (.misfit f)

/-- An item as it stands in a container. -/
def stored : Given → Work Value
  | .text t => bareText t
  | g       => reading g.toValue

/-- The two parts of an item that make an entry of an object. -/
def entry (g : Given) : Work (Value × Value) := do
  let parts ← reading (match g with
    | .value v@(.object id pairs) =>
      return (← v.relations.mapKeys id pairs pure).map Given.value
    | g                           => g.parts)
  match parts with
  | [k, v] => return (← stored k, ← stored v)
  | _      => throw .badParts

/-- Puts an item into a channel as it is, whether the channel has ended or not. -/
def putItem (n : Node) (g : Given) : Work Unit := do
  match n with
  | .plain i      => feed (.item g) i
  | .container id => match ← contents id, g with
    | .string .., .text t => append id (.text t)
    | .string .., _       => refuse id .misfit
    | .object .., g       =>
      let e ← try some <$> entry g
        catch f => do
          refuse id f
          pure none
      if let some (k, v) := e then append id (.pair k v g)
    | _, g                => do append id (.item (← stored g))

/-- Pushes an item into a channel. -/
def push (n : Node) (g : Given) : Work Unit := do
  match n with
  | .plain i      =>
    let g ← collect g
    let v ← reading g.toValue
    if (← channelAt i).closed then throw .closed
    feed (.item (.value v)) i
  | .container id =>
    let v ← contents id
    let g ← match v with
      | .string .. => pure g
      | _          => collect g
    let p ← reading (piece v g)
    if (← inletAt id).closed then throw .closed
    append id p

/-- Ends a channel. -/
def terminate (n : Node) : Work Unit := do
  match n with
  | .plain i      => feed .stop i
  | .container id =>
    let p ← inletAt id
    setInlet id { p with closed := true }
    if p.spreading then passOn id .stop
    else if ← holdsBack id then hold id .stop
    else modify (·.stop id)

/-- Pushes an exception, if the channel takes it, and ends the channel with all attributes set.  A
text is the name of an exception. -/
def throwInto (n : Node) (g : Given) : Work Unit := do
  let g ← match g with
    | .text t                     => pure (.value (.exception { name := t }))
    | .value (.string id pieces)  =>
      let name ← reading (Reading.wholeText id pieces)
      pure (.value (.exception { name, boxed := true }))
    | g                           => pure g
  try push n g
  catch
    | .closed => pure ()
    | f       => throw f
  completeAttributes n
  terminate n

/-- Moves items of a channel into another, `k` at most. -/
def move (n source : Node) : Nat → Work Unit
  | 0     => return
  | k + 1 => do
    match ← popMany source 1 with
    | []     => return
    | g :: _ =>
      putItem n g
      move n source k

/-- Moves all items of a channel into another, and then ends that if so wished. -/
def pull (n source : Node) (close : Bool) : Work Unit := do
  if close then
    let p ← inlet n
    if p.closed then throw .closed
    putInlet n { p with closed := true }
  move n source (← supply source)
  if close then terminate n

/-! ### Splitting -/

/-- Passes on what still waits behind a split, up to the next end. -/
def spreadWaiting (i : Nat) : Nat → Work Unit
  | 0     => return
  | n + 1 => do
    let c ← channelAt i
    match c.waiting with
    | []        => return
    | s :: rest =>
      setChannel i { c with waiting := rest }
      let all ← spread feed s c.followers
      match s with
      | .item _ => if all then spreadWaiting i n
      | .stop   => return

/-- Takes the pieces of a container in front of its next end and behind `taken`, whether it seems
to have ended or not. -/
def takeRest (id : Nat) (v : Value) (upTo : Nat) : Nat → Work (List Given)
  | 0     => return []
  | n + 1 => do
    let progress ← reading (Reading.progress id)
    if upTo ≤ progress.taken then return []
    reading (Reading.note id { progress with taken := progress.taken + 1 })
    if let .object _ pairs := v then reading (v.relations.enter id pairs progress.taken)
    let g ← whole v progress.taken
    return g :: (← takeRest id v upTo n)

/-- New channels with the same items waiting and the attributes that are set. -/
def offspring (count : Nat) (items : List Given) (attributes : Attributes) : Work (List Nat) := do
  let values ← items.mapM fun g => reading g.toValue
  (List.replicate count ()).mapM fun _ =>
    newChannel { waiting := values.map fun v => .item (.value v), attributes }

/-- Splits a channel: gives the channels that are split off.  One that has ended gives a new
channel, the same every time. -/
def split (n : Node) (count : Nat) : Work (List Nat) := do
  match n with
  | .plain i      =>
    let c ← channelAt i
    if c.ended then
      if count = 0 then return []
      return List.replicate count (← newChannel .finished)
    let (items, rest) := c.detach
    setChannel i rest
    let followers ← offspring count items c.attributes
    setChannel i { rest with followers, spreading := rest.waiting.isEmpty }
    spreadWaiting i rest.waiting.length
    return followers
  | .container id =>
    let v ← contents id
    let progress ← reading (Reading.progress id)
    if progress.ended then
      if count = 0 then return []
      return List.replicate count (← newChannel .finished)
    if let some (.misfit f :: _) := (← getThe Workspace).held.lookup id then
      let _ ← takeRest id v v.size (v.size + 1)
      let progress ← reading (Reading.progress id)
      reading (Reading.note id { progress with ended := true })
      modify fun w => { w with held := w.held.filter (·.1 ≠ id) }
      throw f
    let ends := progress.ends.getD [v.size] ++ [v.size]
    reading (Reading.note id { progress with ended := true, ends := some ends.tail })
    let items ← takeRest id v (ends.head?.getD v.size) (v.size + 1)
    let p ← inletAt id
    let followers ← offspring count items p.attributes
    setInlet id { p with followers, spreading := true }
    match ends.tail with
    | []     => return followers
    | e :: r =>
      let progress ← reading (Reading.progress id)
      reading (Reading.note id { progress with ends := some r })
      let later ← takeRest id v e (v.size + 1)
      later.forM fun g => passOn id (.item g)
      passOn id .stop
      return followers

end Work

namespace Given

/-- The whole number that data counts as, if any. -/
def count? : Given → Option Int
  | .int n                          => some n
  | .bool b                         => some (if b then 1 else 0)
  | .binary x                       => x.toInt?
  | .text t                         => t.readInt? 10
  | .value (.number _ d@(.finite ..)) => some d.toInt
  | _                               => none

end Given

end FilterShell
