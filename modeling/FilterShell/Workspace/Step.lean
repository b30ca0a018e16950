import FilterShell.Workspace.Run
import FilterShell.Value.Slice

/-!
# Steps

A step makes a channel or a value and gives it a name, or does something with what a name stands
for.  `Work.perform` carries out a step and gives the reply to it.  `Work.standing` tells how a
channel stands: whether it has been ended, whether its end has been met, and how much a container
has taken.
-/

namespace FilterShell

/-- What is done with the channel or value of a name. -/
inductive Action where
  | push (g : Given)
  | pop
  | drain
  | pull (source : Text) (close : Bool)
  | split (count : Given) (names : List Text)
  | terminate
  | throw (g : Given)
  | attributes
  | get (which : Attribute)
  | set (which : Attribute) (s : Setting)
  | namespaces
  | takeNamespaces (source : Text) (withContext : Bool)
  | passAttribute (which : Attribute) (targets : List Text)
  | length | text | shown | truth | isPlain | hash | plain | settle
  | item (key : Given)
  | slice (start stop step : Given)
  | visit (limit : Option Nat)
  | backward
  | contains (g : Given)
  | indexOf (g : Given)
  | occurrences (g : Given)
  | keys | keyList | values | entries | viewLengths
  | lookup (key : Given)
  | compare (c : Comparison) (g : Given)
  | run (source : Text)

/-- What a step makes.  A container that is not complete takes more pieces. -/
inductive Making where
  | channel (items : List Given) (closed : Bool) (attributes : Attributes) (complete : Bool)
  | string (g : Given) (complete : Bool)
  | array (g : Given) (complete : Bool)
  | object (g : Given) (complete : Bool)
  | number (g : Given)
  | boolean (g : Given)
  | null
  /-- A value of no kind in particular, which there is not. -/
  | anyKind
  | value (g : Given)

inductive Step where
  | make (name : Text) (m : Making)
  | act (name : Text) (a : Action)

/-- What is answered to a step. -/
inductive Reply where
  | done
  | given (g : Given)
  | list (gs : List Given)
  | entries (es : List (Given × Given))
  /-- A container of such items or entries. -/
  | items (gs : List Given)
  | table (es : List (Given × Given))
  | text (t : Text)
  | flag (b : Bool)
  | flags (bs : List Bool)
  | count (n : Nat)
  | counts (ns : List Nat)
  | plain (p : Plain)
  | setting (s : Setting)
  | settings (ss : List Setting)
  | missing
  | noCount

/-- What is done with an object asks for its length before all else, and goes on if there is an
entry that cannot be one. -/
def Action.asksLength : Action → Bool
  | .text | .keyList                        => true
  | .compare .equal _ | .compare .notEqual _ => false
  | .compare ..                             => true
  | _                                       => false

namespace Work

/-! ### Making -/

/-- A container that may still take pieces. -/
def container (r : Reading Value) (complete : Bool) : Work Ref := do
  let v ← reading r
  if let (some id, false) := (v.id?, complete) then
    reading (Reading.note id { ends := some [] })
    setInlet id {}
  return .value v

def make : Making → Work Ref
  | .channel items closed attributes complete => do
    let values ← items.mapM fun g => do reading (← collect g).toValue
    let c : Channel :=
      { waiting    := values.map fun v => .item (.value v)
        attributes := if complete then attributes.completed else attributes }
    return .channel (← newChannel (if closed then c.close else c))
  | .string g complete => container g.toString complete
  | .array g complete  => do container (← collect g).toArray complete
  | .object g complete => do container (← collect g).toObject complete
  | .number g          => return .value (← reading (do Value.ofDecimal (← g.number)))
  | .boolean g         => return .value (.bool (← reading g.truth))
  | .null              => return .value .null
  | .anyKind           => throw .cannotMake
  | .value g           => return .value (← reading (← collect g).toValue)

/-! ### Acting -/

/-- What is done with a value itself, containers included. -/
def actOn (v : Value) : Action → Reading Reply
  | .length                => return .count (← v.length)
  | .text                  => return .text (← v.text)
  | .shown                 => return .text (← v.shown)
  | .truth                 => return .flag (← v.truth)
  | .isPlain               => return .flag (← v.isPlain)
  | .hash                  => do
    let _ ← v.hash
    return .flag true
  | .plain                 => return .plain (← v.plain)
  | .settle                => do
    let _ ← v.settle
    return .given (.value v)
  | .item key              => return .given (← v.itemGiven key)
  | .slice start stop step => do
    match ← v.sliceGiven start stop step with
    | some w => return .given (.value w)
    | none   => return .done
  | .visit limit           => return .list (← v.visit limit)
  | .backward              => return .list (← v.backward)
  | .contains g            => return .flag (← v.contains g)
  | .indexOf g             => return .count (← v.indexOf g)
  | .occurrences g         => return .count (← v.occurrences g)
  | .lookup key            => do
    match ← v.lookupGiven? key with
    | some w => return .list [.value w]
    | none   => return .missing
  | .compare c g           => return .flag (← v.compareGiven c g)
  | a                      => do
    match v with
    | .object id pairs =>
      let R := v.relations
      match a with
      | .keys        => return .list ((← R.mapKeys id pairs pure).map .value)
      | .keyList     => return .list ((← R.keys id pairs).map .value)
      | .values      => return .list ((← R.entries id pairs).map fun (_, w) => .value w)
      | .entries     =>
        return .entries ((← R.entries id pairs).map fun (k, w) => (.value k, .value w))
      | .viewLengths => do
        let n ← v.length
        return .counts [n, n, n]
      | _            => throw .noOperation
    | _                => throw .noOperation

/-- Sets an attribute of what a name stands for.  That of a value that is no channel is but a
label. -/
def label (name : Text) (which : Attribute) (s : Setting) : Work Unit := do
  match ← lookup name with
  | .channel i => setAttribute (.plain i) which s
  | .value v   => match v.id? with
    | some id => setAttribute (.container id) which s
    | none    => modify fun w => { w with
        labels := (name, (((w.labels.lookup name).getD {}).set which s))
          :: w.labels.filter (·.1 ≠ name) }

/-- What is done with a channel, containers included; nothing if it is not done with channels. -/
def actOnNode? (n : Node) : Action → Option (Work Reply)
  | .push g               => some do
    push n g
    return .done
  | .pop                  => some do return .given (← pop n)
  | .drain                => some do return .list (← popAll n)
  | .pull source close    => some do
    pull n (← node source) close
    return .done
  | .split count names    => some do
    match count.count? with
    | none   => return .noCount
    | some k =>
      let followers ← split n k.toNat
      (names.zip followers).forM fun (name, i) => bind name (.channel i)
      return .counts [followers.length, followers.eraseDups.length]
  | .terminate            => some do
    terminate n
    return .done
  | .throw g              => some do
    throwInto n g
    return .done
  | .attributes           => some do
    let a := (← inlet n).attributes
    return .flags (Attribute.all.map fun which => (a.get? which).isSome)
  | .get which            => some do return .setting (← getAttribute n which)
  | .set which s          => some do
    setAttribute n which s
    return .done
  | .namespaces           => some do
    return .settings (← Attribute.namespaces.mapM (getAttribute n))
  | .takeNamespaces source withContext => some do
    let m ← node source
    let wanted := if withContext then Attribute.all else Attribute.namespaces
    wanted.forM fun which => do setAttribute n which (← getAttribute m which)
    return .done
  | .passAttribute which targets => some do
    let s ← getAttribute n which
    targets.forM (label · which s)
    return .done
  | .run source           => some do return .list (← runOn n source)
  | _                     => none

/-- An item that makes a value of data it is compared with. -/
def meets : Signal → Bool
  | .item (.value v) => v.kind ≠ .array
  | _                => false

/-- Data that is compared with a value becomes a value itself, unless the value is an array or a
number that is asked whether it differs. -/
def comparand (v : Value) (c : Comparison) (g : Given) : Work Given :=
  match v, c with
  | .array .., _          => return g
  | .number .., .notEqual => return g
  | _, _                  => collect g

/-- Data that is looked for in an array becomes a value once it meets an item that is no array. -/
def sought (v : Value) (g : Given) : Work Given :=
  match v with
  | .array _ items => if items.any (·.kind ≠ .array) then collect g else return g
  | _              => return g

/-- Compares a plain channel with data.  A channel equals only itself and has no place in an order;
a value on the other side does the comparing. -/
def comparePlain (i : Nat) (c : Comparison) (g : Given) : Work Bool := do
  match g with
  | .value v =>
    let self ← comparand v c.flipped (.channel i)
    reading (v.compareGiven c.flipped self)
  | g        =>
    let same := match g with
      | .channel j => i = j
      | _          => false
    match c with
    | .equal    => return same
    | .notEqual => return !same
    | _         => throw .misfit

/-- What is done with a plain channel as if it were a value. -/
def actOnPlain (i : Nat) : Action → Work Reply
  | .truth | .hash   => return .flag true
  | .length          => throw .noLength
  | .visit limit     => do
    let n ← supply (.plain i)
    return .list (← popMany (.plain i) (min n (limit.getD n)))
  | .contains g      => do
    let g ← if (← channelAt i).waiting.any meets then collect g else pure g
    return .flag (← popUntil (.plain i) g Value.partEqual (← supply (.plain i)))
  | .compare c g     => return .flag (← comparePlain i c g)
  | .item _ | .slice .. | .backward => throw .misfit
  | _                => throw .noOperation

/-! ### Values that hold bare texts or themselves -/

/-- A bare text is in the value. -/
def holdsBare (v : Value) : Work Bool := do
  return (← getThe Workspace).bare.any (v.mentions ·)

/-- A container that is in itself is in the value. -/
def isKnotted (v : Value) : Work Bool := do
  return (← getThe Workspace).knots.any (v.mentions ·)

/-- To do this with the value has no end, because a container is in itself. -/
def isEndless (v : Value) : Action → Work Bool
  | .text | .shown | .plain | .settle => isKnotted v
  | .compare _ (.value w)             => return (← isKnotted v) && (← isKnotted w)
  | .hash                             => match v with
    | .array _ (w :: _) => isKnotted w
    | .object _ pairs   => pairs.anyM fun (k, _) => isKnotted k
    | _                 => return false
  | _                                 => return false

/-- The text of a value, in which bare texts stand as they are. -/
def textOf (v : Value) : Work Text := do
  let bare := (← getThe Workspace).bare
  reading (v.textWith v.relations fun w => match w with
    | .string id pieces => if bare.contains id then return pieces.flatten else w.text
    | w                 => w.text)

/-- A container that holds bare texts, read to the end. -/
def opened (v : Value) : Work Reply := do
  let _ ← reading v.settle
  match v with
  | .array id items  => return .items (← (← reading (Reading.allItems id items)).mapM expose)
  | .object id pairs =>
    return .table (← (← reading (Relations.taken id pairs)).mapM fun (k, w) => do
      return (← expose k, ← expose w))
  | v                => return .given (.value v)

/-- What is done with a value that holds bare texts, where it differs from other values. -/
def actOnBare? (v : Value) : Action → Option (Work Reply)
  | .text            => some do return .text (← textOf v)
  | .shown | .plain  => some do
    let _ ← reading v.length
    throw .noOperation
  | .settle          => some (opened v)
  | _                => none

/-- Data as it is given out. -/
def exposeGiven (g : Given) : Work Given := do
  match g with
  | .value v =>
    if ← isKnotted v then throw .endless
    expose v
  | g        => return g

/-- A reply as it is given out. -/
def exposed : Reply → Work Reply
  | .given g    => return .given (← exposeGiven g)
  | .list gs    => return .list (← gs.mapM exposeGiven)
  | .entries es => return .entries (← es.mapM fun (k, v) => do
      return (← exposeGiven k, ← exposeGiven v))
  | r           => return r

/-! ### Carrying out -/

/-- What is done with a value that is no channel or that does not act as one. -/
def actOnValue (name : Text) (v : Value) (a : Action) : Work Reply := do
  if ← isEndless v a then
    let _ ← reading v.length
    throw .endless
  match a with
  | .set which s => do
    label name which s
    return .done
  | .get which   =>
    match ((← getThe Workspace).labels.lookup name).bind (·.get? which) with
    | some s => return .setting s
    | none   => throw .noOperation
  | a            =>
    let a ← match a with
      | .compare c g   => pure (.compare c (← comparand v c g))
      | .contains g    => pure (.contains (← sought v g))
      | .indexOf g     => pure (.indexOf (← sought v g))
      | .occurrences g => pure (.occurrences (← sought v g))
      | a              => pure a
    let work := ((if ← holdsBare v then actOnBare? v a else none)).getD (reading (actOn v a))
    if v.kind = .object && a.asksLength then
      try work
      catch
        | .misfit => work
        | f       => throw f
    else work

/-- Carries out a step. -/
def perform : Step → Work Reply
  | .make name m => do
    bind name (← make m)
    return .done
  | .act name a  => do
    let r ← lookup name
    let n? : Option Node := match r with
      | .channel i => some (.plain i)
      | .value v   => v.id?.map .container
    exposed (← match n?.bind (actOnNode? · a), r with
      | some work, _      => work
      | none, .channel i  => actOnPlain i a
      | none, .value v    => actOnValue name v a)

/-- How the channel of a name stands: it has been ended, its end has been met, and the number of
characters, items or entries that have been taken from a container. -/
def standing (name : Text) : Work (Option (Bool × Bool × Option Nat)) := do
  match (← getThe Workspace).names.lookup name with
  | some (.channel i) =>
    let c ← channelAt i
    return some (c.closed, c.ended, none)
  | some (.value v)   => match v.id? with
    | none    => return none
    | some id =>
      let p ← inletAt id
      let progress ← reading (Reading.progress id)
      let taken := match v with
        | .string _ pieces => (pieces.take progress.taken).flatten.length
        | .object ..       => progress.entries.length
        | _                => progress.taken
      return some (p.closed, progress.ended, some taken)
  | none              => return none

/-- What a name stands for, as data. -/
def refer (name : Text) : Work Given := do
  match ← lookup name with
  | .value v   => return .value v
  | .channel i => return .channel i

/-- A computation that needs no names. -/
def alone {α : Type} (work : Work α) : Reading α := do
  let (result, w) := work.run.run { store := ← getThe Store }
  set w.store
  result

end Work

end FilterShell
