import FilterShell.Value.Text

/-!
# Data given from outside

A caller gives plain data, and wherever a value is needed the data is made into one: texts become
strings, lists and tuples arrays, dictionaries objects, numbers numbers, and errors exceptions.
Each kind of value can also be made directly from data.

A channel among the data becomes an array of what it gives.  Only its first use finds anything, so
whoever makes a value of data takes the items out of the channel before.
-/

namespace FilterShell

inductive Given where
  | null
  | bool (b : Bool)
  | int (n : Int)
  | binary (x : Binary)
  | text (t : Text)
  | list (items : List Given)
  | tuple (items : List Given)
  | dict (entries : List (Given × Given))
  /-- An error with its message. -/
  | error (message : Text)
  /-- A thing of which nothing is known. -/
  | thing
  /-- A channel of a workspace. -/
  | channel (i : Nat)
  | value (v : Value)
  deriving Inhabited

namespace Value

/-- A string of one piece. -/
def ofText (t : Text) : Reading Value := do
  if !t.isWellFormed then throw .loneSurrogate
  return .string (← Reading.fresh) [t]

def ofItems (items : List Value) : Reading Value := do
  return .array (← Reading.fresh) items

def ofPairs (pairs : List (Value × Value)) : Reading Value := do
  return .object (← Reading.fresh) pairs

/-- The two items of an array that is a pair. -/
def pair (v : Value) : Reading (Value × Value) := do
  match v with
  | .array id items => match ← Reading.allItems id items with
    | [k, v] => return (k, v)
    | _      => throw .pairLength
  | _ => throw .notPair

end Value

namespace Given

mutual

/-- The value that data stands for. -/
def toValue : Given → Reading Value
  | .null       => return .null
  | .bool b     => return .bool b
  | .int n      => Value.ofDecimal (.ofInt n)
  | .binary x   => Value.ofDecimal x.toDecimal
  | .text t     => Value.ofText t
  | .list gs    => do Value.ofItems (← toValues gs)
  | .tuple gs   => do Value.ofItems (← toValues gs)
  | .dict es    => do Value.ofPairs (← toPairs es)
  | .error m    => return .exception { name := m }
  | .thing      => throw (.unconvertible "<class 'object'>")
  | .channel _  => Value.ofItems []
  | .value v    => return v

def toValues : List Given → Reading (List Value)
  | []     => return []
  | g :: r => do return (← toValue g) :: (← toValues r)

def toPairs : List (Given × Given) → Reading (List (Value × Value))
  | []          => return []
  | (k, v) :: r => do
    let pair := (← toValue k, ← toValue v)
    return pair :: (← toPairs r)

end

mutual

/-- Data as messages show it. -/
def shown : Given → Reading Text
  | .null       => return "None"
  | .bool b     => return if b then "True" else "False"
  | .int n      => return Text.ofInt n
  | .binary x   => return x.text
  | .text t     => return t.quoted
  | .list gs    => return Plain.bracketed "[" "]" (← allShown gs)
  | .tuple gs   => do
    match ← allShown gs with
    | [t] => return Text.ofString "(" ++ t ++ Text.ofString ",)"
    | ts  => return Plain.bracketed "(" ")" ts
  | .dict es    => return Plain.bracketed "\x7b" "\x7d" (← entriesShown es)
  | .error m    => return Text.ofString "ValueError(" ++ m.quoted ++ Text.ofString ")"
  | .thing      => return "<object object>"
  | .channel _  => return "<jqsh.channel.Channel object>"
  | .value v    => v.shown

def allShown : List Given → Reading (List Text)
  | []     => return []
  | g :: r => do return (← shown g) :: (← allShown r)

def entriesShown : List (Given × Given) → Reading (List Text)
  | []          => return []
  | (k, v) :: r => do
    let t := (← shown k) ++ Text.ofString ": " ++ (← shown v)
    return t :: (← entriesShown r)

end

/-- The text of data: a text is itself. -/
def asText : Given → Reading Text
  | .text t  => return t
  | .error m => return m
  | .value v => v.text
  | g        => g.shown

/-- Data counts as true unless it is nothing, zero or empty. -/
def truth : Given → Reading Bool
  | .null               => return false
  | .bool b             => return b
  | .int n              => return n ≠ 0
  | .binary x           => return !(!x.toDecimal.isNaN && Decimal.compare x.toDecimal (.ofNat 0) = .eq)
  | .text t             => return !t.isEmpty
  | .list gs | .tuple gs => return !gs.isEmpty
  | .dict es            => return !es.isEmpty
  | .error _ | .thing | .channel _ => return true
  | .value v            => v.truth

/-- The pieces that data falls into when it is gone through. -/
def parts : Given → Reading (List Given)
  | .text t               => return t.map fun r => .text [r]
  | .list gs | .tuple gs  => return gs
  | .dict es              => return es.map (·.1)
  | .value (.string id p) => return (← Reading.wholeText id p).map fun r => .text [r]
  | .value (.array id vs) => return (← Reading.allItems id vs).map .value
  | .value v@(.object id ps) => return (← v.relations.keys id ps).map .value
  | _                     => throw .misfit

/-- The pairs that an object is made of. -/
def pairs : Given → Reading (List Given)
  | .dict es => return es.map fun (k, v) => .tuple [k, v]
  | .value v@(.object id ps) =>
    return (← v.relations.sizedEntries id ps).map fun (k, v) => .tuple [.value k, .value v]
  | g        => g.parts

/-- A whole number among the parts of a number. -/
def wholePart : Given → Reading Int
  | .int n  => if n < -Int.pow 2 63 || Int.pow 2 63 ≤ n then throw .countTooLarge else return n
  | .bool b => return if b then 1 else 0
  | _       => throw .badParts

/-- What the third part of a number says: its exponent, or what else it is. -/
inductive Scale where
  | exponent (e : Int)
  | infinite
  | nan (signaling : Bool)

def scalePart : Given → Reading Scale
  | .text t =>
    if t = Text.ofString "F" then return .infinite
    else if t = Text.ofString "n" then return .nan false
    else if t = Text.ofString "N" then return .nan true
    else throw .badParts
  | g       => return .exponent (← g.wholePart)

/-- The number that digits make. -/
def digitParts : Given → Reading Nat
  | .list gs | .tuple gs => gs.foldlM (fun n g => do
      let d ← g.wholePart
      if d < 0 || 9 < d then throw .badParts
      return n * 10 + d.toNat) 0
  | _                    => throw .badParts

/-- The number that is given by a sign, digits and an exponent. -/
def numberOfParts (sign digits scale : Given) : Reading Decimal := do
  let sign ← sign.wholePart
  if sign ≠ 0 && sign ≠ 1 then throw .badParts
  let negative := sign = 1
  let scale ← scalePart scale
  let coefficient ← digitParts digits
  match scale with
  | .infinite   => return .infinite negative
  | .nan s      => return .nan negative s coefficient
  | .exponent e => match Decimal.bounded? negative coefficient e with
    | some d => return d
    | none   => throw (.arithmetic .invalidOperation)

/-- The number made of data. -/
def number : Given → Reading Decimal
  | .int n   => return .ofInt n
  | .bool b  => return .ofNat (if b then 1 else 0)
  | .binary x => return x.toDecimal
  | .text t  => match Decimal.read? t with
    | some d => return d
    | none   => throw (.arithmetic .invalidOperation)
  | .tuple [s, d, e] | .list [s, d, e] => numberOfParts s d e
  | .tuple _ | .list _ => throw .badParts
  | .value (.number _ d) => return d
  | _        => throw .misfit

/-- A string made of the text of data. -/
def toString (g : Given) : Reading Value := do Value.ofText (← g.asText)

/-- An array of the parts of data. -/
def toArray (g : Given) : Reading Value := do
  Value.ofItems (← toValues (← g.parts))

/-- An object of the pairs in data. -/
def toObject (g : Given) : Reading Value := do
  Value.ofPairs (← (← g.pairs).mapM fun p => do (← p.toValue).pair)

/-- The value of data, read to its end. -/
def drained (g : Given) : Reading Value := do
  let v ← g.toValue
  let _ ← v.length
  return v

end Given

end FilterShell
