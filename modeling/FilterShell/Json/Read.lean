import FilterShell.Json.Basic

/-!
# Reading JSON

A document is read token by token.  `Stage` is what is expected next, and the stack of open
containers holds what has been read of each.  `step` reads one element; `document` reads exactly
one document and `documents` one after the other, as many as there are.  `readMany` does so in one
pass, and `retry` by reading every part of the tokens from its start; they read the same.

The items of a container are put into it as they come, so a text that a string cannot hold is a
fault at its own place; the key of an entry is checked when its value begins.  Nothing can be put
into a document that is complete.
-/

namespace FilterShell.Json

/-- What is expected next. -/
inductive Stage where
  | value
  /-- A value or the end of an empty array. -/
  | firstItem
  /-- A key or the end of an empty object. -/
  | firstKey
  | key
  /-- The colon behind a key. -/
  | colon (key : Token)
  /-- A comma or the end of the innermost container. -/
  | next

/-- An open container: what it holds, last one first. -/
inductive Frame where
  | array (items : List Value)
  /-- The key is that of the entry being read. -/
  | object (pairs : List (Value × Value)) (key : Option Text)

inductive State where
  | reading (stage : Stage) (frames : List Frame)
  | done (document : Document)

abbrev Parsing := ExceptT Error (StateM Store)

/-- A computation whose faults are errors of the document. -/
def lift {α : Type} (r : Reading α) : Parsing α := r.adapt .fault

/-- The start of a document. -/
def start : State := .reading .value []

/-- The kinds of tokens that begin a value. -/
def valueKinds : List Token.Kind :=
  [.name, .number, .openArray, .openObject, .string, .trailingWhitespace]

/-- What begins with a token where a value is expected. -/
inductive Beginning where
  | whole (d : Document)
  | number (d : Decimal)
  | array
  | object

/-- What a token begins. -/
def beginning (position : Nat) (t : Token) : Except Error Beginning :=
  match t.kind, t.text with
  | .name, some n   =>
    if n = Text.ofString "false" then .ok (.whole (.value (.bool false)))
    else if n = Text.ofString "null" then .ok (.whole (.value .null))
    else if n = Text.ofString "true" then .ok (.whole (.value (.bool true)))
    else .error (.illegalName n position)
  | .name, none     => .error (.illegalName none position)
  | .number, some d => match Decimal.read? d with
    | some x => .ok (.number x)
    | none   => .error (.fault (.arithmetic .invalidOperation))
  | .number, none   => .error (.fault .misfit)
  | .string, some s => .ok (.whole (.text s))
  | .string, none   => .ok (.whole .textless)
  | .openArray, _   => .ok .array
  | .openObject, _  => .ok .object
  | _, _            => .error (.illegal t position valueKinds)

/-- The key of an entry; one whose text is missing is null. -/
def keyValue : Option Text → Reading Value
  | some key => Value.ofText key
  | none     => return .null

/-- Puts a document into the innermost container; without one it is the whole. -/
def place (d : Document) : List Frame → Parsing State
  | []                      => return .done d
  | .array items :: fs      => do
    return .reading .next (.array ((← lift d.toValue) :: items) :: fs)
  | .object pairs key :: fs => do
    let k ← lift (keyValue key)
    return .reading .next (.object ((k, ← lift d.toValue) :: pairs) key :: fs)

/-- The key of the entry that begins must be a text that a string can hold. -/
def checkKey : List Frame → Parsing Unit
  | .object _ key :: _ => do
    let _ ← lift (keyValue key)
  | _                  => return

/-- Goes on with a value. -/
def begin (frames : List Frame) : Beginning → Parsing State
  | .whole d  => place d frames
  | .number d => do place (.value (← lift (Value.ofDecimal d))) frames
  | .array    => do
    checkKey frames
    return .reading .firstItem (.array [] :: frames)
  | .object   => do
    checkKey frames
    return .reading .firstKey (.object [] none :: frames)

/-- Ends the innermost container. -/
def close : List Frame → Parsing State
  | []                    => return start
  | .array items :: fs    => do place (.value (← lift (Value.ofItems items.reverse))) fs
  | .object pairs _ :: fs => do place (.value (← lift (Value.ofPairs pairs.reverse))) fs

/-- A key of the innermost object. -/
def withKey (t : Token) : List Frame → State
  | .object pairs _ :: fs => .reading (.colon t) (.object pairs t.text :: fs)
  | fs                    => .reading (.colon t) fs

/-- Nothing can be added to a document; the fault depends on what it is. -/
def refuse (d : Document) (added : Beginning) : Parsing State := do
  let check : Parsing Unit := match added with
    | .whole (.text t) => do let _ ← lift (Value.ofText t)
    | _                => pure ()
  match d, added with
  | .value (.array ..), _ | .value (.object ..), _ =>
    check
    throw (.fault .closed)
  | .value (.string ..), .whole (.text _) =>
    check
    throw (.fault .closed)
  | .value (.string ..), _ => throw (.fault .notText)
  | _, _                   => throw (.fault .noOperation)

/-- Reads a token behind a value of a container. -/
def stepNext (position : Nat) (t : Token) (frames : List Frame) : Parsing State :=
  match frames with
  | .object .. :: _ =>
    if t.kind = .closeObject then close frames
    else if t.kind = .comma then return .reading .key frames
    else throw (.illegal t position [.closeObject, .comma])
  | _ =>
    if t.kind = .closeArray then close frames
    else if t.kind = .comma then return .reading .value frames
    else throw (.illegal t position [.closeArray, .comma])

/-- Reads one token. -/
def stepToken (position : Nat) (t : Token) : State → Parsing State
  | .done d                  => do refuse d (← beginning position t)
  | .reading .value fs       => do begin fs (← beginning position t)
  | .reading .firstItem fs   => do
    if t.kind = .closeArray then close fs
    else begin fs (← beginning position t)
  | .reading .firstKey fs    =>
    if t.kind = .closeObject then close fs
    else if t.kind = .string then return withKey t fs
    else throw (.illegal t position [.closeObject, .string])
  | .reading .key fs         =>
    if t.kind = .string then return withKey t fs
    else throw (.illegal t position [.string])
  | .reading (.colon key) fs =>
    if t.kind = .colon then return .reading .value fs
    else throw (.illegal key position [.colon])
  | .reading .next fs        => stepNext position t fs

/-- Reads one element.  A finished value may stand where a value is expected, if values are
allowed, but not first in an array. -/
def step (values : Bool) (position : Nat) (state : State) : Element → Parsing State
  | .token t => stepToken position t state
  | .filter  => throw (.fault .noOperation)
  | .value v =>
    if values then
      match state with
      | .done d            => refuse d (.whole (.value v))
      | .reading .value fs => place (.value v) fs
      | _                  => throw (.fault .noOperation)
    else throw (.fault .noOperation)

/-- What it means that the elements end. -/
def finish (position : Nat) : State → Except Error Document
  | .done d                   => .ok d
  | .reading _ []             => .error .empty
  | .reading _ (.array _ :: _) => .error (.unclosedArray position)
  | .reading _ (.object .. :: _) => .error (.unclosedObject position)

/-- Reads elements to the end. -/
def readAll (values : Bool) (position : Nat) (state : State) : List Element → Parsing Document
  | []     => finish position state
  | e :: r => do
    let state ← step values position state e
    readAll values (position + 1) state r

/-- White space at the end means nothing. -/
def isTrailing : Element → Bool
  | .token t => t.kind = .trailingWhitespace
  | _        => false

/-- Elements without white space at the end. -/
def withoutTrailing (es : List Element) : List Element :=
  match es.getLast? with
  | some e => if isTrailing e then es.dropLast else es
  | none   => es

/-- Reads one document. -/
def document (values : Bool) (es : List Element) : Parsing Document :=
  readAll values 0 start (withoutTrailing es)

/-- Documents that were read, and the error that ended the reading. -/
structure Documents where
  documents : List Document
  error     : Option Error := none

/-- Reads documents one after the other. -/
def readMany (position : Nat) (state : State) : List Element → StateM Store Documents
  | []     =>
    match position with
    | 0     => return { documents := [] }
    | p     => match finish p state with
      | .ok d    => return { documents := [d] }
      | .error e => return { documents := [], error := some e }
  | e :: r => do
    match ← (step false position state e).run with
    | .error e           => return { documents := [], error := some e }
    | .ok (.done d)      =>
      let rest ← readMany 0 start r
      return { rest with documents := d :: rest.documents }
    | .ok state          => readMany (position + 1) state r

/-- Reads documents one after the other by trying ever longer parts: the first `n` elements were too few,
with the error `last`. -/
def retry (last : Option Error) (n : Nat) (es : List Element) : StateM Store Documents :=
  if es.isEmpty then return { documents := [] }
  else if es.length ≤ n then return { documents := [], error := last }
  else do
    match ← (document false (es.take (n + 1))).run with
    | .ok d    =>
      let rest ← retry last 0 (es.drop (n + 1))
      return { rest with documents := d :: rest.documents }
    | .error e =>
      if e.isIncomplete then retry (some e) (n + 1) es
      else return { documents := [], error := some e }
termination_by (es.length, es.length - n)
decreasing_by
  · exact Prod.Lex.left _ _ (by simp only [List.length_drop]; omega)
  · exact Prod.Lex.right _ (by omega)

/-- The elements of a text. -/
def elements (source : Text) : Except Error (List Element) :=
  let scanned := Token.scan source
  match scanned.error with
  | some e => .error (.fault (.parse (.unscannable e)))
  | none   => .ok (scanned.tokens.map .token)

/-- The documents in a text. -/
def documents (source : Text) : StateM Store Documents :=
  match elements source with
  | .error e => return { documents := [], error := some e }
  | .ok es   => readMany 0 start (withoutTrailing es)

end FilterShell.Json
