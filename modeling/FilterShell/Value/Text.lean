import FilterShell.Value.Datum
import FilterShell.Text.Literal

/-!
# The text of values

`Value.text` is how a value is written: JSON as far as there is JSON for it, with the entries of
objects sorted.  `Value.plain` is a value without the containers' own machinery, and `Value.shown`
is the text of that for messages.
-/

namespace FilterShell

/-- Plain data: what a value stands for. -/
inductive Plain where
  | null
  | bool (b : Bool)
  | number (d : Decimal)
  | text (t : Text)
  | list (items : List Plain)
  | pair (first second : Plain)

namespace Plain

/-- A bracketed, separated list. -/
def bracketed (before after : String) (items : List Text) : Text :=
  Text.ofString before ++ Text.join ", " items ++ Text.ofString after

mutual

/-- Plain data as messages show it. -/
def shown : Plain → Text
  | .null       => "None"
  | .bool b     => if b then "True" else "False"
  | .number d   => Text.ofString "Decimal(" ++ d.text.quoted ++ Text.ofString ")"
  | .text t     => t.quoted
  | .list items => bracketed "[" "]" (allShown items)
  | .pair p q   => bracketed "(" ")" [p.shown, q.shown]

def allShown : List Plain → List Text
  | []     => []
  | p :: r => p.shown :: allShown r

end

end Plain

/-- An exception as messages show it. -/
def Exception.shown (e : Exception) : Text :=
  let name := if e.boxed then
      Text.ofString "jqsh.values.String(" ++ e.name.quoted ++ Text.ofString ")"
    else e.name.quoted
  Text.ofString "jqsh.values.JQSHException(" ++ name ++ Text.ofString ")"

namespace Value

def boolText (b : Bool) : Text := if b then "true" else "false"

/-- The text of a value whose items have the texts that `below` gives. -/
def textWith (R : Relations) (below : Value → Reading Text) : Value → Reading Text
  | .exception e      => return e.shown
  | .null             => return "null"
  | .bool b           => return boolText b
  | .number _ d       => return d.text
  | .string id pieces => return (← Reading.wholeText id pieces).literal
  | .array id items   => return Plain.bracketed "[" "]" (← Reading.mapItems id items below)
  | .object id pairs  => do
    let sorted ← sortBy R.lessEntry (← R.sizedEntries id pairs)
    let texts ← sorted.mapM fun (k, v) => do
      return (← below k) ++ Text.ofString ": " ++ (← below v)
    return Plain.bracketed "\x7b" "\x7d" texts

/-- The text of a value that is nested at most so deep. -/
def textTo : Nat → Value → Reading Text
  | 0     => textWith (.upTo 0) fun _ => return []
  | n + 1 => textWith (.upTo n) (textTo n)

/-- How a value is written. -/
def text (v : Value) : Reading Text := textTo v.depth v

/-- The plain data of a value whose items have those that `below` gives. -/
def plainWith (R : Relations) (below : Value → Reading Plain) : Value → Reading Plain
  | .exception _      => throw .noOperation
  | .null             => return .null
  | .bool b           => return .bool b
  | .number _ d       => return .number d
  | .string id pieces => return .text (← Reading.wholeText id pieces)
  | .array id items   => do
    return .list (← (← Reading.allItems id items).mapM below)
  | .object id pairs  => do
    return .list (← (← R.entries id pairs).mapM fun (k, v) => do
      return .pair (← below k) (← below v))

/-- The plain data of a value that is nested at most so deep. -/
def plainTo : Nat → Value → Reading Plain
  | 0     => plainWith (.upTo 0) fun _ => return .null
  | n + 1 => plainWith (.upTo n) (plainTo n)

/-- What a value stands for; exceptions stand for nothing. -/
def plain (v : Value) : Reading Plain := plainTo v.depth v

/-- A value as messages show it. -/
def shown (v : Value) : Reading Text := do
  match v with
  | .exception e => return e.shown
  | v =>
    let inside ← match v with
      | .number _ d => pure d.text.quoted
      | v           => return named v (← v.plain).shown
    return named v inside
where
  /-- The kind of a value around the text for it. -/
  named (v : Value) (inside : Text) : Text :=
    Text.ofString "jqsh.values." ++ Text.ofString v.kind.word ++ Text.ofString "(" ++ inside
      ++ Text.ofString ")"

end Value

end FilterShell
