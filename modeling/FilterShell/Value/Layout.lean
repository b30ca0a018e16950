import FilterShell.Value.Text

/-!
# Values on a terminal

A terminal that can style shows a value over several lines, two blanks deeper for each level,
with colours; one that cannot shows the text of the value.  The lines come one by one, and a fault
ends them: `Lines` are the lines before the fault and the fault.
-/

namespace FilterShell

structure Terminal where
  /-- The terminal shows bold and coloured text. -/
  styles : Bool
  bold   : Text → Text
  color  : Nat → Text → Text

structure Lines where
  lines : List Text
  fault : Option Fault := none

namespace Lines

/-- The lines of a computation that gives them all at once. -/
def ofReading (r : Reading (List Text)) : StateM Store Lines := do
  match ← r.run with
  | .ok lines => return { lines }
  | .error f  => return { lines := [], fault := some f }

/-- Lines, and other lines after them unless they end with a fault. -/
def andThen (first : Lines) (second : StateM Store Lines) : StateM Store Lines := do
  match first.fault with
  | some _ => return first
  | none   =>
    let rest ← second
    return { rest with lines := first.lines ++ rest.lines }

/-- Each line two blanks deeper. -/
def indented (l : Lines) : Lines :=
  { l with lines := l.lines.map (Text.ofString "  " ++ ·) }

/-- Another text in front of the first line. -/
def headed (head : Text) (l : Lines) : Lines :=
  { l with lines := match l.lines with
      | []     => []
      | x :: r => (head ++ x) :: r }

/-- A mark behind the last line.  Whether a line is the last is known when the next one is there,
so a fault swallows the line before it. -/
def tailed (mark : Text) (l : Lines) : Lines :=
  { l with lines := match l.fault with
      | some _ => l.lines.dropLast
      | none   => match l.lines.reverse with
        | []     => []
        | x :: r => (r.reverse ++ [x ++ mark]) }

end Lines

namespace Exception

/-- The detail of a name. -/
def detail? (e : Exception) (name : String) : Option Detail :=
  e.details.lookup (Text.ofString name)

mutual

/-- A detail as messages show it. -/
def shownDetail : Detail → Text
  | .null        => "None"
  | .flag b      => if b then "True" else "False"
  | .int n       => Text.ofInt n
  | .binary x    => x.text
  | .text t      => t.quoted
  | .list items  => Plain.bracketed "[" "]" (shownDetails items)
  | .record fs   => Plain.bracketed "\x7b" "\x7d" (shownFields fs)
  | .counts ns   => Plain.bracketed "\x7b" "\x7d" (ns.map Text.ofInt)
  | .filter f    => f.shown
  | .fault _     => []

def shownDetails : List Detail → List Text
  | []     => []
  | d :: r => shownDetail d :: shownDetails r

def shownFields : List (Text × Detail) → List Text
  | []          => []
  | (k, d) :: r => (k.quoted ++ Text.ofString ": " ++ shownDetail d) :: shownFields r

end

/-- A detail that is put into a sentence as it is. -/
def plainDetail : Detail → Text
  | .text t => t
  | d       => shownDetail d

/-- Cuts a text at the ends of its lines. -/
def splitLines (t : Text) : List Text := go [] t
where
  go (line : Text) : Text → List Text
    | []     => [line.reverse]
    | r :: s => if r.code = 10 then line.reverse :: go [] s else go (r :: line) s

/-- A text without the ends of lines around it. -/
def trimLines (t : Text) : Text :=
  ((t.dropWhile (·.code = 10)).reverse.dropWhile (·.code = 10)).reverse

/-- The numbers in increasing order. -/
def sortedCounts (ns : List Int) : List Int := ns.mergeSort (· ≤ ·)

/-- What a styled terminal says about an exception below its name. -/
def explanation (e : Exception) : Lines :=
  let detail := e.detail?
  let say (lines : List Text) : Lines := { lines }
  let missing : Lines := { lines := [], fault := some .noKey }
  if e.name = Text.ofString "assignment" then
    match detail "target_filter" with
    | some (.filter f) =>
      say [Text.ofString "cannot assign to filter of type " ++ Text.ofString f.kind.word]
    | _ => say []
  else if e.name = Text.ofString "internal" then
    match detail "exc_info", detail "traceback_string" with
    | some _, some (.text t) => say (splitLines (trimLines t))
    | some _, none           => missing
    | _, _                   => say []
  else if e.name = Text.ofString "name" then
    match detail "missing_name" with
    | some (.text n) => say [Text.ofString "name " ++ n ++ Text.ofString " is not defined"]
    | some _         => { lines := [], fault := some .misfit }
    | none           => say []
  else if e.name = Text.ofString "notImplemented" then
    match detail "filter" with
    | some (.filter f) =>
      say [Text.ofString "filter " ++ Text.ofString f.kind.word
        ++ Text.ofString " not yet implemented"
        ++ (match detail "attributes" with
            | some d => Text.ofString " for attributes " ++ shownDetail d
            | none   => [])]
    | _ => say []
  else if e.name = Text.ofString "numArgs" then
    match detail "expected", detail "received" with
    | some (.counts ns), some received =>
      say [Text.ofString "wrong number of function arguments: received " ++ plainDetail received
        ++ Text.ofString ", expected "
        ++ (if ns.length > 1 then Text.ofString "any of " else [])
        ++ Text.join ", " ((sortedCounts ns).map Text.ofInt)]
    | some _, none => missing
    | _, _         => say []
  else say []

end Exception

namespace Terminal

/-- A character of a string, in another colour if it is escaped. -/
def rune (t : Terminal) (r : Rune) : Text :=
  t.color (if r.escaped.head? = some (Rune.ofChar '\\') then 202 else 1) r.escaped

/-- The text of a string, styled. -/
def stringLine (t : Terminal) (s : Text) : Text :=
  t.color 9 "\"" ++ (s.map t.rune).flatten ++ t.color 9 "\""

/-- A bracket. -/
def bracket (t : Terminal) (b : String) : Text := t.bold (t.color 15 b)

/-- The lines of the items of an array; all but the last end with a comma. -/
def items (t : Terminal) (below : Value → StateM Store Lines) :
    List Value → StateM Store Lines
  | []          => return { lines := [] }
  | [v]         => return (← below v).indented
  | v :: w :: r => do
    let first := ((← below v).indented).tailed (t.color 15 ",")
    first.andThen (t.items below (w :: r))

/-- The lines of an entry: those of the key, the last of them together with the first of the
value.  The last line of the value gets the mark. -/
def entry (t : Terminal) (below : Value → StateM Store Lines) (mark : Option Text)
    (k v : Value) : StateM Store Lines := do
  let key ← below k
  match key.fault, key.lines.reverse with
  | some f, r         => return ({ lines := r.tail.reverse, fault := some f } : Lines).indented
  | none, []          => return { lines := [], fault := some .missingClause }
  | none, last :: r   =>
    let value ← below v
    let value := match mark with
      | some m => value.tailed m
      | none   => value
    let value := value.headed (last ++ t.color 15 ": ")
    return ({ value with lines := r.reverse ++ value.lines } : Lines).indented

/-- The lines of the entries of an object; all but the last end with a comma. -/
def entries (t : Terminal) (below : Value → StateM Store Lines) :
    List (Value × Value) → StateM Store Lines
  | []               => return { lines := [] }
  | [(k, v)]         => t.entry below none k v
  | (k, v) :: w :: r => do
    (← t.entry below (some (t.color 15 ",")) k v).andThen (t.entries below (w :: r))

/-- Lines between brackets; nothing to show gives both brackets in one line. -/
def enclosed (t : Terminal) (before after : String) (isEmpty : Bool)
    (inside : StateM Store Lines) : StateM Store Lines := do
  if isEmpty then return { lines := [t.bracket (before ++ after)] }
  (← Lines.andThen { lines := [t.bracket before] } inside).andThen
    (return { lines := [t.bracket after] })

/-- The styled lines of a value whose items have those that `below` gives. -/
def linesWith (t : Terminal) (R : Relations) (below : Value → StateM Store Lines) :
    Value → StateM Store Lines
  | .exception e      => do
    Lines.andThen { lines := [Text.ofString "\rjqsh: uncaught exception: " ++ e.name] }
      (return e.explanation)
  | .null             => return { lines := [t.bold (t.color 28 "null")] }
  | .bool b           => return { lines := [t.bold (t.color 28 (Value.boolText b))] }
  | .number _ d       => return { lines := [t.color 32 d.text] }
  | .string id pieces => Lines.ofReading do
    return [t.stringLine (← Reading.wholeText id pieces)]
  | .array id items   => do
    match ← (Reading.allItems id items).run with
    | .error f => return { lines := [], fault := some f }
    | .ok vs   => t.enclosed "[" "]" vs.isEmpty (t.items below vs)
  | .object id pairs  => do
    let sorted : Reading (List (Value × Value)) := do
      let _ ← R.keys id pairs
      sortBy (fun (k, _) (k', _) => R.less k k') (← Relations.taken id pairs)
    match ← sorted.run with
    | .error f => return { lines := [], fault := some f }
    | .ok es   => t.enclosed "\x7b" "\x7d" es.isEmpty (t.entries below es)

/-- The styled lines of a value that is nested at most so deep. -/
def linesTo (t : Terminal) : Nat → Value → StateM Store Lines
  | 0     => t.linesWith (.upTo 0) fun _ => return { lines := [] }
  | n + 1 => t.linesWith (.upTo n) (t.linesTo n)

/-- The lines that show a value. -/
def lines (t : Terminal) (v : Value) : StateM Store Lines :=
  if t.styles then t.linesTo v.depth v
  else Lines.ofReading do return [← v.text]

end Terminal

/-- The text that lines make on a terminal. -/
def Lines.text (l : Lines) : Text :=
  (l.lines.map (· ++ Text.ofString "\n")).flatten

end FilterShell
