import FilterShell.Filter.Parse
import FilterShell.Session.Options
import FilterShell.Session.Path
import FilterShell.Session.Print

/-!
# The shell

With a filter or a module, the shell applies it to the values on its input and ends.  Otherwise it
is interactive: it prompts, reads a line, runs it, and keeps the variables for the next line.
`transcript` is the whole program as a function of what it is started with.
-/

namespace FilterShell.Session

/-- What the shell is started with. -/
structure Start where
  arguments : List Text
  input     : Text := []
  /-- The input is a terminal. -/
  terminal  : Bool := false
  files     : Files := {}
  /-- Where commands are run. -/
  system    : System := {}

/-- How the shell ends. -/
inductive Ending where
  /-- It exits, with a message if something is wrong. -/
  | exit (message : Option Text)
  /-- The input of the interactive shell ends. -/
  | endOfInput
  /-- It cannot go on. -/
  | fault (f : Fault)
  /-- Its input is no JSON. -/
  | badInput (e : Json.Error)
  /-- An option lacks its argument. -/
  | missingArgument

/-- What the shell writes, and how it ends. -/
structure Transcript where
  output : Text := []
  ending : Ending

/-! ### Applying a filter -/

/-- The values on the input. -/
def readInput (input : Text) : StateM Store (Except Ending (List Value)) := do
  let ds ← Json.documents input
  match ds.error with
  | some e => return .error (.badInput e)
  | none   => match ← (ds.documents.mapM Json.Document.toValue).run with
    | .ok vs   => return .ok vs
    | .error f => return .error (.fault f)

/-- The exit with a message about a filter that cannot be read, or the fault in reading it. -/
def rejected (place : String) (e : ParseError) : Ending :=
  match e with
  | .unscannable _ | .notToken | .lostKeyword | .badNumber | .missingText | .forbidden _ =>
    .fault (.parse e)
  | e => .exit (some (Text.ofString "[!!!!] jqsh: syntax error " ++ Text.ofString place
      ++ Text.ofString ": " ++ e.message.getD []))

/-- The filter to apply. -/
def chosenFilter (files : Files) (o : Options) : Except Ending Filter :=
  match o.module with
  | none      =>
    (Filter.ofSource .everything false (o.filter.getD [])).mapError (rejected "in filter")
  | some path => match readModule files path with
    | .error f   => .error (.fault f)
    | .ok source => (Filter.ofSource .everything true source).mapError (rejected "reading module")

/-- The context of a filter or module. -/
def contextOf (o : Options) (arguments : List Text) : Context where
  argv := (if o.filter.isSome then "--filter" else pathText (o.module.getD [])) :: arguments

/-- Applies a filter or module to the input. -/
def applyOnce (start : Start) (o : Options) (arguments : List Text) :
    StateM Store Transcript := do
  let values ← if start.terminal then pure (.ok []) else readInput start.input
  match values with
  | .error e   => return { ending := e }
  | .ok values => match chosenFilter start.files o with
    | .error e => return { ending := e }
    | .ok f    =>
      let (lines, _) ← print f { values, env := { context := contextOf o arguments } }
      return { output := lines.text
               ending := match lines.fault with
                 | some f => .fault f
                 | none   => .exit none }

/-! ### The interactive shell -/

/-- What is kept from line to line. -/
structure Repl where
  env   : Environment := {}
  store : Store := {}

/-- What a line does: the text it prints, and what is kept, or the fault that ends the shell. -/
structure Reply where
  output : Text
  next   : Except Fault Repl

def prompt : Text := "jqsh> "

/-- The line that interrupts. -/
def interrupt : Text := ['\x03']

/-- Runs a line.  Only variables and formats are kept, not the context. -/
def Repl.run (r : Repl) (line : Text) : Reply :=
  if line = interrupt then { output := "\n", next := .ok r }
  else match Filter.ofSource .everything false line with
    | .error e => match rejected "" e with
      | .fault f => { output := [], next := .error f }
      | _        =>
        { output := Text.ofString "jqsh: syntax error: " ++ e.message.getD [] ++ Text.ofString "\n"
          next   := .ok r }
    | .ok f    =>
      let ((lines, env), store) := (print f { env := { r.env with context := {} } }).run r.store
      { output := lines.text
        next   := match lines.fault with
          | some f => .error f
          | none   => .ok { env, store } }

/-- The lines of the input, without their ends. -/
def inputLines (input : Text) : List Text := go [] input
where
  go (line : Text) : Text → List Text
    | []     => if line.isEmpty then [] else [line.reverse]
    | r :: s => if r.code = 10 then line.reverse :: go [] s else go (r :: line) s

/-- Runs lines one after the other. -/
def Repl.runAll (r : Repl) : List Text → Transcript
  | []           => { output := prompt ++ Text.ofString "^D\n", ending := .endOfInput }
  | line :: rest =>
    let reply := r.run line
    match reply.next with
    | .error f => { output := prompt ++ reply.output, ending := .fault f }
    | .ok next =>
      let t := next.runAll rest
      { t with output := prompt ++ reply.output ++ t.output }

/-! ### The program -/

/-- The whole program. -/
def transcript (start : Start) : Transcript :=
  match Options.ofArguments start.arguments with
  | .help        =>
    { output := Text.ofString "jqsh: " ++ usage ++ Text.ofString "\n", ending := .exit none }
  | .invalid arg =>
    { ending := .exit (some (Text.ofString "[!!!!] jqsh: invalid option: " ++ arg)) }
  | .missing     => { ending := .missingArgument }
  | .run o arguments =>
    if o.filter.isSome || o.module.isSome then
      ((applyOnce start o arguments).run { system := start.system }).1
    else Repl.runAll { store := { system := start.system } } (inputLines start.input)

end FilterShell.Session
