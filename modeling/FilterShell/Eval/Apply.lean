import FilterShell.Eval.Builtin
import FilterShell.Eval.Command
import FilterShell.Eval.Generate
import FilterShell.Value.Index

/-!
# Names, application and variables

What a row of filters does depends on the filters: a dot alone passes the input on, two numbers
are the parts of a decimal number, a dot in front of a filter looks up a key, a command in front
takes the others as arguments, and anything else in front is the name of a function.  The filters
here read the input themselves, so exceptions pass through some of them and not through others.
-/

namespace FilterShell

namespace Program

/-- The built-in function of a name, or the exception that there is none.  The context has the functions. -/
def call (name : Text) (args : List Meaning) (missing : Value) : Program := fun input =>
  if input.env.withheld.context then return .waiting [] input
  else match Builtin.registry.find? name args.length with
    | some b => ofBuiltin (b.generate args) input
    | none   => return thrown [] missing input

/-- The exception for a name that nothing has. -/
def missingName (name : Text) : Value :=
  .exception { name := "name", details := [("missing_name", .text name)] }

/-- A name is a local variable, or a function without arguments. -/
def name (n : Text) : Program := fun input => do
  if input.env.withheld.locals then return .waiting [] input
  match input.env.locals.lookup n with
  | some values => return { outputs := values, env := input.env, rest := input }
  | none        =>
    let counts := (Builtin.registry.counts n).filterMap id
    let missing :=
      if Builtin.registry.knows n then
        .exception { name := "numArgs", details :=
          [("function_name", .text n), ("expected", .counts counts), ("received", .int 0)] }
      else missingName n
    call n [] missing input

/-- Passes everything on, the environment first. -/
def identity : Program := fun input =>
  if !input.env.isComplete then return { Run.waiting [] input with env := input.env }
  else return { outputs := input.values, env := input.env, rest := input.read, closed := input.closed }

/-- A decimal number, given by the digits before and after its point. -/
def decimal (before after : Text) : Program := fun input =>
  match Decimal.read? (before ++ Text.ofString "." ++ after) with
  | some d => return { outputs := [.number 0 d], env := input.env, rest := input }
  | none   => return .waiting [] input

/-- What a key finds in a value, or the exception that it finds nothing. -/
def find (key v : Value) : Reading (Except Value Value) := do
  match v with
  | .object id pairs =>
    match ← (v.relationsWith key).lookup? id pairs key with
    | some w => return .ok w
    | none   => return .error (.failure "key")
  | .array id items =>
    match key with
    | .number _ d =>
      if !(← Combine.isWhole d) then return .error (.failure "integer")
      try return .ok (← Reading.itemAt id items d.toInt)
      catch
        | .outOfBounds _ | .notRead => return .error (.failure "index")
        | f                         => throw f
    | _ => return .error (.failure "type")
  | _ => return .error (.failure "type")

/-- What a key finds in each of the values, up to the first exception or fault. -/
def findAll (key : Value) : List Value → StateM Store (List Value × Except Fault (Option Value))
  | []     => return ([], .ok none)
  | v :: r => do
    match ← (find key v).run with
    | .error f       => return ([], .error f)
    | .ok (.error e) => return ([], .ok (some e))
    | .ok (.ok w)    =>
      let (ws, e) ← findAll key r
      return (w :: ws, e)

/-- Looks up a key in each value of the input.  A fault is not reported: the outputs are left open. -/
def lookup (key : Meaning) : Program := fun input => do
  let result ← key.run input.copy
  match result.outputs with
  | []     =>
    return if result.closed then thrown [] (.failure "empty") input.spent else .waiting [] input.spent
  | k :: _ =>
    let read := input.next result.rest
    match ← findAll k read.values with
    | (outputs, .error _)     => return .waiting outputs input.spent
    | (outputs, .ok (some e)) => return thrown outputs e input.spent
    | (outputs, .ok none)     =>
      if !read.closed then return .waiting outputs input.spent
      return { outputs, env := read.env, rest := input.spent }

/-- The texts of arguments, which read parts of the input, the first of them `part`; and the part for the
reader after them. -/
def argumentTexts (input : Stream) : List Meaning → Stream → StateM Store (Except Fault (List Text) × Stream)
  | [], part     => return (.ok [], part)
  | m :: r, part => do
    match ← sensibleText m.filter m.run part with
    | (.error f, left) => return (.error f, left)
    | (.ok t, left)    =>
      let (ts, left) ← argumentTexts input r (input.next left)
      return (ts.map (t :: ·), left)

/-- The exception that a text was needed. -/
def noText : Value := .failure "sensibleString"

/-- What comes of a text that was needed and is not there. -/
def textless (f : Fault) (rest : Stream) : Run :=
  if f.waits then .waiting [] rest else thrown [] noText rest

/-- A command with arguments.  A fault is not reported: the outputs are left open. -/
def commandWith (operand : Filter) (inner : Program) (args : List Meaning) : Program :=
  fun input => do
    match ← sensibleText operand inner input.copy with
    | (.error f, _)    => return textless f input.spent
    | (.ok name, left) =>
      match ← argumentTexts input args (input.next left) with
      | (.error f, _)     => return textless f input.spent
      | (.ok texts, part) =>
        let produced ← Command.run name texts part
        let (outputs, f) ← Produced.values produced.documents
        if (f <|> produced.fault).isSome then return .waiting outputs input.spent
        return { outputs, env := part.env, rest := input.spent, closed := part.env.isComplete }

/-- A function with arguments. -/
def function (head : Meaning) (args : List Meaning) : Program := fun input => do
  match ← sensibleText head.filter head.run input.copy with
  | (.error f, _)    => return textless f input.spent
  | (.ok name, left) =>
    let missing :=
      if Builtin.registry.knows name then Value.failure "numArgs" else missingName name
    let result ← call name args missing (input.next left)
    return { result with rest := input.spent }

/-- The digits of a number filter. -/
def digits? : Filter → Option Text
  | .number digits _ => some digits
  | _                => none

/-- A row of filters. -/
def apply (parts : List Meaning) : Program :=
  if parts.all (·.filter.isEmpty) then identity
  else match parts with
    | [] => identity
    | head :: args =>
      match head.filter, args with
      | .number before _, [second] =>
        match digits? second.filter with
        | some after => decimal before after
        | none       => function head args
      | .empty, key :: _    => lookup key
      | .command operand, _ => commandWith operand head.inner args
      | _, _                => function head args

/-- The environment after an assignment: `set` binds the variable to the outputs of a filter, unless one of
them is an exception. -/
def bindOutputs (env : Environment) (outputs : List Value) (set : Environment → Environment) :
    Environment :=
  if outputs.any Value.isException then env.filled else set env

/-- Assigns the outputs of the right operand to a variable, and passes the input on.  The variables come when
the right operand has ended; the rest of the environment and the values do not wait for that. -/
def assign (left right : Meaning) : Program := fun input => do
  let result ← right.run input.copy
  let target := input.next result.rest
  match left.filter with
  | .name n =>
    let done := !target.env.withheld.locals && result.closed
    let env :=
      if done then bindOutputs target.env result.outputs fun env =>
        { env with locals := env.locals.bind n result.outputs }
      else target.env.withoutLocals
    return { outputs := target.values, env, rest := input.spent, closed := target.closed || done }
  | .globalVariable operand =>
    let passed : Run :=
      { outputs := target.values, env := target.env.withoutGlobals, rest := input.spent
        closed  := target.closed }
    if target.env.withheld.globals then return passed
    -- by now the values have been passed on
    match (← sensibleText operand left.inner target.read).1 with
    | .error f =>
      if f.waits then return passed
      return { passed with env := target.env.filled, closed := true }
    | .ok n    =>
      if !result.closed then return passed
      let env := bindOutputs target.env result.outputs fun env =>
        { env with globals := env.globals.bind n result.outputs }
      return { passed with env, closed := true }
  | f =>
    return thrown [] (.exception { name := "assignment", details := [("target_filter", .filter f)] })
      input.spent

/-- Runs the first for its environment, and the second as soon as that is there.  The environment after
both comes when the second has ended. -/
def semicolon (left right : Program) : Program := fun input => do
  let first ← left input.copy
  if !first.env.isComplete then return .waiting [] input.spent
  let second ← right { input.next first.rest with env := first.env }
  if !second.closed then return .waiting second.outputs input.spent
  return { second with rest := input.spent }

/-- A global variable. -/
def globalVariable (operand : Filter) (inner : Program) : Program := fun input => do
  let (name, rest) ← sensibleText operand inner input
  let waits : Run := { Run.waiting [] rest with env := input.env }
  match name with
  | .error f =>
    return if f.waits then waits else { outputs := [noText], env := input.env.filled, rest }
  | .ok n    =>
    if input.env.withheld.globals then return waits
    match input.env.globals.lookup n with
    | some values => return { outputs := values, env := input.env, rest }
    | none        => return { outputs := [missingName n], env := input.env.filled, rest }

end Program

/-- A command without arguments. -/
def Generate.command (operand : Filter) (inner : Program) : Generator := fun input => do
  match ← sensibleText operand inner input.copy with
  | (.error f, _)    => return Generate.noText f
  | (.ok name, left) => Command.run name [] (input.next left)

end FilterShell
