import FilterShell.Session.Shell

/-!
# The command line

The program as it is started by a user: it reads the standard input and the module, and writes
what `Session.transcript` says.  The interactive shell reads a line at a time.  It has no system to run
commands on, so none is found.
-/

namespace FilterShell.Session

/-- The string that is written for a text; a surrogate becomes the replacement character. -/
def written (t : Text) : String :=
  String.ofList (t.map fun r => (r.toChar?).getD '�')

def write (t : Text) : IO Unit := do
  let out ← IO.getStdout
  out.putStr (written t)
  out.flush

/-- Writes a message about an error and gives the exit code for it. -/
def complain (message : Option Text) : IO UInt32 := do
  IO.eprintln (written (message.getD "jqsh: cannot go on"))
  return 1

/-- The exit code of an ending, after its message. -/
def finish : Ending → IO UInt32
  | .exit none | .endOfInput => return 0
  | .exit message            => complain message
  | .fault f                 => complain f.message
  | .badInput e              => complain e.message
  | .missingArgument         => complain none

/-- The interactive shell. -/
partial def interact (r : Repl) : IO UInt32 := do
  write prompt
  let line ← (← IO.getStdin).getLine
  if line.isEmpty then
    write "^D\n"
    return 0
  let reply := r.run ((inputLines line).headD [])
  write reply.output
  match reply.next with
  | .ok next => interact next
  | .error f => complain f.message

/-- The file of a module, if it can be read. -/
def load (path : Text) : IO Files := do
  let directories : List Text := [".", "..", "/"]
  try return { texts := [((Route.ofPath path).name, ← IO.FS.readFile (written path))], directories }
  catch _ => return { directories }

/-- Applies a filter or module to the standard input. -/
def once (o : Options) (arguments : List Text) : IO UInt32 := do
  let stdin ← IO.getStdin
  let terminal ← stdin.isTty
  let input ← if terminal then pure "" else stdin.readToEnd
  let files ← match o.module with
    | some path => load path
    | none      => pure {}
  let start : Start := { arguments, input, terminal, files }
  let t := ((applyOnce start o arguments).run {}).1
  write t.output
  finish t.ending

end FilterShell.Session

open FilterShell Session

def main (arguments : List String) : IO UInt32 := do
  let arguments : List Text := arguments.map Text.ofString
  match Options.ofArguments arguments with
  | .run o rest =>
    if o.filter.isSome || o.module.isSome then once o rest
    else interact {}
  | _ =>
    let t := transcript { arguments }
    write t.output
    finish t.ending
