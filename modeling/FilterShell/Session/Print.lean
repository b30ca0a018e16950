import FilterShell.Eval.Run
import FilterShell.Value.Layout

/-!
# Printing the outputs of a filter

Outputs are printed as they come, each on its own lines.  A value that cannot be shown ends the
printing.
-/

namespace FilterShell

/-- A terminal that cannot style. -/
def Terminal.plain : Terminal where
  styles    := false
  bold t    := t
  color _ t := t

namespace Session

/-- The lines of values on a terminal. -/
def linesOf (t : Terminal) : List Value → StateM Store Lines
  | []     => return { lines := [] }
  | v :: r => do (← t.lines v).andThen (linesOf t r)

/-- Prints what a filter gives.  It is waited for the end of the outputs, and then for the variables and
formats. -/
def printed (result : Run) : StateM Store Lines := do
  let lines ← linesOf .plain result.outputs
  let missing := if result.closed && result.env.hasNames then none else some Fault.nothingWaiting
  return { lines with fault := lines.fault <|> missing }

/-- What running a filter prints, and the environment after it. -/
def print (f : Filter) (input : Stream) : StateM Store (Lines × Environment) := do
  let result ← f.run input
  return (← printed result, result.env)

end Session

end FilterShell
