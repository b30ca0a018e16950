import FilterShell.Eval.Meaning
import FilterShell.Json.Read

/-!
# Commands

A command is a program of the system, by its name or path, with arguments.  It is started first; then
the texts of the input values are written to it, a line each, with an end mark behind them; and what it
answers is read as JSON documents.
-/

namespace FilterShell.Command

/-- The end mark behind the input of a command. -/
def endMark : Nat := 4

/-- What is written to a command: the texts of values, a line each, and the fault that ended this. -/
def lines : List Value → StateM Store (List Nat × Option Fault)
  | []     => return ([], none)
  | v :: r => do
    match ← v.text.run with
    | .error f => return ([], some f)
    | .ok t    =>
      let (octets, f) ← lines r
      return (t.toUtf8 ++ 10 :: octets, f)

/-- The documents that a command wrote; what is no JSON ends them with an exception. -/
def documentsOf (octets : List Nat) : StateM Store Produced := do
  let bad : Json.Document := .value (.failure "commandOutput")
  match Text.ofUtf8? octets with
  | none   => return { documents := [bad] }
  | some t =>
    let ds ← Json.documents t
    match ds.error with
    | none   => return { documents := ds.documents }
    | some e =>
      if e.isIncomplete || e.isIllegal then return { documents := ds.documents ++ [bad] }
      else match e with
        | .fault f => return { documents := ds.documents, fault := some f }
        | _        => return { documents := ds.documents }

/-- Runs a command on a stream. -/
def run (name : Text) (args : List Text) (input : Stream) : StateM Store Produced := do
  match (← get).system.outcome name args with
  | .notFound       => return .failure "path"
  | .notPermitted   => return .failure "permission"
  | .failed f       => return .ofFault f
  | .started answer =>
    let (octets, fault) ← lines input.values
    modify fun s => { s with system := s.system.note ⟨name, args, octets⟩ }
    match fault, input.closed with
    | some f, _       => return .ofFault f
    | none, false     => return .waiting
    | none, true      =>
      match answer (octets ++ [endMark]) with
      | .error f => return .ofFault f
      | .ok out  => documentsOf out

end FilterShell.Command
