import FilterShell.Fault

/-!
# The system

Commands are programs of the system that the shell runs on.  Nothing is known of them beforehand: what comes
of a command may depend on all commands before it and on what they read.
-/

namespace FilterShell

/-- A command that has run: its name, its arguments, and the octets that were written to it. -/
structure Invocation where
  name  : Text
  args  : List Text
  input : List Nat

/-- What comes of starting a command. -/
inductive Outcome where
  | notFound
  | notPermitted
  /-- The system does not even look for the command. -/
  | failed (f : Fault)
  /-- It runs, and answers what is written to it with octets, or with a fault; one that waits for something
  that never happens is one that never ends. -/
  | started (answer : List Nat → Except Fault (List Nat))

structure System where
  /-- The commands that have run, the last one first. -/
  history : List Invocation := []
  /-- What comes of starting a command after these. -/
  start   : List Invocation → Text → List Text → Outcome := fun _ _ _ => .notFound

namespace System

def outcome (s : System) (name : Text) (args : List Text) : Outcome := s.start s.history name args

/-- Notes that a command has run. -/
def note (s : System) (i : Invocation) : System := { s with history := i :: s.history }

end System

end FilterShell
