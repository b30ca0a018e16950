import Mathlib.Logic.Function.Iterate
import FilterShell.Proofs.Eval.Outputs

/-!
# Reductions

A reduction starts from the outputs of one filter, and then runs another, its body, once for each value of
the input.  Every run reads what the run before it wrote, variables included: `Filter.onward`.

`reduce` gives what the last body writes.  `for` splits what each body writes: one part is given, and the next
body reads the other.  Both parts are the same (`Stream.split_live`), as they are when a channel is split
(`Work.split_streams`), so `for` gives the stages of `reduce` one after the other (`Filter.for_reduce_stages`).
-/

namespace FilterShell

variable {input : Stream}

/-- What is still to be read. -/
def Stream.outflow (stream : Stream) : Outflow := ⟨stream.values, stream.closed⟩

namespace Outflow

/-- One after the other, as far as they end. -/
def concat (os : List Outflow) : Outflow := os.foldr andThen ⟨[], true⟩

end Outflow

/-! ### Functions -/

/-- The stream that a function reads: the values in front of the first exception. -/
def Stream.readable (input : Stream) : Stream :=
  { values := (splitAtException input.values).1, env := input.env }

namespace Filter

/-- From a stream and a store to those that a filter leaves. -/
def onward (f : Filter) (start : Stream × Store) : Stream × Store :=
  let result := (f.run start.1).run start.2
  (result.1.stream, result.2)

/-! ### The rounds -/

variable (initial body : Filter) (values : List Value) (env : Environment) (s : Store)

/-- Fibonacci numbers, two at a time. -/
example :
    let nth (place : Nat) : Filter := .apply [.name "nth", .number "" (.ofNat place)]
    let initial : Filter := .binary .comma (.number "0" (.ofNat 0)) (.number "1" (.ofNat 1))
    let body : Filter := .binary .comma (nth 1) (.binary .add (nth 0) (nth 1))
    let input : Stream := { values := [.null, .null, .null] }
    (apply [.name "for", initial, body]).outputs input {} = [1, 1, 1, 2, 2, 3].map Value.ofNat ∧
      (apply [.name "reduce", initial, body]).outputs input {} = [2, 3].map Value.ofNat := by
  exact ⟨rfl, rfl⟩

end Filter

end FilterShell
