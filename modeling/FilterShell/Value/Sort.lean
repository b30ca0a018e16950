/-!
# Sorting with a comparison that has effects

Comparing two values can read containers and can fail, so it matters which values are compared and
in which order.  The sort takes the run at the start of the list, ascending or strictly
descending, and puts the other elements into it one by one, each at a place found by halving.  It
is stable.
-/

namespace FilterShell

namespace Sorting

variable {m : Type → Type} [Monad m] {α : Type}

/-- The elements that go on ascending behind `x`, and the rest. -/
def ascending (less : α → α → m Bool) (x : α) : List α → m (List α × List α)
  | []     => return ([], [])
  | y :: r => do
    if ← less y x then return ([], y :: r)
    let (run, rest) ← ascending less y r
    return (y :: run, rest)

/-- The elements that go on strictly descending behind `x`, and the rest. -/
def descending (less : α → α → m Bool) (x : α) : List α → m (List α × List α)
  | []     => return ([], [])
  | y :: r => do
    if ← less y x then
      let (run, rest) ← descending less y r
      return (y :: run, rest)
    else return ([], y :: r)

/-- The place for `x` between places `low` and `high` of a sorted list: in front of the first
element that `x` is less than. -/
def place (less : α → α → m Bool) (x : α) (sorted : List α) (low high : Nat) : m Nat :=
  if _h : low < high then
    let middle := low + (high - low) / 2
    match sorted[middle]? with
    | none   => return low
    | some y => do
      if ← less x y then place less x sorted low middle
      else place less x sorted (middle + 1) high
  else return low
termination_by high - low
decreasing_by all_goals omega

/-- Puts an element into a sorted list. -/
def insert (less : α → α → m Bool) (sorted : List α) (x : α) : m (List α) := do
  let i ← place less x sorted 0 sorted.length
  return sorted.take i ++ x :: sorted.drop i

end Sorting

/-- Sorts a list. -/
def sortBy {m : Type → Type} [Monad m] {α : Type} (less : α → α → m Bool) :
    List α → m (List α)
  | []          => return []
  | [x]         => return [x]
  | x :: y :: r => do
    let (run, rest) ←
      if ← less y x then do
        let (run, rest) ← Sorting.descending less y r
        pure ((x :: y :: run).reverse, rest)
      else do
        let (run, rest) ← Sorting.ascending less y r
        pure (x :: y :: run, rest)
    rest.foldlM (Sorting.insert less) run

end FilterShell
