import FilterShell.Filter.Item

/-!
# Computations that may fail

Reading a program is a chain of steps, each of which may fail.  The chain gives a result exactly
if every step gives one; the lemmas here take such a chain apart.  `Permissions.Passes` says that
a filter goes through the check of a permission.
-/

namespace FilterShell

variable {α ε : Type}

/-- Two steps give a result if the first gives one and the second goes on from there. -/
theorem andThen_ok {β : Type} {first : Except ε α} {next : α → Except ε β} {result : β} :
    (first >>= next) = .ok result ↔ ∃ middle, first = .ok middle ∧ next middle = .ok result := by
  cases first <;> simp [bind, Except.bind]

theorem done_ok {given result : α} : (pure given : Except ε α) = .ok result ↔ result = given := by
  simp only [pure, Except.pure, Except.ok.injEq, eq_comm]

theorem exists_of_isOk {outcome : Except ε α} (h : outcome.isOk) :
    ∃ result, outcome = .ok result := by
  cases outcome with
  | error => cases h
  | ok result => exact ⟨result, rfl⟩

namespace Permissions

/-- The filter goes through the check. -/
def Passes (p : Permissions) (f : Filter) : Prop := p.check f = .ok f

theorem check_eq_ok {p : Permissions} {f g : Filter} : p.check f = .ok g ↔ g = f ∧ p.Passes f := by
  unfold Passes check
  split
  · simp
  · split
    · simp [eq_comm]
    · split <;> simp

end Permissions

end FilterShell
