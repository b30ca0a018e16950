import FilterShell.Filter.Print

/-!
# Permissions

Whoever reads a program may forbid filters: either only the listed kinds are allowed, or each
kind has a rule, with a rule for the kinds that are not listed.  Without any such rule a kind is
forbidden.  A rule may judge a filter by its tree or by its text.
-/

namespace FilterShell

/-- A rule for one kind of filter. -/
inductive Permission.Rule where
  | fixed (allowed : Bool)
  | test (allowed : Filter → Bool)
  | testText (allowed : Text → Bool)

inductive Permissions where
  /-- Only these kinds are allowed. -/
  | only (kinds : List Filter.Kind)
  /-- Each kind by its rule, the others by the default one. -/
  | rules (byKind : List (Filter.Kind × Permission.Rule)) (default : Option Permission.Rule)

namespace Permission.Rule

/-- What a rule says about a filter. -/
def allows : Permission.Rule → Filter → Bool
  | .fixed allowed, _    => allowed
  | .test allowed, f     => allowed f
  | .testText allowed, f => allowed f.text

/-- The rule needs the text of a filter. -/
def readsText : Permission.Rule → Bool
  | .testText _ => true
  | _           => false

end Permission.Rule

namespace Permissions

/-- The rule for a kind of filter. -/
def rule : Permissions → Filter.Kind → Permission.Rule
  | .only kinds, k           => .fixed (kinds.contains k)
  | .rules byKind default, k => ((byKind.lookup k).or default).getD (.fixed false)

/-- Whether a filter may occur in a program. -/
def allows (p : Permissions) (f : Filter) : Bool := (p.rule f.kind).allows f

/-- Everything is allowed. -/
def everything : Permissions := .rules [] (some (.fixed true))

end Permissions

end FilterShell
