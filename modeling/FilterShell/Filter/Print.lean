import FilterShell.Filter.Basic
import FilterShell.Text.Literal
import FilterShell.Text.Quoted

/-!
# Filters as text

`Filter.text` writes a filter in the language itself.  It adds no parentheses, since a tree that
comes from source has them where they are needed.  A filter in which a text is missing has no such
form, see `Filter.isWritten`.  `Filter.shown` writes the tree of any filter for messages.
-/

namespace FilterShell

/-- An operator as the language writes it. -/
def Operator.text : Operator → String
  | .dot       => "."
  | .multiply  => " * "
  | .add       => " + "
  | .pair      => ": "
  | .comma     => ", "
  | .assign    => " = "
  | .pipe      => " | "
  | .semicolon => "; "

namespace Filter

mutual

/-- The filter as source; a missing text adds nothing. -/
def text : Filter → Text
  | .empty               => []
  | .parens f            => Text.ofString "(" ++ f.text ++ Text.ofString ")"
  | .array f             => Text.ofString "[" ++ f.text ++ Text.ofString "]"
  | .object f            => Text.ofString "\x7b" ++ f.text ++ Text.ofString "\x7d"
  | .conditional clauses =>
    Text.join (Text.ofString " ") (clauseTexts clauses) ++ Text.ofString " end"
  | .attempt clauses     =>
    Text.join (Text.ofString " ") (clauseTexts clauses) ++ Text.ofString " end"
  | .name n              => n
  | .nameless            => []
  | .number digits _     => digits
  | .string t            => t.literal
  | .textless            => []
  | .binary op l r       => l.text ++ Text.ofString op.text ++ r.text
  | .apply parts         => Text.join (Text.ofString " ") (texts parts)
  | .command f           => Text.ofString "!" ++ f.text
  | .globalVariable f    => Text.ofString "$" ++ f.text

/-- Each filter as source. -/
def texts : List Filter → List Text
  | []     => []
  | f :: r => f.text :: texts r

/-- Each clause as source. -/
def clauseTexts : List (Text × Filter) → List Text
  | []             => []
  | (word, f) :: r => (word ++ Text.ofString " " ++ f.text) :: clauseTexts r

end

mutual

/-- All texts of the filter are there. -/
def isWritten : Filter → Bool
  | .nameless | .textless => false
  | .empty | .name _ | .number _ _ | .string _ => true
  | .parens f | .array f | .object f | .command f | .globalVariable f => f.isWritten
  | .conditional clauses | .attempt clauses => clausesWritten clauses
  | .binary _ l r => l.isWritten && r.isWritten
  | .apply parts  => allWritten parts

/-- All texts of the filters are there. -/
def allWritten : List Filter → Bool
  | []     => true
  | f :: r => f.isWritten && allWritten r

/-- All texts of the clauses are there. -/
def clausesWritten : List (Text × Filter) → Bool
  | []          => true
  | (_, f) :: r => f.isWritten && clausesWritten r

end

/-- The filter as source, if it has such a form. -/
def text? (f : Filter) : Option Text := if f.isWritten then some f.text else none

/-- What messages show where a text is missing. -/
def missingText : Text := "None"

/-- A tree with the word of its kind in front. -/
def shownAs (k : Kind) (inside : Text) : Text :=
  Text.ofString "jqsh.filter." ++ Text.ofString k.word ++ Text.ofString "(" ++ inside
    ++ Text.ofString ")"

/-- A list between brackets. -/
def shownList (items : List Text) : Text :=
  Text.ofString "[" ++ Text.join (Text.ofString ", ") items ++ Text.ofString "]"

/-- The operands that are there, with their names. -/
def shownOperands (left right : Filter) (l r : Text) : Text :=
  Text.join (Text.ofString ", ")
    ((if left.isEmpty then [] else [Text.ofString "left=" ++ l])
      ++ (if right.isEmpty then [] else [Text.ofString "right=" ++ r]))

mutual

/-- The filter as messages show it. -/
def shown : Filter → Text
  | .empty               => shownAs .empty []
  | .parens f            => shownAs .parens (if f.isEmpty then [] else f.shown)
  | .array f             => shownAs .array (if f.isEmpty then [] else f.shown)
  | .object f            => shownAs .object (if f.isEmpty then [] else f.shown)
  | .conditional clauses => shownAs .conditional (shownList (clausesShown clauses))
  | .attempt clauses     => shownAs .attempt (shownList (clausesShown clauses))
  | .name n              => shownAs .name n.quoted
  | .nameless            => shownAs .name missingText
  | .number digits _     => shownAs .number digits.quoted
  | .string t            => shownAs .string t.quoted
  | .textless            => shownAs .string missingText
  | .binary op l r       => shownAs (.ofOperator op) (shownOperands l r l.shown r.shown)
  | .apply parts         => shownAs .apply (Text.join (Text.ofString ", ") (allShown parts))
  | .command f           => shownAs .command f.shown
  | .globalVariable f    => shownAs .globalVariable f.shown

/-- Each filter as messages show it. -/
def allShown : List Filter → List Text
  | []     => []
  | f :: r => f.shown :: allShown r

/-- Each clause as messages show it. -/
def clausesShown : List (Text × Filter) → List Text
  | []             => []
  | (word, f) :: r =>
    (Text.ofString "(" ++ word.quoted ++ Text.ofString ", " ++ f.shown ++ Text.ofString ")")
      :: clausesShown r

end

end Filter

end FilterShell
