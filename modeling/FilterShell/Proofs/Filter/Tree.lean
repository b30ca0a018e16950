import FilterShell.Filter.Parse

/-!
# Trees of filters

Three views of the tree of a filter.

* `Filter.nodes`: the filter itself and everything below it.
* `Filter.marks`: the tokens that the tree reads as, from left to right, each by its kind and text.
* `Filter.looseness`: the number of the group in which the operator at the top was applied.

`Filter.WellGrouped` is what the order of the groups means for a tree: no operand is looser than its
operator, and of two operators of one group the left one is applied first, with the pipe as the
exception.
-/

namespace FilterShell

/-- What a reader of programs sees of a token. -/
abbrev Mark := Token.Kind × Option Text

/-- The kind and the text of a token. -/
def Token.mark (t : Token) : Mark := (t.kind, t.text)

namespace Operator

/-- The kind of the token that writes an operator. -/
def tokenKind : Operator → Token.Kind
  | .dot       => .dot
  | .multiply  => .multiply
  | .add       => .plus
  | .pair      => .colon
  | .comma     => .comma
  | .assign    => .assign
  | .pipe      => .pipe
  | .semicolon => .semicolon

/-- The number of the operator's group, tightest first. -/
def looseness : Operator → Nat
  | .dot       => 2
  | .multiply  => 4
  | .add       => 5
  | .pair      => 6
  | .comma     => 7
  | .assign    => 8
  | .pipe      => 9
  | .semicolon => 10

end Operator

namespace Filter

/-! ### Nodes -/

mutual

/-- The filter and everything below it. -/
def nodes : Filter → List Filter
  | .parens f            => .parens f :: f.nodes
  | .array f             => .array f :: f.nodes
  | .object f            => .object f :: f.nodes
  | .conditional clauses => .conditional clauses :: clauseNodes clauses
  | .attempt clauses     => .attempt clauses :: clauseNodes clauses
  | .binary op l r       => .binary op l r :: (l.nodes ++ r.nodes)
  | .apply parts         => .apply parts :: partNodes parts
  | .command f           => .command f :: f.nodes
  | .globalVariable f    => .globalVariable f :: f.nodes
  | f                    => [f]

/-- The nodes of several filters. -/
def partNodes : List Filter → List Filter
  | []     => []
  | f :: r => f.nodes ++ partNodes r

/-- The nodes in the clauses of a keyword group. -/
def clauseNodes : List (Text × Filter) → List Filter
  | []          => []
  | (_, f) :: r => f.nodes ++ clauseNodes r

end

theorem mem_nodes_self (f : Filter) : f ∈ f.nodes := by
  cases f <;> simp [nodes]

theorem mem_partNodes {n : Filter} {parts : List Filter} :
    n ∈ partNodes parts ↔ ∃ f ∈ parts, n ∈ f.nodes := by
  induction parts with
  | nil => simp [partNodes]
  | cons f r ih => simp [partNodes, ih]

theorem mem_clauseNodes {n : Filter} {clauses : List (Text × Filter)} :
    n ∈ clauseNodes clauses ↔ ∃ c ∈ clauses, n ∈ c.2.nodes := by
  induction clauses with
  | nil => simp [clauseNodes]
  | cons c r ih => simp [clauseNodes, ih]

/-! ### Marks -/

mutual

/-- The filter as tokens, by kind and text. -/
def marks : Filter → List Mark
  | .empty               => []
  | .parens f            => (.openParen, none) :: f.marks ++ [(.closeParen, none)]
  | .array f             => (.openArray, none) :: f.marks ++ [(.closeArray, none)]
  | .object f            => (.openObject, none) :: f.marks ++ [(.closeObject, none)]
  | .conditional clauses => clauseMarks clauses ++ [(.name, some Token.endWord)]
  | .attempt clauses     => clauseMarks clauses ++ [(.name, some Token.endWord)]
  | .name n              => [(.name, some n)]
  | .nameless            => [(.name, none)]
  | .number digits _     => [(.number, some digits)]
  | .string t            => [(.string, some t)]
  | .textless            => [(.string, none)]
  | .binary op l r       => l.marks ++ (op.tokenKind, none) :: r.marks
  | .apply parts         => partMarks parts
  | .command f           => (.command, none) :: f.marks
  | .globalVariable f    => (.globalVariable, none) :: f.marks

/-- Several filters after each other, as tokens. -/
def partMarks : List Filter → List Mark
  | []     => []
  | f :: r => f.marks ++ partMarks r

/-- The clauses of a keyword group as tokens, each with its word in front. -/
def clauseMarks : List (Text × Filter) → List Mark
  | []             => []
  | (word, f) :: r => (.name, some word) :: f.marks ++ clauseMarks r

end

/-! ### Looseness -/

/-- The number of the group of the operator at the top; zero if there is none. -/
def looseness : Filter → Nat
  | .command _        => 1
  | .globalVariable _ => 1
  | .binary op _ _    => op.looseness
  | .apply _          => 3
  | _                 => 0

/-- The operands of one node stand where the order of the groups puts them. -/
def Fits : Filter → Prop
  | .binary .pipe l r => l.looseness < Operator.pipe.looseness ∧
      r.looseness ≤ Operator.pipe.looseness
  | .binary op l r    => l.looseness ≤ op.looseness ∧ r.looseness < op.looseness
  | .apply parts      => 2 ≤ parts.length ∧ ∀ f ∈ parts, f.looseness ≤ Operator.dot.looseness
  | .command f        => f.looseness ≤ 1
  | .globalVariable f => f.looseness ≤ 1
  | _                 => True

/-- The operands of every node, at any depth, stand where the order of the groups puts them. -/
def WellGrouped (f : Filter) : Prop := ∀ n ∈ f.nodes, n.Fits

end Filter

namespace Item

/-- An item as tokens. -/
def marks : Item → List Mark
  | .token t  => [t.mark]
  | .filter f => f.marks
  | .value    => []

end Item

end FilterShell
