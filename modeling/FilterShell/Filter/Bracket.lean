import FilterShell.Filter.Item

/-!
# Brackets

The first step of reading a program: each outermost group, from a bracket or `if` or `try` to
what closes it, becomes one filter.  Tokens are visited from right to left, with one count of
open groups for all kinds.  A group that starts with a bracket must end with the bracket of its
kind; a group that starts with a keyword may end with any closer.

The names directly inside a group are remembered by place, since `then` or `catch` may be among them.
`end` starts with an empty memory, and a keyword group leaves only the places where its clauses start;
nothing else is forgotten.  So a place may be out of date when a keyword group is closed by a bracket.
-/

namespace FilterShell

namespace Token

/-- The word that ends a keyword group. -/
def endWord : Text := "end"

/-- The words that start a new clause in a keyword group. -/
def clauseWords? (t : Token) : Option (List Text) :=
  if t.isName "if" then some ["then", "elif", "elseIf", "else"]
  else if t.isName "try" then some ["catch", "then", "except", "else"]
  else none

/-- The kind that closes a bracket. -/
def Kind.closer? : Kind → Option Kind
  | .openArray  => some .closeArray
  | .openObject => some .closeObject
  | .openParen  => some .closeParen
  | _           => none

/-- The token ends a group. -/
def closes (t : Token) : Bool :=
  t.kind = .closeArray || t.kind = .closeObject || t.kind = .closeParen || t.isName endWord

/-- The token starts a group. -/
def opens (t : Token) : Bool := t.kind.closer?.isSome || t.clauseWords?.isSome

end Token

namespace Bracket

/-- A clause of a keyword group: its word and its items, fewer than `n`. -/
structure Clause (n : Nat) where
  word  : Text
  items : List Item
  short : items.length < n

/-- The places, among those of the names in a group, where a clause of `opener` starts, with its
word.  `i` is the place of the opener and `after` are the items behind it. -/
def clauseStarts (i : Nat) (after : List Item) (words : List Text) :
    List Nat → Except ParseError (List (Nat × Text))
  | []             => .ok []
  | place :: rest  =>
    match after[place - i - 1]? with
    | none             => .error .lostKeyword
    | some (.token t)  => do
      let starts ← clauseStarts i after words rest
      match t.text with
      | some word => return if words.contains word then (place, word) :: starts else starts
      | none      => return starts
    | some _           => .error .notToken

/-- The items between two places. -/
def between (i : Nat) (after : List Item) (start stop : Nat) : List Item :=
  (after.drop (start - i)).take (stop - start - 1)

theorem length_between_le (i : Nat) (after : List Item) (start stop : Nat) :
    (between i after start stop).length ≤ after.length := by
  simp only [between, List.length_take, List.length_drop]
  omega

/-- The clauses of a keyword group, first one first.  `stop` is the place where the last clause
ends; the places come from right to left. -/
def clauses {n : Nat} (i : Nat) (after : List Item) (h : after.length < n) (word : Text) :
    Nat → List (Nat × Text) → List (Clause n)
  | stop, []                  => [⟨word, between i after i stop,
      Nat.lt_of_le_of_lt (length_between_le ..) h⟩]
  | stop, (place, w) :: rest  => clauses i after h word place rest ++
      [⟨w, between i after place stop, Nat.lt_of_le_of_lt (length_between_le ..) h⟩]

/-- Reads the clauses one after the other. -/
def readClauses {n : Nat} (read : (items : List Item) → items.length < n → Except ParseError Filter) :
    List (Clause n) → Except ParseError (List (Text × Filter))
  | []     => .ok []
  | c :: r => do
    let f ← read c.items c.short
    return (c.word, f) :: (← readClauses read r)

/-- The filter of the group that `opener` at place `i` starts, and the places that stay
remembered behind it.  `stop` is the place of the closer, `after` the items behind the opener and
`names` the remembered places. -/
def group {n : Nat} (read : (items : List Item) → items.length < n → Except ParseError Filter)
    (i stop : Nat) (opener : Token) (after : List Item) (h : after.length < n)
    (names : List Nat) : Except ParseError (Filter × List Nat) :=
  match opener.clauseWords?, opener.text with
  | some words, some word => do
    let starts ← clauseStarts i after words names
    let parts ← readClauses read (clauses i after h word stop starts)
    return (if opener.isName "if" then .conditional parts else .attempt parts, starts.map (·.1))
  | _, _ =>
    match after[stop - i - 1]? with
    | some (.token closer) =>
      if opener.kind.closer? = some closer.kind then do
        let body ← read (between i after i stop) (Nat.lt_of_le_of_lt (length_between_le ..) h)
        let f : Filter := match opener.kind with
          | .openArray  => .array body
          | .openObject => .object body
          | _           => .parens body
        return (f, names)
      else .error (.wrongCloser opener.kind closer.kind)
    | _ => .error .notToken

/-- Replaces the outermost groups by filters.  `before` are the tokens that are still to be
visited, last one first, `after` the items behind them, `depth` the number of open groups, `stop`
the place of the closer of the outermost one and `names` the places of names directly inside. -/
def pass (permissions : Permissions) {n : Nat}
    (read : (items : List Item) → items.length < n → Except ParseError Filter) :
    (before : List Token) → (after : List Item) → before.length + after.length ≤ n →
    (depth stop : Nat) → (names : List Nat) → Except ParseError (List Item)
  | [], after, _, depth, _, _ => if depth = 0 then .ok after else .error .mismatched
  | t :: before, after, h, depth, stop, names =>
    let i := before.length
    have h₁ : before.length + (Item.token t :: after).length ≤ n := by
      simp only [List.length_cons] at h ⊢; omega
    if t.closes then
      let fresh := depth = 0
      pass permissions read before (.token t :: after) h₁ (depth + 1)
        (if fresh then i else stop)
        (if fresh && t.isName Token.endWord then [] else names)
    else if t.opens then
      match depth with
      | 0         => .error (.unclosed t)
      | 1         => do
        have h₂ : after.length < n := by simp only [List.length_cons] at h; omega
        let (f, names) ← group read i stop t after h₂ names
        let f ← permissions.check f
        pass permissions read before (.filter f :: after.drop (stop - i))
          (by simp only [List.length_cons, List.length_drop] at h ⊢; omega) 0 stop names
      | depth + 2 =>
        pass permissions read before (.token t :: after) h₁ (depth + 1) stop names
    else if depth = 1 && t.kind = .name then
      pass permissions read before (.token t :: after) h₁ depth stop (names ++ [i])
    else
      pass permissions read before (.token t :: after) h₁ depth stop names

end Bracket

end FilterShell
