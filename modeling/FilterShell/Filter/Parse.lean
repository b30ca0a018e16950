import FilterShell.Filter.Bracket
import FilterShell.Filter.Operators

/-!
# Reading programs

`Filter.ofItems` reads a program from tokens: comments are dropped, groups become filters, then
atoms, then operators.  What is left must be one filter.  `Filter.ofSource` reads it from text.
-/

namespace FilterShell.Filter

/-- The tokens of a program, none of them illegal. -/
def legalTokens (lines : Bool) : List Item → Except ParseError (List Token)
  | []             => .ok []
  | .token t :: r  =>
    if t.kind = .illegal then .error (.illegal t none none lines)
    else return t :: (← legalTokens lines r)
  | _ :: _         => .error .notToken

/-- White space at the end of a program becomes part of the token before it. -/
def mergeTrailing : List Token → Except ParseError (List Token)
  | []          => .ok []
  | [t]         => .ok (if t.kind = .trailingWhitespace then [] else [t])
  | [t, u]      =>
    if u.kind = .trailingWhitespace then
      match t.source, u.source with
      | some s, some s' => .ok [{ t with source := some (s ++ s') }]
      | _, _            => .error .missingText
    else .ok [t, u]
  | t :: u :: r => return t :: (← mergeTrailing (u :: r))

theorem length_legalTokens {lines : Bool} : ∀ {items : List Item} {tokens : List Token},
    legalTokens lines items = .ok tokens → tokens.length = items.length
  | [], _, h => by cases h; rfl
  | .filter _ :: _, _, h | .value :: _, _, h => by cases h
  | .token t :: r, _, h => by
    simp only [legalTokens] at h
    split at h
    · cases h
    · cases hr : legalTokens lines r with
      | error e => simp [hr, bind, Except.bind] at h
      | ok ts =>
        simp only [hr, bind, Except.bind, pure, Except.pure, Except.ok.injEq] at h
        subst h
        simp [length_legalTokens hr]

theorem length_mergeTrailing_le : ∀ {tokens merged : List Token},
    mergeTrailing tokens = .ok merged → merged.length ≤ tokens.length
  | [], _, h => by cases h; simp
  | [t], _, h => by
    simp only [mergeTrailing] at h
    split at h <;> (cases h; simp)
  | [t, u], _, h => by
    simp only [mergeTrailing] at h
    split at h
    · split at h <;> cases h
      simp
    · cases h; simp
  | t :: u :: v :: r, _, h => by
    simp only [mergeTrailing] at h
    cases hr : mergeTrailing (u :: v :: r) with
    | error e => simp [hr, bind, Except.bind] at h
    | ok ts =>
      simp only [hr, bind, Except.bind, pure, Except.pure, Except.ok.injEq] at h
      subst h
      simpa using length_mergeTrailing_le hr

/-- The one filter that is left of a program. -/
def single (items : List Item) : Except ParseError Filter :=
  match items with
  | [.filter f] => .ok f
  | items       => .error (.leftover items)

/-- The filter that the items of a program stand for. -/
def ofItems (permissions : Permissions) (lines : Bool) (items : List Item) :
    Except ParseError Filter :=
  if items.any Item.isValue then .error .notToken else
  match h : legalTokens lines (items.filter (!·.isComment)) with
  | .error e   => .error e
  | .ok tokens =>
    match h' : mergeTrailing tokens with
    | .error e => .error e
    | .ok []   => permissions.check .empty
    | .ok (t :: ts) => do
      have le : (t :: ts).length ≤ items.length :=
        Nat.le_trans (length_mergeTrailing_le h')
          (Nat.le_trans (Nat.le_of_eq (length_legalTokens h)) (List.length_filter_le ..))
      let grouped ← Bracket.pass permissions
        (fun inner (short : inner.length < (t :: ts).length) => ofItems permissions lines inner)
        (t :: ts).reverse [] (by simp) 0 0 []
      single (← Operators.pass permissions (← Operators.atoms permissions grouped))
termination_by items.length
decreasing_by exact Nat.lt_of_lt_of_le short le

/-- The filter that a program stands for. -/
def ofSource (permissions : Permissions) (lines : Bool) (source : Text) :
    Except ParseError Filter :=
  let scanned := Token.scan source
  match scanned.error with
  | some e => .error (.unscannable e)
  | none   => ofItems permissions lines (scanned.tokens.map .token)

end FilterShell.Filter
