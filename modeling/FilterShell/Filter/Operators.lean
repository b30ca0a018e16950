import FilterShell.Filter.Item

/-!
# Atoms and operators

The steps of reading a program after its groups are filters.  First names, numbers and strings
become filters, then operators are applied, one group of equal strength after the other: the
operators in front of one operand (`!` and `$`), the dot, several filters in a row, and the other
operators from `*` to `;`.  A binary operator takes the empty filter for an operand that is missing.
-/

namespace FilterShell.Operators

/-- The filter of a name, number or string token. -/
def atom? (t : Token) : Option (Except ParseError Filter) :=
  match t.kind, t.text with
  | .name, some n   => some (.ok (.name n))
  | .name, none     => some (.ok .nameless)
  | .string, some s => some (.ok (.string s))
  | .string, none   => some (.ok .textless)
  | .number, some d => some (match Decimal.read? d with
    | some value => .ok (.number d value)
    | none       => .error .badNumber)
  | .number, none   => some (.error .missingText)
  | _, _            => none

/-- Names, numbers and strings become filters, from right to left. -/
def atoms (permissions : Permissions) : List Item → Except ParseError (List Item)
  | []            => .ok []
  | .token t :: r => do
    let r ← atoms permissions r
    match atom? t with
    | some a => return .filter (← permissions.check (← a)) :: r
    | none   => return .token t :: r
  | x :: r        => return x :: (← atoms permissions r)

/-- The filter of an operator in front of its operand. -/
def unary? : Token.Kind → Option (Filter → Filter)
  | .command        => some .command
  | .globalVariable => some .globalVariable
  | _               => none

/-- Operators in front of one operand, from right to left. -/
def unary (permissions : Permissions) : List Item → Except ParseError (List Item)
  | []            => .ok []
  | .token t :: r => do
    let r ← unary permissions r
    match unary? t.kind with
    | none      => return .token t :: r
    | some node => match r with
      | .filter f :: r    => return .filter (← permissions.check (node f)) :: r
      | .token found :: _ => .error (.noOperand t (some found))
      | _                 => .error (.noOperand t none)
  | x :: r        => return x :: (← unary permissions r)

/-- The filters at the start, and the items from the first token on. -/
def run : List Item → List Filter × List Item
  | .filter f :: r => let (fs, rest) := run r; (f :: fs, rest)
  | r              => ([], r)

/-- One filter for a row of filters. -/
def applied (permissions : Permissions) : List Filter → Except ParseError (List Item)
  | []  => .ok []
  | [f] => .ok [.filter f]
  | fs  => return [.filter (← permissions.check (.apply fs))]

/-- Rows of filters become applications, from right to left.  `row` are the filters directly in
front of the items. -/
def rows (permissions : Permissions) (row : List Filter) :
    List Item → Except ParseError (List Item)
  | []             => applied permissions row
  | .filter f :: r => rows permissions (row ++ [f]) r
  | x :: r         => do
    let rest ← rows permissions [] r
    return (← applied permissions row) ++ x :: rest

/-- The operand that a neighbour is, or the empty filter. -/
def operand (permissions : Permissions) : Option Filter → Except ParseError Filter
  | some f => .ok f
  | none   => permissions.check .empty

/-- The filter next to an operator among the items that are done, and the others. -/
def neighbour : List Item → Option Filter × List Item
  | .filter f :: r => (some f, r)
  | r              => (none, r)

/-- Applies operators from left to right.  `done` are the items that are done, last one first,
and `node` builds the filter of an operator from the operand behind it and the one ahead. -/
def sweep (permissions : Permissions) (node : Token.Kind → Option (Filter → Filter → Filter)) :
    (done : List Item) → List Item → Except ParseError (List Item)
  | done, []       => .ok done.reverse
  | done, x :: r   =>
    match x with
    | .filter _ | .value => sweep permissions node (x :: done) r
    | .token t  => match node t.kind with
      | none      => sweep permissions node (x :: done) r
      | some make => do
        let (behind, done) := neighbour done
        match r with
        | .filter ahead :: r =>
          sweep permissions node (.filter (make (← operand permissions behind) ahead) :: done) r
        | r =>
          let ahead ← operand permissions none
          sweep permissions node (.filter (make (← operand permissions behind) ahead) :: done) r

/-- An operator whose operands group from the left. -/
def leftward (permissions : Permissions) (kind : Token.Kind) (op : Operator)
    (items : List Item) : Except ParseError (List Item) :=
  sweep permissions (fun k => if k = kind then some (.binary op) else none) [] items

/-- An operator whose operands group from the right. -/
def rightward (permissions : Permissions) (kind : Token.Kind) (op : Operator)
    (items : List Item) : Except ParseError (List Item) := do
  let done ← sweep permissions
    (fun k => if k = kind then some (fun behind ahead => .binary op ahead behind) else none)
    [] items.reverse
  return done.reverse

/-- All operators, tightest first. -/
def pass (permissions : Permissions) (items : List Item) : Except ParseError (List Item) := do
  let items ← unary permissions items
  let items ← leftward permissions .dot .dot items
  let items ← rows permissions [] items
  let items ← leftward permissions .multiply .multiply items
  let items ← leftward permissions .plus .add items
  let items ← leftward permissions .colon .pair items
  let items ← leftward permissions .comma .comma items
  let items ← leftward permissions .assign .assign items
  let items ← rightward permissions .pipe .pipe items
  leftward permissions .semicolon .semicolon items

end FilterShell.Operators
