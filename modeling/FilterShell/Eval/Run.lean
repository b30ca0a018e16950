import FilterShell.Eval.Apply

/-!
# Running filters

`Filter.meaning` puts the pieces together: the meaning of a filter is built from the meanings of
its operands.  `Filter.run` runs a filter on a stream, and `Filter.generate` lets its generator
yield all it has, exceptions or not.
-/

namespace FilterShell.Filter

mutual

/-- The meaning of a filter. -/
def meaning : Filter → Meaning
  | .empty         => .ofGenerator .empty fun _ => return {}
  | .parens f      => .ofGenerator (.parens f) (Generate.parens f.meaning.run)
  | .array f       => .ofGenerator (.array f) (Generate.array f.meaning.run)
  | .object f      => .ofGenerator (.object f) (Generate.object f.meaning.run)
  | .conditional cs => .ofGenerator (.conditional cs)
      (Generate.conditional (clauseMeanings cs) none)
  | .attempt cs    => .ofGenerator (.attempt cs) (Generate.attempt (clauseMeanings cs))
  | .nameless      => .ofGenerator .nameless fun _ => return {}
  | .textless      => .ofGenerator .textless fun _ => return {}
  | .name n        => { filter := .name n, run := Program.name n }
  | .number t d    => .ofGenerator (.number t d) fun _ =>
    Produced.ofReading do return [← Value.ofDecimal d]
  | .string t      => .ofGenerator (.string t) fun _ =>
    Produced.ofReading do return [← Value.ofText t]
  | .binary op l r =>
    let filter := .binary op l r
    let left := l.meaning
    let right := r.meaning
    match op with
    | .dot       => { filter, run := Program.apply [left, right] }
    | .multiply  => .ofGenerator filter (Generate.combined Combine.multiply left.run right.run)
    | .add       => .ofGenerator filter (Generate.combined Combine.add left.run right.run)
    | .pair      => .ofGenerator filter (Generate.pair left.run right.run)
    | .comma     => .ofGenerator filter (Generate.comma left.run right.run)
    | .assign    => { filter, run := Program.assign left right }
    | .pipe      => .ofGenerator filter (Generate.pipe left.run right.run)
    | .semicolon => { filter, run := Program.semicolon left.run right.run }
  | .apply parts   => { filter := .apply parts, run := Program.apply (meanings parts) }
  | .command f     =>
    let g := Generate.command f f.meaning.run
    { filter := .command f, run := .ofGenerator g, generate := g, inner := f.meaning.run }
  | .globalVariable f =>
    { filter := .globalVariable f, run := Program.globalVariable f f.meaning.run
      inner := f.meaning.run }

def meanings : List Filter → List Meaning
  | []     => []
  | f :: r => f.meaning :: meanings r

def clauseMeanings : List (Text × Filter) → List (Text × Meaning)
  | []          => []
  | (w, f) :: r => (w, f.meaning) :: clauseMeanings r

end

/-- Runs a filter on a stream. -/
def run (f : Filter) : Program := f.meaning.run

/-- What the generator of a filter yields. -/
def generate (f : Filter) : Generator := f.meaning.generate

/-- The text of the first output of a filter; a name stands for itself. -/
def sensibleText (f : Filter) (input : Stream) : StateM Store (Except Fault Text) := do
  return (← FilterShell.sensibleText f f.run input).1

end FilterShell.Filter
