import FilterShell.Proofs.Eval.Calls
import FilterShell.Proofs.Eval.Running

/-!
# Exceptions end the outputs

On an input without exceptions, nothing comes behind an exception in the outputs of a program, unless its
last statement is one of a few: a variable that holds more values behind an exception, a lookup that finds an
exception inside of a value, or the call of a function that goes on behind one.  What these have to keep to
is `Filter.Orderly`; nothing else can go on (`Filter.outputs_end`).
-/

namespace FilterShell

variable {input : Stream} {s : Store}

/-! ### Parts of the input -/

theorem Stream.copy_values (input : Stream) : input.copy.values ⊆ input.values := by
  unfold copy
  split
  · exact List.nil_subset _
  · exact List.Subset.refl _

/-- What is there for the next reader is a part of the input. -/
theorem Stream.next_values {rest : Stream} (h : rest.values ⊆ input.copy.values) :
    (input.next rest).values ⊆ input.values := by
  unfold next
  split
  · exact List.Subset.trans h input.copy_values
  · exact List.Subset.refl _

/-- The values have no exceptions in them, except perhaps the last one. -/
def CalmInside (values : List Value) : Prop :=
  values.Pairwise fun v _ => ∀ w ∈ v.parts, w.isException = false

instance decidableCalmInside (values : List Value) : Decidable (CalmInside values) :=
  inferInstanceAs (Decidable (List.Pairwise _ values))

namespace Program

/-! ### Outputs of programs -/

theorem ends_ofGenerator (g : Generator) (hcalm : ∀ v ∈ input.values, v.isException = false) :
    Always (ofGenerator g input) fun r => Ends r.outputs := by
  unfold ofGenerator
  rw [splitAtException_calm hcalm]
  exact always_bind fun _ => always_bind fun _ => always_pure (ends_cut _)

/-- An orderly call ends with the first exception. -/
theorem ends_call {name : Text} {args : List Meaning} (missing : Value)
    (hcalm : ∀ v ∈ input.values, v.isException = false)
    (horderly : Builtin.Orderly name args input.forwarded s) :
    Ends ((call name args missing input).run s).1.outputs := by
  unfold call
  split
  · exact .nil
  · split
    · rename_i b hb
      obtain ⟨count, hcount, hstops⟩ := Builtin.find?_entry Builtin.registry_stops hb
      have hproduced := hstops args input.forwarded s hcount horderly
      have hforwarded : { input.forwarded with values := input.values, closed := false || input.closed } =
          input.forwarded := rfl
      simp only [ofBuiltin, splitAtException_calm hcalm, run_andThen, Option.isSome_none, hforwarded]
      exact Produced.ends_values hproduced _
    · exact ends_singleton _

theorem ends_name {n : Text} (hcalm : ∀ v ∈ input.values, v.isException = false)
    (hvariable : ∀ vs, input.env.locals.lookup n = some vs → Ends vs)
    (hfunction : input.env.locals.lookup n = none → Builtin.Orderly n [] input.forwarded s) :
    Ends ((name n input).run s).1.outputs := by
  unfold name
  split
  · exact .nil
  · split
    · rename_i vs hvs
      exact hvariable vs hvs
    · rename_i hnone
      exact ends_call _ hcalm (hfunction hnone)

/-- An exception that is found in a value is the last that is found. -/
theorem ends_findAll (key : Value) {values : List Value} (h : CalmInside values) :
    Always (findAll key values) fun r =>
      Ends r.1 ∧ ∀ e, r.2 = .ok (some e) → ∀ w ∈ r.1, w.isException = false := by
  induction values with
  | nil => exact always_pure ⟨.nil, by simp⟩
  | cons v values ih =>
    obtain ⟨hv, hvalues⟩ := List.pairwise_cons.1 h
    refine Always.bind (delivers_find key v) fun r hr => ?_
    split
    · exact always_pure ⟨.nil, by simp⟩
    · exact always_pure ⟨.nil, by simp⟩
    · rename_i w
      cases hr _ rfl with
      | part hw =>
        cases values with
        | nil => exact always_pure ⟨ends_singleton w, by simp⟩
        | cons v' values =>
          have hcalm : w.isException = false := hv v' List.mem_cons_self w hw
          refine (ih hvalues).bind fun found hfound => ?_
          obtain ⟨ws, e⟩ := found
          refine always_pure ⟨List.pairwise_cons.2 ⟨fun _ _ => hcalm, hfound.1⟩, fun e he => ?_⟩
          exact List.forall_mem_cons.2 ⟨hcalm, hfound.2 e he⟩

/-- A lookup finds no exception inside calm values. -/
theorem ends_lookup {key : Meaning}
    (h : CalmInside (input.next ((key.run input.copy).run s).1.rest).values) :
    Ends ((lookup key input).run s).1.outputs := by
  simp only [lookup, run_andThen]
  split
  · change Ends (if _ then _ else _ : Run).outputs
    split
    · exact ends_singleton _
    · exact .nil
  · rename_i k _ _
    simp only [run_andThen]
    have hfound := ends_findAll k h ((key.run input.copy).run s).2
    split
    · rename_i hr
      rw [hr] at hfound
      exact hfound.1
    · rename_i hr
      rw [hr] at hfound
      exact ends_concat (hfound.2 _ rfl) _
    · rename_i hr
      rw [hr] at hfound
      split <;> exact hfound.1

theorem ends_textless (f : Fault) (rest : Stream) : Ends (textless f rest).outputs := by
  unfold textless
  split
  · exact .nil
  · exact ends_singleton _

theorem ends_commandWith (operand : Filter) (inner : Program) (args : List Meaning) (input : Stream) :
    Always (commandWith operand inner args input) fun r => Ends r.outputs := by
  refine always_bind fun _ => ?_
  split
  · exact always_pure (ends_textless _ _)
  · refine always_bind fun _ => ?_
    split
    · exact always_pure (ends_textless _ _)
    · refine (Command.ends_run _ _ _).bind fun produced hproduced => ?_
      refine (Produced.ends_values hproduced).bind fun made hmade => ?_
      obtain ⟨outputs, f⟩ := made
      dsimp only
      split <;> exact always_pure hmade

theorem ends_function {head : Meaning} (hhead : Spares head.run) {args : List Meaning}
    (hcalm : ∀ v ∈ input.values, v.isException = false)
    (horderly : let text := (sensibleText head.filter head.run input.copy).run s
      ∀ name, text.1.1 = .ok name →
        Builtin.Orderly name args (input.next text.1.2).forwarded text.2) :
    Ends ((function head args input).run s).1.outputs := by
  have hpart := spares_sensibleText head.filter hhead input.copy s
  simp only [function, run_andThen]
  split
  · exact ends_textless _ _
  · rename_i name left hname
    dsimp only at horderly
    rw [hname] at horderly hpart
    refine ends_call _ (fun v hv => hcalm v ?_) (horderly name rfl)
    exact Stream.next_values hpart.values hv

theorem ends_assign (left : Meaning) {right : Meaning} (hright : Spares right.run)
    (hcalm : ∀ v ∈ input.values, v.isException = false) :
    Always (assign left right input) fun r => Ends r.outputs := by
  refine (hright input.copy).bind fun result hresult => ?_
  have htarget : Ends (input.next result.rest).values :=
    ends_of_calm fun v hv => hcalm v (Stream.next_values hresult.values hv)
  dsimp only
  split
  · exact always_pure htarget
  · split
    · exact always_pure htarget
    · refine always_bind fun _ => ?_
      split
      · split <;> exact always_pure htarget
      · split <;> exact always_pure htarget
  · exact always_pure (ends_singleton _)

theorem ends_globalVariable {operand : Filter} {inner : Program}
    (h : ∀ n vs, ((sensibleText operand inner input).run s).1.1 = .ok n →
      input.env.globals.lookup n = some vs → Ends vs) :
    Ends ((globalVariable operand inner input).run s).1.outputs := by
  simp only [globalVariable, run_andThen]
  split
  · change Ends (if _ then _ else _ : Run).outputs
    split
    · exact .nil
    · exact ends_singleton _
  · rename_i n hn
    split
    · exact .nil
    · split
      · rename_i vs hvs
        exact h n vs hn hvs
      · exact ends_singleton _

/-- A semicolon gives what its second operand gives, if that is run at all. -/
theorem ends_semicolon {left right : Program} (h : let first := (left input.copy).run s
      first.1.env.isComplete = true →
        Ends ((right { input.next first.1.rest with env := first.1.env }).run first.2).1.outputs) :
    Ends ((semicolon left right input).run s).1.outputs := by
  simp only [semicolon, run_andThen]
  split
  · exact .nil
  · rename_i hknown
    have hsecond := h (by simpa using hknown)
    simp only [run_andThen]
    split <;> exact hsecond

end Program

namespace Filter

/-! ### What the last statement has to keep to -/

/-- A row of filters that gives nothing behind an exception: a lookup finds none inside of a value, unless that
is the last value, and a call of a function is orderly. -/
def RowOrderly (parts : List Filter) (input : Stream) (s : Store) : Prop :=
  match parts with
  | .empty :: key :: _ =>
    CalmInside (input.next ((key.run input.copy).run s).1.rest).values
  | head :: args       =>
    let text := (FilterShell.sensibleText head head.run input.copy).run s
    ∀ name, text.1.1 = .ok name →
      Builtin.Orderly name (meanings args) (input.next text.1.2).forwarded text.2
  | []                 => True

/-- The last statement of a program gives nothing behind an exception: neither a variable does, nor a row of
filters.  The other filters cannot. -/
def Orderly : Filter → Stream → Store → Prop
  | .binary .semicolon l r, input, s =>
    let first := (l.run input.copy).run s
    first.1.env.isComplete = true →
      r.Orderly { input.next first.1.rest with env := first.1.env } first.2
  | .name n, input, s => match input.env.locals.lookup n with
    | some vs => Ends vs
    | none    => Builtin.Orderly n [] input.forwarded s
  | .globalVariable g, input, s =>
    ∀ n vs, ((g.sensibleText input).run s).1 = .ok n → input.env.globals.lookup n = some vs → Ends vs
  | .apply parts, input, s => RowOrderly parts input s
  | .binary .dot l r, input, s => RowOrderly [l, r] input s
  | _, _, _ => True

/-- A row is orderly if what it does is. -/
theorem orderly_row {f : Filter} {parts : List Filter} (h : f.row? = some parts) (input : Stream)
    (s : Store) : f.Orderly input s ↔ RowOrderly parts input s := by
  cases f with
  | binary op l r =>
    cases op with
    | dot =>
      cases h
      rfl
    | _ => cases h
  | apply =>
    cases h
    rfl
  | _ => cases h

/-- A row of filters ends with the first exception, if what it calls does. -/
theorem ends_row {parts : List Filter}
    (hcalm : ∀ v ∈ input.values, v.isException = false) (horderly : RowOrderly parts input s) :
    Ends ((Program.apply (meanings parts) input).run s).1.outputs := by
  rcases appliedAs parts with ⟨happly, -⟩ | ⟨before, after, happly, -⟩ | ⟨key, rest, rfl, happly, -⟩ |
    ⟨operand, inner, args, happly, -⟩ | ⟨head, args, rfl, happly, hplain, hempty, hcommand⟩
  · rw [happly]
    unfold Program.identity
    split
    · exact .nil
    · exact ends_of_calm hcalm
  · rw [happly]
    unfold Program.decimal
    split
    · exact ends_singleton _
    · exact .nil
  · rw [happly]
    exact Program.ends_lookup horderly
  · rw [happly]
    exact Program.ends_commandWith operand inner args input s
  · rw [happly]
    refine Program.ends_function head.leaves hcalm ?_
    rw [meaning_filter]
    cases head with
    | empty => cases hempty
    | _ => exact horderly

/-- **An exception ends the outputs.**  On an input without exceptions, whatever the program is, nothing comes
behind an exception, if its last statement is orderly. -/
theorem outputs_end (f : Filter) (input : Stream) (s : Store)
    (hcalm : ∀ v ∈ input.values, v.isException = false) (horderly : f.Orderly input s) :
    Ends (f.outputs input s) := by
  induction hn : sizeOf f using Nat.strong_induction_on generalizing f input s with
  | _ n ih =>
    subst hn
    rw [outputs]
    rcases f.runBy with ⟨hrun, -⟩ | ⟨n, rfl⟩ | ⟨parts, hrow, hrun, -⟩ | ⟨l, e, rfl⟩ | ⟨l, r, rfl⟩ | ⟨g, rfl⟩
    · rw [hrun]
      exact Program.ends_ofGenerator _ hcalm s
    · rw [Orderly] at horderly
      refine Program.ends_name hcalm (fun vs hvs => ?_) fun hnone => ?_
      · simpa only [hvs] using horderly
      · simpa only [hnone] using horderly
    · rw [hrun]
      exact ends_row hcalm ((orderly_row hrow input s).1 horderly)
    · exact Program.ends_assign _ e.leaves hcalm s
    · refine Program.ends_semicolon fun hknown => ?_
      have hsize : sizeOf r < sizeOf (binary .semicolon l r) := by
        rw [binary.sizeOf_spec]
        omega
      have hleft := Stream.next_values (l.leaves input.copy s).values
      exact ih (sizeOf r) hsize r _ _ (fun v hv => hcalm v (hleft hv)) (horderly hknown) rfl
    · exact Program.ends_globalVariable horderly

/-- `(each foo); range`. -/
def countUp : Filter :=
  .binary .semicolon (.parens (.apply [.name "each", .name "foo"])) (.name "range")

/-- The theorem at a program that runs a filter again and again, in parentheses; its last statement calls a
function that does not take the last value.  There is an exception inside of a value, and a variable has
values behind one. -/
theorem outputs_end_range :
    let input : Stream :=
      { values := [.ofNat 2, .ofNat 1, .array 0 [.failure "type"]]
        env    := { locals := [("x", [.failure "type", .null])] } }
    (∀ v ∈ input.values, v.isException = false) ∧ countUp.Orderly input {} ∧
      (countUp.outputs input {}).map Value.isException = [false, false, false, true] ∧
      Ends (countUp.outputs input {}) := by
  intro input
  have hcalm : ∀ v ∈ input.values, v.isException = false := by decide
  have horderly : countUp.Orderly input {} := by
    refine fun _ => ⟨fun h => absurd h (by decide), fun _ _ => by decide, ?_, ?_, ?_⟩
    · intro body h
      exact absurd h (by decide)
    · intro initial body h
      exact absurd h (by decide)
    · intro initial body h
      exact absurd h (by decide)
  exact ⟨hcalm, horderly, by decide +kernel, outputs_end countUp input {} hcalm horderly⟩

/-- Statements that are not orderly, with the input of each: `range`, `explode`, `each foo`, `for null foo`,
`reduce (null, 2) range`, and `.0`. -/
def restless : List (Filter × List Value) :=
  [(.name "range", [.null, .ofNat 2]),
   (.name "explode", [.array 0 [], .string 1 ["a"]]),
   (.apply [.name "each", .name "foo"], [.null, .null]),
   (.apply [.name "for", .name "null", .name "foo"], [.null, .null]),
   (.apply [.name "reduce",
      .parens (.binary .comma (.name "null") (.number "2" (.finite false 2 0))), .name "range"], [.null]),
   (.binary .dot .empty (.number "0" (.finite false 0 0)),
      [.array 0 [.failure "type"], .array 1 [.ofNat 1]])]

/-- Each of them goes on behind an exception, and so does a variable that holds more behind one. -/
theorem restless_go_on :
    (restless.all fun p => p.2.all fun v => v.isException = false) = true ∧
      (restless.any fun p => Ends (p.1.outputs { values := p.2 } {})) = false ∧
      ¬ Ends ((name "x").outputs { env := { locals := [("x", [.failure "type", .null])] } } {}) := by
  decide +kernel

end Filter

end FilterShell
