import FilterShell.Proofs.Eval.Handlers
import FilterShell.Proofs.Eval.Keys

/-!
# How filters are run

Most filters are run by their generators.  The others read the input themselves: names, rows of filters,
assignments, semicolons and global variables.  `Filter.runBy` is this case split, and `Filter.appliedAs` the
one of what a row does; what holds of every filter is shown along them.

Most programs bind no variables (`Program.Inherits`), and what a filter leaves of its input is a part of it,
with the same variables (`Filter.leaves`).
-/

namespace FilterShell

variable {input rest : Stream} {env : Environment}

theorem Environment.isComplete_iff : env.isComplete = true ↔ env.withheld = {} := by
  simp [isComplete]

theorem Environment.unknown_isComplete : Environment.unknown.isComplete = false := rfl

/-- A drained stream has no values left, and its end has come. -/
def Stream.Sound (input : Stream) : Prop := input.drained = true → input.values = [] ∧ input.closed = true

namespace Filter

/-- The filters of a row. -/
def row? : Filter → Option (List Filter)
  | .apply parts     => some parts
  | .binary .dot l r => some [l, r]
  | _                => none

/-- A row of two numbers, which are the parts of one. -/
def isDecimal : List Filter → Bool
  | [before, after] => (Program.digits? before).isSome && (Program.digits? after).isSome
  | _               => false

/-- A row of filters that passes the input on, or is a decimal number. -/
def isPlainRow (parts : List Filter) : Bool := parts.all isEmpty || isDecimal parts

/-- The filter reads only parts that are split off its input. -/
def splits : Filter → Bool
  | .binary .semicolon .. | .binary .assign .. => true
  | f                                          => f.row?.any (!isPlainRow ·)

/-- How a filter is run. -/
inductive RunBy (f : Filter) : Prop
  | generator (hrun : f.run = .ofGenerator f.generate) (hsplits : f.splits = false)
  | name (n : Text) (hf : f = .name n)
  | row (parts : List Filter) (hrow : f.row? = some parts) (hrun : f.run = .apply (meanings parts))
      (hsplits : f.splits = !isPlainRow parts)
  | assign (l e : Filter) (hf : f = .binary .assign l e)
  | semicolon (l r : Filter) (hf : f = .binary .semicolon l r)
  | globalVariable (g : Filter) (hf : f = .globalVariable g)

/-- **Every filter is run in one of these ways.** -/
theorem runBy (f : Filter) : f.RunBy := by
  cases f with
  | empty | parens | array | object | conditional | attempt | nameless | number | string | textless
    | command => exact .generator rfl rfl
  | name n => exact .name n rfl
  | apply parts => exact .row parts rfl rfl rfl
  | globalVariable g => exact .globalVariable g rfl
  | binary op l r =>
    cases op with
    | dot => exact .row [l, r] rfl rfl rfl
    | multiply | add | pair | comma | pipe => exact .generator rfl rfl
    | assign => exact .assign l r rfl
    | semicolon => exact .semicolon l r rfl

theorem all_isEmpty_meanings (parts : List Filter) :
    (meanings parts).all (·.filter.isEmpty) = parts.all isEmpty := by
  induction parts with
  | nil => rfl
  | cons f parts ih => simp [meanings, meaning_filter, ih]

/-! ### Rows of filters -/

def isCommand : Filter → Bool
  | .command _ => true
  | _          => false

/-- What a row of filters does. -/
inductive AppliedAs (parts : List Filter) : Prop
  | identity (happly : Program.apply (meanings parts) = .identity) (hplain : isPlainRow parts = true)
  | decimal (before after : Text) (happly : Program.apply (meanings parts) = .decimal before after)
      (hplain : isPlainRow parts = true)
  | lookup (key : Filter) (rest : List Filter) (hparts : parts = .empty :: key :: rest)
      (happly : Program.apply (meanings parts) = .lookup key.meaning) (hplain : isPlainRow parts = false)
  | command (operand : Filter) (inner : Program) (args : List Meaning)
      (happly : Program.apply (meanings parts) = .commandWith operand inner args)
      (hplain : isPlainRow parts = false)
  | function (head : Filter) (args : List Filter) (hparts : parts = head :: args)
      (happly : Program.apply (meanings parts) = .function head.meaning (meanings args))
      (hplain : isPlainRow parts = false) (hempty : head.isEmpty = false)
      (hcommand : head.isCommand = false)

theorem isDecimal_eq_false {head : Filter} {args : List Filter} (h : Program.digits? head = none) :
    isDecimal (head :: args) = false := by
  rcases args with _ | ⟨second, _ | ⟨third, rest⟩⟩
  · rfl
  · simp [isDecimal, h]
  · rfl

/-- **Every row does one of these things.** -/
theorem appliedAs (parts : List Filter) : AppliedAs parts := by
  by_cases hall : parts.all isEmpty
  · refine .identity ?_ (by simp [isPlainRow, hall])
    rw [Program.apply.eq_def, all_isEmpty_meanings, if_pos hall]
  replace hall := Bool.eq_false_iff.2 hall
  cases parts with
  | nil => cases hall
  | cons head args =>
    have happly := Program.apply.eq_def (meanings (head :: args))
    rw [all_isEmpty_meanings, hall, if_neg Bool.false_ne_true] at happly
    simp only [meanings, meaning_filter] at happly
    have hplain : isPlainRow (head :: args) = isDecimal (head :: args) := by
      rw [isPlainRow, hall, Bool.false_or]
    cases head with
    | empty =>
      cases args with
      | nil => cases hall
      | cons key rest => exact .lookup key rest rfl happly (hplain.trans (isDecimal_eq_false rfl))
    | command operand => exact .command operand _ _ happly (hplain.trans (isDecimal_eq_false rfl))
    | number before d =>
      rcases args with _ | ⟨second, _ | ⟨third, rest⟩⟩
      · exact .function _ _ rfl happly hplain rfl rfl
      · simp only [meanings, meaning_filter] at happly
        cases hafter : Program.digits? second with
        | none =>
          rw [hafter] at happly
          exact .function _ _ rfl happly (by simp [hplain, isDecimal, hafter]) rfl rfl
        | some after =>
          rw [hafter] at happly
          refine .decimal before after happly ?_
          rw [hplain, isDecimal, hafter]
          rfl
      · exact .function _ _ rfl happly hplain rfl rfl
    | _ => exact .function _ _ rfl happly (hplain.trans (isDecimal_eq_false rfl)) rfl rfl

end Filter

namespace Program

/-! ### Variables after a run -/

/-- The environment after a run is the one before it; but an exception may lose it, and it may not come. -/
inductive Inherited (env : Environment) (r : Run) : Prop
  | same (henv : r.env = env)
  | lost (e : Value) (he : e ∈ r.outputs) (hexception : e.isException)
  | missing (hmissing : r.env.isComplete = false)

/-- The program binds no variables, on a stream that is there as a whole. -/
def Inherits (p : Program) : Prop :=
  ∀ input : Stream, input.drained = false → input.isComplete = true →
    Always (p input) fun r => Inherited input.env r

theorem inherited_thrown {e : Value} (outputs : List Value)
    (he : e.isException) : Inherited env (thrown outputs e rest) :=
  .lost e (by simp [thrown]) he

theorem inherited_waiting (outputs : List Value) :
    Inherited env (.waiting outputs rest) := .missing Environment.unknown_isComplete

theorem inherited_textless (f : Fault) : Inherited env (textless f rest) := by
  unfold textless
  split
  · exact inherited_waiting []
  · exact inherited_thrown [] rfl

/-- A generator cannot bind variables at all. -/
theorem env_ofGenerator (g : Generator) (hcomplete : input.isComplete = true) :
    Always (ofGenerator g input) fun r => r.env = input.env := by
  have hfilled := Environment.filled_complete (Stream.isComplete_iff.1 hcomplete).2
  refine always_bind fun _ => always_bind fun _ => ?_
  dsimp only
  split
  · exact always_pure hfilled
  · refine always_pure ?_
    dsimp only
    split
    · exact hfilled
    · rfl

/-- A function has the variables of the input behind it, too. -/
theorem inherits_call (name : Text) (args : List Meaning) {missing : Value}
    (hmissing : missing.isException) (input : Stream) :
    Always (call name args missing input) fun r => Inherited input.env r := by
  unfold call
  split
  · exact always_pure (inherited_waiting [])
  · split
    · refine always_bind fun _ => always_bind fun _ => always_bind fun _ => ?_
      dsimp only
      split <;> exact always_pure (.same rfl)
    · exact always_pure (inherited_thrown [] hmissing)

theorem inherits_name (n : Text) (input : Stream) :
    Always (name n input) fun r => Inherited input.env r := by
  unfold name
  split
  · exact always_pure (inherited_waiting [])
  · split
    · exact always_pure (.same rfl)
    · refine inherits_call n [] ?_ input
      split <;> rfl

theorem inherits_lookup (key : Meaning) : Inherits (lookup key) := by
  intro input hlive _
  unfold lookup
  simp only [Stream.next_live hlive]
  refine always_bind fun _ => ?_
  split
  · refine always_pure ?_
    split
    · exact inherited_thrown [] rfl
    · exact inherited_waiting []
  · refine (always_findAll _ _).bind fun found hfound => ?_
    split
    · exact always_pure (inherited_waiting _)
    · exact always_pure (inherited_thrown _ (hfound.2 _ rfl))
    · split
      · exact always_pure (inherited_waiting _)
      · exact always_pure (.same rfl)

/-- Arguments leave a stream that is there as a whole for the command. -/
theorem part_argumentTexts (hlive : input.drained = false) (args : List Meaning) :
    Always (argumentTexts input args input) fun r => ∀ ts, r.1 = .ok ts → r.2 = input := by
  induction args with
  | nil => exact always_pure fun _ _ => rfl
  | cons m args ih =>
    unfold argumentTexts
    simp only [Stream.next_live hlive]
    refine always_bind fun result => ?_
    split
    · exact always_pure (by simp)
    · refine ih.bind fun rest hrest => ?_
      obtain ⟨ts, part⟩ := rest
      refine always_pure fun ts' hts' => ?_
      cases ts with
      | error f => cases hts'
      | ok ts => exact hrest ts rfl

theorem inherits_commandWith (operand : Filter) (inner : Program) (args : List Meaning) :
    Inherits (commandWith operand inner args) := by
  intro input hlive _
  unfold commandWith
  simp only [Stream.next_live hlive]
  refine always_bind fun _ => ?_
  split
  · exact always_pure (inherited_textless _)
  · refine (part_argumentTexts hlive args).bind fun result hresult => ?_
    split
    · exact always_pure (inherited_textless _)
    · refine always_bind fun _ => always_bind fun made => ?_
      obtain ⟨outputs, f⟩ := made
      dsimp only
      split
      · exact always_pure (inherited_waiting _)
      · exact always_pure (.same (congrArg Stream.env (hresult _ rfl)))

theorem inherits_function (head : Meaning) (args : List Meaning) : Inherits (function head args) := by
  intro input hlive _
  unfold function
  simp only [Stream.next_live hlive]
  refine always_bind fun _ => ?_
  split
  · exact always_pure (inherited_textless _)
  · rename_i name left
    have hmissing : (if Builtin.registry.knows name then Value.failure "numArgs"
        else missingName name).isException := by
      split <;> rfl
    refine (inherits_call name args hmissing input).bind fun result hresult => always_pure ?_
    rcases hresult with henv | ⟨e, he, hexception⟩ | hmissing
    · exact .same henv
    · exact .lost e he hexception
    · exact .missing hmissing

/-- A row that is no command, function or lookup does not care whether the stream has been read. -/
theorem inherits_plain {parts : List Filter} (hplain : Filter.isPlainRow parts = true) (input : Stream) :
    Always (apply (Filter.meanings parts) input) fun r => Inherited input.env r := by
  rcases Filter.appliedAs parts with ⟨happly, -⟩ | ⟨before, after, happly, -⟩ | ⟨key, _, -, -, hrow⟩ |
    ⟨operand, inner, args, -, hrow⟩ | ⟨head, args, -, -, hrow, -, -⟩
  · rw [happly]
    unfold identity
    split <;> exact always_pure (.same rfl)
  · rw [happly]
    unfold decimal
    split
    · exact always_pure (.same rfl)
    · exact always_pure (inherited_waiting [])
  · simp [hplain] at hrow
  · simp [hplain] at hrow
  · simp [hplain] at hrow

theorem inherits_apply (parts : List Filter) : Inherits (apply (Filter.meanings parts)) := by
  rcases Filter.appliedAs parts with ⟨-, hplain⟩ | ⟨_, _, -, hplain⟩ | ⟨key, _, -, happly, -⟩ |
    ⟨operand, inner, args, happly, -⟩ | ⟨head, args, -, happly, -, -, -⟩
  · exact fun input _ _ => inherits_plain hplain input
  · exact fun input _ _ => inherits_plain hplain input
  · rw [happly]
    exact inherits_lookup _
  · rw [happly]
    exact inherits_commandWith operand inner args
  · rw [happly]
    exact inherits_function _ _

/-- A global variable has the environment behind it, whatever it is. -/
theorem env_globalVariable (operand : Filter) (inner : Program)
    (hcomplete : input.isComplete = true) :
    Always (globalVariable operand inner input) fun r => r.env = input.env := by
  have hfilled := Environment.filled_complete (Stream.isComplete_iff.1 hcomplete).2
  refine always_bind fun found => ?_
  obtain ⟨name, rest⟩ := found
  dsimp only
  split
  · refine always_pure ?_
    split
    · rfl
    · exact hfilled
  · split
    · exact always_pure rfl
    · split
      · exact always_pure rfl
      · exact always_pure hfilled

/-! ### What is left of the input -/

/-- A part of a stream: nothing is new in it, the variables are the same, and so is the end, if it has not
been met. -/
structure IsPart (rest input : Stream) : Prop where
  env : rest.env = input.env
  values : rest.values ⊆ input.values
  sound : input.Sound → rest.Sound
  live : input.Sound → rest.drained = false → input.drained = false ∧ rest.closed = input.closed

theorem isPart_self (input : Stream) : IsPart input input :=
  ⟨rfl, List.Subset.refl _, id, fun _ hlive => ⟨hlive, rfl⟩⟩

theorem isPart_spent (input : Stream) : IsPart input.spent input :=
  ⟨rfl, List.nil_subset _, fun _ _ => ⟨rfl, rfl⟩, nofun⟩

theorem isPart_read (input : Stream) : IsPart input.read input := by
  refine ⟨rfl, List.nil_subset _, fun _ hclosed => ⟨rfl, hclosed⟩, fun hsound hopen => ⟨?_, rfl⟩⟩
  have hclosed : input.closed = false := hopen
  cases hdrained : input.drained with
  | false => rfl
  | true => cases hclosed.symm.trans (hsound hdrained).2

/-- What stands behind an exception in the input is a part of it. -/
theorem isPart_behind {before after : List Value} {e : Value}
    (h : splitAtException input.values = (before, some (e, after))) :
    IsPart { input with values := after } input :=
  ⟨rfl, splitAtException_behind h,
    fun hsound hdrained => ⟨List.subset_nil.1 ((hsound hdrained).1 ▸ splitAtException_behind h),
      (hsound hdrained).2⟩,
    fun _ hlive => ⟨hlive, rfl⟩⟩

/-- The program leaves a part of its input. -/
def Spares (p : Program) : Prop := ∀ input, Always (p input) fun r => IsPart r.rest input

theorem spares_ofGenerator (g : Generator) : Spares (ofGenerator g) := by
  intro input
  unfold ofGenerator
  generalize hsplit : splitAtException input.values = split
  obtain ⟨before, found⟩ := split
  refine always_bind fun _ => always_bind fun _ => ?_
  cases found with
  | none => exact always_pure (isPart_read input)
  | some found => exact always_pure (isPart_behind hsplit)

/-- A call leaves what stands behind an exception. -/
theorem spares_call (name : Text) (args : List Meaning) (missing : Value) :
    Spares (call name args missing) := by
  intro input
  unfold call
  split
  · exact always_pure (isPart_self input)
  · split
    · unfold ofBuiltin
      generalize hsplit : splitAtException input.values = split
      obtain ⟨before, found⟩ := split
      refine always_bind fun _ => always_bind fun _ => always_bind fun _ => ?_
      cases found with
      | none => exact always_pure (isPart_read input)
      | some found => exact always_pure (isPart_behind hsplit)
    · exact always_pure (isPart_self input)

theorem spares_name (n : Text) : Spares (name n) := by
  intro input
  unfold name
  split
  · exact always_pure (isPart_self input)
  · split
    · exact always_pure (isPart_self input)
    · exact spares_call n [] _ input

/-- A text that is not there makes no difference to what is left. -/
theorem isPart_textless (f : Fault) (input : Stream) : IsPart (textless f input.spent).rest input := by
  unfold textless
  split <;> exact isPart_spent input

/-- A row reads parts that are split off, or everything. -/
theorem spares_apply (parts : List Filter) : Spares (apply (Filter.meanings parts)) := by
  intro input
  rcases Filter.appliedAs parts with ⟨happly, -⟩ | ⟨before, after, happly, -⟩ | ⟨key, _, -, happly, -⟩ |
    ⟨operand, inner, args, happly, -⟩ | ⟨head, args, -, happly, -, -, -⟩
  · rw [happly]
    unfold identity
    split
    · exact always_pure (isPart_self input)
    · exact always_pure (isPart_read input)
  · rw [happly]
    unfold decimal
    split <;> exact always_pure (isPart_self input)
  · rw [happly]
    refine always_bind fun _ => ?_
    split
    · refine always_pure ?_
      split <;> exact isPart_spent input
    · refine always_bind fun _ => ?_
      split
      · exact always_pure (isPart_spent input)
      · exact always_pure (isPart_spent input)
      · split <;> exact always_pure (isPart_spent input)
  · rw [happly]
    refine always_bind fun _ => ?_
    split
    · exact always_pure (isPart_textless _ input)
    · refine always_bind fun _ => ?_
      split
      · exact always_pure (isPart_textless _ input)
      · refine always_bind fun _ => always_bind fun _ => ?_
        dsimp only
        split <;> exact always_pure (isPart_spent input)
  · rw [happly]
    refine always_bind fun _ => ?_
    split
    · exact always_pure (isPart_textless _ input)
    · exact always_bind fun _ => always_pure (isPart_spent input)

theorem spares_assign (left right : Meaning) : Spares (assign left right) := by
  intro input
  refine always_bind fun _ => ?_
  dsimp only
  split
  · exact always_pure (isPart_spent input)
  · split
    · exact always_pure (isPart_spent input)
    · refine always_bind fun _ => ?_
      split
      · split <;> exact always_pure (isPart_spent input)
      · split <;> exact always_pure (isPart_spent input)
  · exact always_pure (isPart_spent input)

theorem spares_semicolon (left right : Program) : Spares (semicolon left right) := by
  intro input
  refine always_bind fun _ => ?_
  split
  · exact always_pure (isPart_spent input)
  · refine always_bind fun _ => ?_
    split <;> exact always_pure (isPart_spent input)

theorem spares_sensibleText (operand : Filter) {inner : Program} (hinner : Spares inner) (input : Stream) :
    Always (sensibleText operand inner input) fun r => IsPart r.2 input := by
  unfold sensibleText
  split
  · exact always_pure (isPart_self input)
  · refine (hinner input).bind fun result hresult => ?_
    split
    · exact always_pure hresult
    · exact always_bind fun _ => always_pure hresult
    · exact always_pure hresult

theorem spares_globalVariable (operand : Filter) {inner : Program} (hinner : Spares inner) :
    Spares (globalVariable operand inner) := by
  intro input
  refine (spares_sensibleText operand hinner input).bind fun found hfound => ?_
  obtain ⟨name, rest⟩ := found
  dsimp only
  split
  · refine always_pure ?_
    split <;> exact hfound
  · split
    · exact always_pure hfound
    · split <;> exact always_pure hfound

end Program

namespace Filter

/-- **What a filter leaves of its input is a part of it**, and the variables are not touched. -/
theorem leaves (f : Filter) : Program.Spares f.run := by
  -- a global variable asks its operand for its name, and leaves what that leaves
  induction hn : sizeOf f using Nat.strong_induction_on generalizing f with
  | _ n ih =>
    subst hn
    rcases f.runBy with ⟨hrun, -⟩ | ⟨n, rfl⟩ | ⟨parts, -, hrun, -⟩ | ⟨l, e, rfl⟩ | ⟨l, r, rfl⟩ | ⟨g, rfl⟩
    · rw [hrun]
      exact Program.spares_ofGenerator _
    · exact Program.spares_name n
    · rw [hrun]
      exact Program.spares_apply _
    · exact Program.spares_assign _ _
    · exact Program.spares_semicolon _ _
    · refine Program.spares_globalVariable g (ih (sizeOf g) ?_ g rfl)
      simp

end Filter

end FilterShell
