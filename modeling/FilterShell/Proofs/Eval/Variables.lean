import FilterShell.Proofs.Eval.Running

/-!
# Variables

Each statement of a program finds the variables that those before it have left, and an assignment binds one of
them to the outputs of its right operand.  `Filter.writes` lists what is bound in this way; nothing else
changes (`run_writes`), if every statement settles: there are no exceptions, and its outputs and its
environment come to their end.
-/

namespace FilterShell

variable {f : Filter}

/-! ### Names and what they hold -/

/-- A variable of a program. -/
inductive Variable where
  | localName (name : Text)
  | globalName (name : Text)
deriving DecidableEq

namespace Namespace

theorem lookup_rebound (ns : Namespace) (x y : Text) (vs : List Value) :
    List.lookup y (ns.map fun (n, ws) => if n = x then (n, vs) else (n, ws)) =
      if y = x then (List.lookup y ns).map fun _ => vs else List.lookup y ns := by
  induction ns with
  | nil => simp
  | cons entry ns ih =>
    obtain ⟨n, ws⟩ := entry
    rw [List.map_cons, List.lookup_cons]
    by_cases hn : n = x <;> by_cases hy : y = n <;>
      simp_all [List.lookup_cons, beq_eq_false_iff_ne.2]

/-- A name that is bound holds what it was bound to; the others are as before. -/
theorem lookup_bind (ns : Namespace) (x y : Text) (vs : List Value) :
    (ns.bind x vs).lookup y = if y = x then some vs else ns.lookup y := by
  unfold bind
  split
  · rename_i hbound
    rw [lookup_rebound]
    obtain ⟨⟨n, ws⟩, hmem, hn⟩ := List.any_eq_true.1 hbound
    simp only [decide_eq_true_eq] at hn
    subst hn
    split
    · rename_i hy
      subst hy
      cases hlookup : List.lookup y ns with
      | some ws => rfl
      | none =>
        have hne := List.lookup_eq_none_iff.1 hlookup (y, ws) hmem
        simp at hne
    · rfl
  · rename_i hfree
    rw [List.lookup_append]
    by_cases hy : y = x
    · subst hy
      have hnone : List.lookup y ns = none := by
        rw [List.lookup_eq_none_iff]
        intro p hp
        simp only [List.any_eq_true, decide_eq_true_eq, not_exists, not_and] at hfree
        simpa using fun h => hfree p hp h.symm
      simp [hnone]
    · simp [hy, List.lookup_cons, beq_eq_false_iff_ne.2 hy]

end Namespace

namespace Environment

/-- What a variable holds, if it is bound. -/
def get (env : Environment) : Variable → Option (List Value)
  | .localName n  => env.locals.lookup n
  | .globalName n => env.globals.lookup n

/-- Binds a variable. -/
def set (env : Environment) (x : Variable) (vs : List Value) : Environment :=
  match x with
  | .localName n  => { env with locals := env.locals.bind n vs }
  | .globalName n => { env with globals := env.globals.bind n vs }

/-- Binds variables one after the other. -/
def setAll (env : Environment) (writes : List (Variable × List Value)) : Environment :=
  writes.foldl (fun env w => env.set w.1 w.2) env

theorem get_set (env : Environment) (x y : Variable) (vs : List Value) :
    (env.set x vs).get y = if y = x then some vs else env.get y := by
  cases x <;> cases y <;> simp [get, set, Namespace.lookup_bind]

/-- **The last write wins**, and what is not written is as before. -/
theorem get_setAll (env : Environment) (writes : List (Variable × List Value)) (x : Variable) :
    (env.setAll writes).get x = (writes.reverse.lookup x).or (env.get x) := by
  induction writes generalizing env with
  | nil => rfl
  | cons w writes ih =>
    obtain ⟨y, vs⟩ := w
    have hstep : env.setAll ((y, vs) :: writes) = (env.set y vs).setAll writes := rfl
    rw [hstep, ih, get_set, List.reverse_cons, List.lookup_append, Option.or_assoc]
    by_cases hx : x = y
    · simp [hx]
    · simp [hx, List.lookup_cons, beq_eq_false_iff_ne.2 hx]

theorem setAll_append (env : Environment) (a b : List (Variable × List Value)) :
    env.setAll (a ++ b) = (env.setAll a).setAll b := List.foldl_append

theorem formats_setAll (env : Environment) (writes : List (Variable × List Value)) :
    (env.setAll writes).formats = env.formats := by
  induction writes generalizing env with
  | nil => rfl
  | cons w writes ih => exact (ih _).trans (by cases h : w.1 <;> simp [set, h])

theorem withheld_setAll (env : Environment) (writes : List (Variable × List Value)) :
    (env.setAll writes).withheld = env.withheld := by
  induction writes generalizing env with
  | nil => rfl
  | cons w writes ih => exact (ih _).trans (by cases h : w.1 <;> simp [set, h])

theorem context_setAll (env : Environment) (writes : List (Variable × List Value)) :
    (env.setAll writes).context = env.context := by
  induction writes generalizing env with
  | nil => rfl
  | cons w writes ih => exact (ih _).trans (by cases h : w.1 <;> simp [set, h])

end Environment

/-! ### Statements -/

namespace Filter

/-- The statements of a program: what its semicolons separate. -/
def statements : Filter → List Filter
  | .binary .semicolon l r => l.statements ++ r.statements
  | f                      => [f]

/-- The right operand of an assignment. -/
def assigned? : Filter → Option Filter
  | .binary .assign _ e => some e
  | _                   => none

/-- What a statement writes, and to which variable.  The name of a global variable is the text of an
operand, which is asked for when the right operand has been run, and the input has been passed on. -/
def write? (f : Filter) (env : Environment) (s : Store) : Option (Variable × List Value) :=
  match f with
  | .binary .assign (.name n) e => some (.localName n, e.outputs { env } s)
  | .binary .assign (.globalVariable g) e =>
    match ((g.sensibleText { env, drained := true }).run ((e.run { env }).run s).2).1 with
    | .ok n    => some (.globalName n, e.outputs { env } s)
    | .error _ => none
  | _ => none

/-- What statements write, in turn, each with the variables that it finds; and the store after them. -/
def writes : List Filter → Environment → Store → List (Variable × List Value) × Store
  | [], _, s          => ([], s)
  | f :: rest, env, s =>
    let own := (f.write? env s).toList
    let later := writes rest (env.setAll own) ((f.run { env }).run s).2
    (own ++ later.1, later.2)

/-- The statement outputs no exception, nor does the right operand of an assignment; its outputs end, and the
environment after it comes. -/
def Settles (f : Filter) (env : Environment) (s : Store) : Prop :=
  (∀ g ∈ f :: f.assigned?.toList, ∀ v ∈ g.outputs { env } s, v.isException = false) ∧
    ((f.run { env }).run s).1.closed = true ∧ ((f.run { env }).run s).1.env.isComplete = true

instance decidableSettles (f : Filter) (env : Environment) (s : Store) : Decidable (f.Settles env s) :=
  inferInstanceAs (Decidable (_ ∧ _))

/-- All statements settle, each with the variables that it finds. -/
def AllSettle : List Filter → Environment → Store → Prop
  | [], _, _          => True
  | f :: rest, env, s =>
    f.Settles env s ∧ AllSettle rest (env.setAll (f.write? env s).toList) ((f.run { env }).run s).2

instance decidableAllSettle : ∀ fs env s, Decidable (AllSettle fs env s)
  | [], _, _          => .isTrue trivial
  | f :: rest, env, s =>
    have := decidableAllSettle rest (env.setAll (f.write? env s).toList) ((f.run { env }).run s).2
    inferInstanceAs (Decidable (_ ∧ _))

theorem writes_append (a b : List Filter) (env : Environment) (s : Store) :
    writes (a ++ b) env s =
      ((writes a env s).1 ++ (writes b (env.setAll (writes a env s).1) (writes a env s).2).1,
        (writes b (env.setAll (writes a env s).1) (writes a env s).2).2) := by
  induction a generalizing env s with
  | nil => rfl
  | cons f a ih =>
    simp only [List.cons_append, writes, ih, List.append_assoc, Environment.setAll_append]

theorem allSettle_append {a b : List Filter} {env : Environment} {s : Store} :
    AllSettle (a ++ b) env s ↔
      AllSettle a env s ∧ AllSettle b (env.setAll (writes a env s).1) (writes a env s).2 := by
  induction a generalizing env s with
  | nil => simp [AllSettle, writes, Environment.setAll]
  | cons f a ih =>
    simp only [List.cons_append, AllSettle, writes, ih, Environment.setAll_append, and_assoc]

end Filter

/-! ### Statements that keep the variables, and assignments -/

/-- What is inherited is kept, if there is no exception and the environment comes. -/
theorem Program.Inherited.kept {env : Environment} {r : Run} (h : Inherited env r)
    (hquiet : ∀ v ∈ r.outputs, v.isException = false) (hknown : r.env.isComplete = true) : r.env = env := by
  rcases h with henv | ⟨e, he, hexception⟩ | hmissing
  · exact henv
  · simp [hquiet e he] at hexception
  · simp [hknown] at hmissing

theorem Program.bindOutputs_quiet {env : Environment} {outputs : List Value} {set : Environment → Environment}
    (h : ∀ v ∈ outputs, v.isException = false) : bindOutputs env outputs set = set env := by
  have hany : outputs.any Value.isException = false := by simpa using h
  rw [bindOutputs, hany, if_neg Bool.false_ne_true]

theorem Environment.withoutLocals_isComplete (env : Environment) : env.withoutLocals.isComplete = false := by
  simp [isComplete, withoutLocals]

theorem Environment.withoutGlobals_isComplete (env : Environment) : env.withoutGlobals.isComplete = false := by
  simp [isComplete, withoutGlobals]

/-- What an assignment to a global variable makes of the environment. -/
theorem Program.env_assign_global (left right : Meaning) {g : Filter}
    (hleft : left.filter = .globalVariable g) {env : Environment} (hglobals : env.withheld.globals = false) (s : Store) :
    ((assign left right { env }).run s).1.env =
      let result := (right.run { env }).run s
      match ((sensibleText g left.inner { env, drained := true }).run result.2).1.1 with
      | .error f => if f.waits then env.withoutGlobals else env.filled
      | .ok n    =>
        if result.1.closed then
          bindOutputs env result.1.outputs fun before =>
            { before with globals := before.globals.bind n result.1.outputs }
        else env.withoutGlobals := by
  have hcopy : Stream.copy { env } = { env } := rfl
  have hnext : ∀ rest, Stream.next { env } rest = { env } := fun _ => rfl
  have hread : Stream.read { env } = { env, drained := true } := rfl
  simp only [assign, run_andThen, hcopy, hnext, hread, hleft, hglobals, Bool.false_eq_true, if_false]
  -- the name comes from the operand, and there may be none
  generalize (sensibleText g left.inner { env, drained := true }).run ((right.run { env }).run s).2 = found
  obtain ⟨⟨name, rest⟩, s'⟩ := found
  cases name with
  | error f =>
    dsimp only
    split <;> rfl
  | ok n =>
    dsimp only
    cases ((right.run { env }).run s).1.closed <;> rfl

/-- A row that does not split its input does not care whether the stream has been read. -/
theorem Program.env_plain {parts : List Filter} (hplain : Filter.isPlainRow parts = true) (env : Environment)
    (drained : Bool) (s : Store) :
    ((apply (Filter.meanings parts) { env, drained }).run s).1.env =
      ((apply (Filter.meanings parts) { env }).run s).1.env := by
  rcases Filter.appliedAs parts with ⟨happly, -⟩ | ⟨before, after, happly, -⟩ | ⟨key, _, -, -, hrow⟩ |
    ⟨operand, inner, args, -, hrow⟩ | ⟨head, args, -, -, hrow, -, -⟩
  · rw [happly]
    unfold identity
    dsimp only
    split <;> rfl
  · rw [happly]
    unfold decimal
    split <;> rfl
  · simp [hplain] at hrow
  · simp [hplain] at hrow
  · simp [hplain] at hrow

/-- Nor does a name. -/
theorem Program.env_name (n : Text) (env : Environment) (drained : Bool) (s : Store) :
    ((name n { env, drained }).run s).1.env = ((name n { env }).run s).1.env := by
  unfold name call
  dsimp only
  split
  · rfl
  · split
    · rfl
    · split
      · rfl
      · split <;> rfl

namespace Filter

variable {g e : Filter} {n : Text} {env : Environment} {s : Store}

/-- An assignment to a local variable, if the environment after it comes. -/
theorem env_assign_name (he : ∀ v ∈ e.outputs { env } s, v.isException = false)
    (hknown : (((binary .assign (.name n) e).run { env }).run s).1.env.isComplete = true) :
    (((binary .assign (.name n) e).run { env }).run s).1.env =
      { env with locals := env.locals.bind n (e.outputs { env } s) } := by
  have hrun : (((binary .assign (.name n) e).run { env }).run s).1.env =
      if (!env.withheld.locals && ((e.run { env }).run s).1.closed) = true then
        Program.bindOutputs env (e.outputs { env } s) fun before =>
          { before with locals := before.locals.bind n (e.outputs { env } s) }
      else env.withoutLocals := rfl
  rw [hrun] at hknown ⊢
  split at hknown
  · rename_i hdone
    rw [if_pos hdone, Program.bindOutputs_quiet he]
  · simp [Environment.withoutLocals_isComplete] at hknown

/-- An assignment to a global variable, if the environment after it comes. -/
theorem env_assign_global (hcomplete : env.isComplete = true)
    (he : ∀ v ∈ e.outputs { env } s, v.isException = false)
    (hknown : (((binary .assign (.globalVariable g) e).run { env }).run s).1.env.isComplete = true) :
    (((binary .assign (.globalVariable g) e).run { env }).run s).1.env =
      env.setAll ((binary .assign (.globalVariable g) e).write? env s).toList := by
  have hglobals : env.withheld.globals = false := by rw [Environment.isComplete_iff.1 hcomplete]
  have hrun : (((binary .assign (.globalVariable g) e).run { env }).run s).1.env =
      match ((g.sensibleText { env, drained := true }).run ((e.run { env }).run s).2).1 with
      | .error f => if f.waits then env.withoutGlobals else env.filled
      | .ok n    =>
        if ((e.run { env }).run s).1.closed then
          Program.bindOutputs env (e.outputs { env } s) fun before =>
            { before with globals := before.globals.bind n (e.outputs { env } s) }
        else env.withoutGlobals :=
    Program.env_assign_global (globalVariable g).meaning e.meaning rfl hglobals s
  rw [hrun] at hknown ⊢
  rw [write?]
  generalize ((g.sensibleText { env, drained := true }).run ((e.run { env }).run s).2).1 = name at hknown ⊢
  cases name with
  | error f =>
    dsimp only at hknown ⊢
    split at hknown
    · simp [Environment.withoutGlobals_isComplete] at hknown
    · rename_i hwaits
      rw [if_neg hwaits]
      exact Environment.filled_complete hcomplete
  | ok n =>
    dsimp only at hknown ⊢
    split at hknown
    · rename_i hclosed
      rw [if_pos hclosed, Program.bindOutputs_quiet he]
      rfl
    · simp [Environment.withoutGlobals_isComplete] at hknown

/-- An assignment to anything else is an exception. -/
theorem assign_throws {l : Filter} (hname : ∀ n, l ≠ .name n) (hglobal : ∀ g, l ≠ .globalVariable g) :
    ∃ v ∈ (Filter.binary .assign l e).outputs { env } s, v.isException := by
  rw [outputs, run, meaning]
  simp only [Program.assign, run_andThen, meaning_filter]
  exact ⟨_, List.mem_append_right _ List.mem_cons_self, rfl⟩

/-- A filter that does not split its input is one statement, and writes nothing. -/
theorem statements_unsplit (h : f.splits = false) :
    f.statements = [f] ∧ ∀ env s, f.write? env s = none := by
  cases f with
  | binary op l r =>
    cases op with
    | assign | semicolon => cases h
    | _ => exact ⟨rfl, fun _ _ => rfl⟩
  | _ => exact ⟨rfl, fun _ _ => rfl⟩

theorem write?_row {parts : List Filter} (h : f.row? = some parts) (env : Environment)
    (s : Store) : f.write? env s = none := by
  cases f with
  | binary op l r =>
    cases op with
    | dot => rfl
    | _ => cases h
  | apply => rfl
  | _ => cases h

/-- **What a statement does to the variables**, when it settles. -/
theorem env_statement (hf : ∀ l r, f ≠ .binary .semicolon l r) (hcomplete : env.isComplete = true)
    (hsettles : f.Settles env s) :
    ((f.run { env }).run s).1.env = env.setAll (f.write? env s).toList := by
  obtain ⟨hquiet, -, hknown⟩ := hsettles
  obtain ⟨hown, hright⟩ := List.forall_mem_cons.1 hquiet
  have hstream : Stream.isComplete { env } = true := Stream.isComplete_iff.2 ⟨rfl, hcomplete⟩
  rcases f.runBy with ⟨hrun, hsplits⟩ | ⟨n, rfl⟩ | ⟨parts, hrow, hrun, -⟩ | ⟨l, e, rfl⟩ | ⟨l, r, rfl⟩ |
    ⟨g, rfl⟩
  · rw [(statements_unsplit hsplits).2, hrun]
    exact Program.env_ofGenerator _ hstream s
  · exact (Program.inherits_name n { env } s).kept hown hknown
  · rw [outputs, hrun] at hown
    rw [hrun] at hknown
    rw [write?_row hrow, hrun]
    exact (Program.inherits_apply parts { env } rfl hstream s).kept hown hknown
  · have he : ∀ v ∈ e.outputs { env } s, v.isException = false := hright e (by simp [assigned?])
    by_cases hname : ∃ n, l = .name n
    · obtain ⟨n, rfl⟩ := hname
      exact env_assign_name he hknown
    by_cases hglobal : ∃ g, l = .globalVariable g
    · obtain ⟨g, rfl⟩ := hglobal
      exact env_assign_global hcomplete he hknown
    obtain ⟨v, hv, hexception⟩ : ∃ v ∈ (Filter.binary .assign l e).outputs { env } s, _ :=
      assign_throws (not_exists.1 hname) (not_exists.1 hglobal)
    simp [hown v hv] at hexception
  · exact absurd rfl (hf l r)
  · exact Program.env_globalVariable g _ hstream s

/-- A semicolon runs its second operand with the variables that the first one leaves. -/
theorem run_semicolon {l r : Filter} (hknown : ((l.run { env }).run s).1.env.isComplete = true)
    (hclosed : let first := (l.run { env }).run s
      ((r.run { env := first.1.env }).run first.2).1.closed = true) :
    ((binary .semicolon l r).run { env }).run s =
      let first := (l.run { env }).run s
      let second := (r.run { env := first.1.env }).run first.2
      ({ second.1 with rest := Stream.spent { env } }, second.2) := by
  have hrun : ((binary .semicolon l r).run { env }).run s =
      let first := (l.run { env }).run s
      (if !first.1.env.isComplete then return .waiting [] (Stream.spent { env })
      else do
        let second ← r.run { env := first.1.env }
        if !second.closed then return .waiting second.outputs (Stream.spent { env })
        return { second with rest := Stream.spent { env } } : StateM Store Run).run first.2 := rfl
  dsimp only at hclosed hrun ⊢
  rw [hrun, hknown, Bool.not_true, if_neg Bool.false_ne_true, run_andThen, hclosed]
  rfl

/-- **What the statements of a program do to the variables**, one after the other. -/
theorem run_statements {P : Filter} (hcomplete : env.isComplete = true)
    (hsettle : AllSettle P.statements env s) :
    ((P.run { env }).run s).1.env = env.setAll (writes P.statements env s).1 ∧
      ((P.run { env }).run s).1.closed = true ∧
      ((P.run { env }).run s).2 = (writes P.statements env s).2 := by
  fun_induction statements P generalizing env s with
  | case1 l r ihl ihr =>
    rw [allSettle_append] at hsettle
    obtain ⟨henv, -, hstore⟩ := ihl hcomplete hsettle.1
    have hknown : (env.setAll (writes l.statements env s).1).isComplete = true := by
      rw [Environment.isComplete_iff, Environment.withheld_setAll]
      exact Environment.isComplete_iff.1 hcomplete
    obtain ⟨henv', hclosed, hstore'⟩ := ihr hknown hsettle.2
    rw [← henv] at hknown
    rw [← henv, ← hstore] at henv' hclosed hstore'
    rw [run_semicolon hknown hclosed, writes_append, Environment.setAll_append, ← henv, ← hstore]
    exact ⟨henv', hclosed, hstore'⟩
  | case2 f hf =>
    refine ⟨?_, hsettle.1.2.1, rfl⟩
    have hone : (writes [f] env s).1 = (f.write? env s).toList := by simp [writes]
    rw [hone]
    exact env_statement (fun l r h => hf l r h) hcomplete hsettle.1

/-! ### Programs -/

/-- A program that does not split its input keeps the variables, also if the stream has been read to its
end. -/
theorem env_unsplit {P : Filter} {drained : Bool} (hsplits : P.splits = false)
    (hcomplete : env.isComplete = true) (hsettles : P.Settles env s) :
    ((P.run { env, drained }).run s).1.env = env := by
  have hstream : Stream.isComplete { env, drained } = true := Stream.isComplete_iff.2 ⟨rfl, hcomplete⟩
  obtain ⟨hquiet, -, hknown⟩ := hsettles
  have hown := hquiet P List.mem_cons_self
  rcases P.runBy with ⟨hrun, -⟩ | ⟨n, rfl⟩ | ⟨parts, -, hrun, hrow⟩ | ⟨l, e, rfl⟩ | ⟨l, r, rfl⟩ | ⟨g, rfl⟩
  · rw [hrun]
    exact Program.env_ofGenerator _ hstream s
  · exact (Program.env_name n env drained s).trans ((Program.inherits_name n { env } s).kept hown hknown)
  · have hplain : isPlainRow parts = true := by simpa [hsplits] using hrow.symm
    rw [outputs, hrun] at hown
    rw [hrun] at hknown ⊢
    rw [Program.env_plain hplain]
    exact (Program.inherits_plain hplain { env } s).kept hown hknown
  · cases hsplits
  · cases hsplits
  · exact Program.env_globalVariable g _ hstream s

/-- **Only assignments write, and the last write wins.**  On a stream without values, if all statements settle,
the variables after a program are those before it, rebound in turn by the assignments among its statements;
each of them binds its own variable to the outputs of its right operand.  What no statement writes is as
before, and the variables of the input stay as they are.

A stream that has been read to its end must not be split for this. -/
theorem run_writes (P : Filter) (input : Stream) (s : Store) (hempty : input.values = [])
    (hcomplete : input.isComplete = true) (hlive : P.splits = true → input.drained = false)
    (hsettle : AllSettle P.statements input.env s) :
    let written := (writes P.statements input.env s).1
    let result := ((P.run input).run s).1
    result.env = input.env.setAll written ∧
      (∀ x, result.env.get x = (written.reverse.lookup x).or (input.env.get x)) ∧
      result.env.formats = input.env.formats ∧ result.env.context = input.env.context ∧
      result.env.isComplete = true ∧ result.rest.env = input.env := by
  intro written result
  obtain ⟨hclosed, hknown⟩ := Stream.isComplete_iff.1 hcomplete
  obtain ⟨values, env, drained, closed⟩ := input
  obtain rfl : values = [] := hempty
  obtain rfl : closed = true := hclosed
  have henv : result.env = env.setAll written := by
    cases hsplits : P.splits with
    | true =>
      obtain rfl : drained = false := hlive hsplits
      exact (run_statements hknown hsettle).1
    | false =>
      obtain ⟨hstatements, hwrite⟩ := statements_unsplit hsplits
      have hnone : written = [] := by
        simp only [written, hstatements, writes, hwrite]
        rfl
      rw [hstatements] at hsettle
      rw [hnone]
      exact env_unsplit hsplits hknown hsettle.1
  refine ⟨henv, fun x => ?_, ?_, ?_, ?_, (leaves P _ s).env⟩
  · rw [henv, Environment.get_setAll]
  · rw [henv, Environment.formats_setAll]
  · rw [henv, Environment.context_setAll]
  · rw [henv, Environment.isComplete_iff, Environment.withheld_setAll]
    exact Environment.isComplete_iff.1 hknown

/-- `a = true; $b = a, null; (a = false); a = null`. -/
def rebinding : Filter :=
  .binary .semicolon (.binary .assign (.name "a") (.name "true"))
    (.binary .semicolon
      (.binary .assign (.globalVariable (.name "b")) (.binary .comma (.name "a") (.name "null")))
      (.binary .semicolon (.parens (.binary .assign (.name "a") (.name "false")))
        (.binary .assign (.name "a") (.name "null"))))

/-- The theorem at a program that writes one variable twice, reads it in between, and has an assignment in
parentheses. -/
theorem run_writes_rebinding :
    let input : Stream := { env := { locals := [("a", []), ("c", [.bool false])] } }
    let result := ((rebinding.run input).run {}).1
    input.values = [] ∧ AllSettle rebinding.statements input.env {} ∧
      result.env.get (.localName "a") = some [.null] ∧
      result.env.get (.globalName "b") = some [.bool true, .null] ∧
      result.env.get (.localName "c") = some [.bool false] := by
  intro input result
  have hsettle : AllSettle rebinding.statements input.env {} := by decide +kernel
  have hget := (run_writes rebinding input {} rfl rfl (fun _ => rfl) hsettle).2.1
  exact ⟨rfl, hsettle, (hget _).trans rfl, (hget _).trans rfl, (hget _).trans rfl⟩

/-- A stream that has been read to its end loses its variables when it is split. -/
theorem split_forgets_variables :
    let P : Filter := .binary .semicolon (.binary .assign (.name "x") (.name "true")) (.name "x")
    let input : Stream := { env := { locals := [("true", [.bool false])] }, drained := true }
    AllSettle P.statements input.env {} ∧
      (input.env.setAll (writes P.statements input.env {}).1).get (.localName "x") =
        some [.bool false] ∧
      ((P.run input).run {}).1.env.get (.localName "x") = some [.bool true] ∧
      ((P.run input).run {}).1.env.get (.localName "true") = none := by
  intro P input
  have hsettle : AllSettle P.statements input.env {} := by decide +kernel
  exact ⟨hsettle, rfl, rfl, rfl⟩

end Filter

end FilterShell
