import FilterShell.Proofs.Eval.Outputs

/-!
# Which branch of a conditional runs

The clauses of a conditional are gone through in turn.  A condition decides about the body behind it, and
once no condition has been true, the body of `else` runs.

When a condition is true its body runs, and the clauses behind that are gone through as well, with what the
body has left of the input.  So the body's outputs come first, and then whatever the later clauses give:
nothing, if the body gave an exception or never ends, or if the condition is the last (`conditional_branch`).
-/

namespace FilterShell

/-- A condition and the body behind it. -/
structure Branch where
  word      : Text
  condition : Filter
  body      : Filter
  isCondition : word = Text.ofString "if" ∨ word = Text.ofString "elif" ∨ word = Text.ofString "elseIf"

/-- The word of the clause that runs after an answer. -/
def bodyWord (answer : Bool) : Text := if answer then "then" else "else"

/-- The clauses of a branch. -/
def Branch.clauses (b : Branch) : List (Text × Filter) :=
  [(b.word, b.condition), (bodyWord true, b.body)]

/-- The clauses of a chain of branches, with or without an `else`. -/
def chain (branches : List Branch) (otherwise : Option Filter) : List (Text × Filter) :=
  branches.flatMap Branch.clauses ++ otherwise.toList.map (bodyWord false, ·)

/-- The condition has an answer: its first output is no exception, and counts as true or not. -/
def Decides (condition : Filter) (input : Stream) (s : Store) (answer : Bool) (s' : Store) : Prop :=
  ∃ v more, condition.outputs input s = v :: more ∧ v.isException = false ∧
    Reading.Gives ((condition.run input).run s).2 v.truth answer s'

/-- The conditions are false one after the other. -/
inductive Falls (input : Stream) : Store → List Branch → Store → Prop
  | nil (s : Store) : Falls input s [] s
  | cons {s s₁ s' : Store} {b : Branch} {rest : List Branch}
      (hb : Decides b.condition input s false s₁) (hrest : Falls input s₁ rest s') :
      Falls input s (b :: rest) s'

namespace Filter

/-- What the clauses of a conditional yield, when `last` is the answer of the condition before them. -/
def clauseOutputs (clauses : List (Text × Filter)) (last : Option Bool) (input : Stream) :
    StateM Store Produced :=
  Generate.conditional (clauseMeanings clauses) last input

variable {clauses : List (Text × Filter)} {last : Option Bool} {o : Outflow} {input : Stream}
  {s s' : Store} {answer : Bool}

/-! ### One clause -/

/-- A condition that has an answer leaves the others their parts of the input. -/
theorem clauseOutputs_condition {b : Branch} (hlive : input.drained = false)
    (hb : Decides b.condition input s answer s') :
    (clauseOutputs ((b.word, b.condition) :: clauses) last input).run s =
      (clauseOutputs clauses (some answer) input).run s' := by
  obtain ⟨v, more, houtputs, hv, htruth⟩ := hb
  have hword : (b.word = Text.ofString "if" || b.word = Text.ofString "elif" ||
      b.word = Text.ofString "elseIf") = true := by
    simpa [or_assoc] using b.isCondition
  rw [clauseOutputs, clauseMeanings, Generate.conditional.eq_def]
  dsimp only
  rw [if_pos hword, Stream.copy_live hlive, StateT.run_bind]
  rw [outputs, run] at houtputs
  rw [run] at htruth
  generalize (b.condition.meaning.run input).run s = result at houtputs htruth
  obtain ⟨⟨given, envAfter, rest, closed⟩, s₁⟩ := result
  obtain rfl : given = v :: more := houtputs
  have htruth : v.truth.run.run s₁ = (.ok answer, s') := htruth
  -- Of the outputs only the first counts, and it is the one that has the answer.
  change StateT.run (if v.isException then _ else _) s₁ = _
  rw [if_neg (by simpa using hv), StateT.run_bind, htruth, Stream.next_live hlive]
  rfl

/-- A body whose turn it is. -/
theorem clauseOutputs_body {f : Filter}
    (h : Yields (clauseOutputs clauses (some answer) ((f.run input).run s).1.rest)
      ((f.run input).run s).2 o) :
    Yields (clauseOutputs ((bodyWord answer, f) :: clauses) (some answer) input) s
      ((f.outflow input s).andThen o) := by
  rw [clauseOutputs, clauseMeanings]
  cases answer with
  | true => exact h.andThen ((f.run input).run s).1
  | false => exact h.andThen ((f.run input).run s).1

/-- Whatever the clauses are, all they yield are values. -/
theorem clauseOutputs_yields (clauses : List (Text × Filter)) (last : Option Bool) (input : Stream)
    (s : Store) : ∃ o, Yields (clauseOutputs clauses last input) s o := by
  induction clauses generalizing last input s with
  | nil => exact ⟨_, yields_ofValues [] s⟩
  | cons clause clauses ih =>
    obtain ⟨word, f⟩ := clause
    rw [clauseOutputs, clauseMeanings, Generate.conditional.eq_def]
    dsimp only
    split
    · simp only [yields_bind]
      split
      · rw [Generate.missing]
        split
        · exact ⟨_, yields_ofValues _ _⟩
        · exact ⟨_, yields_waiting _⟩
      · split
        · exact ⟨_, yields_ofValues _ _⟩
        · simp only [yields_bind]
          split
          · exact ⟨_, yields_ofFault _ _⟩
          · exact ih _ _ _
    · split
      · cases last with
        | none => exact ⟨_, yields_ofFault _ _⟩
        | some answer =>
          dsimp only
          split
          · obtain ⟨o, ho⟩ := ih (some answer) ((f.run input).run s).1.rest ((f.run input).run s).2
            exact ⟨_, ho.andThen ((f.run input).run s).1⟩
          · exact ih _ _ _
      · exact ⟨_, yields_ofFault _ _⟩

/-! ### Chains -/

theorem chain_append (before after : List Branch) (otherwise : Option Filter) :
    chain (before ++ after) otherwise = before.flatMap Branch.clauses ++ chain after otherwise := by
  rw [chain, chain, List.flatMap_append, List.append_assoc]

/-- Branches whose conditions are false give nothing. -/
theorem clauseOutputs_falls {branches : List Branch} (hlive : input.drained = false)
    (h : Falls input s branches s') :
    (clauseOutputs (branches.flatMap Branch.clauses ++ clauses) (some false) input).run s =
      (clauseOutputs clauses (some false) input).run s' := by
  induction h with
  | nil => rfl
  | cons hb _ ih =>
    rw [← ih]
    exact clauseOutputs_condition hlive hb

/-- In front of the first condition there is no answer yet, but this does not matter. -/
theorem clauseOutputs_first {first : Branch} (hlive : input.drained = false)
    (h : Decides first.condition input s answer s') (rest : List Branch) (otherwise : Option Filter) :
    (clauseOutputs (chain (first :: rest) otherwise) none input).run s =
      (clauseOutputs (chain (first :: rest) otherwise) (some false) input).run s :=
  (clauseOutputs_condition hlive h).trans (clauseOutputs_condition hlive h).symm

/-- If no condition was true, then the last clause is for that. -/
theorem clauseOutputs_otherwise (otherwise : Option Filter) :
    Yields (clauseOutputs (chain [] otherwise) (some false) input) s
      (otherwise.elim ⟨[], true⟩ fun f => f.outflow input s) := by
  cases otherwise with
  | none => exact yields_ofValues [] s
  | some f =>
    have hnone : Yields (clauseOutputs [] (some false) ((f.run input).run s).1.rest)
      ((f.run input).run s).2 ⟨[], true⟩ := yields_ofValues [] _
    have hbody := clauseOutputs_body hnone
    rwa [Outflow.andThen_nil] at hbody

/-- What comes of a chain that starts at `before` and `b`, of which `b` is the first true one. -/
theorem clauseOutputs_chosen {before after : List Branch} {b : Branch} {otherwise : Option Filter}
    {s₁ s₂ : Store} (hlive : input.drained = false) (hbefore : Falls input s before s₁)
    (hb : Decides b.condition input s₁ true s₂)
    (h : Yields (clauseOutputs (chain after otherwise) (some true) ((b.body.run input).run s₂).1.rest)
      ((b.body.run input).run s₂).2 o) :
    Yields (clauseOutputs (chain (before ++ b :: after) otherwise) (some false) input) s
      ((b.body.outflow input s₂).andThen o) := by
  rw [chain_append]
  refine Yields.of_run (clauseOutputs_falls hlive hbefore) ?_
  exact Yields.of_run (clauseOutputs_condition hlive hb) (clauseOutputs_body h)

/-- **The body of the first true condition comes first.**  If no condition is true, a conditional gives
what its `else` gives, or nothing.  Otherwise it gives what the body of the first true condition gives,
and then what the clauses behind that body give on what it has left of the input; so this is what the
body gives alone exactly if there is an exception in it, or it does not end, or nothing follows, and nothing
follows the last branch. -/
theorem conditional_branch (first : Branch) (rest : List Branch) (otherwise : Option Filter)
    (input : Stream) (s : Store) (hcalm : ∀ v ∈ input.values, v.isException = false)
    (hcomplete : input.isComplete = true) :
    let part := input.forwarded
    let given := (conditional (chain (first :: rest) otherwise)).outflow input s
    (∀ s', Falls part s (first :: rest) s' →
      given = (otherwise.elim ⟨[], true⟩ fun f => f.outflow part s').cut) ∧
    ∀ before b after s₁ s₂, first :: rest = before ++ b :: after → Falls part s before s₁ →
      Decides b.condition part s₁ true s₂ →
      let body := (b.body.run part).run s₂
      ∃ later, Yields (clauseOutputs (chain after otherwise) (some true) body.1.rest) body.2 later ∧
        given = (body.1.outflow.andThen later).cut ∧
        (given = body.1.outflow.cut ↔
          (∃ v ∈ body.1.outputs, v.isException = true) ∨ body.1.closed = false ∨ later = ⟨[], true⟩) ∧
        (after = [] → later = ⟨[], true⟩) := by
  intro part given
  have hlive : part.drained = false := rfl
  have hgiven : ∀ o, Yields (clauseOutputs (chain (first :: rest) otherwise) none part) s o →
      given = o.cut := by
    intro o h
    exact congrArg (fun r => r.1.outflow) (Yields.run hcalm hcomplete h)
  constructor
  · intro s' hfalls
    apply hgiven
    have hnone := Yields.of_run (clauseOutputs_falls hlive hfalls) (clauseOutputs_otherwise otherwise)
    cases hfalls with
    | cons hfirst hrest => exact Yields.of_run (clauseOutputs_first hlive hfirst rest otherwise) hnone
  · intro before b after s₁ s₂ hbranches hbefore hb body
    obtain ⟨later, hlater⟩ := clauseOutputs_yields (chain after otherwise) (some true) body.1.rest body.2
    have hchosen := clauseOutputs_chosen hlive hbefore hb hlater
    rw [← hbranches] at hchosen
    have hfirst : ∃ answer s', Decides first.condition part s answer s' := by
      cases hbefore with
      | nil =>
        obtain ⟨rfl, -⟩ := List.cons.inj hbranches
        exact ⟨true, s₂, hb⟩
      | cons hc _ =>
        obtain ⟨rfl, -⟩ := List.cons.inj hbranches
        exact ⟨false, _, hc⟩
    obtain ⟨answer, s', hfirst⟩ := hfirst
    have houtputs := hgiven _ (Yields.of_run (clauseOutputs_first hlive hfirst rest otherwise) hchosen)
    refine ⟨later, hlater, houtputs, ?_, ?_⟩
    · rw [houtputs]
      exact Outflow.cut_andThen_eq
    · rintro rfl
      refine hlater.unique ?_
      cases otherwise with
      | none => exact yields_ofValues [] _
      | some f => exact yields_ofValues [] _

/-- The theorem at a second branch that is true, with an `else` behind it. -/
theorem conditional_branch_second :
    let no : Branch := ⟨"if", .name "null", .number "1" (.ofNat 1), .inl rfl⟩
    let yes : Branch := ⟨"elif", .name "true", .number "2" (.ofNat 2), .inr (.inl rfl)⟩
    let input : Stream := { values := [.ofNat 5] }
    Falls input {} [no] {} ∧ Decides yes.condition input {} true {} ∧
      (conditional (chain [no, yes] (some .empty))).outflow input {} =
        (yes.body.outflow input {}).cut := by
  intro no yes input
  have hno : Falls input {} [no] {} := .cons ⟨.null, [], rfl, rfl, rfl⟩ (.nil {})
  have hyes : Decides yes.condition input {} true {} := ⟨.bool true, [], rfl, rfl, rfl⟩
  have hcalm : ∀ v ∈ input.values, v.isException = false := List.forall_mem_singleton.2 rfl
  obtain ⟨later, -, -, halone, hlast⟩ :=
    (conditional_branch no [yes] (some .empty) input {} hcalm rfl).2 [no] yes [] {} {} rfl hno hyes
  exact ⟨hno, hyes, halone.2 (.inr (.inr (hlast rfl)))⟩

/-- Two conditions are true, and both bodies run. -/
theorem both_bodies_run :
    let first : Branch := ⟨"if", .name "true", .number "1" (.ofNat 1), .inl rfl⟩
    let second : Branch := ⟨"elif", .name "true", .number "2" (.ofNat 2), .inr (.inl rfl)⟩
    Decides first.condition {} {} true {} ∧ first.body.outputs {} {} = [.ofNat 1] ∧
      (conditional (chain [first, second] none)).outputs {} {} = [.ofNat 1, .ofNat 2] ∧
      (conditional (chain [first, second] none)).outputs {} {} ≠ first.body.outputs {} {} := by
  intro first second
  refine ⟨⟨.bool true, [], rfl, rfl, rfl⟩, rfl, rfl, ?_⟩
  intro h
  cases congrArg List.length h

end Filter

end FilterShell
