import FilterShell.Proofs.Eval.Outputs
import Mathlib.Data.List.Induction

/-!
# Which handler of an attempt runs

An attempt has a body and groups of names, each with a handler; it may have a handler for all other
exceptions, and one for success.  These are read off first (`handlers_parts`), then the body runs.

The names of a group stay when its handler has been read off, so in the end the handler of the last group is
for the names of all groups (`read_off`).  It runs for an exception with a name of any group; all others, and
a body without exceptions, go to the handlers for them (`attempt_handled`).
-/

namespace FilterShell

/-- What stands behind the body of an attempt. -/
inductive Handling where
  /-- Clauses that catch, each with the name that it stands for, and their handler. -/
  | group (catches : List (Filter × Text)) (handler : Filter)
  /-- The handler for exceptions that are not caught. -/
  | otherwise (handler : Filter)
  /-- What runs if there is no exception. -/
  | success (handler : Filter)

namespace Handling

def clauses : Handling → List (Text × Filter)
  | .group catches handler =>
    catches.map (fun c => (Text.ofString "catch", c.1)) ++ [(Text.ofString "then", handler)]
  | .otherwise handler     => [(Text.ofString "except", handler)]
  | .success handler       => [(Text.ofString "else", handler)]

def catches : Handling → List (Filter × Text)
  | .group catches _ => catches
  | _                => []

def names (part : Handling) : List Text := part.catches.map (·.2)

def handler? : Handling → Option Filter
  | .group _ handler => some handler
  | _                => none

def otherwise? : Handling → Option Filter
  | .otherwise handler => some handler
  | _                  => none

def success? : Handling → Option Filter
  | .success handler => some handler
  | _                => none

/-- The last filter of a kind. -/
def last? (which : Handling → Option Filter) (parts : List Handling) : Option Filter :=
  (parts.filterMap which).getLast?

/-- One more part at the end. -/
theorem last?_append (which : Handling → Option Filter) (parts : List Handling) (part : Handling) :
    last? which (parts ++ [part]) = (which part <|> last? which parts) := by
  rw [last?, last?, List.filterMap_append, List.getLast?_append]
  cases hpart : which part <;> simp [hpart]

/-- Where there is a name, there is a handler for it. -/
theorem last?_of_mem_names {parts : List Handling} {n : Text} (hn : n ∈ parts.flatMap names) :
    ∃ last, last? handler? parts = some last := by
  obtain ⟨part, hpart, hn⟩ := List.mem_flatMap.1 hn
  cases part with
  | group catches handler =>
    have hhandler : handler ∈ parts.filterMap handler? := List.mem_filterMap.2 ⟨_, hpart, rfl⟩
    exact ⟨_, List.getLast?_eq_some_getLast (List.ne_nil_of_mem hhandler)⟩
  | otherwise handler => cases hn
  | success handler => cases hn

/-- If no group follows, then the handler of a group is the last one. -/
theorem last?_handler {before after : List Handling} {catches : List (Filter × Text)}
    {handler : Filter} (hafter : ∀ part ∈ after, part.handler? = none) :
    last? handler? (before ++ .group catches handler :: after) = some handler := by
  have hnone : after.filterMap handler? = [] := List.filterMap_eq_nil_iff.2 hafter
  have hgroup : (Handling.group catches handler :: after).filterMap handler? = [handler] := by
    rw [List.filterMap_cons, hnone]
    rfl
  rw [last?, List.filterMap_append, hgroup, List.getLast?_concat]

end Handling

/-- The clauses that catch give their names, one after the other. -/
inductive Named (input : Stream) : Store → List (Filter × Text) → Store → Prop
  | nil (s : Store) : Named input s [] s
  | cons {s s₁ s' : Store} {f : Filter} {name : Text} {rest : List (Filter × Text)}
      (hname : (f.sensibleText input).run s = (.ok name, s₁)) (hrest : Named input s₁ rest s') :
      Named input s ((f, name) :: rest) s'

theorem Named.split {input : Stream} {s s' : Store} {front back : List (Filter × Text)}
    (h : Named input s (front ++ back) s') :
    ∃ s₁, Named input s front s₁ ∧ Named input s₁ back s' := by
  induction front generalizing s with
  | nil => exact ⟨s, .nil s, h⟩
  | cons c front ih =>
    cases h with
    | cons hname hrest =>
      obtain ⟨s₁, hfront, hback⟩ := ih hrest
      exact ⟨s₁, .cons hname hfront, hback⟩

namespace Filter

variable {input : Stream} {s s' : Store}

theorem meaning_filter (f : Filter) : f.meaning.filter = f := by
  cases f with
  | binary op l r => cases op <;> rfl
  | _ => rfl

/-! ### Reading the clauses off -/

/-- The clauses of an attempt. -/
def attemptClauses (body : Filter) (parts : List Handling) : List (Text × Filter) :=
  (Text.ofString "try", body) :: parts.flatMap Handling.clauses

/-- What is known after one more part. -/
def noted (h : Generate.Handlers) : Handling → Generate.Handlers
  | .group catches handler =>
    let names := h.names ++ catches.map (·.2)
    { h with names, caught := names.map (·, handler.meaning) ++ h.caught }
  | .otherwise handler     => { h with otherwise := some handler.meaning }
  | .success handler       => { h with success := some handler.meaning }

theorem sensibleText_ok {f : Filter} {name : Text}
    (h : (f.sensibleText input).run s = (.ok name, s')) :
    ∃ left, (FilterShell.sensibleText f f.meaning.run input).run s = ((.ok name, left), s') := by
  have hrun : (f.sensibleText input).run s =
      (((FilterShell.sensibleText f f.run input).run s).1.1,
        ((FilterShell.sensibleText f f.run input).run s).2) := rfl
  rw [hrun] at h
  obtain ⟨hname, hstore⟩ := Prod.mk.inj h
  exact ⟨_, Prod.ext (Prod.ext hname rfl) hstore⟩

/-- Clauses that catch add their names. -/
theorem handlers_catches {catches : List (Filter × Text)} {clauses : List (Text × Filter)}
    {h : Generate.Handlers} (hlive : input.drained = false) (hnames : Named input s catches s') :
    (Generate.handlers (clauseMeanings
        (catches.map (fun c => (Text.ofString "catch", c.1)) ++ clauses)) h input).run s =
      (Generate.handlers (clauseMeanings clauses) { h with names := h.names ++ catches.map (·.2) }
        input).run s' := by
  induction hnames generalizing h with
  | nil => simp
  | @cons s s₁ s' f name rest hname _ ih =>
    obtain ⟨left, hfirst⟩ := sensibleText_ok hname
    rw [List.map_cons, List.cons_append, clauseMeanings, Generate.handlers, if_neg (by decide),
      if_pos rfl, meaning_filter, Stream.copy_live hlive, StateT.run_bind, hfirst]
    dsimp only [Id.run, pure, bind]
    rw [Stream.next_live hlive]
    refine (ih (h := { h with names := h.names ++ [name] })).trans ?_
    simp

/-- The clauses are read off from the first to the last. -/
theorem handlers_parts {parts : List Handling} {h : Generate.Handlers} (hlive : input.drained = false)
    (hnames : Named input s (parts.flatMap Handling.catches) s') :
    (Generate.handlers (clauseMeanings (parts.flatMap Handling.clauses)) h input).run s =
      (.ok (parts.foldl noted h, input), s') := by
  induction parts generalizing s h with
  | nil =>
    cases hnames
    rfl
  | cons part parts ih =>
    obtain ⟨s₁, hpart, hparts⟩ := Named.split hnames
    rw [List.foldl_cons, ← ih hparts, List.flatMap_cons]
    cases part with
    | group catches handler =>
      rw [Handling.clauses, List.append_assoc]
      exact (handlers_catches hlive hpart).trans rfl
    | otherwise handler =>
      cases hpart
      rfl
    | success handler =>
      cases hpart
      rfl

/-! ### The last group -/

/-- A handler for many names. -/
theorem lookup_names {names : List Text} {m : Meaning} {caught : List (Text × Meaning)} {n : Text} :
    (names.map (·, m) ++ caught).lookup n = if n ∈ names then some m else caught.lookup n := by
  induction names with
  | nil => rfl
  | cons name names ih =>
    rw [List.map_cons, List.cons_append, List.lookup_cons, ih]
    by_cases hn : n = name
    · simp [hn]
    · simp [hn, beq_eq_false_iff_ne.2 hn]

/-- **The handler of the last group is for the names of all groups.** -/
theorem read_off (body : Filter) (parts : List Handling) :
    let h := parts.foldl noted { body := some body.meaning }
    h.body = some body.meaning ∧ h.names = parts.flatMap Handling.names ∧
      (∀ n, h.caught.lookup n = if n ∈ parts.flatMap Handling.names
        then (Handling.last? Handling.handler? parts).map meaning else none) ∧
      h.otherwise = (Handling.last? Handling.otherwise? parts).map meaning ∧
      h.success = (Handling.last? Handling.success? parts).map meaning := by
  induction parts using List.reverseRecOn with
  | nil => exact ⟨rfl, rfl, fun n => by simp, rfl, rfl⟩
  | append_singleton parts part ih =>
    obtain ⟨hbody, hnames, hcaught, hotherwise, hsuccess⟩ := ih
    simp only [Handling.last?_append, List.flatMap_append, List.flatMap_singleton]
    rw [List.foldl_append, List.foldl_cons, List.foldl_nil]
    cases part with
    | group catches handler =>
      refine ⟨hbody, congrArg (· ++ catches.map (·.2)) hnames, fun n => ?_, hotherwise, hsuccess⟩
      rw [noted]
      dsimp only
      rw [hnames, lookup_names, hcaught]
      -- a name that is not among all the names is not among the earlier ones
      by_cases hn : n ∈ parts.flatMap Handling.names ++ catches.map (·.2)
      · exact (if_pos hn).trans (if_pos hn).symm
      · have hold : n ∉ parts.flatMap Handling.names := fun h => hn (List.mem_append_left _ h)
        rw [if_neg hn, if_neg hold]
        exact (if_neg hn).symm
    | otherwise handler =>
      have hnone : (Handling.otherwise handler).names = [] := rfl
      rw [hnone, List.append_nil]
      exact ⟨hbody, hnames, hcaught, rfl, hsuccess⟩
    | success handler =>
      have hnone : (Handling.success handler).names = [] := rfl
      rw [hnone, List.append_nil]
      exact ⟨hbody, hnames, hcaught, hotherwise, rfl⟩

/-! ### The body and its handler -/

/-- Which filter runs after the body, given the first exception of the body. -/
def handlerFor (parts : List Handling) : Option Exception → Option Filter
  | none   => Handling.last? Handling.success? parts
  | some e =>
    if e.name ∈ parts.flatMap Handling.names then Handling.last? Handling.handler? parts
    else Handling.last? Handling.otherwise? parts

/-- What comes out if nothing runs after the body. -/
def unhandled (outputs : List Value) : Option Exception → Outflow
  | none   => ⟨outputs, true⟩
  | some e => ⟨[.exception e], true⟩

variable {body : Filter} {parts : List Handling}

/-- A handler has a part of the input of its own, whatever the body has left of the other one. -/
theorem yields_handler (f : Filter) (hlive : input.drained = false) (rest : Stream) (s : Store) :
    Yields (do return .ofRun (← f.meaning.run (input.next rest))) s (f.outflow input s) := by
  rw [Stream.next_live hlive]
  exact yields_ofRun ((f.run input).run s).1 _

/-- The body runs, and then the handler, unless the body gives no exception and does not end. -/
theorem attempt_yields (hlive : input.drained = false)
    (hnames : Named input s (parts.flatMap Handling.catches) s') :
    let r := (body.run input).run s'
    let first := r.1.outputs.findSome? Value.exception?
    Yields (Generate.attempt (clauseMeanings (attemptClauses body parts)) input) s
      (if first.isNone && !r.1.closed then ⟨[], false⟩
      else (handlerFor parts first).elim (unhandled r.1.outputs first) fun f => f.outflow input r.2) := by
  dsimp only [Filter.run]
  obtain ⟨hbody, -, hcaught, hotherwise, hsuccess⟩ := read_off body parts
  generalize hread : parts.foldl noted _ = h at hbody hcaught hotherwise hsuccess
  have hclauses : (Generate.handlers (clauseMeanings (attemptClauses body parts)) {} input).run s =
      (.ok (h, input), s') := by
    rw [← hread]
    exact handlers_parts hlive hnames
  rw [Generate.attempt, yields_bind, hclauses]
  dsimp only
  rw [hbody]
  dsimp only
  rw [yields_bind, Stream.copy_live hlive]
  generalize (body.meaning.run input).run s' = r
  generalize r.1.outputs.findSome? Value.exception? = first
  cases first with
  | none =>
    have hfor : h.success = (handlerFor parts none).map meaning := hsuccess
    change Yields (if !r.1.closed then _ else _) r.2 _
    cases hclosed : r.1.closed with
    | false => exact yields_waiting _
    | true =>
      rw [hfor]
      cases handlerFor parts none with
      | none => exact yields_ofValues _ _
      | some f => exact yields_handler f hlive _ _
  | some e =>
    have hfor : (h.caught.lookup e.name <|> h.otherwise) =
        (handlerFor parts (some e)).map meaning := by
      rw [hcaught, hotherwise, handlerFor]
      by_cases hn : e.name ∈ parts.flatMap Handling.names
      · obtain ⟨last, hlast⟩ := Handling.last?_of_mem_names hn
        rw [if_pos hn, if_pos hn, hlast]
        rfl
      · rw [if_neg hn, if_neg hn]
        rfl
    dsimp only
    rw [hfor]
    cases handlerFor parts (some e) with
    | none => exact yields_ofValues _ _
    | some f => exact yields_handler f hlive _ _

/-- **An exception is handled by the last group**, if its name is in any group.  Without an exception the body
has to end. -/
theorem attempt_handled (body : Filter) (parts : List Handling) (input : Stream) (s s₁ : Store)
    (hcalm : ∀ v ∈ input.values, v.isException = false) (hcomplete : input.isComplete = true)
    (hnames : Named input.forwarded s (parts.flatMap Handling.catches) s₁) :
    let part := input.forwarded
    let r := (body.run part).run s₁
    let first := r.1.outputs.findSome? Value.exception?
    let given := (attempt (attemptClauses body parts)).outflow input s
    (∀ e, first = some e →
      (∀ before catches handler after, parts = before ++ .group catches handler :: after →
        e.name ∈ catches.map (·.2) →
        ∃ last, Handling.last? Handling.handler? parts = some last ∧
          given = (last.outflow part r.2).cut ∧
          ((∀ part ∈ after, part.handler? = none) → last = handler)) ∧
      (e.name ∉ parts.flatMap Handling.names →
        given = (Handling.last? Handling.otherwise? parts).elim ⟨[.exception e], true⟩
          fun f => (f.outflow part r.2).cut)) ∧
    (first = none → r.1.closed = true →
      given = (Handling.last? Handling.success? parts).elim ⟨r.1.outputs, true⟩
        fun f => (f.outflow part r.2).cut) ∧
    (first = none → r.1.closed = false → given = ⟨[], false⟩) := by
  intro part r first given
  have hgiven : given = (if first.isNone && !r.1.closed then (⟨[], false⟩ : Outflow)
      else (handlerFor parts first).elim (unhandled r.1.outputs first) fun f => f.outflow part r.2).cut :=
    congrArg (fun r => r.1.outflow) (Yields.run hcalm hcomplete (attempt_yields rfl hnames))
  refine ⟨fun e hfirst => ⟨?_, ?_⟩, fun hfirst hclosed => ?_, fun hfirst hclosed => ?_⟩
  · intro before catches handler after hparts hcaught
    have hn : e.name ∈ parts.flatMap Handling.names := by
      rw [hparts]
      exact List.mem_flatMap.2 ⟨.group catches handler, List.mem_append_right _ List.mem_cons_self,
        hcaught⟩
    obtain ⟨last, hlast⟩ := Handling.last?_of_mem_names hn
    refine ⟨last, hlast, ?_, fun hafter => ?_⟩
    · rw [hgiven, hfirst, handlerFor, if_pos hn, hlast]
      rfl
    · rw [hparts, Handling.last?_handler hafter] at hlast
      exact (Option.some.inj hlast).symm
  · intro hn
    rw [hgiven, hfirst, handlerFor, if_neg hn]
    cases Handling.last? Handling.otherwise? parts <;> rfl
  · have hcalmBody : ∀ v ∈ r.1.outputs, v.isException = false := by
      intro v hv
      rw [Value.isException, List.findSome?_eq_none_iff.1 hfirst v hv]
      rfl
    rw [hgiven, hfirst, hclosed, handlerFor]
    cases Handling.last? Handling.success? parts with
    | none => exact congrArg (Outflow.mk · true) (cutAtException_eq_self hcalmBody)
    | some f => rfl
  · rw [hgiven, hfirst, hclosed]
    rfl

/-- The theorem at an exception that the last of two groups catches. -/
theorem attempt_handled_second :
    let parts : List Handling := [.group [(.name "other", "other")] (.number "1" (.ofNat 1)),
      .group [(.name "name", "name")] (.number "2" (.ofNat 2)), .otherwise .empty]
    Named {} {} (parts.flatMap Handling.catches) {} ∧
      (attempt (attemptClauses (.name "foo") parts)).outflow {} {} =
        ((number "2" (.ofNat 2)).outflow {} {}).cut := by
  intro parts
  have hnames : Named {} {} (parts.flatMap Handling.catches) {} := .cons rfl (.cons rfl (.nil {}))
  obtain ⟨last, -, hgiven, hlast⟩ :=
    ((attempt_handled (.name "foo") parts {} {} {} (List.forall_mem_nil _) rfl hnames).1 _ rfl).1
      [.group [(.name "other", "other")] (.number "1" (.ofNat 1))] [(.name "name", "name")]
      (.number "2" (.ofNat 2)) [.otherwise .empty] rfl (List.mem_singleton.2 rfl)
  obtain rfl := hlast (List.forall_mem_singleton.2 rfl)
  exact ⟨hnames, hgiven⟩

/-- An exception of the first group goes to the handler of the second. -/
theorem later_group_handles :
    let parts : List Handling := [.group [(.name "name", "name")] (.number "1" (.ofNat 1)),
      .group [(.name "other", "other")] (.number "2" (.ofNat 2))]
    Named {} {} (parts.flatMap Handling.catches) {} ∧
      (((name "foo").outputs {} {}).findSome? Value.exception?).map (·.name) = some "name" ∧
      (attempt (attemptClauses (.name "foo") parts)).outputs {} {} = [.ofNat 2] ∧
      (attempt (attemptClauses (.name "foo") parts)).outputs {} {} ≠
        (number "1" (.ofNat 1)).outputs {} {} := by
  intro parts
  refine ⟨.cons rfl (.cons rfl (.nil {})), rfl, rfl, ?_⟩
  intro h
  have hone : [Value.ofNat 2] = [Value.ofNat 1] := h
  cases hone

end Filter

end FilterShell
