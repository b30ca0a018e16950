import FilterShell.Proofs.Eval.Calls

/-!
# Functions that fail

A generator turns a fault into an exception at the end of its outputs.  The program of a function does not:
what was yielded before the fault is all that comes out.  `explode` reports the type of a value before it fails
on it, and what `range` reports may be the last that it yields (`Heard`); the other functions that fail are
never heard (`call_fails`).  A read that waits forever is no failure.
-/

namespace FilterShell

variable {call : Text × Nat} {name : Text} {own : String}

/-- The last value is an exception. -/
def LastIsException (vs : List Value) : Prop := ∃ e, vs.getLast? = some e ∧ e.isException = true

theorem lastIsException_append {us vs : List Value} :
    LastIsException (us ++ vs) ↔ LastIsException vs ∨ vs = [] ∧ LastIsException us := by
  cases hlast : vs.getLast? with
  | none =>
    obtain rfl := List.getLast?_eq_none_iff.1 hlast
    simp [LastIsException]
  | some v =>
    have hne : vs ≠ [] := by
      rintro rfl
      cases hlast
    simp [LastIsException, List.getLast?_append, hlast, hne]

theorem not_lastIsException {vs : List Value} (h : ∀ v ∈ vs, v.isException = false) :
    ¬ LastIsException vs := by
  rintro ⟨e, hlast, he⟩
  rw [h e (List.mem_of_getLast? hlast)] at he
  cases he

theorem lastIsException_cut {vs : List Value} (h : ∃ v ∈ vs, v.isException = true) :
    LastIsException (cutAtException vs) := by
  induction vs with
  | nil =>
    obtain ⟨v, hv, -⟩ := h
    cases hv
  | cons v vs ih =>
    rw [cutAtException]
    cases hv : v.isException with
    | true => exact ⟨v, rfl, hv⟩
    | false =>
      have hrest : ∃ w ∈ vs, w.isException = true := by simpa [hv] using h
      have happend : LastIsException ([v] ++ cutAtException vs) :=
        lastIsException_append.2 (.inl (ih hrest))
      exact happend

/-! ### Failures -/

/-- The values that a computation yields, and the fault that ended it. -/
def made (g : StateM Store Produced) : StateM Store (List Value × Option Fault) := do
  let produced ← g
  let (vs, f) ← Produced.values produced.documents
  return (vs, f <|> produced.fault)

/-- The computation fails behind these values. -/
def FailsBehind (g : StateM Store Produced) (s : Store) (vs : List Value) (f : Fault) : Prop :=
  ((made g).run s).1 = (vs, some f) ∧ f ≠ .nothingWaiting

namespace Produced

theorem calm_values {ds : List Json.Document} (h : ∀ d ∈ ds, d.isException = false) :
    Always (values ds) fun r => ∀ v ∈ r.1, v.isException = false := by
  induction ds with
  | nil => exact always_pure (List.forall_mem_nil _)
  | cons d ds ih =>
    obtain ⟨hd, hds⟩ := List.forall_mem_cons.1 h
    refine Always.bind d.delivers_toValue fun result hresult => ?_
    split
    · exact always_pure (List.forall_mem_nil _)
    · rename_i v
      refine (ih hds).bind fun made hmade => always_pure (List.forall_mem_cons.2 ⟨?_, hmade⟩)
      rw [hresult v rfl, hd]

/-- Values are yielded, and then nothing more; but the end may never come. -/
def Flows (p : Produced) : Prop := ∃ o, p = ofOutflow o

theorem flows_ofValues (vs : List Value) : (ofValues vs).Flows := ⟨⟨vs, true⟩, rfl⟩

theorem flows_waiting : waiting.Flows := ⟨⟨[], false⟩, rfl⟩

theorem Flows.andThen {g : StateM Store Produced} (hg : Always g Flows) (r : Run) :
    Always ((ofRun r).andThen g) Flows := by
  intro s
  obtain ⟨o, ho⟩ := hg s
  exact ⟨r.outflow.andThen o, run_ofRun_andThen ho⟩

/-- Nothing that is yielded is an exception, or nothing fails. -/
def Mute (p : Produced) : Prop := (∀ d ∈ p.documents, d.isException = false) ∨ p.Flows

theorem mute_ofFault (f : Fault) : (ofFault f).Mute := .inl (List.forall_mem_nil _)

theorem mute_ofReading (r : Reading (List Value)) : Always (ofReading r) Mute :=
  always_ofReading (delivers_any r) (fun vs _ => .inr (flows_ofValues vs)) mute_ofFault

section Outcome

variable {r : Reading (List Value)} {s s' : Store}

/-- Values come first, and then the rest. -/
theorem run_gives_andThen {vs : List Value} (h : Reading.Gives s r vs s') (g : StateM Store Produced) :
    (do (← ofReading r).andThen g : StateM Store Produced).run s =
      ({ (g.run s').1 with documents := vs.map .value ++ (g.run s').1.documents }, (g.run s').2) := by
  have hread : (ofReading r).run s = (ofValues vs, s') := by
    rw [ofReading, run_andThen, show r.run.run s = (.ok vs, s') from h]
    rfl
  rw [run_andThen, hread]
  rfl

/-- Behind a fault there is nothing. -/
theorem run_fails_andThen {f : Fault} (h : Reading.Fails s r f s') (g : StateM Store Produced) :
    (do (← ofReading r).andThen g : StateM Store Produced).run s = (ofFault f, s') := by
  have hread : (ofReading r).run s = (ofFault f, s') := by
    rw [ofReading, run_andThen, show r.run.run s = (.error f, s') from h]
    rfl
  rw [run_andThen, hread]
  rfl

end Outcome

theorem run_failure_andThen (name : String) (g : StateM Store Produced) (s : Store) :
    ((failure name).andThen g).run s =
      ({ (g.run s).1 with documents := .value (Value.failure name) :: (g.run s).1.documents }, (g.run s).2) :=
  rfl

/-- Values are yielded, and the last one is an exception if a failure stands behind them. -/
def Reported (p : Produced) : Prop :=
  ∃ ws : List Value, p.documents = ws.map .value ∧
    ∀ f, p.fault = some f → f ≠ .nothingWaiting → LastIsException ws

/-- What comes before does not matter for the end. -/
theorem Reported.behind {p : Produced} (h : p.Reported) (us : List Value) :
    Reported { p with documents := us.map .value ++ p.documents } := by
  obtain ⟨ws, hws, hlast⟩ := h
  refine ⟨us ++ ws, ?_, fun f hf hne => lastIsException_append.2 (.inl (hlast f hf hne))⟩
  rw [List.map_append, ← hws]

end Produced

/-- What is yielded as values comes out as these. -/
theorem FailsBehind.eq {g : StateM Store Produced} {s : Store} {vs ws : List Value} {f : Fault}
    (h : FailsBehind g s vs f) (hdocuments : (g.run s).1.documents = ws.map .value) :
    vs = ws ∧ (g.run s).1.fault = some f := by
  have hmade : ((made g).run s).1 = (ws, (g.run s).1.fault) := by
    have hrun : ((made g).run s).1 =
        let read := (Produced.values (g.run s).1.documents).run (g.run s).2
        (read.1.1, read.1.2 <|> (g.run s).1.fault) := rfl
    rw [hrun, hdocuments, values_made]
    rfl
  obtain ⟨rfl, hfault⟩ := Prod.mk.inj (hmade.symm.trans h.1)
  exact ⟨rfl, hfault⟩

/-- Values do not fail, and a wait is no failure. -/
theorem FailsBehind.not_flows {g : StateM Store Produced} {s : Store} {vs : List Value} {f : Fault}
    (h : FailsBehind g s vs f) : ¬ (g.run s).1.Flows := by
  rintro ⟨⟨ws, closed⟩, hws⟩
  have hfault := (h.eq (congrArg Produced.documents hws)).2
  rw [hws] at hfault
  cases closed with
  | true => cases hfault
  | false => exact h.2 (Option.some.inj hfault).symm

/-- What is mute is not heard. -/
theorem FailsBehind.mute {g : StateM Store Produced} (hg : Always g Produced.Mute) {s : Store} {vs : List Value}
    {f : Fault} (h : FailsBehind g s vs f) : ¬ LastIsException vs := by
  obtain hcalm | hflows := hg s
  · have hvs : ((Produced.values (g.run s).1.documents).run (g.run s).2).1.1 = vs := congrArg Prod.fst h.1
    have hvalues : ∀ v ∈ vs, v.isException = false := by
      rw [← hvs]
      exact Produced.calm_values hcalm _
    exact not_lastIsException hvalues
  · exact absurd hflows h.not_flows

/-! ### Functions -/

/-- A number of which it cannot be told whether it is whole. -/
def Value.isUndecided : Value → Bool
  | .number _ d => match d.isWhole? with
    | .ok _    => false
    | .error _ => true
  | _ => false

/-- A number that is not above zero, so that there are none below it to count. -/
def Value.isIdle : Value → Bool
  | .number _ d => d.toInt ≤ 0
  | _           => false

namespace Builtin

open Reading (Gives drain wholeText progress answers_drain)

theorem mute_argv (input : Stream) : Always (argv input) Produced.Mute := by
  refine always_pure ?_
  split
  · exact Produced.mute_ofFault _
  · exact .inl (List.forall_mem_map.2 fun _ _ => rfl)

theorem mute_argvAt (index : Meaning) (input : Stream) : Always (argvAt index input) Produced.Mute :=
  always_bind fun _ => Produced.mute_ofReading _

theorem mute_nth (index : Meaning) (input : Stream) : Always (nth index input) Produced.Mute :=
  always_bind fun _ => Produced.mute_ofReading _

/-- The string is yielded, and then an exception or a fault, but not both. -/
theorem mute_implode (input : Stream) : Always (implode input) Produced.Mute := by
  unfold implode
  generalize hbehind : implodedPieces input.closed input.values = imploded
  obtain ⟨pieces, behind⟩ := imploded
  have hcases := implodedPieces_cases input.closed input.values
  rw [hbehind] at hcases
  refine Always.bind (P := fun p => (∃ id, p = .ofValues [.string id ([] :: pieces)]) ∨ ∃ f, p = .ofFault f)
    ?_ fun p hp => ?_
  · refine Produced.always_ofReading (P := fun vs => ∃ id, vs = [.string id ([] :: pieces)])
      (delivers_bind fun id => ?_) ?_ fun f => .inr ⟨f, rfl⟩
    · split
      · exact delivers_bind fun _ => delivers_pure ⟨id, rfl⟩
      · exact delivers_pure ⟨id, rfl⟩
    · rintro _ ⟨id, rfl⟩
      exact .inl ⟨id, rfl⟩
  · obtain ⟨id, rfl⟩ | ⟨f, rfl⟩ := hp
    · refine always_pure ?_
      obtain rfl | ⟨name, rfl⟩ | ⟨f, rfl⟩ := hcases
      · exact .inl (List.forall_mem_singleton.2 rfl)
      · exact .inr ⟨⟨[_, _], true⟩, rfl⟩
      · exact .inl (List.forall_mem_singleton.2 rfl)
    · exact always_pure (Produced.mute_ofFault f)

/-! Functions that run filters pass on what these give, and cannot fail. -/

theorem flows_each (body : Meaning) (env : Environment) (values : List Value) :
    Always (each body values env) Produced.Flows := by
  induction values with
  | nil => exact always_pure (Produced.flows_ofValues [])
  | cons v values ih => exact always_bind fun result => Produced.Flows.andThen ih result

theorem flows_forRounds (body : Meaning) (counted : List Value) (stream : Stream) :
    Always (forRounds body counted stream) Produced.Flows := by
  induction counted generalizing stream with
  | nil => exact always_pure (Produced.flows_ofValues [])
  | cons v counted ih => exact always_bind fun result => Produced.Flows.andThen (ih _) result

theorem flows_forEach (initial body : Meaning) (input : Stream) :
    Always (forEach initial body input) Produced.Flows := by
  refine always_bind fun start => (flows_forRounds body _ _).bind fun p hp => ?_
  obtain ⟨⟨values, closed⟩, rfl⟩ := hp
  cases closed with
  | false => exact always_pure ⟨⟨values, false⟩, rfl⟩
  | true =>
    refine always_pure ⟨⟨values, input.copy.closed⟩, ?_⟩
    cases input.copy.closed <;> simp [Produced.ofOutflow, Produced.ending, Produced.waiting, Produced.ofFault]

theorem flows_reduce (initial body : Meaning) (input : Stream) :
    Always (reduce initial body input) Produced.Flows := by
  refine always_bind fun start => always_bind fun last => always_pure ?_
  split
  · exact ⟨⟨last.values, last.closed⟩, rfl⟩
  · exact Produced.flows_waiting

/-! `explode` reports a value before it fails on it. -/

/-- An end may never come, but nothing else can go wrong. -/
theorem drain_outcome (id size : Nat) (s : Store) :
    (∃ n s', Gives s (drain id size) n s') ∨ ∃ s', Reading.Fails s (drain id size) .nothingWaiting s' := by
  have hprogress : Gives s (progress id) (s.get id) s := rfl
  by_cases hended : (s.get id).ended
  · exact .inl ⟨_, s, answers_drain hended size⟩
  · cases hend : (s.get id).end? size with
    | some e =>
      refine .inl ⟨e, s.put id ((s.get id).atEnd e), hprogress.bind ?_⟩
      rw [if_neg hended, hend]
      rfl
    | none =>
      refine .inr ⟨s.put id { s.get id with taken := size }, hprogress.bind_fails ?_⟩
      rw [if_neg hended, hend]
      rfl

theorem wholeText_outcome (id : Nat) (pieces : List Text) (s : Store) :
    (∃ t s', Gives s (wholeText id pieces) t s') ∨
      ∃ s', Reading.Fails s (wholeText id pieces) .nothingWaiting s' := by
  obtain ⟨n, s', h⟩ | ⟨s', h⟩ := drain_outcome id pieces.length s
  · exact .inl ⟨_, s', h.bind rfl⟩
  · exact .inr ⟨s', h.bind⟩

/-- Another value than a string is reported, and then it is an empty container or it fails. -/
theorem explode_other {v : Value} (h : v.kind ≠ .string) (values : List Value) :
    ∃ r : Reading (List Value), Delivers r (· = []) ∧ explode (v :: values) =
      (Produced.failure "type").andThen (do (← Produced.ofReading r).andThen (explode values)) := by
  cases v with
  | string => exact absurd rfl h
  | _ => exact ⟨_, delivers_bind fun _ => delivers_pure rfl, rfl⟩

/-- What `explode` reports is an exception. -/
theorem explode_reported (values : List Value) (s : Store) : ((explode values).run s).1.Reported := by
  induction values generalizing s with
  | nil =>
    refine ⟨[], rfl, ?_⟩
    rintro f ⟨⟩
  | cons v values ih =>
    by_cases hv : v.kind = .string
    · obtain ⟨id, pieces, rfl⟩ : ∃ id pieces, v = .string id pieces := by
        cases v with
        | string id pieces => exact ⟨id, pieces, rfl⟩
        | _ => cases hv
      rw [explode, run_andThen]
      obtain ⟨t, s', ht⟩ | ⟨s', ht⟩ := wholeText_outcome id pieces s
      · rw [show (wholeText id pieces).run.run s = (.ok t, s') from ht]
        exact (ih s').behind _
      · rw [show (wholeText id pieces).run.run s = (.error .nothingWaiting, s') from ht]
        exact ⟨_, rfl, fun f h hf => absurd (Option.some.inj h).symm hf⟩
    · obtain ⟨r, hr, hexplode⟩ := explode_other hv values
      rw [hexplode, Produced.run_failure_andThen]
      rcases hread : r.outcome.run s with ⟨e | us, s'⟩
      · rw [Produced.run_fails_andThen hread]
        exact ⟨[Value.failure "type"], rfl, fun _ _ _ => ⟨_, rfl, rfl⟩⟩
      · obtain rfl : us = [] := hr s us (congrArg Prod.fst hread)
        rw [Produced.run_gives_andThen hread]
        exact (ih s').behind [Value.failure "type"]

/-! `range` yields something for most values. -/

/-- What `range` yields for a value. -/
def below : Value → List Value
  | .number _ d => match d.isWhole? with
    | .ok true => (List.range d.toInt.toNat).map fun n => .ofNat n
    | _        => [.failure "integer"]
  | _ => [.failure "type"]

/-- The values that are read before a number that fails. -/
def decided (values : List Value) : List Value := values.takeWhile fun v => !v.isUndecided

section Below

variable {v : Value} (h : v.isUndecided = false)

include h

theorem below_eq_nil : below v = [] ↔ v.isWhole ∧ v.isIdle := by
  cases v with
  | number id d =>
    cases hd : d.isWhole? with
    | error e => simp [Value.isUndecided, hd] at h
    | ok whole => cases whole <;> simp [below, Value.isWhole, Value.isIdle, hd]
  | _ => simp [below, Value.isWhole]

theorem lastIsException_below : LastIsException (below v) ↔ v.isWhole = false := by
  cases v with
  | number id d =>
    cases hd : d.isWhole? with
    | error e => simp [Value.isUndecided, hd] at h
    | ok whole =>
      cases whole with
      | false =>
        simp [below, Value.isWhole, hd, LastIsException, Value.failure, Value.isException,
          Value.exception?]
      | true =>
        have hcalm : ∀ v ∈ below (.number id d), v.isException = false := by
          simp [below, hd, Value.ofNat, Value.isException, Value.exception?]
        simp [not_lastIsException hcalm, Value.isWhole, hd]
  | _ => simp [below, Value.isWhole, LastIsException, Value.failure, Value.isException, Value.exception?]

/-- The value is read without a fault. -/
theorem range_cons (values : List Value) (s : Store) : (range (v :: values)).run s =
    ({ ((range values).run s).1 with
      documents := (below v).map .value ++ ((range values).run s).1.documents },
      ((range values).run s).2) := by
  cases v with
  | number id d =>
    cases hd : d.isWhole? with
    | error e => simp [Value.isUndecided, hd] at h
    | ok whole =>
      have hwhole : Gives s (Combine.isWhole d) whole s := by
        rw [Combine.isWhole, hd]
        rfl
      rw [range]
      refine Produced.run_gives_andThen (hwhole.bind ?_) (range values)
      rw [below, hd]
      cases whole <;> rfl
  | _ =>
    have hfailure : Gives s (return [Value.failure "type"]) [Value.failure "type"] s := rfl
    exact Produced.run_gives_andThen hfailure (range values)

end Below

/-- A number too long for a decision is a fault. -/
theorem range_undecided {v : Value} (h : v.isUndecided = true) (values : List Value) (s : Store) :
    ∃ f, (range (v :: values)).run s = (.ofFault f, s) := by
  cases v with
  | number id d =>
    cases hd : d.isWhole? with
    | ok whole => simp [Value.isUndecided, hd] at h
    | error e =>
      have hfails : Reading.Fails s (Combine.isWhole d) (.arithmetic e) s := by
        rw [Combine.isWhole, hd]
        rfl
      rw [range]
      exact ⟨.arithmetic e, Produced.run_fails_andThen hfails.bind (range values)⟩
  | _ => cases h

theorem range_documents (values : List Value) (s : Store) :
    ((range values).run s).1.documents = ((decided values).flatMap below).map .value := by
  induction values generalizing s with
  | nil => rfl
  | cons v values ih =>
    cases h : v.isUndecided with
    | true =>
      obtain ⟨f, hrun⟩ := range_undecided h values s
      simp [hrun, decided, h, Produced.ofFault]
    | false =>
      rw [range_cons h, ih]
      simp [decided, h]

/-- An exception is the last that is yielded if no number above zero stands behind it. -/
theorem lastIsException_flatMap {values : List Value} (h : ∀ v ∈ values, v.isUndecided = false) :
    LastIsException (values.flatMap below) ↔ ∃ us v ws, values = us ++ v :: ws ∧ v.isWhole = false ∧
      ∀ w ∈ ws, w.isWhole ∧ w.isIdle := by
  induction values with
  | nil => simp [LastIsException]
  | cons v values ih =>
    obtain ⟨hv, hvalues⟩ := List.forall_mem_cons.1 h
    have hnil : values.flatMap below = [] ↔ ∀ w ∈ values, w.isWhole ∧ w.isIdle :=
      List.flatMap_eq_nil_iff.trans (forall₂_congr fun w hw => below_eq_nil (hvalues w hw))
    rw [List.flatMap_cons, lastIsException_append, ih hvalues, hnil, lastIsException_below hv]
    constructor
    · rintro (⟨us, x, ws, rfl, hx, hws⟩ | ⟨hidle, hv⟩)
      · exact ⟨v :: us, x, ws, rfl, hx, hws⟩
      · exact ⟨[], v, values, rfl, hv, hidle⟩
    · rintro ⟨_ | ⟨u, us⟩, x, ws, heq, hx, hws⟩
      · cases heq
        exact .inr ⟨hws, hx⟩
      · cases heq
        exact .inl ⟨us, x, ws, rfl, hx, hws⟩

/-! ### The registry -/

/-- Functions that may fail. -/
def failing : List (Text × Nat) :=
  [("argv", 0), ("argv", 1), ("explode", 0), ("implode", 0), ("nth", 1), ("range", 0)]

/-- A call that fails behind an exception: one of `explode`, or one of `range` that has taken a value that is
no whole number, and then no number above zero. -/
def Heard (call : Text × Nat) (values : List Value) : Prop :=
  call = (("explode" : Text), 0) ∨ call = (("range" : Text), 0) ∧ ∃ us v ws,
    decided values = us ++ v :: ws ∧ v.isWhole = false ∧ ∀ w ∈ ws, w.isWhole ∧ w.isIdle

theorem not_heard (h : call ∉ [(("explode" : Text), 0), (("range" : Text), 0)])
    (values : List Value) : ¬ Heard call values := by
  rintro (rfl | ⟨rfl, -⟩)
  · exact h List.mem_cons_self
  · exact h (List.mem_cons_of_mem _ List.mem_cons_self)

/-- The call may fail, and it is known whether that is heard. -/
def Told (call : Text × Nat) (g : Generator) : Prop :=
  ∀ input s vs f, FailsBehind (g input) s vs f →
    call ∈ failing ∧ (LastIsException vs ↔ Heard call input.values)

theorem told_flows {g : Generator} (hg : ∀ input, Always (g input) Produced.Flows) :
    Told call g := by
  intro input s vs f h
  exact absurd (hg input s) h.not_flows

theorem told_mute {g : Generator} (hcall : call ∈ failing)
    (hother : call ∉ [(("explode" : Text), 0), (("range" : Text), 0)])
    (hg : ∀ input, Always (g input) Produced.Mute) : Told call g := by
  intro input s vs f h
  exact ⟨hcall, iff_of_false (h.mute (hg input)) (not_heard hother _)⟩

theorem told_explode : Told ("explode", 0) fun input => explode input.values := by
  intro input s vs f h
  obtain ⟨ws, hws, hlast⟩ := explode_reported input.values s
  obtain ⟨rfl, hfault⟩ := h.eq hws
  exact ⟨by decide, iff_of_true (hlast f hfault h.2) (.inl rfl)⟩

theorem told_range : Told ("range", 0) fun input => range input.values := by
  intro input s vs f h
  obtain ⟨rfl, -⟩ := h.eq (range_documents input.values s)
  have hdecided : ∀ v ∈ decided input.values, v.isUndecided = false := by
    intro v hv
    simpa using List.all_eq_true.1 List.all_takeWhile v hv
  rw [lastIsException_flatMap hdecided]
  refine ⟨by decide, fun hlast => .inr ⟨rfl, hlast⟩, ?_⟩
  rintro (hname | ⟨-, hlast⟩)
  · exact absurd hname (by decide)
  · exact hlast

/-- With the arguments that the function takes, it is known whether a failure is heard. -/
def Tells (name : Text) (entry : Option Int × Builtin) : Prop :=
  ∀ args : List Meaning, entry.1 = none ∨ entry.1 = some (args.length : Int) →
    Told (name, args.length) (entry.2.generate args)

theorem tells_plain {g : Generator} (h : Told (name, 0) g) : Tells name (plain own g) := by
  intro args hcount
  obtain rfl := plain_args hcount
  exact h

theorem tells_unary {g : Meaning → Generator}
    (h : ∀ a, Told (name, 1) (g a)) : Tells name (unary own g) := by
  intro args hcount
  obtain ⟨a, rfl⟩ := unary_args hcount
  exact h a

theorem tells_binary {g : Meaning → Meaning → Generator}
    (h : ∀ a b, Told (name, 2) (g a b)) : Tells name (binary own g) := by
  intro args hcount
  obtain ⟨a, b, rfl⟩ := binary_args hcount
  exact h a b

theorem told_constant (v : Value) : Told call (constant v) :=
  told_flows fun _ => always_pure (Produced.flows_ofValues [v])

theorem told_isMain : Told call isMain := by
  refine told_flows fun input => always_pure ?_
  split
  · exact Produced.flows_waiting
  · exact Produced.flows_ofValues _

/-- Every function tells by its kind whether it can fail. -/
theorem registry_tells : ∀ functions ∈ registry, ∀ entry ∈ functions.2, Tells functions.1 entry := by
  simp only [registry, List.forall_mem_cons, List.not_mem_nil, false_implies, implies_true, and_true]
  exact ⟨⟨tells_plain (told_mute (by decide) (by decide) mute_argv),
      tells_unary fun a => told_mute (by decide) (by decide) (mute_argvAt a)⟩,
    tells_unary fun a => told_flows fun input => flows_each a _ _,
    tells_plain (told_flows fun _ => always_pure (Produced.flows_ofValues [])),
    tells_plain told_explode,
    tells_plain (told_constant _),
    tells_plain told_isMain,
    tells_binary fun a b => told_flows (flows_forEach a b),
    tells_plain (told_mute (by decide) (by decide) mute_implode),
    tells_unary fun a => told_mute (by decide) (by decide) (mute_nth a),
    tells_plain (told_constant _),
    tells_plain told_range,
    tells_binary fun a b => told_flows (flows_reduce a b),
    tells_plain (told_constant _)⟩

end Builtin

/-! ### Calls -/

section Calls

variable {g : Generator} {input : Stream} {s : Store} {vs : List Value} {f : Fault}
  (hcalm : ∀ v ∈ input.values, v.isException = false) (h : FailsBehind (g input.forwarded) s vs f)

include hcalm h

/-- A function that fails gives what it has yielded. -/
theorem outputs_ofBuiltin : ((Program.ofBuiltin g input).run s).1.outputs = vs := by
  have hvs : ((made (g input.forwarded)).run s).1.1 = vs := congrArg Prod.fst h.1
  rw [← hvs, Program.ofBuiltin]
  simp only [splitAtException_calm hcalm]
  rfl

/-- A filter that fails ends with an exception. -/
theorem ofGenerator_fails : LastIsException ((Program.ofGenerator g input).run s).1.outputs := by
  have houtputs : ((Program.ofGenerator g input).run s).1.outputs =
      let result := ((made (g input.forwarded)).run s).1
      cutAtException (result.1 ++ (result.2.bind Fault.exception?).toList) := by
    rw [Program.ofGenerator]
    simp only [splitAtException_calm hcalm]
    rfl
  have hexception : f.exception? = some f.toException := by
    have hwaits : f.waits = false := by
      cases f with
      | nothingWaiting => exact absurd rfl h.2
      | _ => rfl
    rw [Fault.exception?, hwaits]
    rfl
  rw [houtputs, h.1]
  refine lastIsException_cut ⟨f.toException, ?_, rfl⟩
  dsimp only
  rw [Option.bind_some, hexception]
  exact List.mem_append_right vs List.mem_cons_self

end Calls

/-- **Whether a function that fails is heard**: only a few can fail at all, and an exception stands at the end
of the outputs exactly if the call is `Heard`.  A filter that is given by the same generator always ends with
one. -/
theorem call_fails {name : Text} {args : List Meaning} {b : Builtin}
    (hb : Builtin.registry.find? name args.length = some b) (missing : Value) {input : Stream}
    (hcalm : ∀ v ∈ input.values, v.isException = false) (hcontext : input.env.withheld.context = false)
    {s : Store} {vs : List Value} {f : Fault} (h : FailsBehind (b.generate args input.forwarded) s vs f) :
    (name, args.length) ∈ Builtin.failing ∧
      (LastIsException ((Program.call name args missing input).run s).1.outputs ↔
        Builtin.Heard (name, args.length) input.values) ∧
      LastIsException ((Program.ofGenerator (b.generate args) input).run s).1.outputs := by
  obtain ⟨count, hcount, htells⟩ := Builtin.find?_entry Builtin.registry_tells hb
  obtain ⟨hfailing, hheard⟩ := htells args hcount _ s vs f h
  have hcall : ((Program.call name args missing input).run s).1.outputs = vs := by
    rw [Program.call, hcontext, hb]
    exact outputs_ofBuiltin hcalm h
  rw [hcall]
  exact ⟨hfailing, hheard, ofGenerator_fails hcalm h⟩

/-- A value that is no number, a number that there is nothing below, and then a number too large to tell. -/
theorem call_fails_range :
    let values : List Value := [.null, .number 0 (.finite false 0 0), .number 1 (.infinite false)]
    LastIsException ((Program.call "range" [] .null { values }).run {}).1.outputs := by
  intro values
  have hfails : FailsBehind ((Builtin.plain "range" fun input => Builtin.range input.values).2.generate []
      { values }) {} [Value.failure "type"] (.arithmetic .invalidOperation) := by
    refine ⟨rfl, ?_⟩
    rintro ⟨⟩
  have hcalm : ∀ v ∈ values, v.isException = false := by decide
  refine (call_fails rfl .null hcalm rfl hfails).2.1.2 (.inr ⟨rfl, [], .null, _, rfl, rfl, ?_⟩)
  decide

/-- A failure that nobody hears. -/
theorem range_silent : (∃ f, FailsBehind (Builtin.range [.number 0 (.infinite false)]) {} [] f) ∧
    ((Program.call "range" [] .null { values := [.number 0 (.infinite false)] }).run {}).1.outputs = [] := by
  refine ⟨⟨.arithmetic .invalidOperation, rfl, ?_⟩, rfl⟩
  rintro ⟨⟩

end FilterShell
