import FilterShell.Eval.Run
import FilterShell.Proofs.Value.Answers
import FilterShell.Proofs.Value.Results

/-!
# Outputs

What a filter writes is an `Outflow`: values one after the other, and whether their end comes.  What a
generator yields flows out as far as the first exception, a fault as the exception that it becomes.  `Yields`
says what is yielded, and `Ends` that nothing stands behind an exception.
-/

namespace FilterShell

variable {input : Stream} {s s' : Store} {first o : Outflow} {vs : List Value}
  {g : StateM Store Produced}

/-- What a filter gives on an input. -/
def Filter.outputs (f : Filter) (input : Stream) (s : Store) : List Value :=
  ((f.run input).run s).1.outputs

/-- Values one after the other, and whether their end comes. -/
structure Outflow where
  values : List Value
  closed : Bool := true

namespace Outflow

/-- What comes second is not reached if the first does not end. -/
def andThen (first second : Outflow) : Outflow :=
  if first.closed then ⟨first.values ++ second.values, second.closed⟩ else first

/-- As far as the first exception, which is an end. -/
def cut (o : Outflow) : Outflow :=
  ⟨cutAtException o.values, o.closed || o.values.any Value.isException⟩

theorem andThen_open (h : first.closed = false) (second : Outflow) :
    first.andThen second = first := if_neg (by simp [h])

/-- Nothing behind an outflow changes nothing. -/
theorem andThen_nil (o : Outflow) : o.andThen ⟨[], true⟩ = o := by
  obtain ⟨values, closed⟩ := o
  cases closed <;> simp [andThen]

theorem andThen_assoc (a b c : Outflow) : (a.andThen b).andThen c = a.andThen (b.andThen c) := by
  obtain ⟨us, closed⟩ := a
  obtain ⟨vs, closed'⟩ := b
  cases closed <;> cases closed' <;> simp [andThen]

end Outflow

/-- What a run writes. -/
def Run.outflow (r : Run) : Outflow := ⟨r.outputs, r.closed⟩

def Filter.outflow (f : Filter) (input : Stream) (s : Store) : Outflow := ((f.run input).run s).1.outflow

/-- The run that writes `o`, reads all of its input and passes the environment on. -/
def Stream.readInto (input : Stream) (o : Outflow) : Run :=
  { outputs := o.values, env := input.env, rest := input.read, closed := o.closed }

/-- What comes of an outcome: a fault is the exception that it becomes, or a wait without an end. -/
def Fault.outflow (f : Fault) : Outflow := ⟨f.exception?.toList, !f.waits⟩

/-- What is yielded, a fault as what comes of it. -/
def Yields (g : StateM Store Produced) (s : Store) (o : Outflow) : Prop :=
  ∃ made fault, (g.run s).1 = { documents := made.map .value, fault } ∧
    o = Outflow.andThen ⟨made, true⟩ (fault.elim ⟨[], true⟩ Fault.outflow)

theorem Yields.unique {o' : Outflow} (h : Yields g s o) (h' : Yields g s o') : o = o' := by
  obtain ⟨made, fault, hrun, rfl⟩ := h
  obtain ⟨made', fault', hrun', rfl⟩ := h'
  have hsame := hrun.symm.trans hrun'
  obtain ⟨hdocuments, rfl⟩ := Produced.mk.inj hsame
  have hinj : Function.Injective Json.Document.value := fun _ _ => Json.Document.value.inj
  rw [List.map_injective_iff.2 hinj hdocuments]

/-- Only what a run gives counts. -/
theorem Yields.of_run {g' : StateM Store Produced}
    (hrun : g.run s = g'.run s') (h : Yields g' s' o) : Yields g s o := by
  rwa [Yields, hrun]

theorem yields_ofValues (vs : List Value) (s : Store) : Yields (return .ofValues vs) s ⟨vs, true⟩ :=
  ⟨vs, none, rfl, (Outflow.andThen_nil _).symm⟩

theorem yields_ofFault (f : Fault) (s : Store) : Yields (return .ofFault f) s f.outflow :=
  ⟨[], some f, rfl, rfl⟩

theorem yields_waiting (s : Store) : Yields (return .waiting) s ⟨[], false⟩ := yields_ofFault _ s

/-- An outflow, as it comes. -/
def Produced.ofOutflow (o : Outflow) : Produced := { ending o.closed with documents := o.values.map .value }

theorem yields_ofOutflow (o : Outflow) (s : Store) : Yields (return .ofOutflow o) s o := by
  obtain ⟨values, closed⟩ := o
  cases closed with
  | true => exact yields_ofValues values s
  | false => exact ⟨values, some .nothingWaiting, rfl, by simp [Outflow.andThen, Fault.outflow,
      Fault.exception?, Fault.waits]⟩

/-- Outputs are yielded as they come. -/
theorem yields_ofRun (r : Run) (s : Store) : Yields (return .ofRun r) s r.outflow :=
  yields_ofOutflow r.outflow s

/-- What comes after a computation, from the store that it leaves. -/
theorem yields_bind {α : Type} {x : StateM Store α} {g : α → StateM Store Produced} : Yields (x >>= g) s o ↔ Yields (g (x.run s).1) (x.run s).2 o := Iff.rfl

/-- Outputs of a filter, and then what comes behind them, if they end. -/
theorem Yields.andThen (h : Yields g s o) (r : Run) :
    Yields ((Produced.ofRun r).andThen g) s (r.outflow.andThen o) := by
  obtain ⟨outputs, env, rest, closed⟩ := r
  cases closed with
  | false =>
    rw [Outflow.andThen_open rfl]
    exact yields_ofRun _ s
  | true =>
    obtain ⟨made, fault, hrun, rfl⟩ := h
    refine ⟨outputs ++ made, fault, ?_, ?_⟩
    · have hboth : (((Produced.ofRun ⟨outputs, env, rest, true⟩).andThen g).run s).1 =
          { (g.run s).1 with documents := outputs.map .value ++ (g.run s).1.documents } := rfl
      rw [hboth, hrun, List.map_append]
    · simp [Outflow.andThen, Run.outflow]

/-- Values, and then what comes behind them. -/
theorem Yields.behind (h : Yields g s o)
    (first : List Value) : Yields ((Produced.ofValues first).andThen g) s (.andThen ⟨first, true⟩ o) :=
  h.andThen { outputs := first, env := {}, rest := {} }

/-- What a run writes, and then what is yielded behind it. -/
theorem Produced.run_ofRun_andThen {r : Run} (h : (g.run s).1 = .ofOutflow o) :
    (((Produced.ofRun r).andThen g).run s).1 = .ofOutflow (r.outflow.andThen o) := by
  obtain ⟨outputs, env, rest, closed⟩ := r
  cases closed with
  | false => rfl
  | true =>
    have hboth : (((Produced.ofRun ⟨outputs, env, rest, true⟩).andThen g).run s).1 =
        { (g.run s).1 with documents := outputs.map .value ++ (g.run s).1.documents } := rfl
    rw [hboth, h]
    simp [Produced.ofOutflow, Outflow.andThen, Run.outflow]

/-! ### Exceptions -/

theorem splitAtException_calm (h : ∀ v ∈ vs, v.isException = false) :
    splitAtException vs = (vs, none) := by
  induction vs with
  | nil => rfl
  | cons v vs ih =>
    obtain ⟨hv, hvs⟩ := List.forall_mem_cons.1 h
    rw [splitAtException, ih hvs, hv]
    rfl

theorem splitAtException_behind {before after : List Value} {e : Value}
    (h : splitAtException vs = (before, some (e, after))) : after ⊆ vs := by
  induction vs generalizing before with
  | nil => cases h
  | cons v vs ih =>
    rw [splitAtException] at h
    split at h
    · cases h
      exact List.subset_cons_self _ _
    · rcases hsplit : splitAtException vs with ⟨front, found⟩
      rw [hsplit] at h
      cases h
      exact List.Subset.trans (ih hsplit) (List.subset_cons_self v vs)

theorem cutAtException_calm (h : ∀ v ∈ vs, v.isException = false)
    (more : List Value) : cutAtException (vs ++ more) = vs ++ cutAtException more := by
  induction vs with
  | nil => rfl
  | cons v vs ih =>
    obtain ⟨hv, hvs⟩ := List.forall_mem_cons.1 h
    rw [List.cons_append, cutAtException, hv, ih hvs]
    rfl

theorem cutAtException_eq_self (h : ∀ v ∈ vs, v.isException = false) : cutAtException vs = vs := by
  have hself := cutAtException_calm h []
  rwa [List.append_nil, cutAtException, List.append_nil] at hself

/-- Behind an exception nothing counts. -/
theorem cutAtException_stops (h : ∃ v ∈ vs, v.isException = true)
    (more : List Value) : cutAtException (vs ++ more) = cutAtException vs := by
  induction vs with
  | nil =>
    obtain ⟨v, hv, -⟩ := h
    cases hv
  | cons v vs ih =>
    rw [List.cons_append, cutAtException, cutAtException]
    cases hv : v.isException with
    | true => rfl
    | false =>
      have hrest : ∃ w ∈ vs, w.isException = true := by simpa [hv] using h
      rw [ih hrest]

theorem cutAtException_eq_nil : cutAtException vs = [] ↔ vs = [] := by
  cases vs with
  | nil => simp [cutAtException]
  | cons v vs =>
    rw [cutAtException]
    split <;> simp

/-- More values count unless there is an exception in front of them. -/
theorem cutAtException_append_eq {more : List Value} :
    cutAtException (vs ++ more) = cutAtException vs ↔
      (∃ v ∈ vs, v.isException = true) ∨ more = [] := by
  by_cases hex : ∃ v ∈ vs, v.isException = true
  · simp [cutAtException_stops hex, hex]
  · have hcalm : ∀ v ∈ vs, v.isException = false := by simpa using hex
    rw [cutAtException_calm hcalm, cutAtException_eq_self hcalm, List.append_right_eq_self,
      cutAtException_eq_nil]
    simp [hex]

/-- What comes behind an outflow counts unless there is an exception in front of it, or a wait without an
end. -/
theorem Outflow.cut_andThen_eq {second : Outflow} : (first.andThen second).cut = first.cut ↔
      (∃ v ∈ first.values, v.isException = true) ∨ first.closed = false ∨ second = ⟨[], true⟩ := by
  obtain ⟨vs, closed⟩ := first
  obtain ⟨more, closed'⟩ := second
  cases closed with
  | false => simp [andThen]
  | true =>
    simp only [andThen, cut, if_true, mk.injEq, cutAtException_append_eq]
    by_cases hex : ∃ v ∈ vs, v.isException = true
    · simp [hex]
    · simp only [hex, false_or, Bool.true_eq_false]
      refine and_congr_right ?_
      rintro rfl
      have hnone : vs.any Value.isException = false := by simpa using hex
      simp [hnone]

/-- Nothing stands behind an exception. -/
def Ends (vs : List Value) : Prop := vs.Pairwise fun v _ => v.isException = false

instance decidableEnds (vs : List Value) : Decidable (Ends vs) := inferInstanceAs (Decidable (List.Pairwise _ vs))

theorem ends_singleton (v : Value) : Ends [v] := List.pairwise_singleton _ _

theorem ends_of_calm (h : ∀ v ∈ vs, v.isException = false) : Ends vs :=
  List.pairwise_of_forall_mem_list fun v hv _ _ => h v hv

theorem ends_concat (h : ∀ v ∈ vs, v.isException = false) (e : Value) : Ends (vs ++ [e]) :=
  List.pairwise_append.2 ⟨ends_of_calm h, ends_singleton e, fun v hv _ _ => h v hv⟩

theorem ends_cut (vs : List Value) : Ends (cutAtException vs) := by
  induction vs with
  | nil => exact .nil
  | cons v vs ih =>
    rw [cutAtException]
    split
    · exact ends_singleton v
    · rename_i hv
      exact List.pairwise_cons.2 ⟨fun _ _ => by simpa using hv, ih⟩

/-! ### Generators -/

theorem values_made (vs : List Value) (s : Store) :
    (Produced.values (vs.map .value)).run s = ((vs, none), s) := by
  induction vs with
  | nil => rfl
  | cons v vs ih =>
    have hstep : (Produced.values ((v :: vs).map .value)).run s =
        ((v :: ((Produced.values (vs.map .value)).run s).1.1,
          ((Produced.values (vs.map .value)).run s).1.2),
          ((Produced.values (vs.map .value)).run s).2) := rfl
    rw [hstep, ih]

/-- What comes of a generator that yields values, on an input without exceptions. -/
theorem run_ofGenerator {g : Generator} {made : List Value}
    {fault : Option Fault} (hcalm : ∀ v ∈ input.values, v.isException = false)
    (h : (g input.forwarded).run s = ({ documents := made.map .value, fault }, s')) :
    (Program.ofGenerator g input).run s =
      let outputs := cutAtException (made ++ (fault.bind Fault.exception?).toList)
      let threw := !made.any Value.isException && fault.any (!·.waits)
      ({ outputs, env := if threw then input.env.filled else input.env, rest := input.read
         closed := threw || input.isComplete && (fault.isNone || outputs.any Value.isException) }, s') := by
  have hread : (Produced.values (made.map .value)).run s' = ((made, none), s') := values_made made s'
  have hforwarded : { input.forwarded with values := input.values } = input.forwarded := rfl
  rw [Program.ofGenerator]
  simp only [splitAtException_calm hcalm, run_andThen, hforwarded, h, hread]
  rfl

theorem any_cutAtException (vs : List Value) :
    (cutAtException vs).any Value.isException = vs.any Value.isException := by
  induction vs with
  | nil => rfl
  | cons v vs ih => cases hv : v.isException <;> simp [cutAtException, hv, ih]

/-- An environment of which everything comes has nothing to be filled in. -/
theorem Environment.filled_complete {env : Environment} (h : env.isComplete = true) : env.filled = env := by
  have hwithheld : env.withheld = {} := by simpa [isComplete] using h
  rw [filled, ← hwithheld]

theorem Stream.copy_live (h : input.drained = false) : input.copy = input := if_neg (by simp [h])

/-- Whatever was read of one part of a split stream is still there in the others. -/
theorem Stream.next_live (h : input.drained = false) (rest : Stream) :
    input.next rest = input := if_neg (by simp [h])

theorem Stream.isComplete_iff :
    input.isComplete = true ↔ input.closed = true ∧ input.env.isComplete = true := by
  simp [isComplete]

/-- **What a generator yields flows out**, up to the first exception, if there is none in the input. -/
theorem Yields.run {g : Generator}
    (hcalm : ∀ v ∈ input.values, v.isException = false) (hcomplete : input.isComplete = true)
    (h : Yields (g input.forwarded) s o) :
    (Program.ofGenerator g input).run s = (input.readInto o.cut, ((g input.forwarded).run s).2) := by
  obtain ⟨made, fault, hmade, rfl⟩ := h
  have hrun : (g input.forwarded).run s =
      ({ documents := made.map .value, fault }, ((g input.forwarded).run s).2) := Prod.ext hmade rfl
  have henv := Environment.filled_complete (Stream.isComplete_iff.1 hcomplete).2
  rw [run_ofGenerator hcalm hrun, hcomplete, henv]
  cases fault with
  | none => simp [Stream.readInto, Outflow.cut, Outflow.andThen]
  | some f =>
    cases hf : f.waits with
    | true => simp [Stream.readInto, Outflow.cut, Outflow.andThen, Fault.outflow, Fault.exception?, hf,
        any_cutAtException]
    | false =>
      have hexception : f.toException.isException = true := rfl
      simp [Stream.readInto, Outflow.cut, Outflow.andThen, Fault.outflow, Fault.exception?, hf,
        any_cutAtException, hexception]

/-- A built-in function that yields values, on an input without exceptions. -/
theorem Program.run_ofBuiltin {g : Generator} {made : List Value}
    {fault : Option Fault} (hcalm : ∀ v ∈ input.values, v.isException = false)
    (h : (g input.forwarded).run s = ({ documents := made.map .value, fault }, s')) :
    (ofBuiltin g input).run s =
      ({ outputs := made, env := input.env, rest := input.read
         closed  := input.isComplete && !fault.any Fault.waits }, s') := by
  have hread : (Produced.values (made.map .value)).run s' = ((made, none), s') := values_made made s'
  have hstart : (get : StateM Store Store).run s = (s, s) := rfl
  have hforwarded : { input.forwarded with values := input.values, closed := false || input.closed } =
      input.forwarded := rfl
  simp only [ofBuiltin, splitAtException_calm hcalm, run_andThen, hstart, Option.isSome_none, hforwarded, h,
    hread]
  rfl

end FilterShell
