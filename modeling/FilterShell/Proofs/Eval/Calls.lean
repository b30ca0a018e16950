import FilterShell.Proofs.Eval.Outputs
import FilterShell.Proofs.Json.Calm

/-!
# What functions and commands yield

The program of a function or a command passes on all that is yielded, so its generator itself has to stop at
an exception.  Commands do, as they read JSON (`Command.ends_run`), and so do most functions
(`registry_stops`).  The others run a filter again and again, or go on behind a value that does not fit; the
calls that are `Orderly` give nothing behind an exception even so.
-/

namespace FilterShell

variable {name : Text} {body : Meaning} {s : Store}
  {g : StateM Store Produced} {r : Reading (List Value)}

/-- Nothing is yielded behind an exception. -/
def Produced.Ends (p : Produced) : Prop :=
  p.documents.Pairwise fun d _ => d.isException = false

namespace Produced

theorem ends_ofValues {vs : List Value} (h : FilterShell.Ends vs) : (ofValues vs).Ends :=
  List.pairwise_map.2 h

theorem always_ofReading {P : List Value → Prop} {Q : Produced → Prop}
    (h : Delivers r P) (hvalues : ∀ vs, P vs → Q (ofValues vs)) (hfault : ∀ f, Q (ofFault f)) :
    Always (ofReading r) Q := by
  refine Always.bind h fun result hresult => ?_
  split
  · exact always_pure (hvalues _ (hresult _ rfl))
  · exact always_pure (hfault _)

theorem ends_ofReading (h : Delivers r FilterShell.Ends) : Always (ofReading r) Ends :=
  always_ofReading h (fun _ => ends_ofValues) fun _ => .nil

theorem calm_ofReading (h : Delivers r fun vs => ∀ v ∈ vs, v.isException = false) :
    Always (ofReading r) fun p => ∀ d ∈ p.documents, d.isException = false :=
  always_ofReading h (fun _ hvs => List.forall_mem_map.2 hvs) (by simp [ofFault])

theorem silent_ofReading (h : Delivers r fun vs => vs = []) :
    Always (ofReading r) fun p => p.documents = [] :=
  always_ofReading h (by simp [ofValues]) fun _ => rfl

/-- What comes behind may be silent. -/
theorem documents_andThen (p : Produced) (hg : Always g fun q => q.documents = []) :
    Always (p.andThen g) fun q => q.documents = p.documents := by
  unfold andThen
  split
  · exact always_pure rfl
  · refine hg.bind fun q hq => always_pure ?_
    simp [hq]

theorem ends_andThen {p : Produced} (h : p.Ends)
    (hg : Always g fun q => q.documents = []) : Always (p.andThen g) Ends := by
  intro s
  rw [Ends, documents_andThen p hg s]
  exact h

/-- There may be exceptions in what comes behind, if there are none in front of it. -/
theorem ends_calm_andThen {p : Produced} (h : ∀ d ∈ p.documents, d.isException = false)
    (hg : Always g Ends) : Always (p.andThen g) Ends := by
  have hp : p.Ends := List.pairwise_of_forall_mem_list fun d hd _ _ => h d hd
  unfold andThen
  split
  · exact always_pure hp
  · refine hg.bind fun q hq => always_pure ?_
    exact List.pairwise_append.2 ⟨hp, hq, fun d hd _ _ => h d hd⟩

/-- Making the values keeps the exceptions where they are. -/
theorem ends_values {ds : List Json.Document} (h : ds.Pairwise fun d _ => d.isException = false) :
    Always (values ds) fun r => FilterShell.Ends r.1 := by
  induction ds with
  | nil => exact always_pure .nil
  | cons d ds ih =>
    obtain ⟨hd, hds⟩ := List.pairwise_cons.1 h
    refine Always.bind d.delivers_toValue fun result hresult => ?_
    split
    · exact always_pure .nil
    · rename_i v
      have hv : v.isException = d.isException := hresult v rfl
      cases ds with
      | nil => exact always_pure (List.pairwise_singleton _ _)
      | cons d' ds =>
        refine (ih hds).bind fun made hmade => ?_
        obtain ⟨vs, f⟩ := made
        refine always_pure (List.pairwise_cons.2 ⟨fun _ _ => ?_, hmade⟩)
        rw [hv, hd d' List.mem_cons_self]

end Produced

/-! ### Commands -/

namespace Command

/-- Reading JSON stops at the first error. -/
theorem ends_documentsOf (octets : List Nat) : Always (documentsOf octets) Produced.Ends := by
  unfold documentsOf
  dsimp only
  split
  · exact always_pure (List.pairwise_singleton _ _)
  · rename_i t _
    refine (Json.documents_calm t).bind fun ds hds => ?_
    have hcalm : ds.documents.Pairwise fun d _ => d.isException = false :=
      List.pairwise_of_forall_mem_list fun d hd _ _ => hds d hd
    split
    · exact always_pure hcalm
    · split
      · refine always_pure (List.pairwise_append.2 ⟨hcalm, List.pairwise_singleton _ _, ?_⟩)
        exact fun d hd _ _ => hds d hd
      · split
        · exact always_pure hcalm
        · exact always_pure hcalm

/-- Whatever the system is, nothing is yielded behind an exception. -/
theorem ends_run (name : Text) (args : List Text) (input : Stream) :
    Always (run name args input) Produced.Ends := by
  refine always_bind fun store => ?_
  split
  · exact always_pure (List.pairwise_singleton _ _)
  · exact always_pure (List.pairwise_singleton _ _)
  · exact always_pure .nil
  · refine always_bind fun written => always_bind fun _ => ?_
    split
    · exact always_pure .nil
    · exact always_pure .nil
    · split
      · exact always_pure .nil
      · exact ends_documentsOf _

end Command

/-! ### Functions -/

def Value.isContainer : Value → Bool
  | .array .. | .object .. => true
  | _                      => false

/-- A number that is not known to have a fraction. -/
def Value.isWhole : Value → Bool
  | .number _ d =>
    match d.isWhole? with
    | .ok b    => b
    | .error _ => true
  | _ => false

theorem delivers_isWhole {id : Nat} {d : Decimal} (h : (Value.number id d).isWhole) :
    Delivers (Combine.isWhole d) fun b => b = true := by
  unfold Combine.isWhole
  split
  · rename_i b hb
    have hwhole : b = true := by simpa [Value.isWhole, hb] using h
    exact delivers_pure hwhole
  · exact delivers_throw

namespace Builtin

theorem ends_argv (input : Stream) : Always (argv input) Produced.Ends := by
  refine always_pure ?_
  split
  · exact .nil
  · exact List.pairwise_map.2 (List.pairwise_of_forall_mem_list fun _ _ _ _ => rfl)

theorem ends_isMain (input : Stream) : Always (isMain input) Produced.Ends := by
  refine always_pure ?_
  split
  · exact .nil
  · exact List.pairwise_singleton _ _

theorem ends_argvAt (index : Meaning) (input : Stream) : Always (argvAt index input) Produced.Ends := by
  refine always_bind fun result => Produced.ends_ofReading ?_
  refine delivers_bind fun k => ?_
  split
  · exact delivers_pure (List.pairwise_singleton _ _)
  · split
    · exact delivers_throw
    · split
      · exact delivers_bind fun _ => delivers_pure (List.pairwise_singleton _ _)
      · exact delivers_pure (List.pairwise_singleton _ _)

theorem ends_nth (index : Meaning) (input : Stream) : Always (nth index input) Produced.Ends := by
  refine always_bind fun result => Produced.ends_ofReading ?_
  refine delivers_bind fun k => ?_
  split
  · exact delivers_pure (List.pairwise_singleton _ _)
  · split
    · exact delivers_pure (List.pairwise_singleton _ _)
    · split
      · exact delivers_throw
      · exact delivers_pure (List.pairwise_singleton _ _)

theorem ends_implode (input : Stream) : Always (implode input) Produced.Ends := by
  have hbehind : (implodedPieces input.closed input.values).2.Ends := by
    obtain h | ⟨name, h⟩ | ⟨f, h⟩ := implodedPieces_cases input.closed input.values <;> rw [h]
    · exact .nil
    · exact List.pairwise_singleton _ _
    · exact .nil
  have hone : ∀ id pieces, ∀ v ∈ [Value.string id pieces], v.isException = false :=
    fun _ _ => List.forall_mem_singleton.2 rfl
  refine Always.bind (Produced.calm_ofReading (delivers_bind fun id => ?_)) fun p hp =>
    Produced.ends_calm_andThen hp (always_pure hbehind)
  split
  · exact delivers_bind fun _ => delivers_pure (hone _ _)
  · exact delivers_pure (hone _ _)

/-! Functions that run a filter again and again give what each run gives. -/

/-- Groups of values, one after the other: nothing stands behind an exception in its own group, nor in a later
one. -/
def GroupsEnd (groups : List (List Value)) : Prop :=
  (∀ g ∈ groups, FilterShell.Ends g) ∧
    groups.Pairwise fun g h => h ≠ [] → ∀ v ∈ g, v.isException = false

instance decidableGroupsEnd (groups : List (List Value)) : Decidable (GroupsEnd groups) :=
  inferInstanceAs (Decidable (_ ∧ _))

/-- Groups end as their values do. -/
theorem groupsEnd_iff {groups : List (List Value)} :
    GroupsEnd groups ↔ FilterShell.Ends groups.flatten := by
  rw [FilterShell.Ends, List.pairwise_flatten, GroupsEnd]
  refine and_congr_right fun _ => ⟨fun h => h.imp ?_, fun h => h.imp ?_⟩
  · exact fun hgroup v hv w hw => hgroup (List.ne_nil_of_mem hw) v hv
  · intro g h hgroup hne v hv
    obtain ⟨w, hw⟩ := List.exists_mem_of_ne_nil h hne
    exact hgroup v hv w hw

/-- What a filter gives on each value alone; behind a run that does not end there are no more. -/
def eachOutputs (body : Meaning) (env : Environment) : List Value → Store → List (List Value)
  | [], _     => []
  | v :: r, s =>
    let result := (body.run { values := [v], env }).run s
    result.1.outputs :: if result.1.closed then eachOutputs body env r result.2 else []

/-- What the rounds of `for` give, each on what the one before it gives. -/
def forOutputs (body : Meaning) : List Value → Stream → Store → List (List Value)
  | [], _, _          => []
  | _ :: r, stream, s =>
    let result := (body.run stream).run s
    result.1.outputs :: if result.1.closed then forOutputs body r result.1.stream result.2 else []

/-- A call that gives nothing behind an exception.  Unless they are the last value, `explode` finds no array or
object, and `range` only numbers without a fraction.  Functions that run a filter again and again give
nothing behind an exception of one of the runs. -/
structure Orderly (name : Text) (args : List Meaning) (input : Stream) (s : Store) : Prop where
  explode : name = "explode" → args = [] → input.values.Pairwise fun v _ => v.isContainer = false
  range : name = "range" → args = [] → input.values.Pairwise fun v _ => v.isWhole
  each : ∀ body, name = "each" → args = [body] →
    GroupsEnd (eachOutputs body input.env input.values s)
  forEach : ∀ initial body, name = "for" → args = [initial, body] →
    let start := (initial.run input.split.2).run s
    GroupsEnd (forOutputs body input.split.1.values start.1.stream start.2)
  reduce : ∀ initial body, name = "reduce" → args = [initial, body] →
    let start := (initial.run input.split.2).run s
    FilterShell.Ends ((reduceRounds body input.split.1.values start.1.stream).run start.2).1.values

/-- What a run gives, and then what else is yielded. -/
theorem documents_ofRun_andThen (r : Run) (g : StateM Store Produced) (s : Store) {vs : List Value}
    (hg : (g.run s).1.documents = vs.map .value) :
    (((Produced.ofRun r).andThen g).run s).1.documents =
      (r.outputs ++ if r.closed then vs else []).map .value := by
  obtain ⟨outputs, env, rest, closed⟩ := r
  cases closed with
  | false =>
    have hfirst : (((Produced.ofRun ⟨outputs, env, rest, false⟩).andThen g).run s).1.documents =
        outputs.map .value := rfl
    rw [hfirst]
    simp
  | true =>
    have hboth : (((Produced.ofRun ⟨outputs, env, rest, true⟩).andThen g).run s).1.documents =
        outputs.map .value ++ (g.run s).1.documents := rfl
    rw [hboth, hg]
    simp

theorem documents_each (body : Meaning) (env : Environment) (values : List Value) (s : Store) :
    ((each body values env).run s).1.documents =
      (eachOutputs body env values s).flatten.map .value := by
  induction values generalizing s with
  | nil => rfl
  | cons v values ih =>
    rw [each, run_andThen, documents_ofRun_andThen _ _ _ (ih _), eachOutputs]
    split <;> simp

/-- The rounds of `for` give groups of outputs. -/
theorem documents_forRounds (body : Meaning) (counted : List Value) (stream : Stream) (s : Store) :
    ((forRounds body counted stream).run s).1.documents =
      (forOutputs body counted stream s).flatten.map .value := by
  induction counted generalizing stream s with
  | nil => rfl
  | cons v counted ih =>
    have hround : (forRounds body (v :: counted) stream).run s =
        let result := (body.run stream).run s
        ((Produced.ofRun result.1).andThen (forRounds body counted result.1.stream)).run result.2 := rfl
    rw [hround]
    dsimp only
    rw [documents_ofRun_andThen _ _ _ (ih _ _), forOutputs]
    split <;> simp

theorem ends_each {env : Environment} {values : List Value}
    (h : GroupsEnd (eachOutputs body env values s)) : ((each body values env).run s).1.Ends := by
  rw [Produced.Ends, documents_each]
  exact List.pairwise_map.2 (groupsEnd_iff.1 h)

theorem ends_forEach {initial : Meaning} {input : Stream}
    (h : let start := (initial.run input.split.2).run s
      GroupsEnd (forOutputs body input.split.1.values start.1.stream start.2)) :
    ((forEach initial body input).run s).1.Ends := by
  have hrun : (forEach initial body input).run s =
      let start := (initial.run input.split.2).run s
      let rounds := (forRounds body input.split.1.values start.1.stream).run start.2
      (rounds.1.andThen (return .ending input.split.1.closed)).run rounds.2 := rfl
  have hending : ∀ closed, Always (return .ending closed : StateM Store Produced) fun q => q.documents = [] := by
    intro closed
    cases closed <;> exact always_pure rfl
  rw [hrun]
  refine Produced.ends_andThen ?_ (hending _) _
  rw [Produced.Ends, documents_forRounds]
  exact List.pairwise_map.2 (groupsEnd_iff.1 h)

theorem ends_reduce {initial : Meaning} {input : Stream}
    (h : let start := (initial.run input.split.2).run s
      FilterShell.Ends ((reduceRounds body input.split.1.values start.1.stream).run start.2).1.values) :
    ((reduce initial body input).run s).1.Ends := by
  have hrun : ((reduce initial body input).run s).1 =
      let start := (initial.run input.split.2).run s
      let last := ((reduceRounds body input.split.1.values start.1.stream).run start.2).1
      if input.split.1.closed then .ofStream last else .waiting := rfl
  rw [hrun]
  dsimp only
  split
  · exact List.pairwise_map.2 h
  · exact .nil

/-! Functions that take one value after the other may go on behind one that does not fit. -/

theorem calm_codes (t : Text) : ∀ d ∈ (codes t).documents, d.isException = false := by
  simp [codes, Produced.ofValues, Value.ofNat, Json.Document.isException, Value.isException, Value.exception?]

/-- Only a container makes `explode` report something. -/
theorem ends_explode {values : List Value} (h : values.Pairwise fun v _ => v.isContainer = false) :
    Always (explode values) Produced.Ends := by
  induction values with
  | nil => exact always_pure .nil
  | cons v rest ih =>
    obtain ⟨hv, hrest⟩ := List.pairwise_cons.1 h
    unfold explode
    split
    · refine always_bind fun read => ?_
      split
      · exact Produced.ends_calm_andThen (calm_codes _) (ih hrest)
      · exact always_pure (List.pairwise_of_forall_mem_list fun d hd _ _ => calm_codes _ d hd)
    · refine Produced.ends_andThen (p := .failure "type") (List.pairwise_singleton _ _) ?_
      cases rest with
      | nil =>
        -- whether the value is an empty container decides if there would be more
        refine Always.bind (Produced.silent_ofReading (delivers_bind fun _ => delivers_pure rfl))
          fun p hp => ?_
        rw [← hp]
        exact p.documents_andThen (always_pure rfl)
      | cons w rest =>
        have hscalar : v.isContainer = false := hv w List.mem_cons_self
        split
        · cases hscalar
        · cases hscalar
        · exact always_pure rfl

/-- Only a fraction makes `range` report something. -/
theorem ends_range {values : List Value} (h : values.Pairwise fun v _ => v.isWhole) :
    Always (range values) Produced.Ends := by
  induction values with
  | nil => exact always_pure .nil
  | cons v rest ih =>
    obtain ⟨hv, hrest⟩ := List.pairwise_cons.1 h
    cases rest with
    | nil =>
      refine Always.bind (Produced.ends_ofReading ?_) fun p hp =>
        Produced.ends_andThen hp (always_pure rfl)
      split
      · refine delivers_bind fun whole => ?_
        split
        · refine delivers_pure (ends_of_calm ?_)
          simp [Value.ofNat, Value.isException, Value.exception?]
        · exact delivers_pure (List.pairwise_singleton _ _)
      · exact delivers_pure (List.pairwise_singleton _ _)
    | cons w rest =>
      refine Always.bind (Produced.calm_ofReading ?_) fun p hp =>
        Produced.ends_calm_andThen hp (ih hrest)
      have hwhole : v.isWhole := hv w List.mem_cons_self
      cases v with
      | number id d =>
        refine (delivers_isWhole hwhole).bind fun whole hw => ?_
        subst hw
        refine delivers_pure ?_
        simp [Value.ofNat, Value.isException, Value.exception?]
      | _ => cases hwhole

/-- With the arguments that the function takes, there is nothing behind an exception. -/
def Stops (name : Text) (entry : Option Int × Builtin) : Prop :=
  ∀ (args : List Meaning) (input : Stream) (s : Store),
    entry.1 = none ∨ entry.1 = some (args.length : Int) → Orderly name args input s →
      ((entry.2.generate args input).run s).1.Ends

/-! The number of arguments that a function is called with. -/

section Arguments

variable {own : String} {args : List Meaning}

theorem plain_args {g : Generator}
    (h : (plain own g).1 = none ∨ (plain own g).1 = some (args.length : Int)) : args = [] := by
  obtain ⟨⟨⟩⟩ | h := h
  have hlength : (0 : Int) = args.length := by simpa [plain] using h
  exact List.length_eq_zero_iff.1 (by omega)

theorem unary_args {g : Meaning → Generator}
    (h : (unary own g).1 = none ∨ (unary own g).1 = some (args.length : Int)) : ∃ a, args = [a] := by
  obtain ⟨⟨⟩⟩ | h := h
  have hlength : (1 : Int) = args.length := by simpa [unary] using h
  exact List.length_eq_one_iff.1 (by omega)

theorem binary_args {g : Meaning → Meaning → Generator}
    (h : (binary own g).1 = none ∨ (binary own g).1 = some (args.length : Int)) :
    ∃ a b, args = [a, b] := by
  obtain ⟨⟨⟩⟩ | h := h
  have hlength : (2 : Int) = args.length := by simpa [binary] using h
  exact List.length_eq_two.1 (by omega)

end Arguments

/-- What holds of all functions holds of one that is found. -/
theorem find?_entry {P : Text → Option Int × Builtin → Prop}
    (hP : ∀ functions ∈ registry, ∀ entry ∈ functions.2, P functions.1 entry) {count : Int}
    {b : Builtin} (h : registry.find? name count = some b) :
    ∃ c : Option Int, (c = none ∨ c = some count) ∧ P name (c, b) := by
  obtain ⟨vector, hvector, hb⟩ := Option.bind_eq_some_iff.1 h
  obtain ⟨_, _, hregistry, -⟩ := List.lookup_eq_some_iff.1 hvector
  have hmem : (name, vector) ∈ registry := by simp [hregistry]
  have hentry : ∀ c, vector.lookup c = some b → P name (c, b) := by
    intro c hc
    obtain ⟨_, _, hsplit, -⟩ := List.lookup_eq_some_iff.1 hc
    exact hP _ hmem _ (by simp [hsplit])
  cases hone : vector.lookup (some count) with
  | none =>
    rw [hone] at hb
    exact ⟨none, .inl rfl, hentry none hb⟩
  | some b' =>
    rw [hone] at hb
    cases hb
    exact ⟨_, .inr rfl, hentry _ hone⟩

theorem stops_plain {own : String} {g : Generator}
    (h : ∀ input s, Orderly name [] input s → ((g input).run s).1.Ends) : Stops name (plain own g) := by
  intro args input s hcount horderly
  obtain rfl := plain_args hcount
  exact h input s horderly

theorem stops_unary {own : String} {g : Meaning → Generator}
    (h : ∀ a input s, Orderly name [a] input s → ((g a input).run s).1.Ends) : Stops name (unary own g) := by
  intro args input s hcount horderly
  obtain ⟨a, rfl⟩ := unary_args hcount
  exact h a input s horderly

theorem stops_binary {own : String} {g : Meaning → Meaning → Generator}
    (h : ∀ a b input s, Orderly name [a, b] input s → ((g a b input).run s).1.Ends) :
    Stops name (binary own g) := by
  intro args input s hcount horderly
  obtain ⟨a, b, rfl⟩ := binary_args hcount
  exact h a b input s horderly

theorem ends_constant (v : Value) (input : Stream) : Always (constant v input) Produced.Ends :=
  always_pure (List.pairwise_singleton _ _)

/-- **Orderly calls stop at an exception**, whichever function is called. -/
theorem registry_stops : ∀ functions ∈ registry, ∀ entry ∈ functions.2, Stops functions.1 entry := by
  simp only [registry, List.forall_mem_cons, List.not_mem_nil, false_implies, implies_true, and_true]
  refine ⟨⟨stops_plain fun input s _ => ends_argv input s,
      stops_unary fun a input s _ => ends_argvAt a input s⟩,
    stops_unary fun a _ _ h => ends_each (h.each a rfl rfl),
    stops_plain fun _ _ _ => .nil,
    stops_plain fun _ s h => ends_explode (h.explode rfl rfl) s,
    stops_plain fun input s _ => ends_constant _ input s,
    stops_plain fun input s _ => ends_isMain input s,
    stops_binary fun a b _ _ h => ends_forEach (h.forEach a b rfl rfl),
    stops_plain fun input s _ => ends_implode input s,
    stops_unary fun a input s _ => ends_nth a input s,
    stops_plain fun input s _ => ends_constant _ input s,
    stops_plain fun _ s h => ends_range (h.range rfl rfl) s,
    stops_binary fun a b _ _ h => ends_reduce (h.reduce a b rfl rfl),
    stops_plain fun input s _ => ends_constant _ input s⟩

end Builtin

end FilterShell
