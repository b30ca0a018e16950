import FilterShell.Eval.Builtin
import FilterShell.Eval.Command
import FilterShell.Proofs.Json.Blind

/-!
# Generators are blind

A stream is known if its values and its variables are.  A generator is blind if on every known stream it is,
and what it yields is known in the world that has grown.  Commands are blind, and so are all functions whose
arguments are (`Builtin.find?_blind`).
-/

namespace FilterShell

variable {name : String} {g : Generator} {vs : List Value} {body : Meaning}

variable {W W' : World}

/-! ### Streams that are known -/

/-- Whatever the variables hold is known, and the context is that of the main program without arguments; if it
does not come, some of the variables or formats do not come either. -/
structure Environment.Known (W : World) (env : Environment) : Prop where
  globals : ∀ x ∈ env.globals, ∀ v ∈ x.2, v.Known W
  locals  : ∀ x ∈ env.locals, ∀ v ∈ x.2, v.Known W
  formats : ∀ x ∈ env.formats, ∀ v ∈ x.2, v.Known W
  context : env.context = {}
  comes   : env.withheld.context = true → env.hasNames = false

structure Stream.Known (W : World) (input : Stream) : Prop where
  values : ∀ v ∈ input.values, v.Known W
  env    : input.env.Known W

structure Run.Known (W : World) (r : Run) : Prop where
  outputs : ∀ v ∈ r.outputs, v.Known W
  env     : r.env.Known W
  rest    : r.rest.Known W

def Produced.Known (W : World) (p : Produced) : Prop := ∀ d ∈ p.documents, d.Known W

section

variable {env : Environment}

theorem Environment.Known.mono (hle : W ≤ W') (h : env.Known W) : env.Known W' :=
  ⟨fun x hx v hv => (h.globals x hx v hv).mono hle, fun x hx v hv => (h.locals x hx v hv).mono hle,
    fun x hx v hv => (h.formats x hx v hv).mono hle, h.context, h.comes⟩

theorem Environment.known_empty : Environment.Known W {} :=
  ⟨by simp, by simp, by simp, rfl, by simp⟩

theorem Environment.known_unknown : Environment.Known W .unknown :=
  ⟨by simp [unknown], by simp [unknown], by simp [unknown], rfl, fun _ => rfl⟩

theorem Environment.Known.filled (h : env.Known W) : env.filled.Known W :=
  ⟨h.globals, h.locals, h.formats, h.context, by simp [Environment.filled]⟩

theorem Environment.Known.withoutLocals (h : env.Known W) : env.withoutLocals.Known W :=
  ⟨h.globals, by simp [Environment.withoutLocals], h.formats, h.context,
    fun _ => by simp [Environment.withoutLocals, hasNames]⟩

theorem Environment.Known.withoutGlobals (h : env.Known W) : env.withoutGlobals.Known W :=
  ⟨by simp [Environment.withoutGlobals], h.locals, h.formats, h.context,
    fun _ => by simp [Environment.withoutGlobals, hasNames]⟩

/-- If the variables and formats come, everything does. -/
theorem Environment.Known.isComplete (h : env.Known W) (hnames : env.hasNames) : env.isComplete := by
  have hcontext : env.withheld.context = false := by
    by_contra hcontext
    rw [h.comes (by simpa using hcontext)] at hnames
    cases hnames
  simp only [hasNames, Bool.not_eq_true', Bool.or_eq_false_iff] at hnames
  obtain ⟨⟨hglobals, hlocals⟩, hformats⟩ := hnames
  rcases hw : env.withheld with ⟨g, l, f, c⟩
  rw [hw] at hcontext hglobals hlocals hformats
  subst hcontext hglobals hlocals hformats
  simp [Environment.isComplete, hw]

end

section

variable {input rest : Stream}

theorem Stream.Known.mono (hle : W ≤ W') (h : input.Known W) : input.Known W' :=
  ⟨fun v hv => (h.values v hv).mono hle, h.env.mono hle⟩

theorem Stream.known_empty : Stream.Known W {} := ⟨by simp, Environment.known_empty⟩

theorem Stream.Known.copy (h : input.Known W) : input.copy.Known W := by
  unfold Stream.copy
  split
  · exact Stream.known_empty
  · exact h

theorem Stream.Known.next (h : input.Known W) (hrest : rest.Known W) : (input.next rest).Known W := by
  unfold Stream.next
  split
  · exact hrest
  · exact h

theorem Stream.Known.spent (h : input.Known W) : input.spent.Known W :=
  ⟨by simp [Stream.spent], h.env⟩

theorem Stream.Known.read (h : input.Known W) : input.read.Known W :=
  ⟨by simp [Stream.read], h.env⟩

end

theorem Run.Known.stream {r : Run} (h : r.Known W) : r.stream.Known W := ⟨h.outputs, h.env⟩

theorem Run.known_waiting {outputs : List Value} (houtputs : ∀ v ∈ outputs, v.Known W) {rest : Stream}
    (hrest : rest.Known W) : (Run.waiting outputs rest).Known W :=
  ⟨houtputs, Environment.known_unknown, hrest⟩

/-- What a variable holds is known. -/
theorem Namespace.known_lookup {ns : Namespace} (h : ∀ x ∈ ns, ∀ v ∈ x.2, v.Known W) {name : Text}
    (hvs : ns.lookup name = some vs) : ∀ v ∈ vs, v.Known W := by
  obtain ⟨_, _, hsplit, -⟩ := List.lookup_eq_some_iff.1 hvs
  exact h (name, vs) (by simp [hsplit])

theorem Namespace.known_bind {ns : Namespace} (h : ∀ x ∈ ns, ∀ v ∈ x.2, v.Known W) (name : Text)
    (hvs : ∀ v ∈ vs, v.Known W) : ∀ x ∈ ns.bind name vs, ∀ v ∈ x.2, v.Known W := by
  intro x hx
  unfold Namespace.bind at hx
  split at hx
  · obtain ⟨y, hy, rfl⟩ := List.mem_map.1 hx
    dsimp only
    split
    · exact hvs
    · exact h y hy
  · rcases List.mem_append.1 hx with hx | hx
    · exact h x hx
    · rw [List.mem_singleton.1 hx]
      exact hvs

/-! ### What is yielded -/

namespace Produced

theorem known_ofValues (h : ∀ v ∈ vs, v.Known W) : (ofValues vs).Known W := by
  intro d hd
  obtain ⟨v, hv, rfl⟩ := List.mem_map.1 hd
  exact h v hv

theorem known_value {v : Value} (h : v.Known W) : (ofValues [v]).Known W :=
  known_ofValues (by simpa using h)

theorem known_failure (name : String) : (failure name).Known W := known_value (.exception _)

theorem known_ofFault (f : Fault) : (ofFault f).Known W := by
  rintro _ ⟨⟩

theorem known_nothing : Produced.Known W {} := by
  rintro _ ⟨⟩

theorem known_waiting : Produced.waiting.Known W := known_ofFault _

theorem known_ending (closed : Bool) : (ending closed).Known W := by
  unfold ending
  split
  · exact known_nothing
  · exact known_waiting

/-- The values of a stream that is known. -/
theorem known_ofStream {s : Stream} (h : s.Known W) : (ofStream s).Known W := known_ofValues h.values

theorem known_ofRun {r : Run} (h : r.Known W) : (ofRun r).Known W := known_ofStream h.stream

theorem andThen_blind {first : Produced} (hfirst : first.Known W) {second : StateM Store Produced}
    (hsecond : Blind W second fun W' p => p.Known W') :
    Blind W (first.andThen second) fun W' p => p.Known W' := by
  unfold andThen
  split
  · exact .pure hfirst
  · refine hsecond.bind fun W' rest hle hrest => .pure fun d hd => ?_
    rcases List.mem_append.1 hd with hd | hd
    · exact (hfirst d hd).mono hle
    · exact hrest d hd

theorem ofReading_blind {r : Reading (List Value)} (h : BlindTry W r fun W' vs => ∀ v ∈ vs, v.Known W') :
    Blind W (ofReading r) fun W' p => p.Known W' := by
  refine Blind.bind h fun W' result _ hresult => ?_
  split
  · exact .pure (known_ofValues (hresult _ rfl))
  · exact .pure (known_ofFault _)

/-- The outcome of a computation first, and then what is yielded in any world that has grown. -/
theorem ofReading_andThen_blind {r : Reading (List Value)} {second : StateM Store Produced}
    (h : BlindTry W r fun W' vs => ∀ v ∈ vs, v.Known W')
    (hsecond : ∀ W', W ≤ W' → Blind W' second fun W' p => p.Known W') :
    Blind W (do (← ofReading r).andThen second) fun W' p => p.Known W' :=
  (ofReading_blind h).bind fun W' _ hle hfirst => andThen_blind hfirst (hsecond W' hle)

theorem values_blind {ds : List Json.Document} (h : ∀ d ∈ ds, d.Known W) :
    Blind W (values ds) fun W' r => ∀ v ∈ r.1, v.Known W' := by
  induction ds generalizing W with
  | nil => exact .pure (by simp)
  | cons d ds ih =>
    obtain ⟨hd, hds⟩ := List.forall_mem_cons.1 h
    refine Blind.bind (Json.Document.toValue_blind hd) fun W₁ result hle hresult => ?_
    split
    · exact .pure (by simp)
    · refine (ih fun d hd => (hds d hd).mono hle).bind fun W₂ rest hle₂ hrest => .pure ?_
      exact List.forall_mem_cons.2 ⟨(hresult _ rfl).mono hle₂, hrest⟩

end Produced

/-! ### Programs of generators -/

/-- On every stream that is known, the generator is blind. -/
def Generator.IsBlind (g : Generator) : Prop :=
  ∀ ⦃W : World⦄ ⦃input : Stream⦄, input.Known W → Blind W (g input) fun W' p => p.Known W'

/-- On every stream that is known, the program is blind. -/
def Program.IsBlind (p : Program) : Prop :=
  ∀ ⦃W : World⦄ ⦃input : Stream⦄, input.Known W → Blind W (p input) fun W' r => r.Known W'

/-- What is known of an operand is blind, and it is written by digits if it is a number. -/
structure Meaning.IsBlind (m : Meaning) : Prop where
  run    : Program.IsBlind m.run
  inner  : Program.IsBlind m.inner
  digits : ∀ t d, m.filter = .number t d → ∀ r ∈ t, r.isDigit

theorem cutAtException_subset (vs : List Value) : cutAtException vs ⊆ vs := by
  induction vs with
  | nil => exact List.Subset.refl _
  | cons v vs ih =>
    unfold cutAtException
    split
    · exact List.cons_subset_cons v (List.nil_subset vs)
    · exact List.cons_subset_cons v ih

/-- Splitting keeps what is known: the values before the exception, the exception and those behind it. -/
theorem known_splitAtException {before : List Value} {found : Option (Value × List Value)}
    (hvs : ∀ v ∈ vs, v.Known W) (h : splitAtException vs = (before, found)) :
    (∀ v ∈ before, v.Known W) ∧ ∀ p ∈ found, p.1.Known W ∧ ∀ v ∈ p.2, v.Known W := by
  induction vs generalizing before with
  | nil =>
    cases h
    exact ⟨by simp, by simp⟩
  | cons v vs ih =>
    obtain ⟨hv, hvs⟩ := List.forall_mem_cons.1 hvs
    unfold splitAtException at h
    split at h
    · cases h
      refine ⟨by simp, ?_⟩
      rintro _ ⟨⟩
      exact ⟨hv, hvs⟩
    · cases h
      obtain ⟨hbefore, hfound⟩ := ih hvs rfl
      exact ⟨List.forall_mem_cons.2 ⟨hv, hbefore⟩, hfound⟩

namespace Program

theorem known_thrown {outputs : List Value} (houtputs : ∀ v ∈ outputs, v.Known W) {e : Value}
    (he : e.Known W) {rest : Stream} (hrest : rest.Known W) : (thrown outputs e rest).Known W where
  outputs := List.forall_mem_append.2 ⟨houtputs, by simpa using he⟩
  env := Environment.known_empty
  rest := hrest

/-- What a fault makes of the outputs is known. -/
theorem known_cut {made : List Value × Option Fault} (hmade : ∀ v ∈ made.1, v.Known W) (fault : Option Fault) :
    ∀ v ∈ cutAtException (made.1 ++ (fault.bind Fault.exception?).toList), v.Known W := by
  intro v hv
  rcases List.mem_append.1 (cutAtException_subset _ hv) with hv | hv
  · exact hmade v hv
  · obtain ⟨f, -, hf⟩ := Option.bind_eq_some_iff.1 (Option.mem_toList.1 hv)
    unfold Fault.exception? at hf
    split at hf <;> cases hf
    exact .exception _

/-- The program of a blind generator is blind. -/
theorem ofGenerator_blind (hg : Generator.IsBlind g) : IsBlind (ofGenerator g) := by
  intro W input h
  unfold ofGenerator
  rcases hsplit : splitAtException input.values with ⟨before, found⟩
  obtain ⟨hbefore, hfound⟩ := known_splitAtException h.values hsplit
  cases found with
  | some p =>
    obtain ⟨e, after⟩ := p
    obtain ⟨he, hafter⟩ := hfound _ rfl
    have hinput : Stream.Known W { input.forwarded with values := before ++ [e], closed := false } :=
      ⟨List.forall_mem_append.2 ⟨hbefore, List.forall_mem_singleton.2 he⟩, h.env⟩
    refine (hg hinput).bind fun W₁ produced hle₁ hproduced => ?_
    refine (Produced.values_blind hproduced).bind fun W₂ made hle₂ hmade => .pure ?_
    have hle := hle₁.trans hle₂
    have hcut := known_cut hmade (made.2 <|> produced.fault)
    refine ⟨?_, (h.env.mono hle).filled, fun v hv => (hafter v hv).mono hle, h.env.mono hle⟩
    dsimp only
    split
    · exact hcut
    · exact List.forall_mem_append.2 ⟨hcut, List.forall_mem_singleton.2 (he.mono hle)⟩
  | none =>
    have hinput : Stream.Known W { input.forwarded with values := before } := ⟨hbefore, h.env⟩
    refine (hg hinput).bind fun W₁ produced hle₁ hproduced => ?_
    refine (Produced.values_blind hproduced).bind fun W₂ made hle₂ hmade => .pure ?_
    have h := h.mono (hle₁.trans hle₂)
    refine ⟨known_cut hmade _, ?_, h.read⟩
    dsimp only
    split
    · exact h.env.filled
    · exact h.env

theorem ofBuiltin_blind (hg : Generator.IsBlind g) : IsBlind (ofBuiltin g) := by
  intro W input h
  rcases hsplit : splitAtException input.values with ⟨before, found⟩
  obtain ⟨hbefore, hfound⟩ := known_splitAtException h.values hsplit
  have hinput : ∀ closed, Stream.Known W { input.forwarded with values := before, closed } :=
    fun closed => ⟨hbefore, h.env⟩
  -- How much comes before the exception is found by a second run from the same store.
  have hearly : ∀ s s', s.Alike W s' →
      ((g { input.forwarded with values := before, closed := false }).run s').1 =
        ((g { input.forwarded with values := before, closed := false }).run s).1 := by
    intro s s' hs
    obtain ⟨_, -, hsame, -⟩ := hg (hinput false) s s' hs
    exact hsame
  unfold ofBuiltin
  rw [hsplit]
  refine Blind.look (fun s s' hs => ?_) fun s => (hg (hinput _)).bind fun W₁ produced hle₁ hproduced => ?_
  · dsimp only
    rw [hearly s s' hs]
  refine (Produced.values_blind hproduced).bind fun W₂ made hle₂ hmade => ?_
  have hle := hle₁.trans hle₂
  have h := h.mono hle
  cases found with
  | some p =>
    obtain ⟨he, hafter⟩ := hfound p rfl
    refine .pure ⟨List.forall_mem_append.2 ⟨fun v hv => hmade v (List.mem_of_mem_take hv), ?_⟩, h.env,
      fun v hv => (hafter v hv).mono hle, h.env⟩
    exact List.forall_mem_cons.2 ⟨he.mono hle, fun v hv => hmade v (List.mem_of_mem_drop hv)⟩
  | none => exact .pure ⟨hmade, h.env, h.read⟩

end Program

theorem sensibleText_blind (f : Filter) {run : Program} (hrun : Program.IsBlind run) {input : Stream}
    (h : input.Known W) : Blind W (sensibleText f run input) fun W' r => r.2.Known W' := by
  unfold sensibleText
  split
  · exact .pure h
  · refine (hrun h).bind fun W₁ result _ hresult => ?_
    split
    · exact .pure hresult.rest
    · rename_i id pieces vs houtputs
      have hstring := hresult.outputs (.string id pieces) (by simp [houtputs])
      exact Still.andThen (Reading.wholeText_still hstring) fun _ _ => .pure hresult.rest
    · exact .pure hresult.rest

/-! ### Adding and multiplying -/

namespace Combine

/-- The operation is blind on values that are known. -/
def IsBlind (op : Value → Value → Reading Value) : Prop :=
  ∀ ⦃W : World⦄ ⦃a b : Value⦄, a.Known W → b.Known W → BlindTry W (op a b) fun W' v => v.Known W'

def Paired.Known (W : World) : Paired → Prop
  | .single v => v.Known W
  | .both a b => a.Known W ∧ b.Known W

theorem Paired.Known.mono {x : Paired} (hle : W ≤ W') (h : x.Known W) : x.Known W' := by
  cases x with
  | single v => exact Value.Known.mono hle h
  | both a b => exact ⟨h.1.mono hle, h.2.mono hle⟩

theorem known_paired {left right : List Value} (hleft : ∀ v ∈ left, v.Known W)
    (hright : ∀ v ∈ right, v.Known W) : ∀ x ∈ paired left right, x.Known W := by
  intro x hx
  unfold paired at hx
  split at hx
  · obtain ⟨v, hv, rfl⟩ := List.mem_map.1 hx
    exact hright v hv
  · split at hx
    · obtain ⟨v, hv, rfl⟩ := List.mem_map.1 hx
      exact hleft v hv
    · obtain ⟨i, -, hi⟩ := List.mem_filterMap.1 hx
      obtain ⟨a, ha, hi⟩ := Option.bind_eq_some_iff.1 hi
      obtain ⟨b, hb, hi⟩ := Option.bind_eq_some_iff.1 hi
      cases hi
      exact ⟨hleft a (List.mem_of_getElem? ha), hright b (List.mem_of_getElem? hb)⟩

theorem all_blind {op : Value → Value → Reading Value} (hop : IsBlind op) {xs : List Paired}
    (hxs : ∀ x ∈ xs, x.Known W) : Blind W (all op xs) fun W' p => p.Known W' := by
  induction xs generalizing W with
  | nil => exact .pure Produced.known_nothing
  | cons x xs ih =>
    obtain ⟨hx, hrest⟩ := List.forall_mem_cons.1 hxs
    cases x with
    | single v => exact Produced.andThen_blind (Produced.known_value hx) (ih hrest)
    | both a b =>
      refine Produced.ofReading_andThen_blind ?_ fun W' hle => ih fun x hx => (hrest x hx).mono hle
      exact (hop hx.1 hx.2).bind fun _ _ _ hv => .pure (List.forall_mem_singleton.2 hv)

theorem isWhole_still (d : Decimal) : StillTry W (isWhole d) fun _ => True := by
  unfold isWhole
  split
  · exact .pure trivial
  · exact .throw

theorem repeatCount_still (size : Nat) (n : Int) : StillTry W (repeatCount size n) fun _ => True := by
  unfold repeatCount
  dsimp only
  split
  · exact .throw
  · split
    · exact .throw
    · split
      · exact .throw
      · exact .pure trivial

theorem add_blind : IsBlind add := by
  intro W a b ha hb
  unfold add
  split
  · cases ha with
    | number _ hx => cases hb with
      | number _ hy =>
        unfold ofDecimal
        split
        · rename_i d hd
          exact Value.ofDecimal_blind (Decimal.add_unsigned hx hy hd)
        · exact .throw
  · cases ha with
    | array hid hitems => cases hb with
      | array hid' hitems' =>
        refine (Reading.allItems_still hid).andThen ?_
        rintro _ rfl
        refine (Reading.allItems_still hid').andThen ?_
        rintro _ rfl
        exact Value.ofItems_blind (List.forall_mem_append.2 ⟨hitems, hitems'⟩)
  · refine (Reading.wholeText_still ha).andThen fun _ _ => ?_
    exact (Reading.wholeText_still hb).andThen fun _ _ => Value.ofText_blind _
  · exact .throw
  · exact .pure (.exception _)

theorem repeatText_blind {i : Nat} {pieces : List Text} (h : (Value.string i pieces).Known W)
    (d : Decimal) : BlindTry W (repeatText i pieces d) fun W' v => v.Known W' := by
  refine (isWhole_still d).andThen fun whole _ => ?_
  split
  · exact .pure (.exception _)
  · refine (Reading.wholeText_still h).andThen fun t _ => ?_
    exact (repeatCount_still t.length d.toInt).andThen fun _ _ => Value.ofText_blind _

theorem repeatItems_blind {i : Nat} {items : List Value} (hid : W.role i = .sized items.length)
    (hitems : ∀ v ∈ items, v.Known W) (d : Decimal) :
    BlindTry W (repeatItems i items d) fun W' v => v.Known W' := by
  refine (isWhole_still d).andThen fun whole _ => ?_
  split
  · exact .pure (.exception _)
  · refine (Reading.allItems_still hid).andThen ?_
    rintro vs rfl
    refine (repeatCount_still vs.length d.toInt).andThen fun n _ => Value.ofItems_blind fun v hv => ?_
    obtain ⟨vs, hvs, hv⟩ := List.mem_flatten.1 hv
    rw [List.eq_of_mem_replicate hvs] at hv
    exact hitems v hv

theorem multiply_blind : IsBlind multiply := by
  intro W a b ha hb
  unfold multiply
  split
  · cases ha with
    | number _ hx => cases hb with
      | number _ hy =>
        unfold ofDecimal
        split
        · rename_i d hd
          exact Value.ofDecimal_blind (Decimal.mul_unsigned hx hy hd)
        · exact .throw
  · exact repeatText_blind ha _
  · exact repeatText_blind hb _
  · cases ha with
    | array hid hitems => exact repeatItems_blind hid hitems _
  · cases hb with
    | array hid hitems => exact repeatItems_blind hid hitems _
  · exact .pure (.exception _)

end Combine

/-! ### Commands -/

namespace Command

theorem lines_still (hvs : ∀ v ∈ vs, v.Known W) : Still W (lines vs) fun _ => True := by
  induction vs with
  | nil => exact .pure trivial
  | cons v vs ih =>
    obtain ⟨hv, hvs⟩ := List.forall_mem_cons.1 hvs
    refine Still.bind (Value.text_still hv) fun result _ => ?_
    split
    · exact .pure trivial
    · exact (ih hvs).bind fun _ _ => .pure trivial

/-- A command that has run is noted alike. -/
theorem note_still (i : Invocation) :
    Still W (modify fun s : Store => { s with system := s.system.note i }) fun _ => True := by
  intro s s' hs
  refine ⟨W, le_rfl, rfl, ⟨rfl, trivial⟩, hs.next, hs.next', hs.holds, hs.start, hs.start', fun later => ?_⟩
  have hnoted : ∀ t : Store, later ++ (t.system.note i).history = later ++ [i] ++ t.system.history :=
    fun t => by simp [System.note]
  exact (congrArg W.start (hnoted s)).trans ((hs.system _).trans (congrArg W.start (hnoted s')).symm)

/-- What a command writes is read blindly. -/
theorem documentsOf_blind (octets : List Nat) :
    Blind W (documentsOf octets) fun W' p => p.Known W' := by
  have hbad : ∀ {W : World}, Json.Document.Known W (.value (.failure "commandOutput")) := .exception _
  unfold documentsOf
  dsimp only
  split
  · exact .pure (List.forall_mem_singleton.2 hbad)
  · refine (Json.documents_blind _).bind fun W₁ ds _ hds => ?_
    split
    · exact .pure hds
    · split
      · exact .pure (List.forall_mem_append.2 ⟨hds, List.forall_mem_singleton.2 hbad⟩)
      · split
        · exact .pure hds
        · exact .pure hds

/-- **Commands are blind.** -/
theorem run_blind (name : Text) (args : List Text) {input : Stream} (h : input.Known W) :
    Blind W (run name args input) fun W' p => p.Known W' := by
  have houtcome : ∀ s s' : Store, s.Alike W s' → s'.system.outcome name args = s.system.outcome name args := by
    intro s s' hs
    rw [System.outcome, System.outcome, hs.start, hs.start']
    exact congrFun₂ (hs.system []).symm name args
  refine Blind.look (fun s s' hs => by rw [houtcome s s' hs]) fun s => ?_
  split
  · exact .pure (Produced.known_failure _)
  · exact .pure (Produced.known_failure _)
  · exact .pure (Produced.known_ofFault _)
  · refine (lines_still h.values).andThen fun written _ => (note_still _).andThen fun _ _ => ?_
    split
    · exact .pure (Produced.known_ofFault _)
    · exact .pure Produced.known_waiting
    · split
      · exact .pure (Produced.known_ofFault _)
      · exact documentsOf_blind _

end Command

/-! ### Functions -/

namespace Builtin

theorem argv_blind : Generator.IsBlind argv := by
  intro W input _
  refine .pure ?_
  split
  · exact Produced.known_waiting
  · intro d hd
    obtain ⟨t, -, rfl⟩ := List.mem_map.1 hd
    trivial

theorem isMain_blind : Generator.IsBlind isMain := by
  intro W input _
  refine .pure ?_
  split
  · exact Produced.known_waiting
  · exact Produced.known_value (.bool _)

/-- An exception instead of an index is known. -/
theorem wholeIndex_still (index : Run) :
    StillTry W (wholeIndex index) fun r => ∀ e, r = .error e → e.Known W := by
  unfold wholeIndex
  split
  · split
    · exact .throw
    · exact .pure (by rintro _ ⟨⟩; exact .exception _)
  · refine (Combine.isWhole_still _).bind fun whole _ => ?_
    split
    · exact .pure (by rintro _ ⟨⟩)
    · exact .pure (by rintro _ ⟨⟩; exact .exception _)
  · exact .pure (by rintro _ ⟨⟩; exact .exception _)

theorem argvAt_blind {index : Meaning} (hindex : index.IsBlind) : Generator.IsBlind (argvAt index) := by
  intro W input h
  refine (hindex.run h).bind fun W₁ result _ _ => Produced.ofReading_blind ?_
  refine (wholeIndex_still result).andThen fun r hr => ?_
  split
  · exact .pure (List.forall_mem_singleton.2 (hr _ rfl))
  · split
    · exact .throw
    · split
      · exact (Value.ofText_blind _).bind fun _ _ _ hv => .pure (List.forall_mem_singleton.2 hv)
      · exact .pure (List.forall_mem_singleton.2 (.exception _))

theorem each_blind (hbody : body.IsBlind) (hvs : ∀ v ∈ vs, v.Known W)
    {env : Environment} (henv : env.Known W) : Blind W (each body vs env) fun W' p => p.Known W' := by
  induction vs generalizing W with
  | nil => exact .pure Produced.known_nothing
  | cons v vs ih =>
    obtain ⟨hv, hrest⟩ := List.forall_mem_cons.1 hvs
    have hinput : Stream.Known W { values := [v], env } := ⟨List.forall_mem_singleton.2 hv, henv⟩
    refine (hbody.run hinput).bind fun W₁ result hle hresult => ?_
    refine Produced.andThen_blind (Produced.known_ofRun hresult) ?_
    exact ih (fun v hv => (hrest v hv).mono hle) (henv.mono hle)

theorem known_ofNat (n : Nat) : (Value.ofNat n).Known W := .number 0 rfl

theorem known_codes (t : Text) : (codes t).Known W := by
  refine Produced.known_ofValues fun v hv => ?_
  obtain ⟨c, -, rfl⟩ := List.mem_map.1 hv
  exact known_ofNat _

theorem explode_blind (hvs : ∀ v ∈ vs, v.Known W) :
    Blind W (explode vs) fun W' p => p.Known W' := by
  induction vs generalizing W with
  | nil => exact .pure Produced.known_nothing
  | cons v vs ih =>
    obtain ⟨hv, hrest⟩ := List.forall_mem_cons.1 hvs
    have hnext : ∀ W', W ≤ W' → Blind W' (explode vs) fun W' p => p.Known W' :=
      fun W' hle => ih fun v hv => (hrest v hv).mono hle
    -- Whether another value is empty is asked behind the exception.
    have hother : ∀ {isEmpty : Reading Unit}, StillTry W isEmpty (fun _ => True) →
        Blind W ((Produced.failure "type").andThen do
          (← Produced.ofReading (do isEmpty; return [])).andThen (explode vs)) fun W' p => p.Known W' := by
      intro isEmpty h
      refine Produced.andThen_blind (Produced.known_failure _) (Produced.ofReading_andThen_blind ?_ hnext)
      exact h.andThen fun _ _ => .pure (by simp)
    cases hv with
    | exception e => exact hother .throw
    | null => exact hother .throw
    | bool b => exact hother .throw
    | number id hd => exact hother .throw
    | string hid =>
      refine Still.andThen (Reading.wholeText_still (.string hid)) fun result _ => ?_
      split
      · exact Produced.andThen_blind (known_codes _) (hnext W le_rfl)
      · exact .pure (known_codes _)
    | array hid hitems =>
      refine hother ((Reading.item?_still hid 0).bind fun found _ => ?_)
      split
      · exact .throw
      · exact .pure trivial
    | object hid hkeys hvalues =>
      have hpairs p hp := And.intro (hkeys p hp) (hvalues p hp)
      have hthrow : ∀ v : Value, v.Known W → StillTry W (throw .misfit : Reading Unit) fun _ => True :=
        fun _ _ => .throw
      refine hother ((Relations.mapKeys_still hid hpairs _ hthrow).bind fun _ _ => ?_)
      exact .pure trivial

theorem forRounds_blind (hbody : body.IsBlind) (vs : List Value) {stream : Stream}
    (h : stream.Known W) : Blind W (forRounds body vs stream) fun W' p => p.Known W' := by
  induction vs generalizing W stream with
  | nil => exact .pure Produced.known_nothing
  | cons v vs ih =>
    refine (hbody.run h).bind fun W₁ result _ hresult => ?_
    have hpart := hresult.stream.copy
    exact Produced.andThen_blind (Produced.known_ofStream hpart) (ih hpart)

theorem reduceRounds_blind (hbody : body.IsBlind) (vs : List Value) {stream : Stream}
    (h : stream.Known W) : Blind W (reduceRounds body vs stream) fun W' last => last.Known W' := by
  induction vs generalizing W stream with
  | nil => exact .pure h
  | cons v vs ih => exact (hbody.run h).bind fun _ _ _ hresult => ih hresult.stream

theorem forEach_blind {initial : Meaning} (hinitial : initial.IsBlind) (hbody : body.IsBlind) :
    Generator.IsBlind (forEach initial body) := by
  intro W input h
  refine (hinitial.run h.copy).bind fun W₁ result _ hresult => ?_
  refine (forRounds_blind hbody _ hresult.stream).bind fun W₂ produced _ hproduced => ?_
  exact Produced.andThen_blind hproduced (.pure (Produced.known_ending _))

theorem reduce_blind {initial : Meaning} (hinitial : initial.IsBlind) (hbody : body.IsBlind) :
    Generator.IsBlind (reduce initial body) := by
  intro W input h
  refine (hinitial.run h.copy).bind fun W₁ result _ hresult => ?_
  refine (reduceRounds_blind hbody _ hresult.stream).bind fun W₂ last _ hlast => .pure ?_
  split
  · exact Produced.known_ofStream hlast
  · exact Produced.known_waiting

theorem implode_blind : Generator.IsBlind implode := by
  intro W input _
  unfold implode
  rcases hpieces : implodedPieces input.closed input.values with ⟨pieces, behind⟩
  have hbehind : ∀ W', behind.Known W' := by
    intro W'
    have hcases := implodedPieces_cases input.closed input.values
    rw [hpieces] at hcases
    obtain h | ⟨name, h⟩ | ⟨f, h⟩ := hcases <;> dsimp only at h <;> rw [h]
    · exact Produced.known_nothing
    · exact Produced.known_failure name
    · exact Produced.known_ofFault f
  refine Produced.ofReading_andThen_blind ?_ fun W' _ => .pure (hbehind W')
  -- A string with a fault behind it never ends.
  cases behind.fault with
  | none =>
    refine (Reading.fresh_blind (r := .sized (pieces.length + 1)) rfl).bind fun W₁ i _ hi => .pure ?_
    exact List.forall_mem_singleton.2 (.string (.inl hi))
  | some f =>
    have hopen := (Reading.freshUnended_blind (W := W) (pieces.length + 1)).bind
      (k := fun i => (return [.string i ([] :: pieces)] : Reading (List Value)))
      (R := fun W' vs => ∀ v ∈ vs, v.Known W')
      fun W₁ i _ hi => .pure (List.forall_mem_singleton.2 (.string (.inr hi)))
    simpa using hopen

theorem nth_blind {index : Meaning} (hindex : index.IsBlind) : Generator.IsBlind (nth index) := by
  intro W input h
  refine (hindex.run h.copy).bind fun W₁ result hle _ => Produced.ofReading_blind ?_
  refine (wholeIndex_still result).andThen fun r hr => ?_
  split
  · exact .pure (List.forall_mem_singleton.2 (hr _ rfl))
  · split
    · rename_i v hv
      exact .pure (List.forall_mem_singleton.2 ((h.copy.values v (List.mem_of_getElem? hv)).mono hle))
    · split
      · exact .throw
      · exact .pure (List.forall_mem_singleton.2 (.exception _))

theorem range_blind (hvs : ∀ v ∈ vs, v.Known W) : Blind W (range vs) fun W' p => p.Known W' := by
  induction vs generalizing W with
  | nil => exact .pure Produced.known_nothing
  | cons v vs ih =>
    obtain ⟨-, hrest⟩ := List.forall_mem_cons.1 hvs
    refine Produced.ofReading_andThen_blind ?_ fun W' hle => ih fun v hv => (hrest v hv).mono hle
    have hfailure : ∀ name, BlindTry W (return [Value.failure name] : Reading (List Value))
        fun W' vs => ∀ v ∈ vs, v.Known W' := fun name => .pure (List.forall_mem_singleton.2 (.exception _))
    cases v with
    | number id d =>
      refine (Combine.isWhole_still d).andThen fun whole _ => ?_
      split
      · refine .pure fun v hv => ?_
        obtain ⟨n, -, rfl⟩ := List.mem_map.1 hv
        exact known_ofNat n
      · exact hfailure _
    | _ => exact hfailure _

/-! ### The registry -/

/-- The function is blind if its arguments are. -/
def IsBlind (b : Builtin) : Prop :=
  ∀ args : List Meaning, (∀ m ∈ args, m.IsBlind) → Generator.IsBlind (b.generate args)

theorem plain_blind (hg : Generator.IsBlind g) : (plain name g).2.IsBlind :=
  fun _ _ => hg

theorem unary_blind {g : Meaning → Generator}
    (hg : ∀ {a : Meaning}, a.IsBlind → Generator.IsBlind (g a)) : (unary name g).2.IsBlind := by
  intro args hargs
  unfold unary
  dsimp only
  split
  · exact hg (hargs _ List.mem_cons_self)
  · exact fun _ _ _ => .pure Produced.known_nothing

theorem binary_blind {g : Meaning → Meaning → Generator}
    (hg : ∀ {a b : Meaning}, a.IsBlind → b.IsBlind → Generator.IsBlind (g a b)) :
    (binary name g).2.IsBlind := by
  intro args hargs
  unfold binary
  dsimp only
  split
  · exact hg (hargs _ List.mem_cons_self) (hargs _ (by simp))
  · exact fun _ _ _ => .pure Produced.known_nothing

theorem constant_blind {v : Value} (hv : ∀ W, v.Known W) : Generator.IsBlind (constant v) :=
  fun W _ _ => .pure (Produced.known_value (hv W))

/-- **All functions are blind** if their arguments are. -/
theorem registry_blind : ∀ functions ∈ registry, ∀ entry ∈ functions.2, entry.2.IsBlind := by
  simp only [registry, List.forall_mem_cons, List.not_mem_nil, false_implies, implies_true, and_true]
  refine ⟨⟨plain_blind argv_blind, unary_blind argvAt_blind⟩,
    unary_blind fun ha _ _ h => each_blind ha h.values h.env,
    plain_blind fun _ _ _ => .pure Produced.known_nothing,
    plain_blind fun _ _ h => explode_blind h.values,
    plain_blind (constant_blind fun _ => .bool false),
    plain_blind isMain_blind,
    binary_blind forEach_blind,
    plain_blind implode_blind,
    unary_blind nth_blind,
    plain_blind (constant_blind fun _ => .null),
    plain_blind fun _ _ h => range_blind h.values,
    binary_blind reduce_blind,
    plain_blind (constant_blind fun _ => .bool true)⟩

/-- **All functions are blind.** -/
theorem find?_blind {name : Text} {count : Int} {b : Builtin} (h : registry.find? name count = some b) :
    b.IsBlind := by
  obtain ⟨vector, hvector, hb⟩ := Option.bind_eq_some_iff.1 h
  obtain ⟨_, _, hregistry, -⟩ := List.lookup_eq_some_iff.1 hvector
  have hmem : (name, vector) ∈ registry := by simp [hregistry]
  have hentry : ∀ n, vector.lookup n = some b → b.IsBlind := by
    intro n hn
    obtain ⟨_, _, hsplit, -⟩ := List.lookup_eq_some_iff.1 hn
    exact registry_blind _ hmem (n, b) (by simp [hsplit])
  cases hone : vector.lookup (some count) with
  | none =>
    rw [hone] at hb
    exact hentry none hb
  | some b' =>
    rw [hone] at hb
    cases hb
    exact hentry _ hone

end Builtin

end FilterShell
