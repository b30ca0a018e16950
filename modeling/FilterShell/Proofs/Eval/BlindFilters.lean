import FilterShell.Eval.Run
import FilterShell.Proofs.Eval.Blind
import FilterShell.Proofs.Filter.Reading

/-!
# Filters are blind

How far strings and arrays have been read makes no difference to any filter whose numbers are written by
digits: what it outputs, the variables it leaves and the identities it gives are the same
(`Filter.run_blind`).  The programs are taken in turn, and a filter is blind if its operands are.
-/

namespace FilterShell

variable {f : Filter} {body inner left right : Program} {args : List Meaning} {vs : List Value}
  {clauses : List (Text × Meaning)}

variable {W W' : World}

/-! ### Generators of filters -/

namespace Generate

theorem parens_blind (hbody : Program.IsBlind body) : Generator.IsBlind (parens body) :=
  fun _ _ h => (hbody h).bind fun _ _ _ hresult => .pure (Produced.known_ofRun hresult)

theorem array_blind (hbody : Program.IsBlind body) : Generator.IsBlind (array body) := by
  intro W input h
  refine (hbody h).bind fun W₁ result _ hresult => ?_
  split
  · exact .pure Produced.known_waiting
  refine Produced.ofReading_blind ?_
  exact (Value.ofItems_blind hresult.outputs).bind fun _ _ _ hv => .pure (List.forall_mem_singleton.2 hv)

/-- Collecting pairs makes no containers. -/
theorem pairs_still (hvs : ∀ v ∈ vs, v.Known W) :
    Still W (pairs vs) fun r => r.1.Known W ∧ ∀ p ∈ r.2, Value.KnownPair W p := by
  have hfailure : ∀ {name : String} {p : Produced}, p.Known W →
      Produced.Known W { p with documents := .value (.failure name) :: p.documents } :=
    fun hp => List.forall_mem_cons.2 ⟨.exception _, hp⟩
  induction vs with
  | nil => exact .pure ⟨Produced.known_nothing, by simp⟩
  | cons v vs ih =>
    obtain ⟨hv, hvs⟩ := List.forall_mem_cons.1 hvs
    refine Still.bind (Value.pair_still hv) fun result hresult => ?_
    split
    · refine (ih hvs).bind fun r hr => .pure ⟨hr.1, ?_⟩
      exact List.forall_mem_cons.2 ⟨hresult _ rfl, hr.2⟩
    · exact (ih hvs).bind fun r hr => .pure ⟨hfailure hr.1, hr.2⟩
    · exact (ih hvs).bind fun r hr => .pure ⟨hfailure hr.1, hr.2⟩
    · exact .pure ⟨Produced.known_ofFault _, by simp⟩

theorem object_blind (hbody : Program.IsBlind body) : Generator.IsBlind (object body) := by
  intro W input h
  refine (hbody h).bind fun W₁ result _ hresult => (pairs_still hresult.outputs).andThen fun r hr => ?_
  refine Produced.andThen_blind hr.1 ?_
  split
  · exact .pure Produced.known_waiting
  refine Produced.ofReading_blind ?_
  exact (Value.ofPairs_blind hr.2).bind fun _ _ _ hv => .pure (List.forall_mem_singleton.2 hv)

theorem known_missing (r : Run) : (missing r).Known W := by
  unfold missing
  split
  · exact Produced.known_failure _
  · exact Produced.known_waiting

theorem conditional_blind (hclauses : ∀ c ∈ clauses, c.2.IsBlind)
    (last : Option Bool) : Generator.IsBlind (conditional clauses last) := by
  induction clauses generalizing last with
  | nil => exact fun _ _ _ => .pure Produced.known_nothing
  | cons c rest ih =>
    obtain ⟨word, clause⟩ := c
    obtain ⟨hclause, hrest⟩ := List.forall_mem_cons.1 hclauses
    intro W input h
    unfold conditional
    split
    · refine (hclause.run h.copy).bind fun W₁ result hle hresult => ?_
      split
      · exact .pure (known_missing result)
      · rename_i v vs houtputs
        have hv := hresult.outputs v (by simp [houtputs])
        split
        · exact .pure (Produced.known_value hv)
        · refine Still.andThen (Value.truth_still hv) fun truth _ => ?_
          split
          · exact .pure (Produced.known_ofFault _)
          · exact ih hrest _ ((h.mono hle).next hresult.rest)
    · split
      · split
        · exact .pure (Produced.known_ofFault _)
        · split
          · refine (hclause.run h).bind fun W₁ result hle hresult => ?_
            exact Produced.andThen_blind (Produced.known_ofRun hresult) (ih hrest _ hresult.rest)
          · exact ih hrest _ h
      · exact .pure (Produced.known_ofFault _)

/-- All filters that the clauses say are blind. -/
structure Handlers.IsBlind (h : Handlers) : Prop where
  body      : ∀ m ∈ h.body, m.IsBlind
  caught    : ∀ c ∈ h.caught, c.2.IsBlind
  otherwise : ∀ m ∈ h.otherwise, m.IsBlind
  success   : ∀ m ∈ h.success, m.IsBlind

theorem known_noText (f : Fault) : (noText f).Known W := by
  unfold noText
  split
  · exact Produced.known_waiting
  · exact Produced.known_failure _

theorem handlers_blind (hclauses : ∀ c ∈ clauses, c.2.IsBlind)
    {h : Handlers} (hh : h.IsBlind) {input : Stream} (hinput : input.Known W) :
    Blind W (handlers clauses h input) fun W' r =>
      (∀ p, r = .error p → p.Known W') ∧ ∀ q, r = .ok q → q.1.IsBlind ∧ q.2.Known W' := by
  induction clauses generalizing W h input with
  | nil =>
    refine .pure ⟨by rintro _ ⟨⟩, ?_⟩
    rintro _ ⟨⟩
    exact ⟨hh, hinput⟩
  | cons c rest ih =>
    obtain ⟨word, clause⟩ := c
    obtain ⟨hclause, hrest⟩ := List.forall_mem_cons.1 hclauses
    have hsome : ∀ m ∈ some clause, m.IsBlind := by
      rintro _ ⟨⟩
      exact hclause
    unfold handlers
    split
    · exact ih (h := { h with body := some clause }) hrest
        ⟨hsome, hh.caught, hh.otherwise, hh.success⟩ hinput
    · split
      · refine (sensibleText_blind clause.filter hclause.run hinput.copy).bind fun W₁ r hle hleft => ?_
        split
        · exact ih (h := { h with names := h.names ++ [_] }) hrest
            ⟨hh.body, hh.caught, hh.otherwise, hh.success⟩ ((hinput.mono hle).next hleft)
        · refine .pure ⟨?_, by rintro _ ⟨⟩⟩
          rintro _ ⟨⟩
          exact known_noText _
      · split
        · refine ih (h := { h with caught := h.names.map (·, clause) ++ h.caught }) hrest
            ⟨hh.body, fun c hc => ?_, hh.otherwise, hh.success⟩ hinput
          rcases List.mem_append.1 hc with hc | hc
          · obtain ⟨n, -, rfl⟩ := List.mem_map.1 hc
            exact hclause
          · exact hh.caught c hc
        · split
          · exact ih (h := { h with otherwise := some clause }) hrest
              ⟨hh.body, hh.caught, hsome, hh.success⟩ hinput
          · split
            · exact ih (h := { h with success := some clause }) hrest
                ⟨hh.body, hh.caught, hh.otherwise, hsome⟩ hinput
            · exact ih hrest hh hinput

theorem attempt_blind (hclauses : ∀ c ∈ clauses, c.2.IsBlind) :
    Generator.IsBlind (attempt clauses) := by
  intro W input hinput
  have hempty : Handlers.IsBlind {} := ⟨by simp, by simp, by simp, by simp⟩
  refine (handlers_blind hclauses hempty hinput).bind fun W₁ r _ hr => ?_
  split
  · exact .pure (hr.1 _ rfl)
  · rename_i h input
    obtain ⟨hh, hinput⟩ := hr.2 _ rfl
    split
    · exact .pure (Produced.known_ofFault _)
    · rename_i body hbody
      refine ((hh.body body hbody).run hinput.copy).bind fun W₂ result hle hresult => ?_
      have hhandle : ∀ m : Meaning, m.IsBlind →
          Blind W₂ (do return Produced.ofRun (← m.run (input.next result.rest))) fun W' p => p.Known W' :=
        fun m hm => (hm.run ((hinput.mono hle).next hresult.rest)).bind fun _ _ _ hresult =>
          .pure (Produced.known_ofRun hresult)
      cases result.outputs.findSome? Value.exception? with
      | none =>
        dsimp only
        split
        · exact .pure Produced.known_waiting
        cases hsuccess : h.success with
        | none => exact .pure (Produced.known_ofValues hresult.outputs)
        | some m => exact hhandle m (hh.success m hsuccess)
      | some e =>
        dsimp only
        cases hcaught : h.caught.lookup e.name with
        | some m =>
          obtain ⟨_, _, hsplit, -⟩ := List.lookup_eq_some_iff.1 hcaught
          exact hhandle m (hh.caught (e.name, m) (by simp [hsplit]))
        | none =>
          cases hotherwise : h.otherwise with
          | none => exact .pure (Produced.known_value (.exception e))
          | some m => exact hhandle m (hh.otherwise m hotherwise)

theorem pipe_blind (hleft : Program.IsBlind left) (hright : Program.IsBlind right) :
    Generator.IsBlind (pipe left right) := by
  intro W input h
  refine (hleft h).bind fun W₁ first _ hfirst => ?_
  exact (hright hfirst.stream).bind fun _ _ _ hsecond => .pure (Produced.known_ofRun hsecond)

theorem comma_blind (hleft : Program.IsBlind left) (hright : Program.IsBlind right) :
    Generator.IsBlind (comma left right) := by
  intro W input h
  refine (hright h.copy).bind fun W₁ second hle₁ hsecond => ?_
  refine (hleft ((h.mono hle₁).next hsecond.rest)).bind fun W₂ first hle₂ hfirst => ?_
  refine Produced.andThen_blind (Produced.known_ofRun hfirst) (.pure ?_)
  exact Produced.known_ofValues fun v hv => (hsecond.outputs v hv).mono hle₂

/-- Arrays of two items each. -/
theorem pairEach_blind (hvs : ∀ v ∈ vs, v.Known W) {w : Value} (hw : w.Known W) :
    BlindTry W (vs.mapM fun v => Value.ofItems [v, w]) fun W' ps => ∀ p ∈ ps, p.Known W' := by
  induction vs generalizing W with
  | nil => exact .pure (by simp)
  | cons v vs ih =>
    obtain ⟨hv, hrest⟩ := List.forall_mem_cons.1 hvs
    have hitems : ∀ x ∈ [v, w], x.Known W := List.forall_mem_cons.2 ⟨hv, List.forall_mem_singleton.2 hw⟩
    rw [List.mapM_cons]
    refine (Value.ofItems_blind hitems).bind fun W₁ p hle₁ hp => ?_
    refine (ih (fun v hv => (hrest v hv).mono hle₁) (hw.mono hle₁)).bind fun W₂ ps hle₂ hps => .pure ?_
    exact List.forall_mem_cons.2 ⟨hp.mono hle₂, hps⟩

theorem pair_blind (hleft : Program.IsBlind left) (hright : Program.IsBlind right) :
    Generator.IsBlind (pair left right) := by
  intro W input h
  refine (hright h.copy).bind fun W₁ second hle₁ hsecond => ?_
  split
  · exact .pure (known_missing second)
  · rename_i w ws houtputs
    have hw := hsecond.outputs w (by simp [houtputs])
    refine (hleft ((h.mono hle₁).next hsecond.rest)).bind fun W₂ first hle₂ hfirst => ?_
    refine Produced.ofReading_andThen_blind ?_ fun W₃ _ => .pure (Produced.known_ending _)
    exact pairEach_blind hfirst.outputs (hw.mono hle₂)

theorem combined_blind {op : Value → Value → Reading Value} (hop : Combine.IsBlind op)
    (hleft : Program.IsBlind left) (hright : Program.IsBlind right) :
    Generator.IsBlind (combined op left right) := by
  intro W input h
  refine (hleft h.copy).bind fun W₁ first hle₁ hfirst => ?_
  split
  · exact .pure Produced.known_waiting
  refine (hright ((h.mono hle₁).next hfirst.rest)).bind fun W₂ second hle₂ hsecond => ?_
  split
  · exact .pure Produced.known_waiting
  refine Combine.all_blind hop ?_
  exact Combine.known_paired (fun v hv => (hfirst.outputs v hv).mono hle₂) hsecond.outputs

theorem command_blind (operand : Filter) (hinner : Program.IsBlind inner) :
    Generator.IsBlind (command operand inner) := by
  intro W input h
  refine (sensibleText_blind operand hinner h.copy).bind fun W₁ r hle hleft => ?_
  split
  · exact .pure (known_noText _)
  · exact Command.run_blind _ _ ((h.mono hle).next hleft)

end Generate

/-! ### Programs -/

namespace Program

theorem call_blind (name : Text) (hargs : ∀ m ∈ args, m.IsBlind) {missing : Value}
    (hmissing : ∀ W, missing.Known W) : IsBlind (call name args missing) := by
  intro W input h
  unfold call
  split
  · exact .pure (Run.known_waiting (by simp) h)
  · split
    · rename_i b hb
      exact ofBuiltin_blind (Builtin.find?_blind hb args hargs) h
    · exact .pure (known_thrown (by simp) (hmissing W) h)

theorem known_missingName (name : Text) : (missingName name).Known W := .exception _

theorem name_blind (n : Text) : IsBlind (name n) := by
  intro W input h
  unfold name
  split
  · exact .pure (Run.known_waiting (by simp) h)
  · split
    · rename_i vs hvs
      exact .pure ⟨Namespace.known_lookup h.env.locals hvs, h.env, h⟩
    · refine call_blind n (by simp) (fun W => ?_) h
      split
      · exact .exception _
      · exact known_missingName n

theorem identity_blind : IsBlind identity := by
  intro W input h
  unfold identity
  split
  · exact .pure ⟨by simp [Run.waiting], h.env, h⟩
  · exact .pure ⟨h.values, h.env, h.read⟩

/-- Digits make a number without sign. -/
theorem decimal_blind {before after : Text} (hbefore : ∀ r ∈ before, r.isDigit)
    (hafter : ∀ r ∈ after, r.isDigit) : IsBlind (decimal before after) := by
  intro W input h
  unfold decimal
  split
  · rename_i d hd
    refine .pure ⟨List.forall_mem_singleton.2 ?_, h.env, h⟩
    refine .number 0 (Decimal.read?_unsigned (fun r hr => ?_) hd)
    rcases List.mem_append.1 hr with hr | hr
    · rcases List.mem_append.1 hr with hr | hr
      · exact .inl (hbefore r hr)
      · exact .inr (List.mem_singleton.1 hr)
    · exact .inl (hafter r hr)
  · exact .pure (Run.known_waiting (by simp) h)

/-- What a key finds is known, and so is the exception. -/
def KnownEither (W : World) : Except Value Value → Prop
  | .ok w    => w.Known W
  | .error e => e.Known W

/-- To look up a key makes no containers. -/
theorem find_still {key v : Value} (hkey : key.Known W) (hv : v.Known W) :
    StillTry W (find key v) (KnownEither W) := by
  have hfailure : ∀ name, KnownEither W (.error (.failure name)) := fun name => .exception _
  cases hv with
  | exception e => exact .pure (hfailure _)
  | null => exact .pure (hfailure _)
  | bool b => exact .pure (hfailure _)
  | number id hd => exact .pure (hfailure _)
  | string hid => exact .pure (hfailure _)
  | array hid hitems =>
    cases hkey with
    | number id hd =>
      refine (Combine.isWhole_still _).bind fun whole _ => ?_
      split
      · exact .pure (hfailure _)
      -- Both the item and the exceptions return out of the block; only other faults are thrown on.
      · refine StillTry.bind (P := fun e => EarlyReturn.runK e (KnownEither W) (KnownEither W))
          (StillTry.rescue ?_ fun f => ?_) fun e he => ?_
        · refine (Reading.itemAt_still hid (Decimal.toInt_nonneg hd)).bind fun w hw => ?_
          exact .pure (hitems w hw)
        · split
          · exact .pure (hfailure _)
          · exact .pure (hfailure _)
          · exact StillTry.bind (P := fun _ => False) .throw fun _ h => h.elim
        · cases e with
          | error r => exact .pure he
          | ok r => exact .pure he
    | _ => exact .pure (hfailure _)
  | object hid hkeys hvalues =>
    have hpairs p hp := And.intro (hkeys p hp) (hvalues p hp)
    refine (Relations.lookup?_still hid hpairs _ hkey).bind fun found hfound => ?_
    split
    · exact .pure (hfound _ rfl)
    · exact .pure (hfailure _)

theorem findAll_still {key : Value} (hkey : key.Known W) (hvs : ∀ v ∈ vs, v.Known W) :
    Still W (findAll key vs) fun r => (∀ w ∈ r.1, w.Known W) ∧ ∀ e, r.2 = .ok (some e) → e.Known W := by
  induction vs with
  | nil => exact .pure ⟨by simp, by simp⟩
  | cons v vs ih =>
    obtain ⟨hv, hvs⟩ := List.forall_mem_cons.1 hvs
    refine Still.bind (find_still hkey hv) fun r hr => ?_
    split
    · exact .pure ⟨by simp, by simp⟩
    · refine .pure ⟨by simp, ?_⟩
      rintro _ ⟨⟩
      exact hr _ rfl
    · refine (ih hvs).bind fun rest hrest => .pure ⟨?_, hrest.2⟩
      exact List.forall_mem_cons.2 ⟨hr _ rfl, hrest.1⟩

theorem lookup_blind {key : Meaning} (hkey : key.IsBlind) : IsBlind (lookup key) := by
  intro W input h
  refine (hkey.run h.copy).bind fun W₁ result hle hresult => ?_
  have h := h.mono hle
  split
  · split
    · exact .pure (known_thrown (by simp) (.exception _) h.spent)
    · exact .pure (Run.known_waiting (by simp) h.spent)
  · rename_i k ks houtputs
    have hread := h.next hresult.rest
    refine (findAll_still (hresult.outputs k (by simp [houtputs])) hread.values).andThen fun r hr => ?_
    split
    · exact .pure (Run.known_waiting hr.1 h.spent)
    · exact .pure (known_thrown hr.1 (hr.2 _ rfl) h.spent)
    · split
      · exact .pure (Run.known_waiting hr.1 h.spent)
      · exact .pure ⟨hr.1, hread.env, h.spent⟩

theorem argumentTexts_blind {input part : Stream} (hargs : ∀ m ∈ args, m.IsBlind)
    (h : input.Known W) (hpart : part.Known W) :
    Blind W (argumentTexts input args part) fun W' r => r.2.Known W' := by
  induction args generalizing W part with
  | nil => exact .pure hpart
  | cons m args ih =>
    obtain ⟨hm, hargs⟩ := List.forall_mem_cons.1 hargs
    refine (sensibleText_blind m.filter hm.run hpart).bind fun W₁ r hle hleft => ?_
    split
    · exact .pure hleft
    · have h := h.mono hle
      exact (ih hargs h (h.next hleft)).bind fun _ _ _ hleft => .pure hleft

theorem known_textless (f : Fault) {rest : Stream} (hrest : rest.Known W) : (textless f rest).Known W := by
  unfold textless
  split
  · exact Run.known_waiting (by simp) hrest
  · exact known_thrown (by simp) (.exception _) hrest

theorem commandWith_blind (operand : Filter) (hinner : IsBlind inner)
    (hargs : ∀ m ∈ args, m.IsBlind) : IsBlind (commandWith operand inner args) := by
  intro W input h
  refine (sensibleText_blind operand hinner h.copy).bind fun W₁ r hle hleft => ?_
  have h := h.mono hle
  split
  · exact .pure (known_textless _ h.spent)
  · refine (argumentTexts_blind hargs h (h.next hleft)).bind fun W₂ texts hle hpart => ?_
    have h := h.mono hle
    split
    · exact .pure (known_textless _ h.spent)
    · refine (Command.run_blind _ _ hpart).bind fun W₃ produced hle₃ hproduced => ?_
      refine (Produced.values_blind hproduced).bind fun W₄ ⟨outputs, fault⟩ hle₄ hmade => ?_
      have hle := hle₃.trans hle₄
      have h := h.mono hle
      dsimp only
      split
      · exact .pure (Run.known_waiting hmade h.spent)
      · exact .pure ⟨hmade, hpart.env.mono hle, h.spent⟩

theorem function_blind {head : Meaning} (hhead : head.IsBlind)
    (hargs : ∀ m ∈ args, m.IsBlind) : IsBlind (function head args) := by
  intro W input h
  refine (sensibleText_blind head.filter hhead.run h.copy).bind fun W₁ r hle hleft => ?_
  have h := h.mono hle
  split
  · exact .pure (known_textless _ h.spent)
  · rename_i name _
    refine (call_blind name hargs (fun W => ?_) (h.next hleft)).bind fun W₂ result hle₂ hresult => .pure ?_
    · split
      · exact .exception _
      · exact known_missingName name
    · exact ⟨hresult.outputs, hresult.env, (h.mono hle₂).spent⟩

/-- What a row does depends on the filters alone. -/
theorem apply_blind {parts : List Meaning} (hparts : ∀ m ∈ parts, m.IsBlind) : IsBlind (apply parts) := by
  unfold apply
  split
  · exact identity_blind
  · split
    · exact identity_blind
    · rename_i head args _
      obtain ⟨hhead, hargs⟩ := List.forall_mem_cons.1 hparts
      split
      · rename_i before _ second hfilter _
        -- Two numbers around a point are read as one, so its digits are those of both.
        split
        · rename_i after hafter
          obtain ⟨value, hsecond⟩ : ∃ d, second.filter = .number after d := by
            unfold digits? at hafter
            split at hafter
            · cases hafter
              exact ⟨_, ‹_›⟩
            · cases hafter
          exact decimal_blind (hhead.digits _ _ hfilter)
            ((hargs second List.mem_cons_self).digits _ _ hsecond)
        · exact function_blind hhead hargs
      · exact lookup_blind (hargs _ List.mem_cons_self)
      · exact commandWith_blind _ hhead.inner hargs
      · exact function_blind hhead hargs

theorem known_bindOutputs {env : Environment} (henv : env.Known W) (outputs : List Value)
    {set : Environment → Environment} (hset : (set env).Known W) :
    (bindOutputs env outputs set).Known W := by
  unfold bindOutputs
  split
  · exact henv.filled
  · exact hset

theorem assign_blind {left right : Meaning} (hleft : left.IsBlind) (hright : right.IsBlind) :
    IsBlind (assign left right) := by
  intro W input h
  refine (hright.run h.copy).bind fun W₁ result hle hresult => ?_
  have h := h.mono hle
  have htarget := h.next hresult.rest
  have henv := htarget.env
  dsimp only
  split
  · rename_i n _
    have hbound := Namespace.known_bind henv.locals n hresult.outputs
    refine .pure ⟨htarget.values, ?_, h.spent⟩
    dsimp only
    split
    · exact known_bindOutputs henv _ ⟨henv.globals, hbound, henv.formats, henv.context, henv.comes⟩
    · exact henv.withoutLocals
  · split
    · exact .pure ⟨htarget.values, henv.withoutGlobals, h.spent⟩
    · refine (sensibleText_blind _ hleft.inner htarget.read).bind fun W₂ r hle₂ _ => ?_
      have h := h.mono hle₂
      have htarget := htarget.mono hle₂
      have henv := htarget.env
      split
      · split
        · exact .pure ⟨htarget.values, henv.withoutGlobals, h.spent⟩
        · exact .pure ⟨htarget.values, henv.filled, h.spent⟩
      · rename_i n _
        split
        · exact .pure ⟨htarget.values, henv.withoutGlobals, h.spent⟩
        · have hbound := Namespace.known_bind henv.globals n fun v hv => (hresult.outputs v hv).mono hle₂
          refine .pure ⟨htarget.values, ?_, h.spent⟩
          dsimp only
          exact known_bindOutputs henv _ ⟨hbound, henv.locals, henv.formats, henv.context, henv.comes⟩
  · exact .pure (known_thrown (by simp) (.exception _) h.spent)

theorem semicolon_blind (hleft : IsBlind left) (hright : IsBlind right) :
    IsBlind (semicolon left right) := by
  intro W input h
  refine (hleft h.copy).bind fun W₁ first hle₁ hfirst => ?_
  have h := h.mono hle₁
  split
  · exact .pure (Run.known_waiting (by simp) h.spent)
  have hnext : Stream.Known W₁ { input.next first.rest with env := first.env } :=
    ⟨(h.next hfirst.rest).values, hfirst.env⟩
  refine (hright hnext).bind fun W₂ second hle₂ hsecond => ?_
  have h := h.mono hle₂
  split
  · exact .pure (Run.known_waiting hsecond.outputs h.spent)
  · exact .pure ⟨hsecond.outputs, hsecond.env, h.spent⟩

theorem globalVariable_blind (operand : Filter) (hinner : IsBlind inner) :
    IsBlind (globalVariable operand inner) := by
  intro W input h
  refine (sensibleText_blind operand hinner h).bind fun W₁ r hle hr => ?_
  have henv := h.env.mono hle
  have hwaits : ({ Run.waiting [] r.2 with env := input.env } : Run).Known W₁ :=
    ⟨by simp [Run.waiting], henv, hr⟩
  dsimp only
  split
  · split
    · exact .pure hwaits
    · exact .pure ⟨List.forall_mem_singleton.2 (.exception _), henv.filled, hr⟩
  · rename_i n _
    split
    · exact .pure hwaits
    · split
      · rename_i vs hvs
        exact .pure ⟨Namespace.known_lookup henv.globals hvs, henv, hr⟩
      · exact .pure ⟨List.forall_mem_singleton.2 (known_missingName n), henv.filled, hr⟩

end Program

/-! ### Filters -/

theorem Meaning.inner_blind :
    Program.IsBlind fun input => return { outputs := [], env := input.env, rest := input } :=
  fun _ _ h => .pure ⟨by simp, h.env, h⟩

theorem Meaning.ofGenerator_blind {filter : Filter} {g : Generator} (hg : Generator.IsBlind g)
    (hdigits : ∀ t d, filter = .number t d → ∀ r ∈ t, r.isDigit) : (Meaning.ofGenerator filter g).IsBlind :=
  ⟨Program.ofGenerator_blind hg, Meaning.inner_blind, hdigits⟩

namespace Filter

/-- Every number in the filter is written by digits, and so it is not negative. -/
def Digital (f : Filter) : Prop :=
  ∀ t d, .number t d ∈ f.nodes → (∀ r ∈ t, r.isDigit) ∧ d.isNegative = false

theorem Digital.mono {g : Filter} (hf : f.Digital) (h : g.nodes ⊆ f.nodes) : g.Digital :=
  fun t d hd => hf t d (h hd)

theorem mem_meanings {parts : List Filter} {m : Meaning} (h : m ∈ meanings parts) :
    ∃ f ∈ parts, m = f.meaning := by
  induction parts with
  | nil => cases h
  | cons f parts ih =>
    rcases List.mem_cons.1 h with rfl | h
    · exact ⟨f, List.mem_cons_self, rfl⟩
    · obtain ⟨g, hg, rfl⟩ := ih h
      exact ⟨g, List.mem_cons_of_mem _ hg, rfl⟩

theorem mem_clauseMeanings {clauses : List (Text × Filter)} {c : Text × Meaning}
    (h : c ∈ clauseMeanings clauses) : ∃ d ∈ clauses, c.2 = d.2.meaning := by
  induction clauses with
  | nil => cases h
  | cons d clauses ih =>
    rcases List.mem_cons.1 h with rfl | h
    · exact ⟨d, List.mem_cons_self, rfl⟩
    · obtain ⟨e, he, heq⟩ := ih h
      exact ⟨e, List.mem_cons_of_mem _ he, heq⟩

/-- A clause is smaller than the clauses. -/
theorem sizeOf_clause {clauses : List (Text × Filter)} {c : Text × Filter} (h : c ∈ clauses) :
    sizeOf c.2 < sizeOf clauses := by
  have hlt := List.sizeOf_lt_of_mem h
  obtain ⟨word, g⟩ := c
  rw [Prod.mk.sizeOf_spec] at hlt
  dsimp only
  omega

theorem binary_blind (op : Operator) {l r : Filter} (hl : l.meaning.IsBlind) (hr : r.meaning.IsBlind) :
    (binary op l r).meaning.IsBlind := by
  cases op with
  | dot =>
    have hboth : ∀ m ∈ [l.meaning, r.meaning], m.IsBlind :=
      List.forall_mem_cons.2 ⟨hl, List.forall_mem_singleton.2 hr⟩
    exact ⟨Program.apply_blind hboth, Meaning.inner_blind, by rintro _ _ ⟨⟩⟩
  | multiply =>
    exact Meaning.ofGenerator_blind (Generate.combined_blind Combine.multiply_blind hl.run hr.run)
      (by rintro _ _ ⟨⟩)
  | add =>
    exact Meaning.ofGenerator_blind (Generate.combined_blind Combine.add_blind hl.run hr.run)
      (by rintro _ _ ⟨⟩)
  | pair => exact Meaning.ofGenerator_blind (Generate.pair_blind hl.run hr.run) (by rintro _ _ ⟨⟩)
  | comma => exact Meaning.ofGenerator_blind (Generate.comma_blind hl.run hr.run) (by rintro _ _ ⟨⟩)
  | assign => exact ⟨Program.assign_blind hl hr, Meaning.inner_blind, by rintro _ _ ⟨⟩⟩
  | pipe => exact Meaning.ofGenerator_blind (Generate.pipe_blind hl.run hr.run) (by rintro _ _ ⟨⟩)
  | semicolon => exact ⟨Program.semicolon_blind hl.run hr.run, Meaning.inner_blind, by rintro _ _ ⟨⟩⟩

theorem meaning_blind (hf : f.Digital) : f.meaning.IsBlind := by
  induction hn : sizeOf f using Nat.strong_induction_on generalizing f with
  | _ n ih =>
    subst hn
    -- The operands have no numbers but those of the filter, so they are digital, and they are smaller.
    have hbelow : ∀ g : Filter, sizeOf g < sizeOf f → g.nodes ⊆ f.nodes → g.meaning.IsBlind :=
      fun g hlt hsub => ih _ hlt (hf.mono hsub) rfl
    have hclauses : ∀ clauses : List (Text × Filter), sizeOf clauses < sizeOf f →
        clauseNodes clauses ⊆ f.nodes → ∀ c ∈ clauseMeanings clauses, c.2.IsBlind := by
      intro clauses hlt hsub c hc
      obtain ⟨d, hd, heq⟩ := mem_clauseMeanings hc
      rw [heq]
      refine hbelow d.2 ((sizeOf_clause hd).trans hlt) fun n hn => ?_
      exact hsub (mem_clauseNodes.2 ⟨d, hd, hn⟩)
    cases f with
    | empty =>
      exact Meaning.ofGenerator_blind (fun _ _ _ => .pure Produced.known_nothing) (by rintro _ _ ⟨⟩)
    | nameless =>
      exact Meaning.ofGenerator_blind (fun _ _ _ => .pure Produced.known_nothing) (by rintro _ _ ⟨⟩)
    | textless =>
      exact Meaning.ofGenerator_blind (fun _ _ _ => .pure Produced.known_nothing) (by rintro _ _ ⟨⟩)
    | parens g =>
      have hg := hbelow g (by rw [parens.sizeOf_spec]; omega) (by simp [nodes])
      exact Meaning.ofGenerator_blind (Generate.parens_blind hg.run) (by rintro _ _ ⟨⟩)
    | array g =>
      have hg := hbelow g (by rw [array.sizeOf_spec]; omega) (by simp [nodes])
      exact Meaning.ofGenerator_blind (Generate.array_blind hg.run) (by rintro _ _ ⟨⟩)
    | object g =>
      have hg := hbelow g (by rw [object.sizeOf_spec]; omega) (by simp [nodes])
      exact Meaning.ofGenerator_blind (Generate.object_blind hg.run) (by rintro _ _ ⟨⟩)
    | conditional clauses =>
      have hall := hclauses clauses (by rw [conditional.sizeOf_spec]; omega) (List.subset_cons_self _ _)
      exact Meaning.ofGenerator_blind (Generate.conditional_blind hall none) (by rintro _ _ ⟨⟩)
    | attempt clauses =>
      have hall := hclauses clauses (by rw [attempt.sizeOf_spec]; omega) (List.subset_cons_self _ _)
      exact Meaning.ofGenerator_blind (Generate.attempt_blind hall) (by rintro _ _ ⟨⟩)
    | name n => exact ⟨Program.name_blind n, Meaning.inner_blind, by rintro _ _ ⟨⟩⟩
    | number t d =>
      obtain ⟨hdigits, hsign⟩ := hf t d (mem_nodes_self _)
      refine Meaning.ofGenerator_blind (fun _ _ _ => Produced.ofReading_blind ?_) ?_
      · exact (Value.ofDecimal_blind hsign).bind fun _ _ _ hv => .pure (List.forall_mem_singleton.2 hv)
      · rintro _ _ ⟨⟩
        exact hdigits
    | string t =>
      refine Meaning.ofGenerator_blind (fun _ _ _ => Produced.ofReading_blind ?_) (by rintro _ _ ⟨⟩)
      exact (Value.ofText_blind t).bind fun _ _ _ hv => .pure (List.forall_mem_singleton.2 hv)
    | binary op l r =>
      have hl := hbelow l (by rw [binary.sizeOf_spec]; omega) fun n hn => by simp [nodes, hn]
      have hr := hbelow r (by rw [binary.sizeOf_spec]; omega) fun n hn => by simp [nodes, hn]
      exact binary_blind op hl hr
    | apply parts =>
      refine ⟨Program.apply_blind fun m hm => ?_, Meaning.inner_blind, by rintro _ _ ⟨⟩⟩
      obtain ⟨g, hg, rfl⟩ := mem_meanings hm
      have hlt := List.sizeOf_lt_of_mem hg
      refine hbelow g (by rw [apply.sizeOf_spec]; omega) fun n hn => ?_
      exact List.mem_cons_of_mem _ (mem_partNodes.2 ⟨g, hg, hn⟩)
    | command g =>
      have hg := hbelow g (by rw [command.sizeOf_spec]; omega) (by simp [nodes])
      exact ⟨Program.ofGenerator_blind (Generate.command_blind g hg.run), hg.run, by rintro _ _ ⟨⟩⟩
    | globalVariable g =>
      have hg := hbelow g (by rw [globalVariable.sizeOf_spec]; omega) (by simp [nodes])
      exact ⟨Program.globalVariable_blind g hg.run, hg.run, by rintro _ _ ⟨⟩⟩

/-- **How far strings and arrays have been read makes no difference to a filter.** -/
theorem run_blind (hf : f.Digital) : Program.IsBlind f.run := (meaning_blind hf).run

/-- The numbers of a source are written by digits. -/
theorem digital_ofSource {p : Permissions} {lines : Bool} {source : Text}
    (h : ofSource p lines source = .ok f) : f.Digital := by
  obtain ⟨ts, items, -, hts, hg, hf⟩ := ofSource_sound h
  have hbuilt : f.AllBuilt p Token.Regular :=
    hf.allBuilt hg.within (hg.builtFrom fun t ht => (hts t ht).2)
  intro w d hnode
  have hnumber := hbuilt _ hnode
  generalize hn : Filter.number w d = n at hnumber
  cases hnumber with
  | bracket =>
    unfold Bracket.wrapped at hn
    split at hn <;> cases hn
  | unary hu =>
    unfold Operators.unary? at hu
    split at hu <;> cases hu <;> cases hn
  | atom ht hatom =>
    subst hn
    unfold Operators.atom? at hatom
    split at hatom
    all_goals try cases hatom
    rename_i u hkind htext
    split at hatom
    · rename_i value hvalue
      cases hatom
      rw [Token.Regular, hkind] at ht
      obtain ⟨v, hv, -, hdigits⟩ := ht
      cases hv.symm.trans htext
      exact ⟨hdigits, Decimal.read?_unsigned (fun r hr => .inl (hdigits r hr)) hvalue⟩
    · cases hatom
  | _ => cases hn

end Filter

end FilterShell
