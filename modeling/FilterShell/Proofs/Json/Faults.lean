import FilterShell.Eval.Command
import FilterShell.Proofs.Json.Outcomes
import FilterShell.Proofs.Json.Sequence

/-!
# Where reading JSON faults

The tokens that have been read tell which token faults behind them (`Reached.faulty_iff`): one that begins a
value behind a whole document, or a value that cannot be put where it stands.  So it is known of all tokens
whether reading them faults, as one document (`readAll_faults`) or as several (`readMany_faults`).  Everything
else that fails is an error of the document (`reading_faults`).
-/

namespace FilterShell.Json

variable {stage : Stage}

variable {t : Token} {ts us : List Token} {s s' : Store} {st st' : State} {fs : List Frame} {d : Document}
  {p : Nat}

/-- A value may stand behind the tokens. -/
def Awaits (us : List Token) : Prop := ∃ o ws x, o.kind = .openArray ∧ IsValue (us ++ o :: ws) x

/-- The tokens are a whole value, and another one begins behind it. -/
def Exceeds (us : List Token) (t : Token) : Prop := Begins t ∧ ∃ x, IsValue us x

/-- A value begins behind the tokens that cannot be put there: it is a number that is too long, or a string
with a surrogate that is not the whole document, or its key is such a string. -/
def Unfit (us : List Token) (t : Token) : Prop :=
  Begins t ∧ Awaits us ∧ (¬ t.Fits ∨ us ≠ [] ∧ ¬ t.WellFormed ∨
    ∃ ws k c, us = ws ++ [k, c] ∧ c.kind = .colon ∧ ¬ k.WellFormed)

/-! ### The tokens that have been read -/

/-- The tokens have been read, and this is the state after them. -/
structure Reached (us : List Token) (st : State) : Prop where
  behind : Behind us st
  demand : ∀ ts, (∃ x, IsValue (us ++ ts) x) ↔ Completes st ts
  /-- The document was not complete before. -/
  early : ∀ a b, us = a ++ b → b ≠ [] → ∀ x, ¬ IsValue a x

theorem reached_start : Reached [] start := by
  refine ⟨.start, completes_start, fun a b h hb => ?_⟩
  exact absurd (List.append_eq_nil_iff.1 h.symm).2 hb

section Reached

variable (h : Reached us st)

include h

/-- The tokens are a document exactly if the state is done. -/
theorem Reached.whole_iff : (∃ x, IsValue us x) ↔ ∃ d, st = .done d := by
  have hdemand := h.demand []
  rw [List.append_nil] at hdemand
  rw [hdemand]
  constructor
  · exact h.behind.completes_nil
  · rintro ⟨d, rfl⟩
    exact rfl

/-- One more token. -/
theorem Reached.step (hrun : (stepToken p t st).run.run s = (.ok st', s')) (hbehind : Behind (us ++ [t]) st')
    (hdemand : ∀ ts, Completes st (t :: ts) ↔ Completes st' ts) : Reached (us ++ [t]) st' := by
  refine ⟨hbehind, fun ts => ?_, fun a b hab hb x hx => ?_⟩
  · rw [List.append_assoc]
    exact (h.demand (t :: ts)).trans (hdemand ts)
  · obtain rfl | ⟨b, t', rfl⟩ := List.eq_nil_or_concat b
    · exact hb rfl
    rw [List.concat_eq_append, ← List.append_assoc] at hab
    have hus : us = a ++ b := (List.append_inj' hab rfl).1
    by_cases hempty : b = []
    · rw [hempty, List.append_nil] at hus
      obtain ⟨d, rfl⟩ := h.whole_iff.1 ⟨x, hus ▸ hx⟩
      obtain ⟨e, s₁, herror⟩ := done_step_error (t := t) d p s
      cases hrun.symm.trans herror
    · exact h.early a b hus hempty x hx

/-- A value is awaited behind the tokens exactly if the state awaits one. -/
theorem Reached.awaits_iff :
    Awaits us ↔ ∃ fs, st = .reading .value fs ∨ st = .reading .firstItem fs := by
  constructor
  · rintro ⟨o, ws, x, ho, hx⟩
    have hst := (h.demand (o :: ws)).1 ⟨x, hx⟩
    cases h.behind with
    | done => cases hst
    | start | item | member => exact ⟨_, .inl rfl⟩
    | firstItem => exact ⟨_, .inr rfl⟩
    | firstKey =>
      rw [Completes, starts_enclosed] at hst
      rcases hst with hst | hst
      · cases ho.symm.trans hst.1
      · exact absurd hst (not_starts_members (by simp [ho]))
    | key => exact absurd hst (not_starts_members (by simp [ho]))
    | colon => cases ho.symm.trans hst.1
    | @next _ f fs =>
      cases f <;> rw [Completes, Closing] at hst <;>
        exact absurd hst (not_goes (by simp [ho]) (by simp [ho]))
  · rintro ⟨fs, rfl | rfl⟩
    · obtain ⟨o, ws, ho, hvalue⟩ := exists_value fs
      obtain ⟨x, hx⟩ := (h.demand (o :: ws)).2 hvalue
      exact ⟨o, ws, x, ho, hx⟩
    · cases h.behind with
      | firstItem hc hfs =>
        obtain ⟨o, ws, ho, hvalue⟩ := exists_value (.array [] :: _)
        obtain ⟨x, hx⟩ := (h.demand (o :: ws)).2 (starts_enclosed.2 (.inr (starts_separated.2 hvalue)))
        exact ⟨o, ws, x, ho, hx⟩

end Reached

/-- What keeps a value from the innermost container is found in the last tokens. -/
theorem Behind.spoiled_iff (h : Behind us (.reading stage fs))
    (hstage : stage = .value ∨ stage = .firstItem) : Spoiled t fs ↔ ¬ t.Fits ∨ us ≠ [] ∧ ¬ t.WellFormed ∨
      ∃ ws k c, us = ws ++ [k, c] ∧ c.kind = .colon ∧ ¬ k.WellFormed := by
  have hitem : ∀ {us : List Token} {c : Token} {items : List Value} {fs : List Frame}, c.kind ≠ .colon →
      (Spoiled t (.array items :: fs) ↔ ¬ t.Fits ∨ us ++ [c] ≠ [] ∧ ¬ t.WellFormed ∨
        ∃ ws k c', us ++ [c] = ws ++ [k, c'] ∧ c'.kind = .colon ∧ ¬ k.WellFormed) := by
    intro us c items fs hc
    have hkey : ¬ ∃ ws k c', us ++ [c] = ws ++ [k, c'] ∧ c'.kind = Token.Kind.colon ∧ ¬ k.WellFormed := by
      rintro ⟨ws, k, c', heq, hc', -⟩
      have hlast := congrArg List.getLast? heq
      rw [List.getLast?_concat, List.append_cons, List.getLast?_concat] at hlast
      exact hc (Option.some.inj hlast ▸ hc')
    simp only [Spoiled, held_array, not_true, or_false, hkey, ne_eq, List.append_eq_nil_iff,
      List.cons_ne_nil, and_false, not_false_eq_true, true_and]
  cases h with
  | start => simp [Spoiled]
  | item hc hfs => exact hitem hc
  | firstItem hc hfs => exact hitem hc
  | @member us k c pairs fs hk hc hfs =>
    have hheld : (Frame.object pairs k.text).Held ↔ k.WellFormed :=
      ⟨fun h w _ hw => h w hw, fun h w hw => h w hk hw⟩
    have hkey : (∃ ws k' c', us ++ [k, c] = ws ++ [k', c'] ∧ c'.kind = Token.Kind.colon ∧
        ¬ k'.WellFormed) ↔ ¬ k.WellFormed := by
      constructor
      · rintro ⟨ws, k', c', heq, -, hk'⟩
        obtain ⟨-, hlast⟩ := List.append_inj' heq rfl
        rwa [(List.cons.inj hlast).1]
      · exact fun hwell => ⟨us, k, c, rfl, hc, hwell⟩
    simp only [Spoiled, hheld, hkey, ne_eq, List.append_eq_nil_iff, List.cons_ne_nil, and_false,
      not_false_eq_true, true_and]
  | firstKey | key | colon | next => exact absurd hstage (by simp)

/-- **The tokens tell which token faults behind them.** -/
theorem Reached.faulty_iff (h : Reached us st) : Faulty t st ↔ Exceeds us t ∨ Unfit us t := by
  have hvalue : ∀ {stage : Stage} {fs : List Frame}, st = .reading stage fs →
      (stage = .value ∨ stage = .firstItem) → (Begins t ∧ Spoiled t fs ↔ Exceeds us t ∨ Unfit us t) := by
    rintro stage fs rfl hstage
    have hawaits : Awaits us := h.awaits_iff.2 ⟨fs, by rcases hstage with rfl | rfl <;> simp⟩
    have hexceeds : ¬ Exceeds us t := fun hexceeds => by simpa using h.whole_iff.1 hexceeds.2
    rw [h.behind.spoiled_iff hstage, or_iff_right hexceeds, Unfit, and_iff_right hawaits]
  have hother : (¬ ∃ d, st = .done d) → (¬ ∃ fs, st = .reading .value fs ∨ st = .reading .firstItem fs) →
      ¬ (Exceeds us t ∨ Unfit us t) := by
    rintro hdone hreading (hexceeds | hunfit)
    · exact hdone (h.whole_iff.1 hexceeds.2)
    · exact hreading (h.awaits_iff.1 hunfit.2.1)
  cases st with
  | done d =>
    have hwhole : ∃ x, IsValue us x := h.whole_iff.2 ⟨d, rfl⟩
    have hawaits : ¬ Awaits us := by simp [h.awaits_iff]
    rw [Faulty, Exceeds, Unfit, and_iff_left hwhole, or_iff_left fun hunfit => hawaits hunfit.2.1]
  | reading stage fs =>
    cases stage with
    | value => exact hvalue rfl (.inl rfl)
    | firstItem => exact hvalue rfl (.inr rfl)
    | firstKey | key | colon | next =>
      exact iff_of_false id (hother (by simp) (by simp))

/-! ### All tokens -/

/-- A place among tokens is the first one, or behind it. -/
theorem exists_place_cons {P : List Token → Token → Prop} :
    (∃ vs t' ws, t :: ts = vs ++ t' :: ws ∧ P (us ++ vs) t') ↔
      P us t ∨ ∃ vs t' ws, ts = vs ++ t' :: ws ∧ P (us ++ [t] ++ vs) t' := by
  constructor
  · rintro ⟨_ | ⟨v, vs⟩, t', ws, heq, hP⟩
    · cases heq
      exact .inl (by rwa [List.append_nil] at hP)
    · cases heq
      exact .inr ⟨vs, t', ws, rfl, by rwa [List.append_assoc]⟩
  · rintro (hP | ⟨vs, t', ws, rfl, hP⟩)
    · exact ⟨[], t, ts, rfl, by rwa [List.append_nil]⟩
    · exact ⟨t :: vs, t', ws, rfl, by rwa [List.append_assoc] at hP⟩

/-- Before a fault the tokens can be completed. -/
theorem exists_isValue (h : Exceeds us t ∨ Unfit us t) : ∃ ws x, IsValue (us ++ ws) x := by
  rcases h with ⟨-, x, hx⟩ | ⟨-, ⟨o, ws, x, -, hx⟩, -⟩
  · exact ⟨[], x, by rwa [List.append_nil]⟩
  · exact ⟨o :: ws, x, hx⟩

/-- **One document faults** exactly if a value begins behind a whole one, or one that is unfit. -/
theorem readAll_faults (values : Bool) (hts : ∀ t ∈ ts, t.Regular) (h : Reached us st) (p : Nat) (s : Store) :
    (∃ f s', (readAll values p st (ts.map .token)).run.run s = (.error (.fault f), s')) ↔
      ∃ vs t ws, ts = vs ++ t :: ws ∧ (Exceeds (us ++ vs) t ∨ Unfit (us ++ vs) t) := by
  induction ts generalizing us st p s with
  | nil =>
    refine iff_of_false ?_ ?_
    · rintro ⟨f, s', hrun⟩
      cases st with
      | done d => cases hrun
      | reading stage fs =>
        obtain ⟨e, he, hincomplete⟩ := finish_incomplete p stage fs
        rw [List.map_nil, readAll, he] at hrun
        cases hrun
        cases hincomplete
    · rintro ⟨vs, t, ws, heq, -⟩
      exact List.append_ne_nil_of_right_ne_nil vs (List.cons_ne_nil t ws) heq.symm
  | cons t ts ih =>
    obtain ⟨ht, hts⟩ := List.forall_mem_cons.1 hts
    have hfaulty := h.faulty_iff (t := t)
    rw [readAll_cons, exists_place_cons (P := fun us t => Exceeds us t ∨ Unfit us t), ← hfaulty]
    cases step_comes h.behind ht p s with
    | ok hrun hbehind hdemand hnot =>
      rw [bind_run hrun, or_iff_right hnot]
      exact ih hts (h.step hrun hbehind hdemand) (p + 1) _
    | @illegal e _ hrun hillegal hnone hnot =>
      rw [bind_error hrun]
      refine iff_of_false ?_ ?_
      · rintro ⟨f, s', herror⟩
        cases herror
        cases hillegal
      · rintro (hhere | ⟨vs, t', ws, rfl, hthere⟩)
        · exact hnot hhere
        -- A later fault would complete tokens that go through the illegal one.
        · obtain ⟨zs, hvalue⟩ := exists_isValue hthere
          rw [List.append_assoc, List.append_assoc] at hvalue
          exact hnone _ ((h.demand _).1 hvalue)
    | fault hrun hhere =>
      rw [bind_error hrun]
      exact iff_of_true ⟨_, _, rfl⟩ (.inl hhere)

/-! ### Documents one after the other -/

/-- A value begins behind the tokens that is unfit, and there may be whole documents before. -/
def UnfitLater (us : List Token) (t : Token) : Prop :=
  ∃ (tss : List (List Token)) (vs : List Token), us = tss.flatten ++ vs ∧
    (∀ ts ∈ tss, ∃ x, IsValue ts x) ∧ Unfit vs t

theorem unfitLater_iff :
    UnfitLater us t ↔ Unfit us t ∨ ∃ a b x, us = a ++ b ∧ IsValue a x ∧ UnfitLater b t := by
  constructor
  · rintro ⟨_ | ⟨a, tss⟩, vs, rfl, htss, hunfit⟩
    · exact .inl hunfit
    · obtain ⟨⟨x, hx⟩, htss⟩ := List.forall_mem_cons.1 htss
      exact .inr ⟨a, tss.flatten ++ vs, x, List.append_assoc _ _ _, hx, tss, vs, rfl, htss, hunfit⟩
  · rintro (hunfit | ⟨a, b, x, rfl, hx, tss, vs, rfl, htss, hunfit⟩)
    · exact ⟨[], us, rfl, List.forall_mem_nil _, hunfit⟩
    · exact ⟨a :: tss, vs, (List.append_assoc _ _ _).symm, List.forall_mem_cons.2 ⟨⟨x, hx⟩, htss⟩, hunfit⟩

/-- There is no document before the one that is being read. -/
theorem Reached.no_document (h : Reached us (.reading stage fs)) {a b : List Token}
    (hab : us = a ++ b) (x : Datum) : ¬ IsValue a x := by
  intro hx
  by_cases hb : b = []
  · rw [hb, List.append_nil] at hab
    obtain ⟨d, hd⟩ := h.whole_iff.1 ⟨x, hab ▸ hx⟩
    cases hd
  · exact h.early a b hab hb x hx

theorem Reached.unfitLater_iff_reading (h : Reached us (.reading stage fs)) :
    UnfitLater us t ↔ Unfit us t := by
  rw [unfitLater_iff, or_iff_left]
  rintro ⟨a, b, x, hab, hx, -⟩
  exact h.no_document hab x hx

/-- Behind an illegal token nothing is asked for. -/
theorem Reached.not_unfitLater (h : Reached us (.reading stage fs))
    (hnone : ∀ ts, ¬ Completes (.reading stage fs) (t :: ts)) (vs : List Token) (t' : Token) :
    ¬ UnfitLater (us ++ [t] ++ vs) t' := by
  rw [unfitLater_iff, List.append_assoc]
  rintro (hunfit | ⟨a, b, x, hab, hx, -⟩)
  · obtain ⟨zs, hvalue⟩ := exists_isValue (.inr hunfit)
    rw [List.append_assoc] at hvalue
    exact hnone _ ((h.demand _).1 hvalue)
  -- The document ends before the illegal token, or it goes through it.
  · rcases List.append_eq_append_iff.1 hab with ⟨_ | ⟨c, cs⟩, ha, hb⟩ | ⟨cs, hus, -⟩
    · rw [ha, List.append_nil] at hx
      exact h.no_document (List.append_nil us).symm x hx
    · cases hb
      exact hnone cs ((h.demand _).1 ⟨x, ha ▸ hx⟩)
    · exact h.no_document hus x hx

/-- Two documents that the same tokens begin with are one. -/
theorem Reached.document_unique {a b vs : List Token} {x : Datum} (h : Reached us (.done d))
    (hab : us ++ vs = a ++ b) (hx : IsValue a x) : us = a ∧ vs = b := by
  rcases List.append_eq_append_iff.1 hab with ⟨c, rfl, rfl⟩ | ⟨c, rfl, rfl⟩
  · obtain rfl : c = [] := (h.demand c).1 ⟨x, hx⟩
    exact ⟨(List.append_nil us).symm, rfl⟩
  · by_cases hc : c = []
    · rw [hc]
      exact ⟨List.append_nil a, rfl⟩
    · exact absurd hx (h.early a c rfl hc x)

/-- Behind a whole document all is as if it stood alone. -/
theorem Reached.unfitLater_iff_done (h : Reached us (.done d)) (vs : List Token) :
    UnfitLater (us ++ vs) t ↔ UnfitLater vs t := by
  rw [unfitLater_iff, or_iff_right]
  · constructor
    · rintro ⟨a, b, x, hab, hx, hunfit⟩
      rwa [(h.document_unique hab hx).2]
    · obtain ⟨x, hx⟩ := h.whole_iff.2 ⟨d, rfl⟩
      exact fun hunfit => ⟨us, vs, x, rfl, hx, hunfit⟩
  · rintro ⟨-, ⟨o, ws, x, -, hx⟩, -⟩
    rw [List.append_assoc] at hx
    have hnil : vs ++ o :: ws = [] := (h.demand _).1 ⟨x, hx⟩
    exact List.append_ne_nil_of_right_ne_nil vs (List.cons_ne_nil o ws) hnil

/-- **Documents one after the other fault** exactly if behind some of them a value begins that is unfit. -/
theorem readMany_faults (hts : ∀ t ∈ ts, t.Regular) (h : Reached us (.reading stage fs))
    (p : Nat) (s : Store) :
    (∃ f, ((readMany p (.reading stage fs) (ts.map .token)).run s).1.error = some (.fault f)) ↔
      ∃ vs t ws, ts = vs ++ t :: ws ∧ UnfitLater (us ++ vs) t := by
  induction ts generalizing us stage fs p s with
  | nil =>
    refine iff_of_false ?_ ?_
    · rintro ⟨f, herror⟩
      obtain ⟨e, he, hincomplete⟩ := finish_incomplete p stage fs
      cases p with
      | zero => cases herror
      | succ p =>
        simp only [List.map_nil, readMany, he] at herror
        cases herror
        cases hincomplete
    · rintro ⟨vs, t, ws, heq, -⟩
      exact List.append_ne_nil_of_right_ne_nil vs (List.cons_ne_nil t ws) heq.symm
  | cons t ts ih =>
    obtain ⟨ht, hts⟩ := List.forall_mem_cons.1 hts
    have hfaulty := h.faulty_iff (t := t)
    have hexceeds : ¬ Exceeds us t := fun hexceeds => by simpa using h.whole_iff.1 hexceeds.2
    rw [or_iff_right hexceeds] at hfaulty
    rw [exists_place_cons (P := UnfitLater), h.unfitLater_iff_reading, ← hfaulty]
    cases step_comes h.behind ht p s with
    | @ok st' s' hrun hbehind hdemand hnot =>
      have hreached := h.step hrun hbehind hdemand
      rw [or_iff_right hnot]
      cases st' with
      | done d =>
        rw [readMany_complete hrun]
        refine (ih hts reached_start 0 s').trans ?_
        simp only [hreached.unfitLater_iff_done, List.nil_append]
      | reading stage' fs' =>
        rw [readMany_goes hrun]
        exact ih hts hreached (p + 1) s'
    | @illegal e _ hrun hillegal hnone hnot =>
      rw [readMany_error hrun]
      refine iff_of_false ?_ ?_
      · rintro ⟨f, herror⟩
        cases herror
        cases hillegal
      · rintro (hhere | ⟨vs, t', ws, rfl, hthere⟩)
        · exact hnot hhere
        · exact h.not_unfitLater hnone vs t' hthere
    | fault hrun hhere =>
      rw [readMany_error hrun]
      exact iff_of_true ⟨_, rfl⟩ (.inl hhere)

/-! ### Sources -/

/-- The error is one of the document, and no fault. -/
def Error.OfDocument (e : Error) : Prop := e.isIncomplete ∨ e.isIllegal

theorem not_ofDocument {e : Error} : ¬ e.OfDocument ↔ ∃ f, e = .fault f := by
  cases e <;> simp [Error.OfDocument, Error.isIncomplete, Error.isIllegal]

/-- Errors are all of the document exactly if there is no place for a fault. -/
theorem ofDocument_iff {P : Error → Prop} {Q : List Token → Token → Prop}
    (h : (∃ f, P (.fault f)) ↔ ∃ us t vs, ts = us ++ t :: vs ∧ Q us t) :
    (∀ e, P e → e.OfDocument) ↔ ∀ us t vs, ts = us ++ t :: vs → ¬ Q us t := by
  constructor
  · intro hall us t vs heq hQ
    obtain ⟨f, hf⟩ := h.2 ⟨us, t, vs, heq, hQ⟩
    exact not_ofDocument.2 ⟨f, rfl⟩ (hall _ hf)
  · intro hno e he
    by_contra hnot
    obtain ⟨f, rfl⟩ := not_ofDocument.1 hnot
    obtain ⟨us, t, vs, heq, hQ⟩ := h.1 ⟨f, he⟩
    exact hno us t vs heq hQ

theorem documents_scanned {source : Text} (h : (Token.scan source).error = none) :
    documents source = readMany 0 start (withoutTrailing ((Token.scan source).tokens.map .token)) := by
  rw [documents, elements, h]

/-- What is no JSON in the output of a command is an exception behind the documents, and a fault is one of
the command. -/
theorem documentsOf_run {octets : List Nat} {source : Text} (h : Text.ofUtf8? octets = some source)
    (s : Store) : ((Command.documentsOf octets).run s).1 =
      match ((documents source).run s).1.error with
      | none            => { documents := ((documents source).run s).1.documents }
      | some (.fault f) => { documents := ((documents source).run s).1.documents, fault := some f }
      | some _          => { documents := ((documents source).run s).1.documents ++
          [.value (.failure "commandOutput")] } := by
  rw [Command.documentsOf, h]
  dsimp only
  rw [run_andThen]
  cases ((documents source).run s).1.error with
  | none => rfl
  | some e => cases e <;> rfl

/-- **What fails besides errors of the document.**  Reading one document of a source fails only with errors
of the document exactly if no value begins behind a whole one, and none is unfit where it stands.  Reading
documents one after the other fails only with such errors exactly if no value is unfit behind some whole
ones.  Then also a command that writes the source has no fault, and what is no JSON in it becomes an
exception behind the documents. -/
theorem reading_faults (source : Text) (hscan : (Token.scan source).error = none) (s : Store) :
    ∃ ts : List Token, withoutTrailing ((Token.scan source).tokens.map .token) = ts.map .token ∧
      ((∀ e s', (document false ((Token.scan source).tokens.map .token)).run.run s = (.error e, s') →
          e.OfDocument) ↔ ∀ us t vs, ts = us ++ t :: vs → ¬ Exceeds us t ∧ ¬ Unfit us t) ∧
      ((∀ e, ((documents source).run s).1.error = some e → e.OfDocument) ↔
        ∀ us t vs, ts = us ++ t :: vs → ¬ UnfitLater us t) ∧
      ∀ octets, Text.ofUtf8? octets = some source →
        (((Command.documentsOf octets).run s).1.fault = none ↔
          ∀ us t vs, ts = us ++ t :: vs → ¬ UnfitLater us t) ∧
        (((Command.documentsOf octets).run s).1.fault = none →
          ((Command.documentsOf octets).run s).1.documents = ((documents source).run s).1.documents ++
            if ((documents source).run s).1.error.isSome then [.value (.failure "commandOutput")] else []) := by
  obtain ⟨ts, htrim, hsub, -, -⟩ := withoutTrailing_tokens (Token.scan source).tokens
  have hts : ∀ t ∈ ts, t.Regular := fun t ht => (Token.scan_regular source).1 t (hsub ht)
  have hone : (∃ f, ∃ s', (document false ((Token.scan source).tokens.map .token)).run.run s =
      (.error (.fault f), s')) ↔ ∃ us t vs, ts = us ++ t :: vs ∧ (Exceeds us t ∨ Unfit us t) := by
    rw [document, htrim]
    exact readAll_faults false hts reached_start 0 s
  have hmany : (∃ f, ((documents source).run s).1.error = some (.fault f)) ↔
      ∃ us t vs, ts = us ++ t :: vs ∧ UnfitLater us t := by
    rw [documents_scanned hscan, htrim]
    exact readMany_faults hts reached_start 0 s
  have hfirst : (∀ e, (∃ s', (document false ((Token.scan source).tokens.map .token)).run.run s =
      (.error e, s')) → e.OfDocument) ↔ ∀ us t vs, ts = us ++ t :: vs → ¬ (Exceeds us t ∨ Unfit us t) :=
    ofDocument_iff hone
  have hlater : (∀ e, ((documents source).run s).1.error = some e → e.OfDocument) ↔
      ∀ us t vs, ts = us ++ t :: vs → ¬ UnfitLater us t := ofDocument_iff hmany
  refine ⟨ts, htrim, ?_, hlater, fun octets hoctets => ?_⟩
  · simpa only [forall_exists_index, not_or] using hfirst
  · rw [← hlater, documentsOf_run hoctets]
    cases ((documents source).run s).1.error with
    | none => simp
    | some e => cases e <;> simp [Error.OfDocument, Error.isIncomplete, Error.isIllegal]

/-- The theorem at an array with a number behind it. -/
theorem reading_faults_array :
    (Token.scan "[1] 2").error = none ∧ ∃ e s',
      (document false ((Token.scan "[1] 2").tokens.map .token)).run.run {} = (.error e, s') ∧
        ¬ e.OfDocument := by
  have hscan : (Token.scan "[1] 2").error = none := by decide +kernel
  let token (kind : Token.Kind) (source : Text) (column : Nat) (text : Option Text) : Token :=
    { kind, source := some source, text, line := some 1, column := some column }
  have htokens : (Token.scan "[1] 2").tokens = [token .openArray "[" 0 none, token .number "1" 1 (some "1"),
      token .closeArray "]" 2 none, token .number " 2" 4 (some "2")] := by decide +kernel
  obtain ⟨ts, hts, hone, -⟩ := reading_faults "[1] 2" hscan {}
  rw [htokens, withoutTrailing_unspaced (by decide +kernel)] at hts
  have hts := List.map_injective_iff.2 (fun _ _ h => Element.token.inj h) hts
  have hitems : Enclosed IsValue .closeArray ([token .number "1" 1 (some "1")] ++
      [token .closeArray "]" 2 none]) [.number (.ofNat (Decimal.natOf "1"))] :=
    .parts (.one (.scalar (.number rfl rfl))) rfl
  have harray : IsValue [token .openArray "[" 0 none, token .number "1" 1 (some "1"),
      token .closeArray "]" 2 none] (.list [.number (.ofNat (Decimal.natOf "1"))]) := .array rfl hitems
  have hexceeds : ¬ ∀ us t vs, ts = us ++ t :: vs → ¬ Exceeds us t ∧ ¬ Unfit us t := by
    intro hno
    exact (hno _ _ [] hts.symm).1 ⟨.inl ⟨_, .number rfl rfl⟩, _, harray⟩
  rw [← hone] at hexceeds
  simpa only [not_forall, exists_prop] using And.intro hscan hexceeds

/-- There are sources that fault: two numbers when one document is read, and a surrogate inside of an array
when documents are. -/
theorem surplus_and_surrogate_fault :
    ((Token.scan "1 2").error = none ∧ ∃ s',
      (document false ((Token.scan "1 2").tokens.map .token)).run.run {} =
        (.error (.fault .noOperation), s')) ∧
    (Token.scan "[\"\\ud800\"]").error = none ∧
      ((documents "[\"\\ud800\"]").run {}).1.error = some (.fault .loneSurrogate) := by
  let token (kind : Token.Kind) (source : Text) (column : Nat) (text : Option Text) : Token :=
    { kind, source := some source, text, line := some 1, column := some column }
  refine ⟨⟨by decide +kernel, ?_⟩, by decide +kernel, ?_⟩
  · have htokens : (Token.scan "1 2").tokens = [token .number "1" 0 (some "1"),
        token .number " 2" 2 (some "2")] := by decide +kernel
    rw [htokens]
    exact ⟨_, rfl⟩
  · have htokens : (Token.scan "[\"\\ud800\"]").tokens = [token .openArray "[" 0 none,
        token .string "\"\\ud800\"" 2 (some [⟨0xD800, by decide⟩]),
        token .closeArray "]" 9 none] := by decide +kernel
    rw [documents_scanned (by decide +kernel), htokens]
    rfl

end FilterShell.Json
