import FilterShell.Proofs.Json.Refused

/-!
# What one token of JSON does

Some values cannot be put where they stand: nothing can be added to a document that is complete, a string has
no surrogates, and an exact number has no more than 10^18 digits.  This is a fault and no error of the document.

`Completes` says which tokens complete a state of the reader.  One token takes a state to one that is completed
by the rest, or it is illegal and nothing could have completed the state, or it faults (`step_comes`).
-/

namespace FilterShell.Json

variable {t : Token} {ts us : List Token} {s s' : Store} {fs : List Frame} {f : Frame} {d : Document} {p : Nat}
  {st : State}

/-- A value begins with the token. -/
def Begins (t : Token) : Prop := (∃ x, IsScalar t x) ∨ t.kind = .openArray ∨ t.kind = .openObject

/-! ### What completes a state -/

/-- The tokens close the containers, of which the innermost has just got a value. -/
def Closing : List Frame → List Token → Prop
  | [], ts              => ts = []
  | .array _ :: fs, ts  => Goes IsValue .closeArray (fun _ => Closing fs) ts
  | .object .. :: fs, ts => Goes IsMember .closeObject (fun _ => Closing fs) ts

/-- The tokens complete the state. -/
def Completes : State → List Token → Prop
  | .done _, ts                       => ts = []
  | .reading .value fs, ts            => Starts IsValue (fun _ => Closing fs) ts
  | .reading .firstItem (_ :: fs), ts => Starts (Enclosed IsValue .closeArray) (fun _ => Closing fs) ts
  | .reading .firstKey (_ :: fs), ts  => Starts (Enclosed IsMember .closeObject) (fun _ => Closing fs) ts
  | .reading .key (_ :: fs), ts       =>
    Starts (Separated IsMember) (fun _ => Symbol .closeObject (Closing fs)) ts
  | .reading (.colon _) fs, ts        => Symbol .colon (Starts IsValue fun _ => Closing fs) ts
  | .reading .next fs, ts             => Closing fs ts
  | _, _                              => False

theorem completes_start (ts : List Token) : (∃ x, IsValue ts x) ↔ Completes start ts := by
  constructor
  · rintro ⟨x, hx⟩
    exact ⟨ts, x, [], (List.append_nil ts).symm, hx, rfl⟩
  · rintro ⟨us, x, vs, rfl, hx, rfl⟩
    exact ⟨x, by rwa [List.append_nil]⟩

/-- Containers can be closed. -/
theorem exists_closing (fs : List Frame) : ∃ ts, Closing fs ts := by
  induction fs with
  | nil => exact ⟨[], rfl⟩
  | cons f fs ih =>
    obtain ⟨ts, hts⟩ := ih
    cases f with
    | array items => exact ⟨{ kind := .closeArray } :: ts, .inl ⟨rfl, hts⟩⟩
    | object pairs key => exact ⟨{ kind := .closeObject } :: ts, .inl ⟨rfl, hts⟩⟩

/-- An array may stand where a value is awaited. -/
theorem exists_value (fs : List Frame) :
    ∃ o ws, o.kind = Token.Kind.openArray ∧ Starts IsValue (fun _ => Closing fs) (o :: ws) := by
  obtain ⟨ts, hts⟩ := exists_closing fs
  refine ⟨{ kind := .openArray }, { kind := .closeArray } :: ts, rfl, ?_⟩
  exact ⟨[_, _], _, ts, rfl, .array rfl (.empty rfl), hts⟩

/-! ### What has been read -/

/-- The key of the entry, if there is one, is a text that a string can hold. -/
def Frame.Held (f : Frame) : Prop := ∀ w, f.key? = some w → w.isWellFormed

/-- The document, if it is a text, is one that a string can hold. -/
def Document.Held (d : Document) : Prop := ∀ w, d = .text w → w.isWellFormed

/-- The last tokens that have been read, as far as a state depends on them.  Keys of the outer containers
have been looked at. -/
inductive Behind : List Token → State → Prop
  | done (us : List Token) (d : Document) : Behind us (.done d)
  | start : Behind [] (.reading .value [])
  | item {us : List Token} {c : Token} {items : List Value} {fs : List Frame} (hc : c.kind ≠ .colon)
      (hfs : ∀ f ∈ fs, f.Held) : Behind (us ++ [c]) (.reading .value (.array items :: fs))
  | firstItem {us : List Token} {c : Token} {fs : List Frame} (hc : c.kind ≠ .colon)
      (hfs : ∀ f ∈ fs, f.Held) : Behind (us ++ [c]) (.reading .firstItem (.array [] :: fs))
  | member {us : List Token} {k c : Token} {pairs : List (Value × Value)} {fs : List Frame}
      (hk : k.kind = .string) (hc : c.kind = .colon) (hfs : ∀ f ∈ fs, f.Held) :
      Behind (us ++ [k, c]) (.reading .value (.object pairs k.text :: fs))
  | firstKey (us : List Token) {fs : List Frame} (hfs : ∀ f ∈ fs, f.Held) :
      Behind us (.reading .firstKey (.object [] none :: fs))
  | key (us : List Token) {pairs : List (Value × Value)} {key : Option Text} {fs : List Frame}
      (hfs : ∀ f ∈ fs, f.Held) : Behind us (.reading .key (.object pairs key :: fs))
  | colon {us : List Token} {k : Token} {pairs : List (Value × Value)} {fs : List Frame}
      (hk : k.kind = .string) (hfs : ∀ f ∈ fs, f.Held) :
      Behind (us ++ [k]) (.reading (.colon k) (.object pairs k.text :: fs))
  | next (us : List Token) {f : Frame} {fs : List Frame} (hfs : ∀ f ∈ fs, f.Held) :
      Behind us (.reading .next (f :: fs))

/-- A state that is complete is done. -/
theorem Behind.completes_nil (h : Behind us st) (hst : Completes st []) : ∃ d, st = .done d := by
  cases h with
  | done us d => exact ⟨d, rfl⟩
  | start | item | member => exact absurd hst starts_value_nil
  | firstItem =>
    rw [Completes, starts_enclosed, starts_separated] at hst
    exact (hst.elim id starts_value_nil).elim
  | firstKey =>
    rw [Completes, starts_enclosed, starts_separated] at hst
    exact (hst.elim id starts_member_nil).elim
  | key =>
    rw [Completes, starts_separated] at hst
    exact absurd hst starts_member_nil
  | colon => exact hst.elim
  | @next us f fs => cases f <;> exact (hst.elim id id).elim

/-! ### One token -/

/-- A value that begins with the token cannot be put into the innermost container. -/
def Spoiled (t : Token) : List Frame → Prop
  | []     => ¬ t.Fits
  | f :: _ => ¬ t.Fits ∨ ¬ t.WellFormed ∨ ¬ f.Held

/-- The token faults. -/
def Faulty (t : Token) : State → Prop
  | .done _                => Begins t
  | .reading .value fs     => Begins t ∧ Spoiled t fs
  | .reading .firstItem fs => Begins t ∧ Spoiled t fs
  | _                      => False

/-- What becomes of a computation: it goes on to a state that is completed as was asked, or nothing was
asked and the error is one of the document, or it faults. -/
inductive Comes (us : List Token) (s : Store) (r : Parsing State) (demand : List Token → Prop)
    (faulty : Prop) : Prop
  | ok {st : State} {s' : Store} (hrun : r.run.run s = (.ok st, s')) (hst : Behind us st)
      (hdemand : ∀ ts, demand ts ↔ Completes st ts) (hfaulty : ¬ faulty)
  | illegal {e : Error} {s' : Store} (hrun : r.run.run s = (.error e, s')) (he : e.isIllegal)
      (hnone : ∀ ts, ¬ demand ts) (hfaulty : ¬ faulty)
  | fault {f : Fault} {s' : Store} (hrun : r.run.run s = (.error (.fault f), s')) (hfaulty : faulty)

namespace Comes

variable {r r' : Parsing State} {demand demand' : List Token → Prop} {faulty faulty' : Prop}

theorem of_run (hrun : r.run.run s = r'.run.run s') (h : Comes us s' r' demand faulty) :
    Comes us s r demand faulty := by
  cases h with
  | ok hrun' hst hdemand hfaulty => exact .ok (hrun.trans hrun') hst hdemand hfaulty
  | illegal hrun' he hnone hfaulty => exact .illegal (hrun.trans hrun') he hnone hfaulty
  | fault hrun' hfaulty => exact .fault (hrun.trans hrun') hfaulty

theorem congr (h : Comes us s r demand faulty) (hdemand : ∀ ts, demand' ts ↔ demand ts)
    (hfaulty : faulty' ↔ faulty) : Comes us s r demand' faulty' := by
  cases h with
  | ok hrun hst hdemand' hfaulty' =>
    exact .ok hrun hst (fun ts => (hdemand ts).trans (hdemand' ts)) (hfaulty' ∘ hfaulty.1)
  | illegal hrun he hnone hfaulty' =>
    exact .illegal hrun he (fun ts h => hnone ts ((hdemand ts).1 h)) (hfaulty' ∘ hfaulty.1)
  | fault hrun hfaulty' => exact .fault hrun (hfaulty.2 hfaulty')

end Comes

/-! Values that are made. -/

theorem ofText_run {w : Text} (h : w.isWellFormed) (s : Store) :
    ∃ v s', (lift (Value.ofText w)).run.run s = (.ok v, s') := by
  rw [Value.ofText, if_neg (by simp [h])]
  exact ⟨_, _, rfl⟩

theorem ofText_fault {w : Text} (h : ¬ w.isWellFormed) (s : Store) :
    ∃ f s', (lift (Value.ofText w)).run.run s = (.error (.fault f), s') := by
  rw [Value.ofText, if_pos (by simpa using h)]
  exact ⟨_, _, rfl⟩

theorem toValue_run (h : d.Held) (s : Store) : ∃ v s', (lift d.toValue).run.run s = (.ok v, s') := by
  cases d with
  | text w => exact ofText_run (h w rfl) s
  | value v => exact ⟨_, _, rfl⟩
  | textless => exact ⟨_, _, rfl⟩

theorem toValue_fault (h : ¬ d.Held) (s : Store) :
    ∃ f s', (lift d.toValue).run.run s = (.error (.fault f), s') := by
  cases d with
  | text w =>
    refine ofText_fault (fun hw => h ?_) s
    rintro _ ⟨⟩
    exact hw
  | value v => exact absurd (by rintro w ⟨⟩) h
  | textless => exact absurd (by rintro w ⟨⟩) h

theorem keyValue_run {key : Option Text} (h : ∀ w, key = some w → w.isWellFormed) (s : Store) :
    ∃ v s', (lift (keyValue key)).run.run s = (.ok v, s') := by
  cases key with
  | none => exact ⟨_, _, rfl⟩
  | some w => exact ofText_run (h w rfl) s

theorem keyValue_fault {key : Option Text} (h : ¬ ∀ w, key = some w → w.isWellFormed) (s : Store) :
    ∃ f s', (lift (keyValue key)).run.run s = (.error (.fault f), s') := by
  cases key with
  | none => exact absurd (by rintro w ⟨⟩) h
  | some w =>
    refine ofText_fault (fun hw => h ?_) s
    rintro _ ⟨⟩
    exact hw

theorem held_array (items : List Value) : (Frame.array items).Held := by rintro w ⟨⟩

theorem held_value (v : Value) : (Document.value v).Held := by rintro w ⟨⟩

/-- A document is put where a value was awaited. -/
theorem place_comes (us : List Token) (s : Store) (d : Document) (hfs : ∀ f ∈ fs.tail, f.Held) :
    Comes us s (place d fs) (Closing fs) (∃ f gs, fs = f :: gs ∧ (¬ d.Held ∨ ¬ f.Held)) := by
  cases fs with
  | nil =>
    refine .ok rfl (.done us d) (fun ts => Iff.rfl) ?_
    rintro ⟨f, gs, ⟨⟩, -⟩
  | cons f fs =>
    by_cases hf : f.Held
    · by_cases hd : d.Held
      · have hfaulty : ¬ ∃ g gs, f :: fs = g :: gs ∧ (¬ d.Held ∨ ¬ g.Held) := by
          rintro ⟨_, _, ⟨⟩, h | h⟩
          · exact h hd
          · exact h hf
        cases f with
        | array items =>
          obtain ⟨v, s', hv⟩ := toValue_run hd s
          exact .ok (bind_run hv) (.next us hfs) (fun ts => Iff.rfl) hfaulty
        | object pairs key =>
          obtain ⟨k, s₁, hk⟩ := keyValue_run hf s
          obtain ⟨v, s₂, hv⟩ := toValue_run hd s₁
          exact .ok ((bind_run hk).trans (bind_run hv)) (.next us hfs) (fun ts => Iff.rfl) hfaulty
      · have hfaulty : ∃ g gs, f :: fs = g :: gs ∧ (¬ d.Held ∨ ¬ g.Held) := ⟨f, fs, rfl, .inl hd⟩
        cases f with
        | array items =>
          obtain ⟨e, s', he⟩ := toValue_fault hd s
          exact .fault (bind_error he) hfaulty
        | object pairs key =>
          obtain ⟨k, s₁, hk⟩ := keyValue_run hf s
          obtain ⟨e, s₂, he⟩ := toValue_fault hd s₁
          exact .fault ((bind_run hk).trans (bind_error he)) hfaulty
    · cases f with
      | array items => exact absurd (held_array items) hf
      | object pairs key =>
        obtain ⟨e, s', he⟩ := keyValue_fault hf s
        exact .fault (bind_error he) ⟨_, fs, rfl, .inr hf⟩

/-- A container ends. -/
theorem close_comes (us : List Token) (s : Store) (f : Frame) (hfs : ∀ f ∈ fs, f.Held) :
    Comes us s (close (f :: fs)) (Closing fs) False := by
  have hplace : ∀ v s, Comes us s (place (.value v) fs) (Closing fs) False := by
    intro v s
    refine (place_comes us s (.value v) fun g hg => hfs g (List.mem_of_mem_tail hg)).congr
      (fun ts => Iff.rfl) ?_
    rw [false_iff]
    rintro ⟨g, gs, rfl, h | h⟩
    · exact h (held_value v)
    · exact h (hfs g List.mem_cons_self)
  cases f with
  | array items =>
    have hmade : ∃ v s', (lift (Value.ofItems items.reverse)).run.run s = (.ok v, s') := ⟨_, _, rfl⟩
    obtain ⟨v, s', hv⟩ := hmade
    exact .of_run (bind_run hv) (hplace v s')
  | object pairs key =>
    have hmade : ∃ v s', (lift (Value.ofPairs pairs.reverse)).run.run s = (.ok v, s') := ⟨_, _, rfl⟩
    obtain ⟨v, s', hv⟩ := hmade
    exact .of_run (bind_run hv) (hplace v s')

theorem checkKey_held (h : ∀ f ∈ fs, f.Held) (s : Store) :
    ∃ s', (checkKey fs).run.run s = (.ok (), s') := by
  rcases fs with _ | ⟨f, fs⟩
  · exact ⟨_, rfl⟩
  cases f with
  | array items => exact ⟨_, rfl⟩
  | object pairs key =>
    obtain ⟨k, s', hk⟩ := keyValue_run (h _ List.mem_cons_self) s
    exact ⟨s', bind_run hk⟩

theorem checkKey_fault (h : ¬ f.Held) (fs : List Frame) (s : Store) :
    ∃ e s', (checkKey (f :: fs)).run.run s = (.error (.fault e), s') := by
  cases f with
  | array items => exact absurd (held_array items) h
  | object pairs key =>
    obtain ⟨e, s', he⟩ := keyValue_fault h s
    exact ⟨e, s', bind_error he⟩

/-! A token at the place of a value. -/

theorem fits_other (h : t.kind ≠ .number) : t.Fits := fun _ hkind => absurd hkind h

/-- What begins with a scalar: a number that is too long faults, and all else that can go wrong is a string
with a surrogate. -/
theorem scalar_cases {x : Datum} (hx : IsScalar t x) (ht : t.Regular) (p : Nat) :
    (t.Fits ∧ ∃ d : Document, beginning p t = .ok (.whole d) ∧ (d.Held ↔ t.WellFormed)) ∨
    (t.Fits ∧ t.WellFormed ∧ ∃ n, beginning p t = .ok (.number n)) ∨
    ¬ t.Fits ∧ ∃ e, beginning p t = .error (.fault e) := by
  have hname : ∀ v, t.kind = .name → beginning p t = .ok (.whole (.value v)) →
      t.Fits ∧ ∃ d : Document, beginning p t = .ok (.whole d) ∧ (d.Held ↔ t.WellFormed) :=
    fun v hkind hb => ⟨fits_other (by simp [hkind]), .value v, hb,
      iff_of_true (held_value v) (wellFormed_other (by simp [hkind]))⟩
  cases hx with
  | false hkind htext =>
    refine .inl (hname (.bool false) hkind ?_)
    rw [beginning, hkind, htext]
    rfl
  | null hkind htext =>
    refine .inl (hname .null hkind ?_)
    rw [beginning, hkind, htext]
    rfl
  | true hkind htext =>
    refine .inl (hname (.bool true) hkind ?_)
    rw [beginning, hkind, htext]
    rfl
  | @number w hkind htext =>
    by_cases hsize : Decimal.digits (Decimal.natOf w) ≤ 1000000000000000000
    · refine .inr (.inl ⟨?_, wellFormed_other (by simp [hkind]), .ofNat (Decimal.natOf w), ?_⟩)
      · intro w' _ htext'
        rwa [← Option.some.inj (htext.symm.trans htext')]
      · rw [beginning_number ht hkind htext, if_pos hsize]
    · refine .inr (.inr ⟨fun hfits => hsize (hfits w hkind htext), .arithmetic .invalidOperation, ?_⟩)
      rw [beginning_number ht hkind htext, if_neg hsize]
  | @string w hkind htext =>
    refine .inl ⟨fits_other (by simp [hkind]), .text w, ?_, ?_⟩
    · rw [beginning, hkind, htext]
    · constructor
      · intro hheld w' _ htext'
        rw [← Option.some.inj (htext.symm.trans htext')]
        exact hheld w rfl
      · rintro hwell _ ⟨⟩
        exact hwell w hkind htext

/-- What begins no value is illegal. -/
theorem error_illegal {e : Error} (h : beginning p t = .error e) (hkind : t.kind ≠ .number) :
    e.isIllegal := by
  unfold beginning at h
  split at h
  · split at h
    · cases h
    · split at h
      · cases h
      · split at h
        · cases h
        · cases h
          rfl
  · cases h
    rfl
  · exact absurd ‹_› hkind
  · exact absurd ‹_› hkind
  all_goals cases h
  rfl

/-- A token that begins no value is illegal where one is awaited. -/
theorem beginning_illegal (ht : t.Regular) (hbegins : ¬ Begins t) (p : Nat) :
    ∃ e, beginning p t = .error e ∧ e.isIllegal := by
  have hscalar : ∀ y, ¬ IsScalar t y := fun y hy => hbegins (.inl ⟨y, hy⟩)
  obtain ⟨e, he⟩ := beginning_error ht hscalar (fun h => hbegins (.inr (.inl h)))
    (fun h => hbegins (.inr (.inr h))) p
  refine ⟨e, he, error_illegal he fun hkind => ?_⟩
  rw [Token.Regular, hkind] at ht
  obtain ⟨w, htext, -⟩ := ht
  exact hscalar _ (.number hkind htext)

/-- A container begins where a value was awaited. -/
theorem open_comes {opened : State} (us : List Token) (s : Store) (hfs : ∀ f ∈ fs.tail, f.Held)
    (hopened : (∀ f ∈ fs, f.Held) → Behind us opened) :
    Comes us s (do checkKey fs; return opened) (Completes opened) (∃ f gs, fs = f :: gs ∧ ¬ f.Held) := by
  by_cases hheld : ∀ f ∈ fs, f.Held
  · obtain ⟨s', hcheck⟩ := checkKey_held hheld s
    refine .ok (bind_run hcheck) (hopened hheld) (fun ts => Iff.rfl) ?_
    rintro ⟨f, gs, rfl, hf⟩
    exact hf (hheld f List.mem_cons_self)
  · rcases fs with _ | ⟨f, fs⟩
    · exact absurd (List.forall_mem_nil _) hheld
    · have hf : ¬ f.Held := fun hf => hheld (List.forall_mem_cons.2 ⟨hf, hfs⟩)
      obtain ⟨e, s', he⟩ := checkKey_fault hf fs s
      exact .fault (bind_error he) ⟨f, fs, rfl, hf⟩

theorem spoiled_iff (hfits : t.Fits) :
    Spoiled t fs ↔ ∃ f gs, fs = f :: gs ∧ (¬ t.WellFormed ∨ ¬ f.Held) := by
  cases fs with
  | nil => simp [Spoiled, hfits]
  | cons f fs => simp [Spoiled, hfits]

/-- **A token at the place of a value.** -/
theorem value_comes (us : List Token) (s : Store) (ht : t.Regular) (fs : List Frame)
    (hfs : ∀ f ∈ fs.tail, f.Held) (p : Nat) : Comes (us ++ [t]) s (do begin fs (← beginning p t))
      (fun ts => Starts IsValue (fun _ => Closing fs) (t :: ts)) (Begins t ∧ Spoiled t fs) := by
  by_cases hscalar : ∃ y, IsScalar t y
  · obtain ⟨y, hy⟩ := hscalar
    have hbegins : Begins t := .inl ⟨y, hy⟩
    rcases scalar_cases hy ht p with ⟨hfits, d, hb, hd⟩ | ⟨hfits, hwell, n, hb⟩ | ⟨hfits, e, he⟩
    · refine .congr (.of_run (begin_run hb fs s) (place_comes _ s d hfs)) (fun ts => starts_scalar hy) ?_
      rw [and_iff_right hbegins, spoiled_iff hfits, hd]
    · have hmade : ∃ v s', (lift (Value.ofDecimal n)).run.run s = (.ok v, s') := by
        rw [Value.ofDecimal]
        split <;> exact ⟨_, _, rfl⟩
      obtain ⟨v, s', hv⟩ := hmade
      refine .congr (.of_run ((begin_run hb fs s).trans (bind_run hv)) (place_comes _ s' (.value v) hfs))
        (fun ts => starts_scalar hy) ?_
      rw [and_iff_right hbegins, spoiled_iff hfits, iff_true_intro hwell, iff_true_intro (held_value v)]
    · refine .fault (begin_error he fs s) ⟨hbegins, ?_⟩
      cases fs with
      | nil => exact hfits
      | cons f fs => exact .inl hfits
  by_cases harray : t.kind = .openArray
  · have hb : beginning p t = .ok .array := by rw [beginning, harray]
    have hopen := open_comes (us ++ [t]) s hfs fun hfs => .firstItem (by simp [harray]) hfs
    refine .congr (.of_run (begin_run hb fs s) hopen) (fun ts => starts_array harray) ?_
    have hwell : t.WellFormed := wellFormed_other (by simp [harray])
    rw [and_iff_right (.inr (.inl harray)), spoiled_iff (fits_other (by simp [harray]))]
    simp [hwell]
  by_cases hobject : t.kind = .openObject
  · have hb : beginning p t = .ok .object := by rw [beginning, hobject]
    have hopen := open_comes (us ++ [t]) s hfs fun hfs => .firstKey (us ++ [t]) hfs
    refine .congr (.of_run (begin_run hb fs s) hopen) (fun ts => starts_object hobject) ?_
    have hwell : t.WellFormed := wellFormed_other (by simp [hobject])
    rw [and_iff_right (.inr (.inr hobject)), spoiled_iff (fits_other (by simp [hobject]))]
    simp [hwell]
  · have hbegins : ¬ Begins t := by
      rintro (h | h | h)
      · exact hscalar h
      · exact harray h
      · exact hobject h
    obtain ⟨e, he, hillegal⟩ := beginning_illegal ht hbegins p
    exact .illegal (begin_error he fs s) hillegal
      (fun ts => not_starts_value (fun y hy => hscalar ⟨y, hy⟩) harray hobject) fun h => hbegins h.1

/-! A token at any other place. -/

/-- To add to a whole document is a fault. -/
theorem refuse_fault (d : Document) (b : Beginning) (s : Store) :
    ∃ f s', (refuse d b).run.run s = (.error (.fault f), s') := by
  -- the only thing that is looked at before is a text that would be added
  have htext : ∀ (w : Text) (f : Fault), ∃ f' s', ((do let _ ← lift (Value.ofText w); pure ()) >>=
      fun _ => (throw (.fault f) : Parsing State)).run.run s = (.error (.fault f'), s') := by
    intro w f
    by_cases hw : w.isWellFormed
    · obtain ⟨v, s', hv⟩ := ofText_run hw s
      exact ⟨f, s', bind_run (bind_run hv)⟩
    · obtain ⟨f', s', hf⟩ := ofText_fault hw s
      exact ⟨f', s', bind_error (bind_error hf)⟩
  rcases d with w | v | _
  · exact ⟨_, _, rfl⟩
  · cases v with
    | array | object | string =>
      rcases b with (w | _ | _) | _ | _ | _
      · exact htext w .closed
      all_goals exact ⟨_, _, rfl⟩
    | exception | null | bool | number => exact ⟨_, _, rfl⟩
  · exact ⟨_, _, rfl⟩

/-- Behind a whole document a value faults, and all else is illegal. -/
theorem done_step_comes (us : List Token) (s : Store) (ht : t.Regular) (d : Document) (p : Nat) :
    Comes us s (stepToken p t (.done d)) (fun ts => Completes (.done d) (t :: ts)) (Begins t) := by
  have hnone : ∀ ts, ¬ Completes (.done d) (t :: ts) := fun ts => List.cons_ne_nil t ts
  by_cases hbegins : Begins t
  · have hfault : (∃ b, beginning p t = .ok b) ∨ ∃ e, beginning p t = .error (.fault e) := by
      rcases hbegins with ⟨y, hy⟩ | hkind | hkind
      · rcases scalar_cases hy ht p with ⟨-, d, hb, -⟩ | ⟨-, -, n, hb⟩ | ⟨-, e, he⟩
        · exact .inl ⟨_, hb⟩
        · exact .inl ⟨_, hb⟩
        · exact .inr ⟨e, he⟩
      · exact .inl ⟨.array, by rw [beginning, hkind]⟩
      · exact .inl ⟨.object, by rw [beginning, hkind]⟩
    rcases hfault with ⟨b, hb⟩ | ⟨e, he⟩
    · obtain ⟨f, s', hrun⟩ := refuse_fault d b s
      have hstep : (stepToken p t (.done d)).run.run s = (refuse d b).run.run s := by
        rw [stepToken, hb]
        rfl
      exact .fault (hstep.trans hrun) hbegins
    · have hstep : (stepToken p t (.done d)).run.run s = (.error (.fault e), s) := by
        rw [stepToken, he]
        rfl
      exact .fault hstep hbegins
  · obtain ⟨e, he, hillegal⟩ := beginning_illegal ht hbegins p
    have hstep : (stepToken p t (.done d)).run.run s = (.error e, s) := by
      rw [stepToken, he]
      rfl
    exact .illegal hstep hillegal hnone hbegins

theorem not_begins (h : t.kind ∈ [.closeArray, .closeObject, .comma, .colon]) : ¬ Begins t := by
  rintro (⟨x, hx⟩ | hkind | hkind)
  · rcases hx.kind with hkind | hkind | hkind <;> simp [hkind] at h
  · simp [hkind] at h
  · simp [hkind] at h

/-- The first item of an array, or its end. -/
theorem firstItem_step_comes (us : List Token) (s : Store) (ht : t.Regular) (hfs : ∀ f ∈ fs, f.Held)
    (p : Nat) : Comes (us ++ [t]) s (stepToken p t (.reading .firstItem (.array [] :: fs)))
      (fun ts => Completes (.reading .firstItem (.array [] :: fs)) (t :: ts))
      (Begins t ∧ Spoiled t (.array [] :: fs)) := by
  rw [stepToken]
  by_cases hclose : t.kind = .closeArray
  · have hbegins := not_begins (t := t) (by simp [hclose])
    rw [if_pos hclose]
    refine (close_comes (us ++ [t]) s (.array []) hfs).congr (fun ts => ?_) (by simp [hbegins])
    have hvalue : ∀ rest, ¬ Starts IsValue rest (t :: ts) := fun rest =>
      not_starts_value (fun y hy => hbegins (.inl ⟨y, hy⟩)) (by simp [hclose]) (by simp [hclose])
    rw [Completes, starts_enclosed, starts_separated, symbol_cons, or_iff_left (hvalue _),
      and_iff_right hclose]
  · rw [if_neg hclose]
    refine (value_comes us s ht (.array [] :: fs) hfs p).congr (fun ts => ?_) Iff.rfl
    rw [Completes, starts_enclosed, starts_separated, symbol_cons, or_iff_right fun h => hclose h.1]
    rfl

/-- The key of a member. -/
theorem key_comes (us : List Token) (s : Store) (ht : t.Regular) (hfs : ∀ f ∈ fs, f.Held)
    (hkind : t.kind = .string) (pairs : List (Value × Value)) (key : Option Text) :
    Comes (us ++ [t]) s (return withKey t (.object pairs key :: fs)) (fun ts =>
      Starts (Separated IsMember) (fun _ => Symbol .closeObject (Closing fs)) (t :: ts)) False := by
  rw [Token.Regular, hkind] at ht
  obtain ⟨w, htext⟩ := ht
  have hkey : withKey t (.object pairs key :: fs) =
      .reading (.colon t) (.object pairs t.text :: fs) := rfl
  rw [hkey]
  refine .ok rfl (.colon hkind hfs) (fun ts => ?_) id
  rw [starts_separated, starts_member, and_iff_right hkind, Completes]
  constructor
  · rintro ⟨w', -, hcolon⟩
    exact hcolon
  · exact fun hcolon => ⟨w, htext, hcolon⟩

/-- The first key of an object, or its end. -/
theorem firstKey_step_comes (us : List Token) (s : Store) (ht : t.Regular) (hfs : ∀ f ∈ fs, f.Held)
    (p : Nat) : Comes (us ++ [t]) s (stepToken p t (.reading .firstKey (.object [] none :: fs)))
      (fun ts => Completes (.reading .firstKey (.object [] none :: fs)) (t :: ts)) False := by
  rw [stepToken]
  by_cases hclose : t.kind = .closeObject
  · rw [if_pos hclose]
    refine (close_comes (us ++ [t]) s (.object [] none) hfs).congr (fun ts => ?_) Iff.rfl
    rw [Completes, starts_enclosed, or_iff_left (not_starts_members (by simp [hclose])), symbol_cons,
      and_iff_right hclose]
  rw [if_neg hclose]
  by_cases hkind : t.kind = .string
  · rw [if_pos hkind]
    refine (key_comes us s ht hfs hkind [] none).congr (fun ts => ?_) Iff.rfl
    rw [Completes, starts_enclosed, symbol_cons, or_iff_right fun h => hclose h.1]
  · rw [if_neg hkind]
    refine .illegal rfl rfl (fun ts => ?_) id
    rw [Completes, starts_enclosed]
    rintro (h | h)
    · exact hclose h.1
    · exact not_starts_members hkind h

/-- Behind a part of a container there is its end, or a comma and the next part. -/
theorem next_comes {α : Type} {P : List Token → α → Prop} {closer : Token.Kind}
    {rest : List Token → Prop} {more : State} {closed : Parsing State} (s : Store)
    (hmore : ∀ ts, Starts (Separated P) (fun _ => Symbol closer rest) ts ↔ Completes more ts)
    (hbehind : t.kind = .comma → Behind us more) (hclosed : Comes us s closed rest False)
    (hne : closer ≠ .comma) {e : Error} (he : e.isIllegal) :
    Comes us s (if t.kind = closer then closed else if t.kind = .comma then return more else throw e)
      (fun ts => Goes P closer (fun _ => rest) (t :: ts)) False := by
  by_cases hclose : t.kind = closer
  · rw [if_pos hclose]
    exact hclosed.congr (fun ts => goes_closer hclose hne) Iff.rfl
  rw [if_neg hclose]
  by_cases hcomma : t.kind = .comma
  · rw [if_pos hcomma]
    exact .ok rfl (hbehind hcomma) (fun ts => (goes_comma hcomma hne).trans (hmore ts)) id
  · rw [if_neg hcomma]
    exact .illegal rfl he (fun ts => not_goes hclose hcomma) id

/-- Behind a value comes a comma or a closer. -/
theorem next_step_comes (us : List Token) (s : Store) (f : Frame) (hfs : ∀ f ∈ fs, f.Held) (p : Nat) :
    Comes (us ++ [t]) s (stepToken p t (.reading .next (f :: fs)))
      (fun ts => Completes (.reading .next (f :: fs)) (t :: ts)) False := by
  have hclosed := close_comes (us ++ [t]) s f hfs
  cases f with
  | array items =>
    have hmore : ∀ ts, Starts (Separated IsValue) (fun _ => Symbol .closeArray (Closing fs)) ts ↔
        Completes (.reading .value (.array items :: fs)) ts := fun ts => starts_separated
    exact next_comes s hmore (fun hcomma => .item (by simp [hcomma]) hfs) hclosed (by decide)
      (e := .illegal t p [.closeArray, .comma]) rfl
  | object pairs key =>
    have hmore : ∀ ts, Starts (Separated IsMember) (fun _ => Symbol .closeObject (Closing fs)) ts ↔
        Completes (.reading .key (.object pairs key :: fs)) ts := fun ts => Iff.rfl
    exact next_comes s hmore (fun _ => .key _ hfs) hclosed (by decide)
      (e := .illegal t p [.closeObject, .comma]) rfl

/-- **One token** takes a state to one that the rest completes, or it is illegal and nothing could have
completed the state, or it faults. -/
theorem step_comes (hst : Behind us st) (ht : t.Regular) (p : Nat) (s : Store) :
    Comes (us ++ [t]) s (stepToken p t st) (fun ts => Completes st (t :: ts)) (Faulty t st) := by
  cases hst with
  | done us d => exact done_step_comes _ s ht d p
  | start => exact value_comes [] s ht [] (List.forall_mem_nil _) p
  | item hc hfs => exact value_comes _ s ht (_ :: _) hfs p
  | member hk hc hfs => exact value_comes _ s ht (_ :: _) hfs p
  | firstItem hc hfs => exact firstItem_step_comes _ s ht hfs p
  | firstKey us hfs => exact firstKey_step_comes us s ht hfs p
  | @key us pairs key fs hfs =>
    rw [stepToken]
    by_cases hkind : t.kind = .string
    · rw [if_pos hkind]
      exact key_comes us s ht hfs hkind pairs key
    · rw [if_neg hkind]
      exact .illegal rfl rfl (fun ts => not_starts_members hkind) id
  | @colon us k pairs fs hk hfs =>
    rw [stepToken]
    by_cases hcolon : t.kind = .colon
    · rw [if_pos hcolon, List.append_assoc]
      exact .ok rfl (.member hk hcolon hfs) (fun ts => and_iff_right hcolon) id
    · rw [if_neg hcolon]
      exact .illegal rfl rfl (fun ts h => hcolon h.1) id
  | next us hfs => exact next_step_comes us s _ hfs p

end FilterShell.Json
