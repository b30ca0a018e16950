import FilterShell.Proofs.Json.Document
import FilterShell.Proofs.Json.Scanned

/-!
# What the reader refuses

A stray token is refused wherever it stands, and a string that has a surrogate in it inside of a container.
So of tokens that are read to the end none is stray, and all strings are well formed, besides one that is the
whole document (`readAll_strings`).
-/

namespace FilterShell.Json

variable {t : Token} {s s' : Store} {st st' : State} {fs : List Frame} {f : Frame} {d : Document} {p : Nat}

/-! ### Stray tokens -/

/-- A stray token is refused in every state. -/
theorem step_stray (h : t.Stray) (p : Nat) (st : State) (s : Store) :
    ∃ e s', (stepToken p t st).run.run s = (.error e, s') := by
  rcases h with hkind | hkind | ⟨hkind, hword⟩
  · refine step_refused (fun p => ⟨.illegal t p valueKinds, ?_⟩) (by simp [hkind]) p st s
    rw [beginning, hkind]
  · refine step_refused (fun p => ⟨.illegal t p valueKinds, ?_⟩) (by simp [hkind]) p st s
    rw [beginning, hkind]
  · refine step_refused (fun p => ⟨.illegalName t.text p, ?_⟩) (by simp [hkind]) p st s
    cases htext : t.text with
    | none => rw [beginning, hkind, htext]
    | some w =>
      have hword := hword w htext
      simp only [List.mem_cons, List.not_mem_nil, or_false, not_or] at hword
      obtain ⟨hfalse, hnull, htrue⟩ := hword
      rw [beginning, hkind, htext]
      dsimp only
      rw [if_neg hfalse, if_neg hnull, if_neg htrue]

/-! ### Strings -/

section Parsing

variable {α β : Type} {r : Parsing α} {g : α → Parsing β}

theorem bind_ok {y : β} (h : (r >>= g).run.run s = (.ok y, s')) :
    ∃ x s₁, r.run.run s = (.ok x, s₁) ∧ (g x).run.run s₁ = (.ok y, s') := by
  rcases hr : r.run.run s with ⟨e | x, s₁⟩
  · cases (bind_error hr).symm.trans h
  · exact ⟨x, s₁, rfl, (bind_run hr).symm.trans h⟩

end Parsing

/-- Only a text without surrogates is made a string. -/
theorem ofText_ok {w : Text} {v : Value} (h : (lift (Value.ofText w)).run.run s = (.ok v, s')) :
    w.isWellFormed := by
  by_contra hw
  have hthrow : Value.ofText w = (do throw .loneSurrogate) := by
    rw [Value.ofText, if_pos (by simpa using hw)]
    rfl
  rw [hthrow] at h
  cases h

/-- The key of the entry that is being read. -/
def Frame.key? : Frame → Option Text
  | .array _      => none
  | .object _ key => key

/-- The key that waits for its value, and has not been looked at yet. -/
def awaited : State → Option Text
  | .reading .value (f :: _)     => f.key?
  | .reading (.colon _) (f :: _) => f.key?
  | _                            => none

/-- The reader is inside of a container, or done; keys are expected in objects only. -/
inductive Inside : State → Prop
  | done (d : Document) : Inside (.done d)
  | value (f : Frame) (fs : List Frame) : Inside (.reading .value (f :: fs))
  | firstItem (f : Frame) (fs : List Frame) : Inside (.reading .firstItem (f :: fs))
  | firstKey (pairs : List (Value × Value)) (key : Option Text) (fs : List Frame) :
      Inside (.reading .firstKey (.object pairs key :: fs))
  | key (pairs : List (Value × Value)) (key : Option Text) (fs : List Frame) :
      Inside (.reading .key (.object pairs key :: fs))
  | colon (t : Token) (f : Frame) (fs : List Frame) : Inside (.reading (.colon t) (f :: fs))
  | next (f : Frame) (fs : List Frame) : Inside (.reading .next (f :: fs))

/-- What was put into a container is well formed. -/
theorem place_ok (h : (place d (f :: fs)).run.run s = (.ok st', s')) :
    (∀ w, d = .text w → w.isWellFormed) ∧ (∀ k, f.key? = some k → k.isWellFormed) ∧
      ∃ g, st' = .reading .next (g :: fs) := by
  cases f with
  | array items =>
    obtain ⟨v, s₁, hv, hst⟩ := bind_ok h
    cases hst
    refine ⟨?_, ?_, _, rfl⟩
    · rintro w rfl
      exact ofText_ok hv
    · rintro k ⟨⟩
  | object pairs key =>
    obtain ⟨k, s₁, hk, h⟩ := bind_ok h
    obtain ⟨v, s₂, hv, hst⟩ := bind_ok h
    cases hst
    refine ⟨?_, ?_, _, rfl⟩
    · rintro w rfl
      exact ofText_ok hv
    · rintro k' ⟨⟩
      exact ofText_ok hk

theorem checkKey_ok {u : Unit} (h : (checkKey (f :: fs)).run.run s = (.ok u, s')) :
    ∀ k, f.key? = some k → k.isWellFormed := by
  cases f with
  | array items => rintro k ⟨⟩
  | object pairs key =>
    rintro k ⟨⟩
    obtain ⟨v, s₁, hv, -⟩ := bind_ok h
    exact ofText_ok hv

/-- A value begins inside of a container. -/
theorem begin_ok {b : Beginning} (h : (begin (f :: fs) b).run.run s = (.ok st', s')) :
    (∀ w, b = .whole (.text w) → w.isWellFormed) ∧ (∀ k, f.key? = some k → k.isWellFormed) ∧
      Inside st' ∧ awaited st' = none := by
  cases b with
  | whole d =>
    obtain ⟨htext, hkey, g, rfl⟩ := place_ok h
    exact ⟨fun w hw => htext w (Beginning.whole.inj hw), hkey, .next .., rfl⟩
  | number n =>
    obtain ⟨v, s₁, -, h⟩ := bind_ok h
    obtain ⟨-, hkey, g, rfl⟩ := place_ok h
    exact ⟨by rintro w ⟨⟩, hkey, .next .., rfl⟩
  | array =>
    obtain ⟨u, s₁, hcheck, hst⟩ := bind_ok h
    cases hst
    exact ⟨by rintro w ⟨⟩, checkKey_ok hcheck, .firstItem .., rfl⟩
  | object =>
    obtain ⟨u, s₁, hcheck, hst⟩ := bind_ok h
    cases hst
    exact ⟨by rintro w ⟨⟩, checkKey_ok hcheck, .firstKey .., rfl⟩

theorem place_value_ok {v : Value} (h : (place (.value v) fs).run.run s = (.ok st', s')) :
    Inside st' ∧ awaited st' = none := by
  cases fs with
  | nil =>
    cases h
    exact ⟨.done _, rfl⟩
  | cons f fs =>
    obtain ⟨-, -, g, rfl⟩ := place_ok h
    exact ⟨.next .., rfl⟩

theorem close_ok (h : (close (f :: fs)).run.run s = (.ok st', s')) :
    Inside st' ∧ awaited st' = none := by
  cases f with
  | array items =>
    obtain ⟨v, s₁, -, h⟩ := bind_ok h
    exact place_value_ok h
  | object pairs key =>
    obtain ⟨v, s₁, -, h⟩ := bind_ok h
    exact place_value_ok h

/-- What is left of a token: its own text may still have to be looked at, if it is a key, and the key that
waited before it. -/
structure Leaves (t : Token) (st st' : State) : Prop where
  inside : Inside st'
  text : t.WellFormed ∨ awaited st' = t.text
  key : ∀ k, awaited st = some k → k.isWellFormed ∨ awaited st' = some k

theorem wellFormed_other (h : t.kind ≠ .string) : t.WellFormed := fun _ hkind => absurd hkind h

/-- A token at the place of a value leaves nothing. -/
theorem value_ok (h : (do begin (f :: fs) (← beginning p t) : Parsing State).run.run s = (.ok st', s')) :
    t.WellFormed ∧ (∀ k, f.key? = some k → k.isWellFormed) ∧ Inside st' ∧ awaited st' = none := by
  cases hb : beginning p t with
  | error e =>
    rw [hb] at h
    cases h
  | ok b =>
    rw [hb] at h
    obtain ⟨htext, hkey, hinside, hawaited⟩ := begin_ok (b := b) h
    refine ⟨fun w hkind hw => ?_, hkey, hinside, hawaited⟩
    rw [beginning, hkind, hw] at hb
    exact htext w (Except.ok.inj hb).symm

theorem leaves_close (hkind : t.kind ≠ .string) (hst : awaited st = none)
    (h : (close (f :: fs)).run.run s = (.ok st', s')) : Leaves t st st' := by
  refine ⟨(close_ok h).1, .inl (wellFormed_other hkind), fun k hk => ?_⟩
  cases hst.symm.trans hk

/-- Behind a part of a container there is its end, or a comma. -/
theorem leaves_next {closer : Token.Kind} {e : Error} {more : State} (hcloser : closer ≠ .string)
    (hinside : Inside more) (hst : awaited st = none)
    (h : (if t.kind = closer then close (f :: fs) else if t.kind = .comma then return more
      else throw e : Parsing State).run.run s = (.ok st', s')) : Leaves t st st' := by
  by_cases hclose : t.kind = closer
  · rw [if_pos hclose] at h
    exact leaves_close (hclose ▸ hcloser) hst h
  rw [if_neg hclose] at h
  by_cases hcomma : t.kind = .comma
  · rw [if_pos hcomma] at h
    cases h
    refine ⟨hinside, .inl (wellFormed_other (by simp [hcomma])), fun k hk => ?_⟩
    cases hst.symm.trans hk
  · rw [if_neg hcomma] at h
    cases h

theorem leaves_string {pairs : List (Value × Value)} {key : Option Text} {e : Error}
    (hst : awaited st = none) (h : (if t.kind = .string then return withKey t (.object pairs key :: fs)
      else throw e : Parsing State).run.run s = (.ok st', s')) : Leaves t st st' := by
  by_cases hkind : t.kind = .string
  · rw [if_pos hkind] at h
    cases h
    refine ⟨.colon .., .inr rfl, fun k hk => ?_⟩
    cases hst.symm.trans hk
  · rw [if_neg hkind] at h
    cases h

/-- **What one token leaves** inside of a container. -/
theorem step_leaves (hst : Inside st) (h : (stepToken p t st).run.run s = (.ok st', s')) :
    Leaves t st st' := by
  cases hst with
  | done d =>
    obtain ⟨e, s₁, herror⟩ := done_step_error (t := t) d p s
    cases h.symm.trans herror
  | value f fs =>
    obtain ⟨ht, hkey, hinside, -⟩ := value_ok h
    exact ⟨hinside, .inl ht, fun k hk => .inl (hkey k hk)⟩
  | firstItem f fs =>
    rw [stepToken] at h
    by_cases hclose : t.kind = .closeArray
    · rw [if_pos hclose] at h
      exact leaves_close (by simp [hclose]) rfl h
    · rw [if_neg hclose] at h
      obtain ⟨ht, -, hinside, -⟩ := value_ok h
      exact ⟨hinside, .inl ht, by rintro k ⟨⟩⟩
  | firstKey pairs key fs =>
    rw [stepToken] at h
    by_cases hclose : t.kind = .closeObject
    · rw [if_pos hclose] at h
      exact leaves_close (by simp [hclose]) rfl h
    · rw [if_neg hclose] at h
      exact leaves_string rfl h
  | key pairs key fs => exact leaves_string rfl h
  | colon key f fs =>
    rw [stepToken] at h
    by_cases hcolon : t.kind = .colon
    · rw [if_pos hcolon] at h
      cases h
      exact ⟨.value .., .inl (wellFormed_other (by simp [hcolon])), fun k hk => .inr hk⟩
    · rw [if_neg hcolon] at h
      cases h
  | next f fs =>
    cases f with
    | array items => exact leaves_next (by decide) (.value ..) rfl h
    | object pairs key => exact leaves_next (by decide) (.key ..) rfl h

/-- Strings that are read inside of a container are well formed. -/
theorem readAll_inside {values : Bool} {ts : List Token} (hst : Inside st)
    (hrun : (readAll values p st (ts.map .token)).run.run s = (.ok d, s')) :
    (∀ t ∈ ts, t.WellFormed) ∧ ∀ k, awaited st = some k → k.isWellFormed := by
  induction ts generalizing st p s with
  | nil =>
    refine ⟨List.forall_mem_nil _, fun k hk => ?_⟩
    cases st with
    | done => cases hk
    | reading stage fs =>
      obtain ⟨e, he⟩ := finish_reading p stage fs
      rw [List.map_nil, readAll, he] at hrun
      cases hrun
  | cons t ts ih =>
    rw [readAll_cons] at hrun
    obtain ⟨st', s₁, hone, hrun⟩ := bind_ok hrun
    have hleaves := step_leaves hst hone
    obtain ⟨hrest, hkey⟩ := ih hleaves.inside hrun
    refine ⟨List.forall_mem_cons.2 ⟨?_, hrest⟩, fun k hk => (hleaves.key k hk).elim id (hkey k)⟩
    rcases hleaves.text with hwell | hawaited
    · exact hwell
    · exact fun w _ hw => hkey w (hawaited.trans hw)

theorem begin_start_ok {b : Beginning} (h : (begin [] b).run.run s = (.ok st', s')) : Inside st' := by
  cases b with
  | whole d =>
    cases h
    exact .done d
  | number n =>
    obtain ⟨v, s₁, -, h⟩ := bind_ok h
    exact (place_value_ok h).1
  | array =>
    cases h
    exact .firstItem ..
  | object =>
    cases h
    exact .firstKey ..

/-- **Strings are well formed in tokens that are read**, besides one that is the whole document. -/
theorem readAll_strings {values : Bool} {ts : List Token} (hts : ∀ t ∈ ts, t.Regular)
    (hrun : (readAll values p start (ts.map .token)).run.run s = (.ok d, s')) :
    (∀ t ∈ ts, t.WellFormed) ∨ ∃ t w, ts = [t] ∧ t.kind = .string ∧ t.text = some w ∧ d = .text w := by
  cases ts with
  | nil => exact .inl (List.forall_mem_nil _)
  | cons t ts =>
    rw [readAll_cons] at hrun
    obtain ⟨st', s₁, hone, hrun⟩ := bind_ok hrun
    by_cases hkind : t.kind = .string
    · have ht := hts t List.mem_cons_self
      rw [Token.Regular, hkind] at ht
      obtain ⟨w, htext⟩ := ht
      have hb : beginning p t = .ok (.whole (.text w)) := by rw [beginning, hkind, htext]
      rw [start, stepToken, hb] at hone
      cases hone
      cases ts with
      | nil =>
        cases hrun
        exact .inr ⟨t, w, rfl, hkind, htext, rfl⟩
      | cons t' ts =>
        obtain ⟨st', s₂, hone, -⟩ := bind_ok hrun
        obtain ⟨e, s₃, herror⟩ := done_step_error (t := t') (.text w) (p + 1) s
        cases hone.symm.trans herror
    · have hinside : Inside st' := by
        cases hb : beginning p t with
        | error e =>
          rw [start, stepToken, hb] at hone
          cases hone
        | ok b =>
          rw [start, stepToken, hb] at hone
          exact begin_start_ok (b := b) hone
      exact .inl (List.forall_mem_cons.2
        ⟨wellFormed_other hkind, (readAll_inside hinside hrun).1⟩)

end FilterShell.Json
