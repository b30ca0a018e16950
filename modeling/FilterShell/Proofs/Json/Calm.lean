import FilterShell.Json.Read
import FilterShell.Proofs.Value.Results

/-!
# What is read is no exception

JSON has no exceptions.  Reading a document goes from state to state, and whatever the tokens are, a state
that is done holds no exception (`step_calm`).  So none of the documents of a text is one
(`documents_calm`).
-/

namespace FilterShell

variable {position : Nat}

/-! ### Values that are made -/

namespace Value

theorem delivers_ofText (t : Text) : Delivers (ofText t) fun v => v.isException = false := by
  unfold ofText
  dsimp only
  split
  · exact delivers_bind fun _ => delivers_bind fun _ => delivers_pure rfl
  · exact delivers_bind fun _ => delivers_pure rfl

theorem delivers_ofDecimal (d : Decimal) : Delivers (ofDecimal d) fun v => v.isException = false := by
  unfold ofDecimal
  split
  · exact delivers_bind fun _ => delivers_pure rfl
  · exact delivers_pure rfl

theorem delivers_ofItems (items : List Value) :
    Delivers (ofItems items) fun v => v.isException = false :=
  delivers_bind fun _ => delivers_pure rfl

theorem delivers_ofPairs (pairs : List (Value × Value)) :
    Delivers (ofPairs pairs) fun v => v.isException = false :=
  delivers_bind fun _ => delivers_pure rfl

end Value

namespace Json

/-- The document is an exception. -/
def Document.isException : Document → Bool
  | .value v => v.isException
  | _        => false

theorem Document.delivers_toValue (d : Document) :
    Delivers d.toValue fun v => v.isException = d.isException := by
  cases d with
  | text t => exact Value.delivers_ofText t
  | value v => exact delivers_pure rfl
  | textless => exact delivers_pure rfl

/-! ### Documents that are read -/

/-- A document that has been read is no exception. -/
def State.Calm : State → Prop
  | .done d     => d.isException = false
  | .reading .. => True

def Beginning.Calm : Beginning → Prop
  | .whole d => d.isException = false
  | _        => True

theorem beginning_calm {t : Token} {b : Beginning} (h : beginning position t = .ok b) : b.Calm := by
  unfold beginning at h
  split at h
  · split at h
    · cases h
      rfl
    · split at h
      · cases h
        rfl
      · split at h
        · cases h
          rfl
        · cases h
  · cases h
  · split at h
    · cases h
      trivial
    · cases h
  · cases h
  · cases h
    rfl
  · cases h
    rfl
  · cases h
    trivial
  · cases h
    trivial
  · cases h

theorem place_calm {d : Document} (h : d.isException = false) (fs : List Frame) :
    Delivers (place d fs) State.Calm := by
  unfold place
  split
  · exact delivers_pure h
  · exact delivers_bind fun _ => delivers_pure trivial
  · exact delivers_bind fun _ => delivers_bind fun _ => delivers_pure trivial

theorem delivers_lift {α : Type} {r : Reading α} {P : α → Prop} (h : Delivers r P) :
    Delivers (lift r) P := by
  intro s a ha
  have hrun : ((lift r).run.run s).1 = (r.run.run s).1.mapError Error.fault := rfl
  rw [hrun] at ha
  cases hr : (r.run.run s).1 with
  | error f =>
    rw [hr] at ha
    cases ha
  | ok b =>
    rw [hr] at ha
    cases ha
    exact h s a hr

theorem begin_calm {b : Beginning} (h : b.Calm) (fs : List Frame) :
    Delivers (begin fs b) State.Calm := by
  cases b with
  | whole d => exact place_calm h fs
  | number d => exact (delivers_lift (Value.delivers_ofDecimal d)).bind fun v hv => place_calm (d := .value v) hv fs
  | array => exact delivers_bind fun _ => delivers_pure trivial
  | object => exact delivers_bind fun _ => delivers_pure trivial

theorem close_calm (fs : List Frame) : Delivers (close fs) State.Calm := by
  unfold close
  split
  · exact delivers_pure trivial
  · exact (delivers_lift (Value.delivers_ofItems _)).bind fun v hv => place_calm (d := .value v) hv _
  · exact (delivers_lift (Value.delivers_ofPairs _)).bind fun v hv => place_calm (d := .value v) hv _

theorem refuse_calm (d : Document) (b : Beginning) : Delivers (refuse d b) State.Calm := by
  unfold refuse
  dsimp only
  split
  · exact delivers_bind fun _ => delivers_throw
  · exact delivers_bind fun _ => delivers_throw
  · exact delivers_bind fun _ => delivers_throw
  · exact delivers_throw
  · exact delivers_throw

theorem stepNext_calm (position : Nat) (t : Token) (fs : List Frame) :
    Delivers (stepNext position t fs) State.Calm := by
  unfold stepNext
  split <;> split
  · exact close_calm _
  · split
    · exact delivers_pure trivial
    · exact delivers_throw
  · exact close_calm _
  · split
    · exact delivers_pure trivial
    · exact delivers_throw

theorem value_calm (position : Nat) (t : Token) (fs : List Frame) :
    Delivers (do begin fs (← beginning position t) : Parsing State) State.Calm := by
  cases h : beginning position t with
  | error e => exact delivers_throw
  | ok b => exact begin_calm (beginning_calm h) fs

theorem withKey_calm (t : Token) (fs : List Frame) : (withKey t fs).Calm := by
  unfold withKey
  split <;> trivial

/-- No token brings an exception in. -/
theorem stepToken_calm (position : Nat) (t : Token) (state : State) :
    Delivers (stepToken position t state) State.Calm := by
  unfold stepToken
  split
  · exact delivers_bind fun _ => refuse_calm _ _
  · exact value_calm position t _
  · split
    · exact close_calm _
    · exact value_calm position t _
  · split
    · exact close_calm _
    · split
      · exact delivers_pure (withKey_calm t _)
      · exact delivers_throw
  · split
    · exact delivers_pure (withKey_calm t _)
    · exact delivers_throw
  · split
    · exact delivers_pure trivial
    · exact delivers_throw
  · exact stepNext_calm _ _ _

theorem step_calm (position : Nat) (state : State) (e : Element) :
    Delivers (step false position state e) State.Calm := by
  cases e with
  | token t => exact stepToken_calm position t state
  | filter => exact delivers_throw
  | value v => exact delivers_throw

theorem finish_calm {state : State} {d : Document} (h : state.Calm)
    (hd : finish position state = .ok d) : d.isException = false := by
  unfold finish at hd
  split at hd
  · cases hd
    exact h
  · cases hd
  · cases hd
  · cases hd

/-- So no document is one. -/
theorem readMany_calm (es : List Element) {state : State} (h : state.Calm) :
    Always (readMany position state es) fun ds => ∀ d ∈ ds.documents, d.isException = false := by
  induction es generalizing position state with
  | nil =>
    unfold readMany
    split
    · exact always_pure (by simp)
    · split
      · rename_i d hd
        exact always_pure (by simpa using finish_calm h hd)
      · exact always_pure (by simp)
  | cons e es ih =>
    unfold readMany
    refine Always.bind (step_calm position state e) fun r hr => ?_
    split
    · exact always_pure (by simp)
    · rename_i d
      have hstart : start.Calm := trivial
      refine (ih hstart).bind fun rest hrest => ?_
      exact always_pure (List.forall_mem_cons.2 ⟨hr _ rfl, hrest⟩)
    · rename_i state _
      exact ih (hr _ rfl)

/-- **No document that is read is an exception.** -/
theorem documents_calm (source : Text) :
    Always (documents source) fun ds => ∀ d ∈ ds.documents, d.isException = false := by
  unfold documents
  split
  · exact always_pure (by simp)
  · exact readMany_calm _ trivial

end Json

end FilterShell
