import FilterShell.Eval.Apply
import FilterShell.Proofs.Value.Results

/-!
# What a key finds

Looking up a key in values gives parts of these values, as far as the first exception.  Whatever has been
read of a value before, nothing else can come out (`Program.always_findAll`).
-/

namespace FilterShell

/-- What a value is made of directly. -/
def Value.parts : Value → List Value
  | .array _ items  => items
  | .object _ pairs => pairs.map (·.2)
  | _               => []

theorem delivers_item? (id : Nat) (items : List Value) (k : Nat) :
    Delivers (Reading.item? id items k) fun r => ∀ w, r = some w → w ∈ items := by
  refine delivers_bind fun found => ?_
  split
  · exact delivers_pure fun w hw => List.mem_of_getElem? hw
  · exact delivers_pure fun w hw => by cases hw

theorem fromEnd?_mem {xs : List Value} {k : Int} {w : Value} (h : Reading.fromEnd? xs k = some w) :
    w ∈ xs := by
  unfold Reading.fromEnd? at h
  split at h
  · exact List.mem_of_getElem? h
  · split at h
    · exact List.mem_of_getElem? h
    · cases h

theorem delivers_itemAt (id : Nat) (items : List Value) (k : Int) :
    Delivers (Reading.itemAt id items k) fun w => w ∈ items := by
  unfold Reading.itemAt
  split
  · refine (delivers_item? id items _).bind fun r hr => ?_
    split
    · exact delivers_pure (hr _ rfl)
    · exact delivers_throw
  · refine delivers_bind fun p => ?_
    split
    · rename_i w hw
      exact delivers_pure (List.mem_of_mem_take (fromEnd?_mem hw))
    · exact delivers_throw

theorem tableOf_snd_mem {pairs : List (Value × Value)} {entries : List Entry} {pair : Value × Value}
    (h : pair ∈ Relations.tableOf pairs entries) : pair.2 ∈ pairs.map (·.2) := by
  obtain ⟨e, -, he⟩ := List.mem_filterMap.1 h
  obtain ⟨⟨k, _⟩, -, he⟩ := Option.bind_eq_some_iff.1 he
  obtain ⟨⟨_, v⟩, hv, he⟩ := Option.bind_eq_some_iff.1 he
  cases he
  exact List.mem_map.2 ⟨_, List.mem_of_getElem? hv, rfl⟩

theorem delivers_taken (id : Nat) (pairs : List (Value × Value)) :
    Delivers (Relations.taken id pairs) fun table => ∀ pair ∈ table, pair.2 ∈ pairs.map (·.2) :=
  delivers_bind fun _ => delivers_pure fun _ h => tableOf_snd_mem h

theorem delivers_lookup? (R : Relations) (id : Nat) (pairs : List (Value × Value)) (key : Value) :
    Delivers (R.lookup? id pairs key) fun r => ∀ w, r = some w → w ∈ pairs.map (·.2) := by
  refine delivers_bind fun _ => delivers_bind fun _ => delivers_bind fun _ => delivers_bind fun found => ?_
  split
  · exact delivers_pure fun w hw => by cases hw
  · refine (delivers_taken id pairs).bind fun table htable => delivers_pure fun w hw => ?_
    obtain ⟨pair, hpair, rfl⟩ := Option.map_eq_some_iff.1 hw
    exact htable pair (List.mem_of_getElem? hpair)

/-- What a key gives in a value: a part of it, or an exception. -/
inductive Value.Found (v : Value) : Except Value Value → Prop
  | part {w : Value} (hw : w ∈ v.parts) : Found v (.ok w)
  | failure {e : Value} (he : e.isException) : Found v (.error e)

namespace Program

/-- An early return gives what it returns. -/
theorem found_early {v : Value} {r : Except Value Value} (h : v.Found r) (r' : Except Value Value)
    (hr' : (Except.error r : Except (Except Value Value) (Except Value Value)) = .error r' ∨
      Except.error r = Except.ok r') : v.Found r' := by
  obtain rfl : r = r' := by simpa using hr'
  exact h

/-- What is found is held by the value. -/
theorem delivers_find (key v : Value) : Delivers (find key v) v.Found := by
  unfold find
  split
  · refine (delivers_lookup? _ _ _ _).bind fun r hr => ?_
    split
    · exact delivers_pure (.part (hr _ rfl))
    · exact delivers_pure (.failure rfl)
  · split
    · refine delivers_bind fun whole => ?_
      split
      · exact delivers_pure (.failure rfl)
      · rename_i id items _ _ d _
        refine Delivers.bind
          (P := fun e => ∀ r, e = .error r ∨ e = .ok r → (Value.array id items).Found r)
          (Delivers.rescue ?_ fun f => ?_) fun e he => ?_
        · refine (delivers_itemAt id items _).bind fun w hw => ?_
          exact delivers_pure (found_early (.part hw))
        · split
          · exact delivers_pure (found_early (.failure rfl))
          · exact delivers_pure (found_early (.failure rfl))
          · exact Delivers.bind (P := fun _ => False) delivers_throw fun _ h => h.elim
        · cases e with
          | error r => exact delivers_pure (he r (.inl rfl))
          | ok r => exact delivers_pure (he r (.inr rfl))
    · exact delivers_pure (.failure rfl)
  · exact delivers_pure (.failure rfl)

/-- What a key gives in values: parts of them, and perhaps an exception. -/
theorem always_findAll (key : Value) (values : List Value) :
    Always (findAll key values) fun r =>
      (∀ w ∈ r.1, ∃ v ∈ values, w ∈ v.parts) ∧ ∀ e, r.2 = .ok (some e) → e.isException := by
  induction values with
  | nil => exact always_pure (by simp)
  | cons v values ih =>
    refine Always.bind (delivers_find key v) fun r hr => ?_
    split
    · exact always_pure (by simp)
    · rename_i e
      cases hr _ rfl with
      | failure he => exact always_pure (by simpa using he)
    · rename_i w
      cases hr _ rfl with
      | part hw =>
        refine ih.bind fun found hfound => ?_
        obtain ⟨ws, e⟩ := found
        obtain ⟨hws, he⟩ := hfound
        refine always_pure ⟨List.forall_mem_cons.2 ⟨⟨v, List.mem_cons_self, hw⟩, fun w' hw' => ?_⟩, he⟩
        obtain ⟨v', hv', hpart⟩ := hws w' hw'
        exact ⟨v', List.mem_cons_of_mem _ hv', hpart⟩

end Program

end FilterShell
