import FilterShell.Proofs.Value.Content
import FilterShell.Value.Given

/-!
# Making values

A new container gets an identity that no other has, and is complete and unread.  While values are only
made and none is read, all containers are at home: `Grown`.
-/

namespace FilterShell

variable {pairs : List (Value × Value)}

open Reading (Gives)

variable {start s : Store} {home home' : Nat → Value}

/-! ### Homes -/

/-- All that is at home stays at home. -/
def Extends (home home' : Nat → Value) : Prop := ∀ i, home i ≠ .null → home' i = home i

theorem Extends.eq (h : Extends home home') {i : Nat} {v : Value} (hi : home i = v)
    (hv : v.id? = some i) : home' i = v := by
  rw [h i (by rw [hi]; exact Value.ne_null hv), hi]

theorem Extends.trans {home'' : Nat → Value} (h : Extends home home') (h' : Extends home' home'') :
    Extends home home'' := by
  intro i hi
  rw [h' i (by rwa [h i hi]), h i hi]

/-- The keys are strings at home, and the containers in the values are at home. -/
structure Paired (home : Nat → Value) (pairs : List (Value × Value)) : Prop where
  keys : Value.Keyed home pairs
  values : ∀ p ∈ pairs, p.2.Housed home

theorem Value.Keyed.extend (h : Extends home home')
    (hkeys : Value.Keyed home pairs) : Value.Keyed home' pairs := by
  intro p hp
  obtain ⟨i, pieces, hkey, hi⟩ := hkeys p hp
  exact ⟨i, pieces, hkey, h.eq hi rfl⟩

theorem Value.Housed.extend (h : Extends home home') {v : Value} (hv : v.Housed home) :
    v.Housed home' := by
  induction hv with
  | null => exact .null
  | bool b => exact .bool b
  | number id d => exact .number id d
  | string hhome => exact .string (h.eq hhome rfl)
  | array hhome _ ih => exact .array (h.eq hhome rfl) ih
  | object hhome hkeys _ ih => exact .object (h.eq hhome rfl) (hkeys.extend h) ih

theorem Paired.extend (h : Extends home home') (hpairs : Paired home pairs) : Paired home' pairs :=
  ⟨hpairs.keys.extend h, fun p hp => (hpairs.values p hp).extend h⟩

theorem Paired.cons {pairs : List (Value × Value)} (hpairs : Paired home pairs) {i : Nat}
    {pieces : List Text} (hi : home i = .string i pieces) {v : Value} (hv : v.Housed home) :
    Paired home ((.string i pieces, v) :: pairs) :=
  ⟨List.forall_mem_cons.2 ⟨⟨i, pieces, rfl, hi⟩, hpairs.keys⟩,
    List.forall_mem_cons.2 ⟨hv, hpairs.values⟩⟩

theorem Paired.reverse (hpairs : Paired home pairs) : Paired home pairs.reverse :=
  ⟨fun p hp => hpairs.keys p (List.mem_reverse.1 hp),
    fun p hp => hpairs.values p (List.mem_reverse.1 hp)⟩

/-! ### New containers -/

/-- Nothing has been read since the first store, and the containers at home are new. -/
structure Grown (start : Store) (home : Nat → Value) (s : Store) : Prop where
  progress : s.progress = start.progress
  next : start.next ≤ s.next
  fresh : ∀ i, home i ≠ .null → start.next ≤ i ∧ i < s.next

/-- The computation makes a value, with new containers for it. -/
def Makes (start : Store) (home : Nat → Value) (s : Store) (r : Reading Value)
    (Q : (Nat → Value) → Value → Prop) : Prop :=
  ∃ v home' s', Gives s r v s' ∧ Grown start home' s' ∧ Extends home home' ∧ Q home' v

/-- A new container is at home. -/
theorem makes_container (hs : Grown start home s) (c : Nat → Value) :
    Makes start home s (do return c (← Reading.fresh)) fun home' v =>
      ∃ i, v = c i ∧ home' i = c i := by
  have hnew : home s.next = .null := by
    by_contra h
    exact absurd (hs.fresh _ h).2 (Nat.lt_irrefl _)
  have hold : ∀ i, i ≠ s.next → Function.update home s.next (c s.next) i = home i := fun i hi =>
    Function.update_of_ne hi _ _
  refine ⟨c s.next, Function.update home s.next (c s.next), { s with next := s.next + 1 }, rfl,
    ⟨hs.progress, hs.next.trans (Nat.le_succ _), ?_⟩, ?_, s.next, rfl, Function.update_self _ _ _⟩
  · intro i hi
    by_cases hlast : i = s.next
    · rw [hlast]
      exact ⟨hs.next, Nat.lt_succ_self _⟩
    · rw [hold i hlast] at hi
      exact ⟨(hs.fresh i hi).1, (hs.fresh i hi).2.trans (Nat.lt_succ_self _)⟩
  · intro i hi
    refine hold i ?_
    rintro rfl
    exact hi hnew

theorem makes_text (hs : Grown start home s) {t : Text} (ht : t.isWellFormed) :
    Makes start home s (Value.ofText t) fun home' v =>
      ∃ i, v = .string i [t] ∧ home' i = .string i [t] := by
  have hmake : Value.ofText t = do return .string (← Reading.fresh) [t] := by
    rw [Value.ofText, if_neg (by simp [ht])]
  rw [hmake]
  exact makes_container hs fun i => .string i [t]

theorem makes_array (hs : Grown start home s) {items : List Value}
    (hitems : ∀ v ∈ items, v.Housed home) :
    Makes start home s (Value.ofItems items) fun home' v =>
      v.Housed home' ∧ v.kind = .array ∧ v.content = .list (Value.contents items) := by
  obtain ⟨v, home', s', hgives, hgrown, hext, i, rfl, hi⟩ :=
    makes_container hs fun i => .array i items
  have hhoused : ∀ v ∈ items, v.Housed home' := fun v hv => (hitems v hv).extend hext
  exact ⟨_, home', s', hgives, hgrown, hext, .array hi hhoused, rfl, rfl⟩

theorem makes_object (hs : Grown start home s) (hpairs : Paired home pairs) :
    Makes start home s (Value.ofPairs pairs) fun home' v =>
      v.Housed home' ∧ v.kind = .object ∧
        v.content = .object (Datum.record (Value.members pairs)) := by
  obtain ⟨v, home', s', hgives, hgrown, hext, i, rfl, hi⟩ :=
    makes_container hs fun i => .object i pairs
  have hpairs := hpairs.extend hext
  exact ⟨_, home', s', hgives, hgrown, hext, .object hi hpairs.keys hpairs.values, rfl, rfl⟩

end FilterShell
