import FilterShell.Proofs.Value.Listing
import FilterShell.Proofs.Value.Order

/-!
# Objects while they are read

After any reads of objects that were untouched, each of them has been read some number of times
(`Value.Pops.tracked`), and what is in its table follows from that number.  The hash of an object that is read
in part is that of the whole object if no key that waits in it is new, and otherwise there is none
(`Value.Part.hash`).
-/

namespace FilterShell

variable {k n : Nat}

open Reading

namespace Relations

/-! ### The level below -/

/-- The relations that those of level `n` are made of. -/
def below : Nat → Relations
  | 0     => ⟨fun _ => return 0, fun _ _ => return false, fun _ _ => return false⟩
  | n + 1 => upTo n

theorem upTo_eq_next (n : Nat) : upTo n = (below n).next := by
  cases n <;> rfl

variable {s : Store} {home : Nat → Value}

theorem below_agrees (n : Nat) : (below n).Agrees s (Value.SettledTo s home n) := by
  cases n with
  | zero => exact ⟨nofun, nofun, nofun, nofun⟩
  | succ n => exact upTo_agrees n

theorem below_steady (n : Nat) : (below n).Steady s (Value.SettledTo s home n) where
  agrees _ hs := (below_agrees n).mono fun _ hv => (hv.extends hs).1
  stays _ hs _ hv := (hv.extends hs).2

end Relations

namespace Value

variable {s₀ s s' t : Store} {home : Nat → Value} {D : Value → Prop}

/-- An object that nobody has read, with drained keys and with values in `D`. -/
def Untouched (s : Store) (home : Nat → Value) (D : Value → Prop) : Value → Prop
  | .object id pairs => home id = .object id pairs ∧ (s.get id).Unread pairs.length ∧
      ∀ p ∈ pairs, Drained s home p.1 ∧ D p.2
  | _ => False

/-- A drained value, or an untouched object of these. -/
def Part (s : Store) (home : Nat → Value) (v : Value) : Prop :=
  Drained s home v ∨ Untouched s home (Drained s home) v

/-- Pairs are taken from untouched objects, in any order. -/
inductive Pops (s₀ : Store) (home : Nat → Value) : Store → Store → Prop
  | refl (s : Store) : Pops s₀ home s s
  | pop {s s' s'' : Store} {id : Nat} {pairs : List (Value × Value)} {place : Option Nat}
      (h : Pops s₀ home s s') (hv : Untouched s₀ home (Part s₀ home) (.object id pairs))
      (hpop : Gives s' ((object id pairs).relations.takePair? id pairs) place s'') :
      Pops s₀ home s s''

/-- No key that waits in an object is new: its end has been taken, or each of these keys equals one that
was taken. -/
def Listed (s : Store) : Value → Prop
  | .object id pairs => (s.get id).ended = true ∨ ∀ p ∈ pairs.drop (s.get id).taken,
      ∃ q ∈ pairs.take (s.get id).taken, Holds s .equal q.1 p.1
  | _ => True

/-- Every object that was untouched has been read some number of times. -/
structure Tracked (s₀ : Store) (home : Nat → Value) (s : Store) : Prop where
  extend  : s₀.Extends s
  reached : ∀ {id pairs}, Untouched s₀ home (Part s₀ home) (.object id pairs) →
    ∃ n, Relations.Reached s₀ (Drained s₀ home) pairs n (s.get id)

theorem tracked_start : Tracked s₀ home s₀ where
  extend := fun _ _ => rfl
  reached hv := ⟨0, Relations.reached_zero hv.2.1⟩

theorem Untouched.mono {D' : Value → Prop} {v : Value} (h : Untouched s home D v)
    (hD : ∀ w, D w → D' w) : Untouched s home D' v := by
  cases v with
  | object id pairs => exact ⟨h.1, h.2.1, fun p hp => ⟨(h.2.2 p hp).1, hD p.2 (h.2.2 p hp).2⟩⟩
  | exception | null | bool | number | string | array => exact h.elim

theorem Untouched.part {v : Value} (h : Untouched s home (Drained s home) v) :
    Untouched s home (Part s home) v := h.mono fun _ => .inl

theorem Pops.trans {s'' : Store} (h : Pops s₀ home s s') (h' : Pops s₀ home s' s'') :
    Pops s₀ home s s'' := by
  induction h' with
  | refl => exact h
  | pop _ hv hpop ih => exact .pop ih hv hpop

/-! ### One object -/

section Object

variable {id : Nat} {pairs : List (Value × Value)}
  (hv : Untouched s₀ home (Part s₀ home) (.object id pairs))

include hv

theorem Untouched.settledTo (hk : depthPairs pairs ≤ k) : ∀ p ∈ pairs, SettledTo s₀ home k p.1 :=
  fun p hp => (hv.2.2 p hp).1.settledTo.mono ((depth_pair hp).1.trans hk)

theorem Untouched.drained_keys : ∀ p ∈ pairs, Drained s₀ home p.1 := fun p hp => (hv.2.2 p hp).1

/-- Reading one object leaves the others where they are. -/
theorem Tracked.readOn (h : Tracked s₀ home s) (hread : s.ReadOn id s')
    (hreached : Relations.Reached s₀ (Drained s₀ home) pairs n (s'.get id)) :
    Tracked s₀ home s' where
  extend := h.extend.trans hread.extend
  reached {id' pairs'} hv' := by
    by_cases hid : id' = id
    · subst hid
      cases hv.1.symm.trans hv'.1
      exact ⟨n, hreached⟩
    · rw [hread.same id' hid]
      exact h.reached hv'

/-- A read of a tracked object. -/
theorem Tracked.takePair? (h : Tracked s₀ home s)
    (hreached : Relations.Reached s₀ (Drained s₀ home) pairs n (s.get id)) :
    ∃ place s', Gives s ((object id pairs).relations.takePair? id pairs) place s' ∧
      s.ReadOn id s' ∧ Relations.Reached s₀ (Drained s₀ home) pairs (n + 1) (s'.get id) := by
  have hkeys := hv.settledTo (Nat.le_succ (depthPairs pairs))
  obtain ⟨s', hpop, hread, hreached'⟩ := (Relations.upTo_steady _).takePair? hkeys h.extend
    (hreached.keyed hkeys)
  exact ⟨_, s', hpop, hread, hreached'.keyed hv.drained_keys⟩

/-- The object is read to its end. -/
theorem Tracked.pops_end (h : Tracked s₀ home s) :
    ∃ s', Pops s₀ home s s' ∧ s.ReadOn id s' ∧
      Relations.Reached s₀ (Drained s₀ home) pairs (pairs.length + 1) (s'.get id) := by
  have hrun : ∀ m, ∀ {s n}, Tracked s₀ home s →
      Relations.Reached s₀ (Drained s₀ home) pairs n (s.get id) →
      ∃ s', Pops s₀ home s s' ∧ s.ReadOn id s' ∧
        Relations.Reached s₀ (Drained s₀ home) pairs (n + m) (s'.get id) := by
    intro m
    induction m with
    | zero => exact fun _ hreached => ⟨_, .refl _, .refl _ _, hreached⟩
    | succ m ih =>
      intro s n h hreached
      obtain ⟨place, s₁, hpop, hread₁, hreached₁⟩ := h.takePair? hv hreached
      obtain ⟨s₂, hpops, hread₂, hreached₂⟩ := ih (h.readOn hv hread₁ hreached₁) hreached₁
      refine ⟨s₂, .trans (.pop (.refl s) hv hpop) hpops, hread₁.trans hread₂, ?_⟩
      rwa [Nat.add_right_comm] at hreached₂
  obtain ⟨n, hreached⟩ := h.reached hv
  obtain ⟨s', hpops, hread, hreached'⟩ := hrun (pairs.length + 1) h hreached
  exact ⟨s', hpops, hread, hreached'.past (by omega) (Nat.lt_succ_self _)⟩

/-- An object whose end has been taken has been read altogether. -/
theorem Tracked.whole (h : Tracked s₀ home s) (hended : (s.get id).ended = true) :
    Relations.Reached s₀ (Drained s₀ home) pairs (pairs.length + 1) (s.get id) := by
  obtain ⟨n, hreached⟩ := h.reached hv
  rw [hreached.ended] at hended
  exact hreached.past (of_decide_eq_true hended) (Nat.lt_succ_self _)

/-- Listing succeeds if no new key waits. -/
theorem Tracked.listed_iff (h : Tracked s₀ home s)
    (hreached : Relations.Reached s₀ (Drained s₀ home) pairs n (s.get id)) :
    Listed s (.object id pairs) ↔ Table.Covered (standing s₀) pairs n := by
  by_cases hn : pairs.length < n
  · have hended : (s.get id).ended = true := (hreached.whole hn).1
    exact iff_of_true (.inl hended) (Table.covered_all hn.le)
  · have hended : ¬ (s.get id).ended = true := by
      rw [hreached.ended]
      simpa using hn
    have htaken : (s.get id).taken = n := by
      rw [hreached.taken]
      omega
    rw [Listed, or_iff_right hended, htaken]
    have hequal : ∀ p ∈ pairs, ∀ q ∈ pairs,
        Holds s .equal q.1 p.1 ↔ q.1.standing s₀ = p.1.standing s₀ := by
      intro p hp q hq
      obtain ⟨hDp, hp'⟩ := (hv.drained_keys p hp).extends h.extend
      obtain ⟨hDq, hq'⟩ := (hv.drained_keys q hq).extends h.extend
      rw [holds_equal hDq hDp, hp', hq']
    refine forall₂_congr fun p hp => exists_congr fun q => and_congr_right fun hq => ?_
    exact hequal p (List.mem_of_mem_drop hp) q (List.mem_of_mem_take hq)

theorem Tracked.standing_object (h : Tracked s₀ home s) (hended : (s.get id).ended = true) :
    (object id pairs).standing s =
      .object ((Table.ofPairs (standing s₀) pairs).map (pairStanding s)) := by
  rw [Value.standing_object, ((h.whole hv hended).whole (Nat.lt_succ_self _)).2]

/-- An object of drained values is drained with its end. -/
theorem Tracked.drained (h : Tracked s₀ home s) (hended : (s.get id).ended = true)
    (hvalues : ∀ p ∈ Table.ofPairs (standing s₀) pairs, Drained s home p.2) :
    Drained s home (.object id pairs) := by
  have hreached := h.whole hv hended
  have htable := (hreached.whole (Nat.lt_succ_self _)).2
  have hkeys : ∀ p ∈ Relations.tableOf pairs (s.get id).entries,
      Drained s home p.1 ∧ p.1.standing s = p.1.standing s₀ :=
    fun p hp => (hreached.index.mem hp).extends h.extend
  refine .object hended hv.1 (fun e he => ?_) (fun p hp => (hkeys p hp).1) (htable ▸ hvalues) ?_
  · obtain ⟨k, v, hpick, hk, hhash⟩ := hreached.index e he
    obtain ⟨hDk, hstand⟩ := hk.extends h.extend
    refine ⟨k, v, hpick, ?_⟩
    rw [hhash, ← hstand]
    exact answers_hash hDk
  · have hnodup : (Relations.tableOf pairs (s.get id).entries).Pairwise
        fun p q => p.1.standing s₀ ≠ q.1.standing s₀ := by
      rw [htable]
      exact List.pairwise_map.1 (Table.nodup_ofPairs pairs)
    refine hnodup.imp_of_mem fun {p q} hp hq hne => ?_
    have hequal := answers_equal (hkeys p hp).1 (hkeys q hq).1
    rwa [(hkeys p hp).2, (hkeys q hq).2, decide_eq_false hne] at hequal

/-- **The hash of an object** is that of the whole object if no new key waits; otherwise there is none. -/
theorem Tracked.hash_object (h : Tracked s₀ home s) (ht : Tracked s₀ home t)
    (hended : (t.get id).ended = true) (hk : depthPairs pairs ≤ k) : (Listed s (.object id pairs) →
      ∃ s', Gives s ((Relations.upTo k).hash (.object id pairs))
          ((object id pairs).standing t).hash s' ∧ s.ReadOn id s' ∧
        Relations.Reached s₀ (Drained s₀ home) pairs (pairs.length + 1) (s'.get id)) ∧
    (¬ Listed s (.object id pairs) →
      ∃ s', Fails s ((Relations.upTo k).hash (.object id pairs)) .keysChanged s') := by
  have hsteady : (Relations.below k).Steady s₀ (SettledTo s₀ home k) := Relations.below_steady k
  have hkeys := hv.settledTo hk
  obtain ⟨n, hreached⟩ := h.reached hv
  have hhash : ∀ p ∈ pairs,
      Answers s ((Relations.below k).hash p.1) (p.1.standing s₀).hash := by
    intro p hp
    rw [← hsteady.stays h.extend p.1 (hkeys p hp)]
    exact (hsteady.agrees h.extend).hash (hkeys p hp)
  obtain ⟨hgives, hfails⟩ := hsteady.mapKeys (g := fun v => (v.standing s₀).hash) hkeys h.extend hhash
    (hreached.keyed hkeys)
  have hwhole : ((object id pairs).standing t).hash =
      ((Table.ofPairs (standing s₀) pairs).map fun p => (p.1.standing s₀).hash).foldl (· ^^^ ·) 0 := by
    rw [ht.standing_object hv hended, Standing.hash_object, List.map_map]
    refine congrArg (List.foldl _ 0) (List.map_congr_left fun p hp => ?_)
    obtain ⟨⟨q, hq, hkey⟩, -⟩ := Table.mem_ofPairs hp
    have hstand := ((hv.drained_keys q hq).extends ht.extend).2
    rw [Function.comp_apply, pairStanding, hkey, hstand]
  rw [h.listed_iff hv hreached, Relations.upTo_eq_next, hwhole]
  constructor
  · intro hcovered
    obtain ⟨s', hlist, hread, hreached'⟩ := hgives hcovered
    exact ⟨s', Gives.bind hlist rfl, hread, hreached'.keyed hv.drained_keys⟩
  · intro hnot
    obtain ⟨s', hlist⟩ := hfails hnot
    exact ⟨s', Fails.bind hlist⟩

end Object

theorem Pops.tracked (hpops : Pops s₀ home s s') (h : Tracked s₀ home s) :
    Tracked s₀ home s' ∧ s.Extends s' := by
  induction hpops with
  | refl => exact ⟨h, fun _ _ => rfl⟩
  | pop _ hv hpop ih =>
    obtain ⟨h', hext⟩ := ih
    obtain ⟨n, hreached⟩ := h'.reached hv
    obtain ⟨place, s'', hpop', hread, hreached'⟩ := h'.takePair? hv hreached
    cases hpop.symm.trans hpop'
    exact ⟨h'.readOn hv hread hreached', hext.trans hread.extend⟩

/-! ### Values of objects -/

theorem Drained.ended {id : Nat} {pairs : List (Value × Value)} (h : Drained s home (.object id pairs)) :
    (s.get id).ended = true := by
  cases h
  assumption

theorem Drained.listed {v : Value} (h : Drained s home v) : Listed s v := by
  cases v with
  | object id pairs => exact .inl h.ended
  | exception | null | bool | number | string | array => trivial

namespace Part

variable {v : Value} (hpart : Part s₀ home v)

include hpart

theorem home_eq {i : Nat} (hi : v.id? = some i) : home i = v := by
  rcases hpart with hv | hv
  · exact Settled.home_eq hv.settledTo hi
  · cases v with
    | object id pairs =>
      cases hi
      exact hv.1
    | exception | null | bool | number | string | array => exact hv.elim

/-- Where a part stands does not depend on how it was read, once it is drained. -/
theorem standing_eq (hs : Tracked s₀ home s) (ht : Tracked s₀ home t) (hds : Drained s home v)
    (hdt : Drained t home v) : v.standing s = v.standing t := by
  rcases hpart with hv | hv
  · rw [(hv.extends hs.extend).2, (hv.extends ht.extend).2]
  · cases v with
    | object id pairs =>
      rw [hs.standing_object hv.part hds.ended, ht.standing_object hv.part hdt.ended]
      refine congrArg Standing.object (List.map_congr_left fun p hp => ?_)
      obtain ⟨⟨q, hq, hkey⟩, r, hr, hvalue⟩ := Table.mem_ofPairs hp
      have hDk := (hv.2.2 q hq).1
      have hDv := (hv.2.2 r hr).2
      rw [pairStanding, pairStanding, hkey, hvalue, (hDk.extends hs.extend).2,
        (hDk.extends ht.extend).2, (hDv.extends hs.extend).2, (hDv.extends ht.extend).2]
    | exception | null | bool | number | string | array => exact hv.elim

/-- Reading an object adds no new key to another one. -/
theorem listed_frame (hs : Tracked s₀ home s) (hs' : Tracked s₀ home s') {id : Nat}
    (hread : s.ReadOn id s') (hid : v.id? ≠ some id) : Listed s' v ↔ Listed s v := by
  rcases hpart with hv | hv
  · exact iff_of_true (hv.extends hs'.extend).1.listed (hv.extends hs.extend).1.listed
  · cases v with
    | object id' pairs =>
      obtain ⟨n, hreached⟩ := hs.reached hv.part
      have hget : s'.get id' = s.get id' := hread.same id' fun h => hid (congrArg some h)
      rw [hs.listed_iff hv.part hreached, hs'.listed_iff hv.part (hget ▸ hreached)]
    | exception | null | bool | number | string | array => exact hv.elim

/-- **The hash of a part** is that of the drained value if no new key waits; otherwise there is none. -/
theorem hash (hs : Tracked s₀ home s) (ht : Tracked s₀ home t) (hdt : Drained t home v)
    (hk : v.depth ≤ k) :
    (Listed s v →
      ∃ s', Gives s ((Relations.upTo k).hash v) (v.standing t).hash s' ∧ Tracked s₀ home s' ∧
        s.Extends s' ∧ Drained s' home v ∧
        ∀ w, Part s₀ home w → w ≠ v → (Listed s' w ↔ Listed s w)) ∧
    (¬ Listed s v → ∃ s', Fails s ((Relations.upTo k).hash v) .keysChanged s') := by
  rcases hpart with hv | hv
  · obtain ⟨hDs, hstand⟩ := hv.extends hs.extend
    refine ⟨fun _ => ⟨s, ?_, hs, fun _ _ => rfl, hDs, fun _ _ _ => Iff.rfl⟩, absurd hDs.listed⟩
    rw [(hv.extends ht.extend).2, ← hstand]
    exact (Relations.upTo_agrees k).hash (hDs.settledTo.mono (by omega))
  · cases v with
    | object id pairs =>
      obtain ⟨hgives, hfails⟩ := hs.hash_object hv.part ht hdt.ended hk
      refine ⟨fun hlisted => ?_, hfails⟩
      obtain ⟨s', hhash, hread, hreached⟩ := hgives hlisted
      have hs' := hs.readOn hv.part hread hreached
      refine ⟨s', hhash, hs', hread.extend, ?_, fun w hw hne => hw.listed_frame hs hs' hread ?_⟩
      · refine hs'.drained hv.part (hreached.whole (Nat.lt_succ_self _)).1 fun p hp => ?_
        obtain ⟨-, r, hr, hvalue⟩ := Table.mem_ofPairs hp
        rw [hvalue]
        exact ((hv.2.2 r hr).2.extends hs'.extend).1
      · exact fun hid => hne ((hw.home_eq hid).symm.trans hv.1)
    | exception | null | bool | number | string | array => exact hv.elim

end Part

end Value

end FilterShell
