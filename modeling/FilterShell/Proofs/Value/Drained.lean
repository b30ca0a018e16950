import FilterShell.Proofs.Value.Table

/-!
# Drained values

A value is *drained* if the ends of all containers in it have been taken: `Value.Drained`.  What has been
read to its end never changes again, so drained values stay drained and stand where they stood
(`Drained.extends`).
-/

namespace FilterShell

variable {id : Nat} {v : Value} {p : Value × Value} {pairs : List (Value × Value)}

open Reading

variable {s : Store} {home : Nat → Value} {D : Value → Prop} {R : Relations}

namespace Value

/-- All ends have been taken, at any depth, and there is no not-a-number.  `home` tells which container
has an identity.  The table of an object holds the hashes of its keys, which are not equal to each
other. -/
inductive Drained (s : Store) (home : Nat → Value) : Value → Prop
  | exception (e : Exception) : Drained s home (.exception e)
  | null : Drained s home .null
  | bool (b : Bool) : Drained s home (.bool b)
  | number {id : Nat} {d : Decimal} (h : d.isNaN = false) : Drained s home (.number id d)
  | string {id : Nat} {pieces : List Text} (hend : (s.get id).ended = true)
      (hhome : home id = .string id pieces) : Drained s home (.string id pieces)
  | array {id : Nat} {items : List Value} (hend : (s.get id).ended = true)
      (hhome : home id = .array id items)
      (hitems : ∀ v ∈ items.take (s.get id).taken, Drained s home v) :
      Drained s home (.array id items)
  | object {id : Nat} {pairs : List (Value × Value)} (hend : (s.get id).ended = true)
      (hhome : home id = .object id pairs)
      (hentries : ∀ e ∈ (s.get id).entries,
        ∃ k v, e.pick pairs = some (k, v) ∧ Answers s k.hash e.hash)
      (hkeys : ∀ p ∈ Relations.tableOf pairs (s.get id).entries, Drained s home p.1)
      (hvalues : ∀ p ∈ Relations.tableOf pairs (s.get id).entries, Drained s home p.2)
      (hapart : (Relations.tableOf pairs (s.get id).entries).Pairwise
        fun p q => Answers s (p.1.equal q.1) false) : Drained s home (.object id pairs)

theorem Drained.isNaN {d : Decimal} (h : Drained s home (.number id d)) : d.isNaN = false := by
  cases h
  assumption

theorem depth_item {items : List Value} (h : v ∈ items) : v.depth + 1 ≤ depthItems items := by
  induction items with
  | nil => cases h
  | cons w r ih =>
    rw [depthItems]
    rcases List.mem_cons.1 h with rfl | h
    · exact Nat.le_max_left _ _
    · exact Nat.le_trans (ih h) (Nat.le_max_right _ _)

theorem depth_pair (h : p ∈ pairs) :
    p.1.depth + 1 ≤ depthPairs pairs ∧ p.2.depth + 1 ≤ depthPairs pairs := by
  induction pairs with
  | nil => cases h
  | cons q r ih =>
    obtain ⟨k, v⟩ := q
    rw [depthPairs]
    rcases List.mem_cons.1 h with rfl | h
    · dsimp only
      omega
    · have hr := ih h
      omega

/-- Keys and values in a table are those of pairs. -/
theorem pairs_table {entries : List Entry}
    (h : p ∈ Relations.tableOf pairs entries) : (∃ v, (p.1, v) ∈ pairs) ∧ ∃ k, (k, p.2) ∈ pairs := by
  obtain ⟨e, -, hpick⟩ := List.mem_filterMap.1 h
  have hpick : e.pick pairs = some (p.1, p.2) := hpick
  obtain ⟨⟨v, hkey⟩, k, hvalue⟩ := Entry.pick_eq hpick
  exact ⟨⟨v, List.mem_of_getElem? hkey⟩, k, List.mem_of_getElem? hvalue⟩

theorem depth_table {entries : List Entry} (h : p ∈ Relations.tableOf pairs entries) :
    p.1.depth + 1 ≤ depthPairs pairs ∧ p.2.depth + 1 ≤ depthPairs pairs := by
  obtain ⟨⟨v, hkey⟩, k, hvalue⟩ := pairs_table h
  exact ⟨(depth_pair hkey).1, (depth_pair hvalue).2⟩

/-- Drained values are settled to the bottom. -/
theorem Drained.settledTo (h : Drained s home v) : v.SettledTo s home (v.depth + 1) := by
  induction h with
  | exception | null | bool => trivial
  | number h => exact h
  | string hend hhome => exact ⟨hend, hhome⟩
  | array hend hhome _ ih =>
    exact ⟨hend, hhome, fun v hv => (ih v hv).mono (depth_item (List.mem_of_mem_take hv))⟩
  | @object id pairs hend hhome hentries _ _ hapart ihk ihv =>
    have hkey := fun p hp => (ihk p hp).mono (depth_table hp).1
    have hvalue := fun p hp => (ihv p hp).mono (depth_table hp).2
    refine ⟨hend, hhome, fun e he => ?_, ?_⟩
    · obtain ⟨k, v, hpick, hhash⟩ := hentries e he
      have hmem : (k, v) ∈ Relations.tableOf pairs (s.get id).entries :=
        List.mem_filterMap.2 ⟨e, he, hpick⟩
      refine ⟨k, v, hpick, hkey _ hmem, hvalue _ hmem, ?_⟩
      exact hhash.unique ((Relations.upTo_agrees _).hash (ihk _ hmem))
    · refine List.pairwise_map.2 (hapart.imp_of_mem fun {p q} hp hq hne heq => ?_)
      -- keys that stand at one place would be equal
      have hequal := (Relations.upTo_agrees (max p.1.depth q.1.depth)).equal
        ((ihk p hp).mono (by omega)) ((ihk q hq).mono (by omega))
      rw [decide_eq_true heq] at hequal
      cases hne.unique hequal

/-- What is settled to the bottom is drained. -/
theorem SettledTo.drained {n : Nat} (h : v.SettledTo s home n) : Drained s home v := by
  induction n generalizing v with
  | zero => exact h.elim
  | succ n ih => cases v with
    | exception e => exact .exception e
    | null => exact .null
    | bool b => exact .bool b
    | number => exact .number h
    | string => exact .string h.1 h.2
    | array => exact .array h.1 h.2.1 fun v hv => ih (h.2.2 v hv)
    | object id pairs =>
      obtain ⟨hend, hhome, ht⟩ := h
      have hkeys := fun p hp => ih (ht.mem (p := p) hp).1
      refine .object hend hhome (fun e he => ?_) hkeys (fun p hp => ih (ht.mem hp).2) ?_
      · obtain ⟨k, v, hpick, hk, -, hhash⟩ := ht.entry e he
        refine ⟨k, v, hpick, ?_⟩
        rw [hhash]
        exact (Relations.upTo_agrees _).hash (ih hk).settledTo
      · refine (List.pairwise_map.1 ht.nodup).imp_of_mem fun {p q} hp hq hne => ?_
        have hequal := (Relations.upTo_agrees (max p.1.depth q.1.depth)).equal
          ((hkeys p hp).settledTo.mono (by omega)) ((hkeys q hq).settledTo.mono (by omega))
        rwa [decide_eq_false hne] at hequal

end Value

/-- **Drained values stay drained, and stand where they stood.** -/
theorem Value.Drained.extends {s' : Store} (hs : s.Extends s') (h : Drained s home v) :
    Drained s' home v ∧ v.standing s' = v.standing s :=
  ⟨(h.settledTo.extends hs).1.drained, (h.settledTo.extends hs).2⟩

/-! ### Reading to the end -/

/-- How many pieces stand before the end of a container of `size` pieces, if there is one. -/
def Progress.stop? (p : Progress) (size : Nat) : Option Nat :=
  if p.ended then some p.taken else p.end? size

/-- Everything is taken, and what stands before the end stays the same. -/
theorem Reading.drain_stop {size n : Nat} (h : (s.get id).stop? size = some n) :
    ∃ s', Gives s (drain id size) n s' ∧ s'.next = s.next ∧ s.SameBut id s' ∧
      (s'.get id).stop? size = some n := by
  by_cases hended : (s.get id).ended = true
  · rw [Progress.stop?, if_pos hended] at h
    refine ⟨s, ?_, rfl, fun _ _ => rfl, ?_⟩
    · rw [← Option.some.inj h]
      exact answers_drain hended size
    · rw [Progress.stop?, if_pos hended, h]
  · rw [Progress.stop?, if_neg hended] at h
    have hprogress : Gives s (progress id) (s.get id) s := rfl
    refine ⟨s.put id ((s.get id).atEnd n), hprogress.bind ?_, rfl, ?_, ?_⟩
    · rw [if_neg hended, h]
      rfl
    · exact Store.SameBut.put (fun _ _ => rfl) _
    · rw [Store.get_put_self]
      rfl

theorem Reading.drain_gives (hunread : s.get id = {}) (size : Nat) :
    ∃ s', Gives s (drain id size) size s' ∧ s.SameBut id s' ∧
      s'.get id = { taken := size, ended := true } := by
  have hprogress : Answers s (progress id) {} := by
    rw [← hunread]
    rfl
  have hsame : s.SameBut id s := fun _ _ => rfl
  exact ⟨_, Gives.bind hprogress rfl, hsame.put _, Store.get_put_self _ _ _⟩

end FilterShell
