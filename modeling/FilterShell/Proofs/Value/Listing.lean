import FilterShell.Proofs.Value.Table

/-!
# Listing the keys of an object

A listing gives the keys that were taken before and then reads on.  It succeeds if no pair that is still to be
read has a new key (`Table.Covered`), and then the keys are those of the whole object; at the first new key it
fails (`Relations.Steady.mapKeys`).
-/

namespace FilterShell

variable {n : Nat}

/-! ### Pairs with known keys -/

namespace Table

variable {α β κ : Type} {key : α → κ} {pairs : List (α × β)}

/-- Every pair behind the first `n` has the key of one of these. -/
def Covered (key : α → κ) (pairs : List (α × β)) (n : Nat) : Prop :=
  ∀ p ∈ pairs.drop n, ∃ q ∈ pairs.take n, key q.1 = key p.1

theorem covered_all (h : pairs.length ≤ n) : Covered key pairs n := by
  intro p hp
  rw [List.drop_of_length_le h] at hp
  cases hp

theorem covered_next {p : α × β} (hp : pairs[n]? = some p) :
    Covered key pairs n ↔ (∃ q ∈ pairs.take n, key q.1 = key p.1) ∧ Covered key pairs (n + 1) := by
  obtain ⟨hn, rfl⟩ := List.getElem?_eq_some_iff.1 hp
  simp only [Covered, List.drop_eq_getElem_cons hn, List.forall_mem_cons]
  refine and_congr_right fun hknown => forall₂_congr fun q _ => ?_
  rw [List.take_add_one, hp]
  constructor
  · rintro ⟨r, hr, heq⟩
    exact ⟨r, List.mem_append_left _ hr, heq⟩
  · rintro ⟨r, hr, heq⟩
    rcases List.mem_append.1 hr with hr | hr
    · exact ⟨r, hr, heq⟩
    -- a pair with the key of the next one has a known key
    · obtain rfl := List.mem_singleton.1 hr
      obtain ⟨r', hr', heq'⟩ := hknown
      exact ⟨r', hr', heq'.trans heq⟩

variable [DecidableEq κ]

theorem length_entered_known {p : α × β} {t : List (α × β)} (h : ∃ q ∈ t, key q.1 = key p.1) :
    (entered key p t).length = t.length := by
  have hkeys := congrArg List.length (keys_entered_known h)
  rwa [List.length_map, List.length_map] at hkeys

/-- Pairs with known keys leave the keys as they are. -/
theorem Covered.keys (h : Covered key pairs n) :
    (ofPairs key (pairs.take n)).map Prod.fst = (ofPairs key pairs).map Prod.fst := by
  have hrest : ∀ back : List (α × β), (∀ p ∈ back, ∃ q ∈ pairs.take n, key q.1 = key p.1) →
      (ofPairs key (pairs.take n ++ back)).map Prod.fst =
        (ofPairs key (pairs.take n)).map Prod.fst := by
    intro back hback
    induction back using List.reverseRecOn with
    | nil => rw [List.append_nil]
    | append_singleton back p ih =>
      obtain ⟨hfront, hlast⟩ := List.forall_mem_append.1 hback
      obtain ⟨q, hq, heq⟩ := hlast p List.mem_cons_self
      rw [← List.append_assoc, ofPairs_concat, keys_entered_known, ih hfront]
      exact (mem_classes _ _).2 ⟨q, List.mem_append_left _ hq, heq⟩
  rw [← hrest _ h, List.take_append_drop]

end Table

open Reading

variable {s : Store} {home : Nat → Value} {D : Value → Prop} {R : Relations}

namespace Relations

theorem Indexed.length {pairs : List (Value × Value)} {entries : List Entry}
    (h : Indexed s D pairs entries) : (tableOf pairs entries).length = entries.length := by
  induction entries with
  | nil => rfl
  | cons e r ih =>
    obtain ⟨⟨k, v, hpick, -, -⟩, hr⟩ := List.forall_mem_cons.1 h
    rw [tableOf_cons hpick, List.length_cons, List.length_cons, ih hr]

namespace Steady

variable {id : Nat} {pairs : List (Value × Value)} (hR : R.Steady s D)
  (hkeys : ∀ p ∈ pairs, D p.1)

include hR hkeys

/-- **A listing ends** if there is no new key, and fails if there is one. -/
theorem endKeys (m : Nat) : ∀ {s' : Store}, s.Extends s' → ∀ {n : Nat},
    Reached s D pairs n (s'.get id) → pairs.length < n + m →
    (Table.Covered (Value.standing s) pairs n →
      ∃ s'', Gives s' (R.endKeys id pairs m) () s'' ∧ s'.ReadOn id s'' ∧
        Reached s D pairs (pairs.length + 1) (s''.get id)) ∧
    (¬ Table.Covered (Value.standing s) pairs n →
      ∃ s'', Fails s' (R.endKeys id pairs m) .keysChanged s'') := by
  induction m with
  | zero =>
    intro s' _ n h hm
    refine ⟨fun _ => ⟨s', rfl, .refl _ _, h.past hm (Nat.lt_succ_self _)⟩, fun hnot => ?_⟩
    exact absurd (Table.covered_all hm.le) hnot
  | succ m ih =>
    intro s' hs n h hm
    have hprogress : Answers s' (progress id) (s'.get id) := rfl
    obtain ⟨s₁, hpair, hread₁, h₁⟩ := hR.takePair? hkeys hs h
    by_cases hlt : n < pairs.length
    · rw [if_pos hlt] at hpair
      have hprogress₁ : Answers s₁ (progress id) (s₁.get id) := rfl
      obtain ⟨p, hp⟩ : ∃ p, pairs[n]? = some p := ⟨_, List.getElem?_eq_getElem hlt⟩
      have htable : tableOf pairs (s₁.get id).entries =
          Table.entered (Value.standing s) p (tableOf pairs (s'.get id).entries) := by
        rw [h₁.table, List.take_add_one, hp, Option.toList_some, Table.ofPairs_concat, h.table]
      have hlength := congrArg List.length htable
      rw [h₁.index.length] at hlength
      have hknown : (∃ q ∈ tableOf pairs (s'.get id).entries, q.1.standing s = p.1.standing s) ↔
          ∃ q ∈ pairs.take n, q.1.standing s = p.1.standing s := by
        rw [h.table]
        exact Table.mem_classes _ _
      rw [Table.covered_next hp, ← hknown]
      by_cases hin : ∃ q ∈ tableOf pairs (s'.get id).entries, q.1.standing s = p.1.standing s
      · rw [Table.length_entered_known hin, h.index.length] at hlength
        obtain ⟨hgives, hfails⟩ := ih (hs.trans hread₁.extend) h₁ (by omega)
        rw [and_iff_right hin]
        constructor
        · intro hcovered
          obtain ⟨s₂, hrest, hread₂, h₂⟩ := hgives hcovered
          refine ⟨s₂, ?_, hread₁.trans hread₂, h₂⟩
          refine Gives.bind hprogress (Gives.bind hpair (Gives.bind hprogress₁ ?_))
          rw [if_neg (by omega)]
          exact hrest
        · intro hnot
          obtain ⟨s₂, hrest⟩ := hfails hnot
          refine ⟨s₂, Gives.bind_fails hprogress (Gives.bind_fails hpair
            (Gives.bind_fails hprogress₁ ?_))⟩
          rw [if_neg (by omega)]
          exact hrest
      · refine ⟨fun hcovered => absurd hcovered.1 hin, fun _ => ⟨s₁, ?_⟩⟩
        rw [Table.entered_new fun q hq heq => hin ⟨q, hq, heq⟩, List.length_append,
          List.length_singleton, h.index.length] at hlength
        refine Gives.bind_fails hprogress (Gives.bind_fails hpair (Gives.bind_fails hprogress₁ ?_))
        rw [if_pos (by omega)]
        rfl
    · rw [if_neg hlt] at hpair
      refine ⟨fun _ => ⟨s₁, ?_, hread₁, h₁.past (by omega) (Nat.lt_succ_self _)⟩, fun hnot => ?_⟩
      · exact Gives.bind hprogress (Gives.bind hpair rfl)
      · exact absurd (Table.covered_all (not_lt.1 hlt)) hnot

/-- **A listing of keys** gives those of the whole object if there is no new key, and fails if there is
one. -/
theorem mapKeys {α : Type} {f : Value → Reading α} {g : Value → α} {s' : Store} (hs : s.Extends s')
    (hf : ∀ p ∈ pairs, Answers s' (f p.1) (g p.1)) (h : Reached s D pairs n (s'.get id)) :
    (Table.Covered (Value.standing s) pairs n →
      ∃ s'', Gives s' (R.mapKeys id pairs f)
          ((Table.ofPairs (Value.standing s) pairs).map fun p => g p.1) s'' ∧
        s'.ReadOn id s'' ∧ Reached s D pairs (pairs.length + 1) (s''.get id)) ∧
    (¬ Table.Covered (Value.standing s) pairs n →
      ∃ s'', Fails s' (R.mapKeys id pairs f) .keysChanged s'') := by
  have htaken : Answers s' (taken id pairs) (Table.ofPairs (Value.standing s) (pairs.take n)) := by
    rw [← h.table]
    rfl
  have hresults : Answers s' ((Table.ofPairs (Value.standing s) (pairs.take n)).mapM fun p => f p.1)
      ((Table.ofPairs (Value.standing s) (pairs.take n)).map fun p => g p.1) := by
    refine answers_mapM fun p hp => ?_
    obtain ⟨⟨q, hq, hkey⟩, -⟩ := Table.mem_ofPairs hp
    rw [hkey]
    exact hf q (List.mem_of_mem_take hq)
  obtain ⟨hgives, hfails⟩ := hR.endKeys hkeys (pairs.length + 1) hs h (by omega)
  constructor
  · intro hcovered
    obtain ⟨s'', hend, hread, h''⟩ := hgives hcovered
    have hwhole : (Table.ofPairs (Value.standing s) (pairs.take n)).map (fun p => g p.1) =
        (Table.ofPairs (Value.standing s) pairs).map fun p => g p.1 := by
      have hmap := congrArg (List.map g) hcovered.keys
      rwa [List.map_map, List.map_map] at hmap
    rw [hwhole] at hresults
    exact ⟨s'', Gives.bind htaken (Gives.bind hresults (Gives.bind hend rfl)), hread, h''⟩
  · intro hnot
    obtain ⟨s'', hend⟩ := hfails hnot
    exact ⟨s'', Gives.bind_fails htaken (Gives.bind_fails hresults (Fails.bind hend))⟩

end Steady

end Relations

end FilterShell
