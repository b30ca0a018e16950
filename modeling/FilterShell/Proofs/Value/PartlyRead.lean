import FilterShell.Proofs.Value.Tracking
import FilterShell.Value.Search

/-!
# Objects that were read in part

Listing and hashing the keys of an object that was read in part gives what it gives on the drained object,
if no new key waits in it; otherwise it fails.  Objects are compared by the sets of their entries, for which
all pairs are taken first: so new keys in the two objects do no harm, but new keys in their values do
(`Value.partly_read`).
-/

namespace FilterShell.Value

variable {p : Value × Value}

open Reading

variable {s₀ s s' t : Store} {home : Nat → Value}

/-- The values in the table of an object. -/
def held (s : Store) : Value → List Value
  | .object id pairs => (Relations.tableOf pairs (s.get id).entries).map Prod.snd
  | _ => []

/-- In the store `s` the computation gives what it gives in `t`, provided that `p` holds; otherwise it
fails at a new key. -/
def GivesIf {α : Type} (s t : Store) (p : Prop) (r : Reading α) : Prop :=
  ∃ x, Answers t r x ∧ (p → ∃ s', Gives s r x s') ∧ (¬ p → ∃ s', Fails s r .keysChanged s')

/-! ### Sets of entries -/

section Entries

variable {k : Nat}

/-- A key may be asked for in every store. -/
theorem Tracked.answers_key (hs : Tracked s₀ home s) {v : Value} (hv : Drained s₀ home v)
    (hk : v.depth < k) : SettledTo s home k v ∧ v.standing s = v.standing s₀ :=
  ⟨(hv.extends hs.extend).1.settledTo.mono hk, (hv.extends hs.extend).2⟩

/-- **An entry is added to the set** with the hashes of the drained values, if no new key waits in its
value. -/
theorem Tracked.addEntry (hs : Tracked s₀ home s) (ht : Tracked s₀ home t)
    {done : List (Value × Value)}
    (hkeys : ∀ q ∈ done ++ [p], Drained s₀ home q.1 ∧ q.1.depth < k)
    (hnew : ∀ q ∈ done, q.1.standing s₀ ≠ p.1.standing s₀)
    (hpart : Part s₀ home p.2) (hk : p.2.depth < k) (hdt : Drained t home p.2) :
    (Listed s p.2 →
      ∃ s', Gives s ((Relations.below k).addEntry (Relations.hashedOf t done) p)
          (Relations.hashedOf t (done ++ [p])) s' ∧
        Tracked s₀ home s' ∧ s.Extends s' ∧ Drained s' home p.2 ∧
        ∀ w, Part s₀ home w → w ≠ p.2 → (Listed s' w ↔ Listed s w)) ∧
    (¬ Listed s p.2 →
      ∃ s', Fails s ((Relations.below k).addEntry (Relations.hashedOf t done) p) .keysChanged s') := by
  obtain ⟨m, rfl⟩ : ∃ m, k = m + 1 := ⟨k - 1, by omega⟩
  obtain ⟨hdone, hp⟩ := List.forall_mem_append.1 hkeys
  obtain ⟨hDp, hdepth⟩ := hp p List.mem_cons_self
  have hkey : Answers s ((Relations.upTo m).hash p.1) (p.1.standing t).hash := by
    obtain ⟨hsettled, hstand⟩ := hs.answers_key hDp hdepth
    rw [(ht.answers_key hDp hdepth).2, ← hstand]
    exact (Relations.upTo_agrees m).hash hsettled
  obtain ⟨hgives, hfails⟩ := hpart.hash hs ht hdt (Nat.le_of_lt_succ hk)
  constructor
  · intro hlisted
    obtain ⟨s', hvalue, hs', hext, hDv, hframe⟩ := hgives hlisted
    refine ⟨s', ?_, hs', hext, hDv, hframe⟩
    obtain ⟨hsettled, hstand⟩ := hs'.answers_key hDp hdepth
    rw [Relations.hashedOf_concat]
    refine Relations.addEntry_gives hkey hvalue ((Relations.upTo_agrees m).hasEntry_new hsettled ?_)
    refine (Relations.forall_hashedOf
      (C := fun v => SettledTo s' home (m + 1) v ∧ v.standing s' ≠ p.1.standing s')).2 fun q hq => ?_
    obtain ⟨hsettled', hstand'⟩ := hs'.answers_key (hdone q hq).1 (hdone q hq).2
    rw [hstand, hstand']
    exact ⟨hsettled', hnew q hq⟩
  · intro hnot
    obtain ⟨s', hvalue⟩ := hfails hnot
    exact ⟨s', Gives.bind_fails hkey (Fails.bind hvalue)⟩

/-- **The set of entries** is that of the drained values, if no new key waits in any of these.  Then the
values are drained, and other values have no new keys. -/
theorem Tracked.hashed_append (ht : Tracked s₀ home t) {rest : List (Value × Value)} :
    ∀ {s : Store}, Tracked s₀ home s → ∀ done : List (Value × Value),
    (∀ p ∈ done ++ rest, Drained s₀ home p.1 ∧ p.1.depth < k) →
    (∀ p ∈ rest, Part s₀ home p.2 ∧ p.2.depth < k ∧ Drained t home p.2) →
    ((done ++ rest).map fun p => p.1.standing s₀).Nodup →
    ((∀ p ∈ rest, Listed s p.2) →
      ∃ s', Gives s (rest.foldlM (Relations.below k).addEntry (Relations.hashedOf t done))
          (Relations.hashedOf t (done ++ rest)) s' ∧
        Tracked s₀ home s' ∧ s.Extends s' ∧ (∀ p ∈ rest, Drained s' home p.2) ∧
        ∀ w, Part s₀ home w → (∀ p ∈ rest, w ≠ p.2) → (Listed s' w ↔ Listed s w)) ∧
    (¬ (∀ p ∈ rest, Listed s p.2) →
      ∃ s', Fails s (rest.foldlM (Relations.below k).addEntry (Relations.hashedOf t done))
        .keysChanged s') := by
  induction rest with
  | nil =>
    intro s hs done _ _ _
    refine ⟨fun _ => ⟨s, ?_, hs, fun _ _ => rfl, nofun, fun _ _ _ => Iff.rfl⟩, fun h => absurd nofun h⟩
    rw [List.append_nil]
    rfl
  | cons p rest ih =>
    intro s hs done hkeys hparts hnodup
    obtain ⟨⟨hpart, hdepth, hdt⟩, hrest⟩ := List.forall_mem_cons.1 hparts
    have hkeys' : ∀ q ∈ (done ++ [p]) ++ rest, Drained s₀ home q.1 ∧ q.1.depth < k := by
      simpa using hkeys
    have hnodup' : (((done ++ [p]) ++ rest).map fun q => q.1.standing s₀).Nodup := by
      simpa using hnodup
    obtain ⟨hgives, hfails⟩ := hs.addEntry ht (List.forall_mem_append.1 hkeys').1
      (fun q hq => Relations.standing_ne_of_nodup hnodup hq) hpart hdepth hdt
    rw [List.forall_mem_cons, List.foldlM_cons]
    by_cases hlisted : Listed s p.2
    · obtain ⟨s₁, hadd, hs₁, hext₁, hDp, hframe₁⟩ := hgives hlisted
      obtain ⟨hgives₁, hfails₁⟩ := ih hs₁ (done ++ [p]) hkeys' hrest hnodup'
      rw [List.append_assoc, List.singleton_append] at hgives₁
      -- the other values have new keys now if they had before
      have hall : (∀ q ∈ rest, Listed s₁ q.2) ↔ ∀ q ∈ rest, Listed s q.2 := by
        refine forall₂_congr fun q hq => ?_
        by_cases hqp : q.2 = p.2
        · rw [hqp]
          exact iff_of_true hDp.listed hlisted
        · exact hframe₁ q.2 (hrest q hq).1 hqp
      rw [and_iff_right hlisted, ← hall]
      refine ⟨fun hlisted' => ?_, fun hnot => ?_⟩
      · obtain ⟨s₂, hfold, hs₂, hext₂, hD₂, hframe₂⟩ := hgives₁ hlisted'
        refine ⟨s₂, Gives.bind hadd hfold, hs₂, hext₁.trans hext₂,
          List.forall_mem_cons.2 ⟨(hDp.extends hext₂).1, hD₂⟩, fun w hw hne => ?_⟩
        obtain ⟨hne₁, hne₂⟩ := List.forall_mem_cons.1 hne
        rw [hframe₂ w hw hne₂, hframe₁ w hw hne₁]
      · obtain ⟨s₂, hfold⟩ := hfails₁ hnot
        exact ⟨s₂, Gives.bind_fails hadd hfold⟩
    · refine ⟨fun h => absurd h.1 hlisted, fun _ => ?_⟩
      obtain ⟨s₁, hadd⟩ := hfails hlisted
      exact ⟨s₁, Fails.bind hadd⟩

end Entries

/-! ### Comparing objects -/

theorem Drained.values {i : Nat} {ps : List (Value × Value)} (h : Drained s home (.object i ps)) :
    ∀ p ∈ Relations.tableOf ps (s.get i).entries, Drained s home p.2 := by
  cases h
  assumption

section Comparing

variable {i : Nat} {ps : List (Value × Value)}
  (ha : Untouched s₀ home (Part s₀ home) (.object i ps))

include ha

theorem Untouched.table_keys (hp : p ∈ Table.ofPairs (standing s₀) ps) :
    Drained s₀ home p.1 ∧ p.1.depth < depthPairs ps := by
  obtain ⟨⟨q, hq, hkey⟩, -⟩ := Table.mem_ofPairs hp
  rw [hkey]
  exact ⟨ha.drained_keys q hq, (depth_pair hq).1⟩

theorem Untouched.table_values (hp : p ∈ Table.ofPairs (standing s₀) ps) :
    Part s₀ home p.2 ∧ p.2.depth < depthPairs ps := by
  obtain ⟨-, q, hq, hvalue⟩ := Table.mem_ofPairs hp
  rw [hvalue]
  exact ⟨(ha.2.2 q hq).2, (depth_pair hq).2⟩

/-- The values in the table of an object are other values. -/
theorem Untouched.id?_ne (hp : p ∈ Table.ofPairs (standing s₀) ps) : p.2.id? ≠ some i := by
  intro hid
  obtain ⟨hpart, hdepth⟩ := ha.table_values hp
  have heq : p.2 = .object i ps := (hpart.home_eq hid).symm.trans ha.1
  rw [heq] at hdepth
  exact lt_irrefl _ hdepth

theorem Tracked.held_eq (hs : Tracked s₀ home s) (hended : (s.get i).ended = true) :
    held s (.object i ps) = (Table.ofPairs (standing s₀) ps).map Prod.snd := by
  rw [held, ((hs.whole ha hended).whole (Nat.lt_succ_self _)).2]

theorem Untouched.drained_values (hs : Tracked s₀ home s) (hda : Drained s home (.object i ps)) :
    ∀ p ∈ Table.ofPairs (standing s₀) ps, Drained s home p.2 := by
  rw [← ((hs.whole ha hda.ended).whole (Nat.lt_succ_self _)).2]
  exact hda.values

/-- The entries of an object stand where they stand, however they were read. -/
theorem Untouched.pairStanding_eq (hs : Tracked s₀ home s) (ht : Tracked s₀ home t)
    (hds : Drained s home (.object i ps)) (hdt : Drained t home (.object i ps)) :
    ∀ p ∈ Table.ofPairs (standing s₀) ps, pairStanding s p = pairStanding t p := by
  intro p hp
  have hkey := (ha.table_keys hp).1
  have hvalue := (ha.table_values hp).1.standing_eq hs ht (ha.drained_values hs hds p hp)
    (ha.drained_values ht hdt p hp)
  rw [pairStanding, pairStanding, (hkey.extends hs.extend).2, (hkey.extends ht.extend).2, hvalue]

theorem Untouched.settled_entries (hs : Tracked s₀ home s) (hds : Drained s home (.object i ps))
    {k : Nat} (hk : depthPairs ps ≤ k) :
    ∀ p ∈ Table.ofPairs (standing s₀) ps, SettledTo s home k p.1 ∧ SettledTo s home k p.2 := by
  intro p hp
  obtain ⟨hkey, hdepth⟩ := ha.table_keys hp
  have hvalue := ha.drained_values hs hds p hp
  exact ⟨(hs.answers_key hkey (hdepth.trans_le hk)).1,
    hvalue.settledTo.mono ((ha.table_values hp).2.trans_le hk)⟩

theorem Untouched.nodup_keys (hs : Tracked s₀ home s) :
    ((Table.ofPairs (standing s₀) ps).map fun p => p.1.standing s).Nodup := by
  rw [List.map_congr_left fun p hp => ((ha.table_keys hp).1.extends hs.extend).2]
  exact Table.nodup_ofPairs ps

/-- **The entries of an object as a set**: they can always be taken, and hashed if no new key waits in one
of the values. -/
theorem Tracked.entrySet (hs : Tracked s₀ home s) (ht : Tracked s₀ home t)
    (hda : Drained t home (.object i ps)) {k : Nat} (hk : depthPairs ps ≤ k) :
    ∃ s₁, Gives s ((Relations.below k).entries i ps) (Table.ofPairs (standing s₀) ps) s₁ ∧
      ((∀ p ∈ Table.ofPairs (standing s₀) ps, Listed s p.2) →
        ∃ s', Gives s₁ ((Relations.below k).hashed (Table.ofPairs (standing s₀) ps))
            (Relations.hashedOf t (Table.ofPairs (standing s₀) ps)) s' ∧
          Tracked s₀ home s' ∧ s.Extends s' ∧ Drained s' home (.object i ps) ∧
          ∀ w, Part s₀ home w → w ≠ .object i ps →
            (∀ p ∈ Table.ofPairs (standing s₀) ps, w ≠ p.2) → (Listed s' w ↔ Listed s w)) ∧
      (¬ (∀ p ∈ Table.ofPairs (standing s₀) ps, Listed s p.2) →
        ∃ s', Fails s₁ ((Relations.below k).hashed (Table.ofPairs (standing s₀) ps)) .keysChanged s') := by
  have hkeys := ha.settledTo hk
  obtain ⟨n, hreached⟩ := hs.reached ha
  obtain ⟨s₁, hentries, hread, hreached₁⟩ := (Relations.below_steady k).entries hkeys hs.extend
    (hreached.keyed hkeys)
  have hs₁ := hs.readOn ha hread (hreached₁.keyed ha.drained_keys)
  have hvalues := ha.drained_values ht hda
  have htableKeys : ∀ p ∈ [] ++ Table.ofPairs (standing s₀) ps,
      Drained s₀ home p.1 ∧ p.1.depth < k := fun p hp =>
    ⟨(ha.table_keys hp).1, (ha.table_keys hp).2.trans_le hk⟩
  have htableValues : ∀ p ∈ Table.ofPairs (standing s₀) ps,
      Part s₀ home p.2 ∧ p.2.depth < k ∧ Drained t home p.2 := fun p hp =>
    ⟨(ha.table_values hp).1, (ha.table_values hp).2.trans_le hk, hvalues p hp⟩
  obtain ⟨hgives, hfails⟩ := ht.hashed_append hs₁ [] htableKeys htableValues (Table.nodup_ofPairs ps)
  have hall : (∀ p ∈ Table.ofPairs (standing s₀) ps, Listed s₁ p.2) ↔
      ∀ p ∈ Table.ofPairs (standing s₀) ps, Listed s p.2 :=
    forall₂_congr fun p hp => (ha.table_values hp).1.listed_frame hs hs₁ hread (ha.id?_ne hp)
  rw [hall] at hgives hfails
  refine ⟨s₁, hentries, fun hlisted => ?_, hfails⟩
  obtain ⟨s', hset, hs', hext, hD, hframe⟩ := hgives hlisted
  refine ⟨s', hset, hs', hread.extend.trans hext, ?_, fun w hw hne hother => ?_⟩
  · have hended : (s₁.get i).ended = true := (hreached₁.whole (Nat.lt_succ_self _)).1
    refine hs'.drained ha ?_ hD
    rw [hext i hended]
    exact hended
  · rw [hframe w hw hother]
    exact hw.listed_frame hs hs₁ hread fun hid => hne ((hw.home_eq hid).symm.trans ha.1)

variable {j : Nat} {qs : List (Value × Value)}
  (hb : Untouched s₀ home (Part s₀ home) (.object j qs))

include hb

/-- **Objects are equal** as the drained objects are, unless a new key waits in one of their values. -/
theorem Tracked.equal_objects (hs : Tracked s₀ home s) (ht : Tracked s₀ home t)
    (hda : Drained t home (.object i ps)) (hdb : Drained t home (.object j qs)) :
    GivesIf s t ((∀ v ∈ held t (.object i ps), Listed s v) ∧
        ∀ v ∈ held t (.object j qs), v = .object i ps ∨ Listed s v)
      ((object i ps).equal (.object j qs)) := by
  refine ⟨_, answers_equal hda hdb, ?_⟩
  rw [ht.held_eq ha hda.ended, ht.held_eq hb hdb.ended, List.forall_mem_map, List.forall_mem_map,
    equal, relationsWith, Relations.upTo_eq_next]
  obtain ⟨s₁, hentries, hgives, hfails⟩ := hs.entrySet ha ht hda (le_max_left _ (depthPairs qs))
  by_cases hlisted : ∀ p ∈ Table.ofPairs (standing s₀) ps, Listed s p.2
  · obtain ⟨s₂, hset, hs₂, -, hDa, hframe⟩ := hgives hlisted
    obtain ⟨s₃, hentries', hgives', hfails'⟩ := hs₂.entrySet hb ht hdb (le_max_right (depthPairs ps) _)
    -- the first object and its values are drained by now, and nothing else has changed
    have hother : (∀ q ∈ Table.ofPairs (standing s₀) qs, Listed s₂ q.2) ↔
        ∀ q ∈ Table.ofPairs (standing s₀) qs, q.2 = .object i ps ∨ Listed s q.2 := by
      refine forall₂_congr fun q hq => ?_
      by_cases hqa : q.2 = .object i ps
      · rw [hqa]
        exact iff_of_true hDa.listed (.inl rfl)
      by_cases hqp : ∃ p ∈ Table.ofPairs (standing s₀) ps, q.2 = p.2
      · obtain ⟨p, hp, heq⟩ := hqp
        rw [heq]
        exact iff_of_true (ha.drained_values hs₂ hDa p hp).listed (.inr (hlisted p hp))
      · rw [or_iff_right hqa]
        exact hframe q.2 (hb.table_values hq).1 hqa fun p hp heq => hqp ⟨p, hp, heq⟩
    rw [and_iff_right hlisted, ← hother]
    constructor
    · intro hlisted'
      obtain ⟨s₄, hset', hs₄, hext, hDb, -⟩ := hgives' hlisted'
      refine ⟨s₄, Gives.bind hentries (Gives.bind hset (Gives.bind hentries' (Gives.bind hset' ?_)))⟩
      have hDa₄ := (hDa.extends hext).1
      have hstand := ha.pairStanding_eq hs₄ ht hDa₄ hda
      have hstand' := hb.pairStanding_eq hs₄ ht hDb hdb
      rw [← Relations.hashedOf_congr hstand, ← Relations.hashedOf_congr hstand',
        ht.standing_object ha hda.ended, ht.standing_object hb hdb.ended,
        ← List.map_congr_left hstand, ← List.map_congr_left hstand']
      exact (Relations.below_agrees _).sameSets (ha.settled_entries hs₄ hDa₄ (le_max_left _ _))
        (hb.settled_entries hs₄ hDb (le_max_right _ _)) (ha.nodup_keys hs₄)
    · intro hnot
      obtain ⟨s₄, hset'⟩ := hfails' hnot
      exact ⟨s₄, Gives.bind_fails hentries (Gives.bind_fails hset
        (Gives.bind_fails hentries' (Fails.bind hset')))⟩
  · refine ⟨fun h => absurd h.1 hlisted, fun _ => ?_⟩
    obtain ⟨s₂, hset⟩ := hfails hlisted
    exact ⟨s₂, Gives.bind_fails hentries (Fails.bind hset)⟩

end Comparing

/-! ### All reads -/

/-- Parts can be drained. -/
theorem Tracked.pops_parts {vs : List Value} (hvs : ∀ v ∈ vs, Part s₀ home v) :
    ∀ {s : Store}, Tracked s₀ home s → ∃ s', Pops s₀ home s s' ∧ ∀ v ∈ vs, Drained s' home v := by
  induction vs with
  | nil => exact fun {s} _ => ⟨s, .refl s, nofun⟩
  | cons v vs ih =>
    intro s hs
    obtain ⟨hv, hvs⟩ := List.forall_mem_cons.1 hvs
    have hfirst : ∃ s₁, Pops s₀ home s s₁ ∧ Drained s₁ home v := by
      rcases hv with hv | hv
      · exact ⟨s, .refl s, (hv.extends hs.extend).1⟩
      · cases v with
        | object id pairs =>
          obtain ⟨s₁, hpops, hread, hreached⟩ := hs.pops_end hv.part
          have hs₁ := hs.readOn hv.part hread hreached
          refine ⟨s₁, hpops, hs₁.drained hv.part (hreached.whole (Nat.lt_succ_self _)).1 ?_⟩
          intro p hp
          obtain ⟨-, q, hq, hvalue⟩ := Table.mem_ofPairs hp
          rw [hvalue]
          exact ((hv.2.2 q hq).2.extends hs₁.extend).1
        | exception | null | bool | number | string | array => exact hv.elim
    obtain ⟨s₁, hpops₁, hD₁⟩ := hfirst
    obtain ⟨s₂, hpops₂, hD₂⟩ := ih hvs (hpops₁.tracked hs).1
    have hext := (hpops₂.tracked (hpops₁.tracked hs).1).2
    exact ⟨s₂, hpops₁.trans hpops₂, List.forall_mem_cons.2 ⟨(hD₁.extends hext).1, hD₂⟩⟩

/-- Untouched objects can be drained. -/
theorem Tracked.pops_object (hs : Tracked s₀ home s) {i : Nat} {ps : List (Value × Value)}
    (ha : Untouched s₀ home (Part s₀ home) (.object i ps)) :
    ∃ s', Pops s₀ home s s' ∧ Drained s' home (.object i ps) := by
  have hparts : ∀ v ∈ ps.map Prod.snd, Part s₀ home v :=
    List.forall_mem_map.2 fun p hp => (ha.2.2 p hp).2
  obtain ⟨s₁, hpops₁, hD₁⟩ := hs.pops_parts hparts
  have hs₁ := (hpops₁.tracked hs).1
  obtain ⟨s₂, hpops₂, hread, hreached⟩ := hs₁.pops_end ha
  have hs₂ := hs₁.readOn ha hread hreached
  refine ⟨s₂, hpops₁.trans hpops₂, hs₂.drained ha (hreached.whole (Nat.lt_succ_self _)).1 ?_⟩
  intro p hp
  obtain ⟨-, q, hq, hvalue⟩ := Table.mem_ofPairs hp
  rw [hvalue]
  exact ((hD₁ q.2 (List.mem_map_of_mem hq)).extends hread.extend).1

/-- Drained values have no new keys. -/
theorem Tracked.listed_held (hs : Tracked s₀ home s) {i : Nat} {ps : List (Value × Value)}
    (ha : Untouched s₀ home (Part s₀ home) (.object i ps)) (ht : Tracked s₀ home t)
    (hda : Drained t home (.object i ps)) (hps : ∀ p ∈ ps, Drained s₀ home p.2) :
    ∀ v ∈ held t (.object i ps), Listed s v := by
  rw [ht.held_eq ha hda.ended]
  refine List.forall_mem_map.2 fun p hp => ?_
  obtain ⟨-, q, hq, hvalue⟩ := Table.mem_ofPairs hp
  rw [hvalue]
  exact ((hps q hq).extends hs.extend).1.listed

/-- A listing of the keys. -/
theorem Tracked.view (hs : Tracked s₀ home s) (ht : Tracked s₀ home t) {i : Nat}
    {ps : List (Value × Value)} (ha : Untouched s₀ home (Part s₀ home) (.object i ps))
    (hended : (t.get i).ended = true) :
    Answers t ((object i ps).relations.mapKeys i ps pure)
        ((Table.ofPairs (standing s₀) ps).map Prod.fst) ∧
      (Listed s (.object i ps) →
        ∃ s', Gives s ((object i ps).relations.mapKeys i ps pure)
          ((Table.ofPairs (standing s₀) ps).map Prod.fst) s') ∧
      (¬ Listed s (.object i ps) →
        ∃ s', Fails s ((object i ps).relations.mapKeys i ps pure) .keysChanged s') := by
  have hkeys := ha.settledTo (Nat.le_succ (depthPairs ps))
  obtain ⟨n, hreached⟩ := hs.reached ha
  obtain ⟨hgives, hfails⟩ := (Relations.upTo_steady (depthPairs ps)).mapKeys (f := pure)
    (g := fun v => v) hkeys hs.extend (fun p _ => answers_return p.1) (hreached.keyed hkeys)
  rw [hs.listed_iff ha hreached]
  refine ⟨?_, fun hcovered => ?_, hfails⟩
  · rw [← ((ht.whole ha hended).whole (Nat.lt_succ_self _)).2]
    exact Relations.answers_mapKeys (g := fun v => v) hended ps fun p _ => answers_return p.1
  · obtain ⟨s', hlist, -⟩ := hgives hcovered
    exact ⟨s', hlist⟩

/-- Reads of an object that was read in part are those of the drained object, unless they meet a new
key. -/
structure ReadsAlike (s t : Store) (i : Nat) (ps : List (Value × Value)) (b : Value) : Prop where
  /-- The keys of the drained object, listed one way or another. -/
  drained : ∃ ks, Answers t ((object i ps).relations.keys i ps) ks ∧
    Answers t ((object i ps).relations.mapKeys i ps pure) ks ∧
    Answers t ((object i ps).visit none) (ks.map .value)
  view : GivesIf s t (Listed s (.object i ps)) ((object i ps).relations.mapKeys i ps pure)
  visit : GivesIf s t (Listed s (.object i ps)) ((object i ps).visit none)
  hash : GivesIf s t (Listed s (.object i ps)) (object i ps).hash
  /-- New keys in the two objects do not matter, but in their values they do. -/
  equal : GivesIf s t ((∀ v ∈ held t (.object i ps), Listed s v) ∧
      ∀ v ∈ held t b, v = .object i ps ∨ Listed s v) ((object i ps).equal b)

/-- What was read in part gives what the drained object gives. -/
theorem Tracked.readsAlike (hs : Tracked s₀ home s) (ht : Tracked s₀ home t) {i j : Nat}
    {ps qs : List (Value × Value)} (ha : Untouched s₀ home (Part s₀ home) (.object i ps))
    (hb : Untouched s₀ home (Part s₀ home) (.object j qs)) (hda : Drained t home (.object i ps))
    (hdb : Drained t home (.object j qs)) : ReadsAlike s t i ps (.object j qs) := by
  obtain ⟨hwhole, hgives, hfails⟩ := hs.view ht ha hda.ended
  have hknown : ∀ u : Store, Answers u (Relations.taken i ps)
      (Relations.tableOf ps (u.get i).entries) := fun _ => rfl
  have hvisit : Answers t ((object i ps).visit none)
      (((Table.ofPairs (standing s₀) ps).map Prod.fst).map .value) :=
    (hknown t).bind (hwhole.bind rfl)
  constructor
  case drained =>
    refine ⟨_, ?_, hwhole, hvisit⟩
    rw [← ((ht.whole ha hda.ended).whole (Nat.lt_succ_self _)).2]
    exact Relations.answers_keys hda.ended ps
  case view => exact ⟨_, hwhole, hgives, hfails⟩
  case visit =>
    refine ⟨_, hvisit, fun hlisted => ?_, fun hnot => ?_⟩
    · obtain ⟨s', hlist⟩ := hgives hlisted
      exact ⟨s', Gives.bind (hknown s) (Gives.bind hlist rfl)⟩
    · obtain ⟨s', hlist⟩ := hfails hnot
      exact ⟨s', Gives.bind_fails (hknown s) (Fails.bind hlist)⟩
  case hash =>
    obtain ⟨hhash, hnone⟩ := hs.hash_object ha ht hda.ended le_rfl
    refine ⟨_, answers_hash hda, fun hlisted => ?_, hnone⟩
    obtain ⟨s', hhash, -⟩ := hhash hlisted
    exact ⟨s', hhash⟩
  case equal => exact hs.equal_objects ha hb ht hda hdb

/-- **Objects that were read in part** are read as the drained objects are, unless a new key waits where
keys are listed.  Objects of drained values are always compared as the drained objects are. -/
theorem partly_read {i j : Nat} {ps qs : List (Value × Value)}
    (ha : Untouched s₀ home (Part s₀ home) (.object i ps))
    (hb : Untouched s₀ home (Part s₀ home) (.object j qs)) (hs : Pops s₀ home s₀ s) :
    (∃ t, Pops s₀ home s t ∧ Drained t home (.object i ps) ∧ Drained t home (.object j qs)) ∧
    ∀ t, Pops s₀ home s t → Drained t home (.object i ps) → Drained t home (.object j qs) →
      ReadsAlike s t i ps (.object j qs) ∧
      ((∀ p ∈ ps ++ qs, Drained s₀ home p.2) → ∃ x s', Answers t ((object i ps).equal (.object j qs)) x ∧
        Gives s ((object i ps).equal (.object j qs)) x s') := by
  obtain ⟨hs, -⟩ := hs.tracked tracked_start
  constructor
  · obtain ⟨s₁, hpops₁, hda⟩ := hs.pops_object ha
    obtain ⟨s₂, hpops₂, hdb⟩ := (hpops₁.tracked hs).1.pops_object hb
    have hext := (hpops₂.tracked (hpops₁.tracked hs).1).2
    exact ⟨s₂, hpops₁.trans hpops₂, (hda.extends hext).1, hdb⟩
  · intro t hpops hda hdb
    have ht := (hpops.tracked hs).1
    have halike := hs.readsAlike ht ha hb hda hdb
    refine ⟨halike, fun hplain => ?_⟩
    obtain ⟨x, hx, hgives, -⟩ := halike.equal
    obtain ⟨hps, hqs⟩ := List.forall_mem_append.1 hplain
    obtain ⟨s', hx'⟩ := hgives ⟨hs.listed_held ha ht hda hps,
      fun v hv => .inr (hs.listed_held hb ht hdb hqs v hv)⟩
    exact ⟨x, s', hx, hx'⟩

/-- An object with a value that has been read in part, and a new key waiting in that. -/
theorem partly_read_nested :
    let inner : Value := .object 1 [(.bool true, .null), (.bool false, .null)]
    let outer : List (Value × Value) := [(.null, inner)]
    let other : List (Value × Value) := [(.null, .bool true)]
    let home : Nat → Value := fun i =>
      if i = 1 then inner else if i = 2 then .object 2 outer else .object 3 other
    let s : Store := { progress := [(1, { taken := 1, entries := [⟨1, 0, 0⟩] })] }
    Untouched {} home (Part {} home) (.object 2 outer) ∧
      Untouched {} home (Part {} home) (.object 3 other) ∧ Pops {} home {} s ∧
      (∃ t, Pops {} home s t ∧ Drained t home (.object 2 outer) ∧ Drained t home (.object 3 other)) ∧
      ∀ t, Pops {} home s t → Drained t home (.object 2 outer) → Drained t home (.object 3 other) →
        ReadsAlike s t 2 outer (.object 3 other) ∧
        ((∀ p ∈ outer ++ other, Drained {} home p.2) →
          ∃ x s', Answers t ((object 2 outer).equal (.object 3 other)) x ∧
            Gives s ((object 2 outer).equal (.object 3 other)) x s') := by
  intro inner outer other home s
  have hinner : Untouched {} home (Drained {} home) inner := by
    refine ⟨rfl, ⟨rfl, rfl, rfl, rfl⟩, List.forall_mem_cons.2 ⟨⟨.bool true, .null⟩, ?_⟩⟩
    exact List.forall_mem_singleton.2 ⟨.bool false, .null⟩
  have houter : Untouched {} home (Part {} home) (.object 2 outer) :=
    ⟨rfl, ⟨rfl, rfl, rfl, rfl⟩, List.forall_mem_singleton.2 ⟨.null, .inr hinner⟩⟩
  have hother : Untouched {} home (Part {} home) (.object 3 other) :=
    ⟨rfl, ⟨rfl, rfl, rfl, rfl⟩, List.forall_mem_singleton.2 ⟨.null, .inl (.bool true)⟩⟩
  have hpops : Pops {} home {} s := .pop (.refl _) hinner.part rfl
  exact ⟨houter, hother, hpops, partly_read houter hother hpops⟩

/-- The second of two keys is new to the listing after a read of one pair, and the listing fails; the
drained object lists both. -/
theorem new_key_fails :
    let pairs : List (Value × Value) := [(.bool true, ofNat 1), (.bool false, ofNat 2)]
    let view := (object 1 pairs).relations.mapKeys 1 pairs pure
    ∃ s s' t, Gives {} ((object 1 pairs).relations.takePair? 1 pairs) (some 0) s ∧
      Fails s view .keysChanged s' ∧ Gives s (object 1 pairs).length 2 t ∧
      Answers t view [.bool true, .bool false] :=
  ⟨_, _, _, rfl, rfl, rfl, rfl⟩

end FilterShell.Value
