import FilterShell.Proofs.Value.Exhausted
import FilterShell.Proofs.Value.Layout
import FilterShell.Proofs.Value.PartlyRead
import FilterShell.Value.Compare

/-!
# Pairs in another order

Objects of the same pairs in another order have the same text and the same lines, are equal, and compare in the
same way with other values (`Value.order_hidden`).  Whatever is done with an object begins with taking all its
pairs (`Reading.Unseen`), and then they are sorted, which can be done in one way only (`Value.Arranged`).

Two things are left of the order: a hash is there only if no new key waits in the object, and equality stops at
the first entry that the other object does not have, before or behind a signaling not-a-number there.
-/

namespace FilterShell

open Reading

variable {α β : Type} {s s' : Store}

/-! ### Stores that are not told apart -/

namespace Reading

/-- The computation runs in one store as in the other. -/
def Unseen (s s' : Store) (r : Reading α) : Prop := r.outcome.run s = r.outcome.run s'

namespace Unseen

variable {r : Reading α}

theorem bind {k : α → Reading β} (h : Unseen s s' r) : Unseen s s' (r >>= k) := by
  rw [Unseen, run_bind, run_bind, h]

theorem rescue {handler : Fault → Reading α} (h : Unseen s s' r) : Unseen s s' (tryCatch r handler) := by
  rw [Unseen, run_tryCatch, run_tryCatch, h]

end Unseen

end Reading

section Unseen

variable {R : Relations} {i : Nat} {ps : List (Value × Value)}
  (h : Unseen s s' (R.takePairs i ps (ps.length + 1)))

include h

theorem Relations.entries_unseen : Unseen s s' (R.entries i ps) := h.bind

theorem Relations.sizedEntries_unseen : Unseen s s' (R.sizedEntries i ps) := h.rescue.bind

theorem Relations.keys_unseen : Unseen s s' (R.keys i ps) := h.rescue.bind

theorem Value.textWith_unseen (below : Value → Reading Text) :
    Unseen s s' (textWith R below (.object i ps)) := (Relations.sizedEntries_unseen h).bind

theorem Terminal.linesWith_unseen (t : Terminal) (below : Value → StateM Store Lines) :
    (t.linesWith R below (.object i ps)).run s = (t.linesWith R below (.object i ps)).run s' := by
  have hsorted : Unseen s s' (sortedEntries R i ps) := (Relations.keys_unseen h).bind
  change StateT.run (_ >>= _) s = StateT.run (_ >>= _) s'
  rw [StateT.run_bind, StateT.run_bind]
  exact congrArg (· >>= _) hsorted

theorem Relations.nextLess_unseen {i' : Nat} {ps' : List (Value × Value)} :
    Unseen s s' (R.nextLess (.object i ps) (.object i' ps')) := (keys_unseen h).bind

theorem Relations.nextEqual_unseen {i' : Nat} {ps' : List (Value × Value)} :
    Unseen s s' (R.nextEqual (.object i ps) (.object i' ps')) := (entries_unseen h).bind

end Unseen

theorem Discipline.Covers.below {J : Discipline} {K : Value → Prop} (hJ : J.Covers K) (n : Nat) :
    (Relations.below n).Obeys J K := by
  cases n with
  | zero => exact ⟨fun _ _ => J.pure trivial, fun _ _ _ _ => J.pure trivial, fun _ _ _ _ => J.pure trivial⟩
  | succ n => exact hJ.upTo n

/-! ### Objects that were read to the end -/

/-- A table in which no key comes twice is the list of the pairs. -/
theorem Table.ofPairs_of_nodup {κ : Type} [DecidableEq κ] {key : α → κ} {pairs : List (α × β)}
    (h : (pairs.map fun p => key p.1).Nodup) : ofPairs key pairs = pairs := by
  induction pairs using List.reverseRecOn with
  | nil => rfl
  | append_singleton pairs p ih =>
    rw [List.map_append, List.nodup_append] at h
    obtain ⟨hfront, -, hnew⟩ := h
    rw [ofPairs_concat, ih hfront, entered_new fun q hq => ?_]
    exact hnew _ (List.mem_map_of_mem hq) _ List.mem_cons_self

namespace Value

variable {home : Nat → Value} {k i j : Nat} {ps qs P : List (Value × Value)}

/-- The object has been read to its end and its table is the list of its pairs, which are `P` in the order of
their keys. -/
structure Arranged (s : Store) (home : Nat → Value) (k i : Nat) (ps P : List (Value × Value)) : Prop where
  ended  : (s.get i).ended = true
  table  : Relations.tableOf ps (s.get i).entries = ps
  tabled : Relations.Tabled s (SettledTo s home k) ps (s.get i).entries
  perm   : P.Perm ps
  sorted : P.Pairwise fun p q => p.1.standing s < q.1.standing s

namespace Arranged

variable (h : Arranged s home k i ps P)

include h

theorem settled : ∀ p ∈ ps, SettledTo s home k p.1 ∧ SettledTo s home k p.2 := by
  intro p hp
  refine h.tabled.mem ?_
  rwa [h.table]

theorem keys : Answers s ((Relations.below k).keys i ps) (ps.map Prod.fst) := by
  have hkeys := Relations.answers_keys (R := Relations.below k) h.ended ps
  rwa [h.table] at hkeys

theorem entries : Answers s ((Relations.below k).entries i ps) ps := by
  have hentries := Relations.answers_entries (R := Relations.below k) h.ended ps
  rwa [h.table] at hentries

theorem sizedEntries : Answers s ((Relations.below k).sizedEntries i ps) ps := by
  have hentries := Relations.answers_sizedEntries (R := Relations.below k) h.ended ps
  rwa [h.table] at hentries

/-- The keys in their order. -/
theorem sortedKeys : Answers s (sortBy (Relations.below k).less (ps.map Prod.fst)) (P.map Prod.fst) := by
  have hkey : Sorting.ByKey s (SettledTo s home k) (Relations.below k).less (standing s) :=
    (Relations.below_agrees k).less
  refine sortBy_unique hkey (List.forall_mem_map.2 fun p hp => (h.settled p hp).1) (h.perm.map _) ?_
  exact List.pairwise_map.2 h.sorted

/-- The entries in the order of their keys. -/
theorem sortedEntries : Answers s (Terminal.sortedEntries (Relations.below k) i ps) P := by
  have hkey : Sorting.ByKey s (fun p : Value × Value => SettledTo s home k p.1)
      (fun p q => (Relations.below k).less p.1 q.1) fun p => p.1.standing s :=
    fun p q hp hq => (Relations.below_agrees k).less hp hq
  have htaken : Answers s (Relations.taken i ps) ps := congrArg (Except.ok · , s) h.table
  exact h.keys.bind (htaken.bind (sortBy_unique hkey (fun p hp => (h.settled p hp).1) h.perm h.sorted))

/-- The entries in their order. -/
theorem orderedEntries : Answers s (sortBy (Relations.below k).lessEntry ps) P := by
  refine sortBy_unique (Relations.below_agrees k).lessEntry h.settled h.perm ?_
  exact h.sorted.imp fun hlt => Prod.Lex.toLex_lt_toLex.2 (.inl hlt)

theorem lookup {p : Value × Value} (hp : p ∈ P) :
    Answers s ((Relations.below k).lookup i ps p.1) p.2 := by
  have hmem : p ∈ ps := h.perm.mem_iff.1 hp
  refine (Relations.below_agrees k).lookup h.ended h.tabled (h.settled p hmem).1 ?_ rfl
  rwa [h.table]

theorem hashed : Answers s ((Relations.below k).hashed ps) (Relations.hashedOf s ps) := by
  have hnodup := h.tabled.nodup
  rw [h.table] at hnodup
  exact (Relations.below_agrees k).hashed h.settled hnodup

end Arranged

/-! ### Two objects of the same pairs -/

section Both

variable {s₁ s₂ : Store} {K : Value → Prop} (h₁ : Arranged s₁ home k i ps P)
  (h₂ : Arranged s₂ home k j qs P) (hK : ∀ p ∈ P, BothIn K p)
  (hJ : (side (Store.Pinned s₁ s₂)).Covers K)

include h₁ h₂ hK

theorem textWith_permuted {below : Value → Reading Text}
    (hbelow : ∀ v, K v → Parallel (Store.Pinned s₁ s₂) (below v) (below v) fun _ => True) :
    Parallel (Store.Pinned s₁ s₂) (textWith (.below k) below (.object i ps))
      (textWith (.below k) below (.object j qs)) fun _ => True := by
  refine .after h₁.sizedEntries h₂.sizedEntries (.after h₁.orderedEntries h₂.orderedEntries ?_)
  have htexts : (side (Store.Pinned s₁ s₂)).holds (P.mapM fun p => do
      return (← below p.1) ++ Text.ofString ": " ++ (← below p.2)) fun ts => ∀ t ∈ ts, True := by
    refine Discipline.mapM fun p hp => ?_
    exact (hbelow p.1 (hK p hp).1).bind fun _ _ => (hbelow p.2 (hK p hp).2).bind fun _ _ => .pure trivial
  exact Parallel.bind htexts fun _ _ => .pure trivial

theorem linesWith_permuted (t : Terminal) {below : Value → StateM Store Lines}
    (hbelow : ∀ v, K v → Abreast (Store.Pinned s₁ s₂) (below v) (below v) fun _ => True) :
    Abreast (Store.Pinned s₁ s₂) (t.linesWith (.below k) below (.object i ps))
      (t.linesWith (.below k) below (.object j qs)) fun _ => True :=
  Terminal.object_abreast (.of_answers h₁.sortedEntries h₂.sortedEntries hK) hbelow

variable {i' : Nat} {ps' : List (Value × Value)} (hw : K (.object i' ps'))

include hJ hw

theorem lessByKeys_permuted {Q : List (Value × Value)} (hQ : ∀ p ∈ Q, p ∈ P) :
    Parallel (Store.Pinned s₁ s₂) ((Relations.below k).lessByKeys i ps i' ps' (Q.map Prod.fst))
      ((Relations.below k).lessByKeys j qs i' ps' (Q.map Prod.fst)) fun _ => True := by
  have hR := hJ.below k
  induction Q with
  | nil => exact .pure trivial
  | cons p Q ih =>
    obtain ⟨hp, hQ⟩ := List.forall_mem_cons.1 hQ
    have hlookup : Parallel (Store.Pinned s₁ s₂) ((Relations.below k).lookup i ps p.1)
        ((Relations.below k).lookup j qs p.1) K :=
      .of_answers (h₁.lookup hp) (h₂.lookup hp) (hK p hp).2
    have hother : Parallel (Store.Pinned s₁ s₂) _ _ K := hR.lookup hJ hw (hK p hp).1
    refine hlookup.bind fun x hx => hother.bind fun y hy => Parallel.bind (hR.less x y hx hy) fun b _ => ?_
    split
    · exact .pure trivial
    · refine hlookup.bind fun x hx => hother.bind fun y hy =>
        Parallel.bind (hR.greater hx hy) fun b _ => ?_
      split
      · exact .pure trivial
      · exact ih hQ

/-- The order of the pairs does not tell which object is less than another one. -/
theorem lessObjects_permuted :
    Parallel (Store.Pinned s₁ s₂) ((Relations.below k).nextLess (.object i ps) (.object i' ps'))
      ((Relations.below k).nextLess (.object j qs) (.object i' ps')) fun _ => True := by
  have hR := hJ.below k
  have hks : ∀ x ∈ P.map Prod.fst, K x := List.forall_mem_map.2 fun p hp => (hK p hp).1
  refine .after h₁.keys h₂.keys (.after h₁.sortedKeys h₂.sortedKeys ?_)
  refine Parallel.bind (hR.keys hJ hw) fun ks' hks' => Parallel.bind (sortBy_holds hR.less hks') fun ks' hks' => ?_
  refine Parallel.bind (hR.lessKeys hks hks') fun b _ => ?_
  split
  · exact .pure trivial
  · refine Parallel.bind (hR.greaterKeys hks hks') fun b _ => ?_
    split
    · exact .pure trivial
    · exact lessByKeys_permuted h₁ h₂ hK hJ hw fun _ hp => hp

end Both

/-! ### Equality -/

/-- A set has all of some entries if it has each of them, in whatever order they are asked for. -/
theorem subset_true_iff {R : Relations} {set set' : Relations.Hashed}
    (hstill : ∀ x ∈ set, ((R.hasEntry x.1 x.2.1 x.2.2 set').outcome.run s).2 = s) :
    Answers s (R.subset set' set) true ↔
      ∀ x ∈ set, Answers s (R.hasEntry x.1 x.2.1 x.2.2 set') true := by
  induction set with
  | nil => exact iff_of_true rfl (List.forall_mem_nil _)
  | cons x set ih =>
    obtain ⟨hashes, k, v⟩ := x
    obtain ⟨hx, hset⟩ := List.forall_mem_cons.1 hstill
    rw [List.forall_mem_cons, ← ih hset, Relations.subset, answers_bind_iff hx]
    refine ⟨?_, fun h => ⟨true, h.1, h.2⟩⟩
    rintro ⟨c, hc, hrest⟩
    cases c with
    | true => exact ⟨hc, hrest⟩
    | false => cases hrest

/-- Equality reads nothing more of the other object. -/
theorem equalObjects_still {s₁ : Store} (hext : s.Extends s₁) (h : Arranged s₁ home k i ps P)
    (hP : ∀ p ∈ P, BothIn (Exhausted s) p) {i' : Nat} {ps' : List (Value × Value)}
    (hw : Exhausted s (.object i' ps')) :
    Parallel (Store.Pinned s₁ s₁) ((Relations.below k).nextEqual (.object i ps) (.object i' ps'))
      ((Relations.below k).nextEqual (.object i ps) (.object i' ps')) fun _ => True := by
  have hJ := (hereditary_exhausted s).covers hext hext
  have hR := hJ.below k
  have hin : ∀ x ∈ Relations.hashedOf s₁ ps, BothIn (Exhausted s) x.2 :=
    List.forall_mem_map.2 fun p hp => hP p (h.perm.mem_iff.2 hp)
  refine .after h.entries h.entries (.after h.hashed h.hashed ?_)
  refine Parallel.bind (hR.entries hJ hw) fun es' hes' => Parallel.bind (hR.hashed hes') fun set' hset' => ?_
  split
  · exact .pure trivial
  · exact hR.subset hset' hin

section Both

variable {s₁ s₂ : Store} (hext₁ : s.Extends s₁) (hext₂ : s.Extends s₂) (h₁ : Arranged s₁ home k i ps P)
  (h₂ : Arranged s₂ home k j qs P) (hstand : ∀ p ∈ qs, pairStanding s₂ p = pairStanding s₁ p)
  {i' : Nat} {ps' : List (Value × Value)}

include hext₁ hext₂ h₁ h₂ hstand

omit hext₁ hext₂ in
theorem hashedOf_permuted : (Relations.hashedOf s₂ qs).Perm (Relations.hashedOf s₁ ps) := by
  rw [Relations.hashedOf_congr hstand]
  exact (h₂.perm.symm.trans h₁.perm).map _

/-- The order of the pairs does not tell which object equals another one, if all entries can be compared. -/
theorem equalObjects_permuted (hP : ∀ p ∈ P, BothIn (Clear s) p) (hw : Clear s (.object i' ps')) :
    Parallel (Store.Pinned s₁ s₂) ((Relations.below k).nextEqual (.object i ps) (.object i' ps'))
      ((Relations.below k).nextEqual (.object j qs) (.object i' ps')) fun _ => True := by
  have hJ := (hereditary_clear s).covers hext₁ hext₂
  have hR := hJ.below k
  have hperm := hashedOf_permuted h₁ h₂ hstand
  refine .after h₁.entries h₂.entries (.after h₁.hashed h₂.hashed ?_)
  refine Parallel.bind (hR.entries hJ hw) fun es' hes' => Parallel.bind (hR.hashed hes') fun set' hset' => ?_
  rw [hperm.length_eq]
  split
  · exact .pure trivial
  have hin : ∀ x ∈ Relations.hashedOf s₁ ps, BothIn (Clear s) x.2 :=
    List.forall_mem_map.2 fun p hp => hP p (h₁.perm.mem_iff.2 hp)
  choose! has hhas using fun x (hx : x ∈ Relations.hashedOf s₁ ps) =>
    (Relations.below_certain k).hasEntry x.1 (hin x hx).1 (hin x hx).2 hset'
  have hanswers : ∀ u, s.Extends u → ∀ x ∈ Relations.hashedOf s₁ ps,
      Answers u ((Relations.below k).hasEntry x.1 x.2.1 x.2.2 set') (has x) := by
    intro u hu x hx
    have hside := (hereditary_clear s).covers (fun _ _ => rfl) hu
    exact Parallel.answers ((hside.below k).hasEntry x.1 (hin x hx).1 (hin x hx).2 hset') (hhas x hx)
  refine .of_answers (Relations.Certain.answers_subset (hanswers s₁ hext₁)) ?_ trivial
  rw [← hperm.all_eq]
  exact Relations.Certain.answers_subset fun x hx => hanswers s₂ hext₂ x (hperm.mem_iff.1 hx)

/-- If an object equals another one, those of the same pairs do. -/
theorem equalObjects_true (hP : ∀ p ∈ P, BothIn (Exhausted s) p) (hw : Exhausted s (.object i' ps'))
    (h : Answers s₁ ((Relations.below k).nextEqual (.object i ps) (.object i' ps')) true) :
    Answers s₂ ((Relations.below k).nextEqual (.object j qs) (.object i' ps')) true := by
  have hJ := (hereditary_exhausted s).covers hext₁ hext₂
  have hR := hJ.below k
  have hperm := hashedOf_permuted h₁ h₂ hstand
  have hin : ∀ x ∈ Relations.hashedOf s₁ ps, BothIn (Exhausted s) x.2 :=
    List.forall_mem_map.2 fun p hp => hP p (h₁.perm.mem_iff.2 hp)
  have h := h₁.hashed.of_bind (h₁.entries.of_bind h)
  obtain ⟨es', hes', hentries, h⟩ := Parallel.answers_bind (hR.entries hJ hw) h
  obtain ⟨set', hset', hhashed, h⟩ := Parallel.answers_bind (hR.hashed hes') h
  refine h₂.entries.bind (h₂.hashed.bind (hentries.bind (hhashed.bind ?_)))
  have hhas : ∀ x ∈ Relations.hashedOf s₁ ps, Parallel (Store.Pinned s₁ s₂) _ _ _ := fun x hx =>
    hR.hasEntry x.1 (hin x hx).1 (hin x hx).2 hset'
  rw [hperm.length_eq]
  split
  · rename_i hlength
    rw [if_pos hlength] at h
    cases h
  · rename_i hlength
    rw [if_neg hlength] at h
    have hall := (subset_true_iff fun x hx => (hhas x hx).still.1).1 h
    refine (subset_true_iff fun x hx => (hhas x (hperm.mem_iff.1 hx)).still.2).2 fun x hx => ?_
    exact (hhas x (hperm.mem_iff.1 hx)).answers (hall x (hperm.mem_iff.1 hx))

end Both

/-! ### Reading both objects to the end -/

theorem depthPairs_perm (h : qs.Perm ps) : depthPairs qs = depthPairs ps := by
  induction h with
  | nil => rfl
  | cons p _ ih => rw [depthPairs, depthPairs, ih]
  | swap p q r =>
    rw [depthPairs, depthPairs, depthPairs, depthPairs]
    omega
  | trans _ _ ih ih' => exact ih.trans ih'

/-- Reading the objects to their ends leads to stores in which both are arranged in the same way, and nothing
that begins with this reading tells these from the given one. -/
structure Rearranged (s : Store) (home : Nat → Value) (k i : Nat) (ps : List (Value × Value)) (j : Nat)
    (qs P : List (Value × Value)) (s₁ s₂ : Store) : Prop where
  unseen₁   : Unseen s s₁ ((Relations.below k).takePairs i ps (ps.length + 1))
  unseen₂   : Unseen s s₂ ((Relations.below k).takePairs j qs (qs.length + 1))
  extends₁  : s.Extends s₁
  extends₂  : s.Extends s₂
  arranged₁ : Arranged s₁ home k i ps P
  arranged₂ : Arranged s₂ home k j qs P
  standing  : ∀ p ∈ qs, pairStanding s₂ p = pairStanding s₁ p
  drained   : ∀ p ∈ P, Drained s home p.1 ∧ Drained s home p.2

section Reading

variable {s₀ : Store}

theorem nodup_of_apart (hps : ∀ p ∈ ps, Drained s₀ home p.1)
    (hapart : ps.Pairwise fun p q => Answers s₀ (p.1.equal q.1) false) :
    (ps.map fun p => p.1.standing s₀).Nodup := by
  refine List.pairwise_map.2 (hapart.imp_of_mem fun {p q} hp hq hne heq => ?_)
  have hequal := answers_equal (hps p hp) (hps q hq)
  rw [decide_eq_true heq] at hequal
  cases hne.unique hequal

/-- Taking all pairs of an object and sorting them gives the arrangement. -/
theorem Tracked.arranged (hs : Tracked s₀ home s) (ha : Untouched s₀ home (Drained s₀ home) (.object i ps))
    (hnodup : (ps.map fun p => p.1.standing s₀).Nodup) (hP : P.Perm ps)
    (hsorted : P.Pairwise fun p q => p.1.standing s₀ < q.1.standing s₀) (hk : depthPairs ps ≤ k) :
    ∃ s₁, Unseen s s₁ ((Relations.below k).takePairs i ps (ps.length + 1)) ∧ s.Extends s₁ ∧
      Arranged s₁ home k i ps P := by
  have hkeys := ha.part.settledTo hk
  obtain ⟨n, hreached⟩ := hs.reached ha.part
  obtain ⟨s₁, htake, hread, hreached₁⟩ := (Relations.below_steady k).takePairs hkeys (ps.length + 1) hs.extend
    (hreached.keyed hkeys)
  obtain ⟨hended, htable⟩ := hreached₁.whole (by omega)
  rw [Table.ofPairs_of_nodup hnodup] at htable
  have hs₁ := hs.readOn ha.part hread (hreached₁.keyed ha.part.drained_keys)
  have hdrained : Drained s₁ home (.object i ps) := by
    refine hs₁.drained ha.part hended fun p hp => ?_
    obtain ⟨-, q, hq, hvalue⟩ := Table.mem_ofPairs hp
    rw [hvalue]
    exact ((ha.2.2 q hq).2.extends hs₁.extend).1
  obtain ⟨-, -, htabled⟩ := hdrained.settledTo.mono (Nat.succ_le_succ hk)
  refine ⟨s₁, htake.trans (Relations.answers_takePairs hended ps _).symm, hread.extend, hended, htable, htabled, hP,
    hsorted.imp_of_mem fun {p q} hp hq hlt => ?_⟩
  have hstand : ∀ p ∈ P, p.1.standing s₁ = p.1.standing s₀ := fun p hp =>
    ((ha.2.2 p (hP.mem_iff.1 hp)).1.extends hs₁.extend).2
  rwa [hstand p hp, hstand q hq]

variable (hs : Tracked s₀ home s) (ha : Untouched s₀ home (Drained s₀ home) (.object i ps))
  (hb : Untouched s₀ home (Drained s₀ home) (.object j qs)) (hperm : qs.Perm ps)
  (hapart : ps.Pairwise fun p q => Answers s₀ (p.1.equal q.1) false)

include hs ha hb hperm hapart

/-- Both objects come to one arrangement. -/
theorem Tracked.rearranged (hk : depthPairs ps ≤ k) : ∃ P s₁ s₂, Rearranged s home k i ps j qs P s₁ s₂ := by
  have hnodup := nodup_of_apart ha.part.drained_keys hapart
  have hnodup' : (qs.map fun p => p.1.standing s₀).Nodup := (hperm.map _).nodup_iff.2 hnodup
  have hsettled : ∀ p ∈ ps, SettledTo s₀ home k p.1 ∧ SettledTo s₀ home k p.2 := by
    intro p hp
    obtain ⟨hkey, hvalue⟩ := depth_pair hp
    exact ⟨(ha.2.2 p hp).1.settledTo.mono (by omega), (ha.2.2 p hp).2.settledTo.mono (by omega)⟩
  obtain ⟨P, -, hP, hsorted⟩ := (Relations.below_agrees k).sortedTable hsettled hnodup
  obtain ⟨s₁, hunseen₁, hext₁, harranged₁⟩ := hs.arranged ha hnodup hP hsorted hk
  obtain ⟨s₂, hunseen₂, hext₂, harranged₂⟩ := hs.arranged hb hnodup' (hP.trans hperm.symm) hsorted
    ((depthPairs_perm hperm).trans_le hk)
  have hdrained : ∀ p ∈ P, Drained s home p.1 ∧ Drained s home p.2 := fun p hp =>
    ⟨((ha.2.2 p (hP.mem_iff.1 hp)).1.extends hs.extend).1, ((ha.2.2 p (hP.mem_iff.1 hp)).2.extends hs.extend).1⟩
  refine ⟨P, s₁, s₂, hunseen₁, hunseen₂, hext₁, hext₂, harranged₁, harranged₂, fun p hp => ?_, hdrained⟩
  obtain ⟨hkey, hvalue⟩ := hdrained p (hP.mem_iff.2 (hperm.mem_iff.1 hp))
  rw [pairStanding, pairStanding, (hkey.extends hext₂).2, (hkey.extends hext₁).2, (hvalue.extends hext₂).2,
    (hvalue.extends hext₁).2]

end Reading

/-! ### What the order of the pairs does not tell -/

theorem textTo_level (n : Nat) : ∃ k f, n ≤ k ∧ textTo n = textWith (.below k) f ∧
    ∀ (J : Discipline) (K : Value → Prop), J.Covers K → ∀ v, K v → J.holds (f v) fun _ => True := by
  cases n with
  | zero => exact ⟨1, _, Nat.zero_le _, rfl, fun J _ _ _ _ => J.pure trivial⟩
  | succ n => exact ⟨n + 1, _, le_rfl, rfl, fun _ _ hJ _ hv => hJ.textTo n hv⟩

theorem linesTo_level (t : Terminal) (n : Nat) : ∃ k f, n ≤ k ∧ t.linesTo n = t.linesWith (.below k) f ∧
    ∀ (Rel : Store → Store → Prop) (K : Value → Prop), (side Rel).Covers K → ∀ v, K v →
      Abreast Rel (f v) (f v) fun _ => True := by
  cases n with
  | zero => exact ⟨1, _, Nat.zero_le _, rfl, fun _ _ _ _ _ => .pure trivial⟩
  | succ n => exact ⟨n + 1, _, le_rfl, rfl, fun _ _ hJ _ hv => t.linesTo_abreast hJ n hv⟩

namespace Rearranged

variable {s₁ s₂ : Store} (h : Rearranged s home k i ps j qs P s₁ s₂)

include h

theorem covers : (side (Store.Pinned s₁ s₂)).Covers (Exhausted s) :=
  (hereditary_exhausted s).covers h.extends₁ h.extends₂

theorem exhausted : ∀ p ∈ P, BothIn (Exhausted s) p := fun p hp =>
  ⟨(h.drained p hp).1.exhausted, (h.drained p hp).2.exhausted⟩

theorem clear : ∀ p ∈ P, BothIn (Clear s) p := fun p hp =>
  ⟨(h.drained p hp).1.clear, (h.drained p hp).2.clear⟩

omit h in
/-- What runs side by side in the later stores has the same result in the given one. -/
theorem same {m m' : StateM Store α} {Q : α → Prop} (hm : m.run s = m.run s₁) (hm' : m'.run s = m'.run s₂)
    (hside : Abreast (Store.Pinned s₁ s₂) m m' Q) : (m'.run s).1 = (m.run s).1 := by
  rw [hm, hm']
  exact (hside s₁ s₂ ⟨rfl, rfl⟩).1

theorem nextLess {i' : Nat} {ps' : List (Value × Value)} (hw : Exhausted s (.object i' ps')) :
    Parallel (Store.Pinned s₁ s₂) ((Relations.below k).nextLess (.object i ps) (.object i' ps'))
      ((Relations.below k).nextLess (.object j qs) (.object i' ps')) fun _ => True :=
  lessObjects_permuted h.arranged₁ h.arranged₂ h.exhausted h.covers hw

theorem nextEqual {i' : Nat} {ps' : List (Value × Value)} (hw : Clear s (.object i' ps')) :
    Parallel (Store.Pinned s₁ s₂) ((Relations.below k).nextEqual (.object i ps) (.object i' ps'))
      ((Relations.below k).nextEqual (.object j qs) (.object i' ps')) fun _ => True :=
  equalObjects_permuted h.extends₁ h.extends₂ h.arranged₁ h.arranged₂ h.standing h.clear hw

theorem symm : Rearranged s home k j qs i ps P s₂ s₁ where
  unseen₁ := h.unseen₂
  unseen₂ := h.unseen₁
  extends₁ := h.extends₂
  extends₂ := h.extends₁
  arranged₁ := h.arranged₂
  arranged₂ := h.arranged₁
  standing p hp := (h.standing p (h.arranged₂.perm.mem_iff.1 (h.arranged₁.perm.mem_iff.2 hp))).symm
  drained := h.drained

theorem nextEqual_true {i' : Nat} {ps' : List (Value × Value)} (hw : Exhausted s (.object i' ps')) :
    (∃ s', Gives s ((Relations.below k).nextEqual (.object i ps) (.object i' ps')) true s') →
      ∃ s', Gives s ((Relations.below k).nextEqual (.object j qs) (.object i' ps')) true s' := by
  rintro ⟨s', htrue⟩
  have hrun := (Relations.nextEqual_unseen h.unseen₁).symm.trans htrue
  have hstill := (equalObjects_still h.extends₁ h.arranged₁ h.exhausted hw).still.1
  obtain rfl : s' = s₁ := by rw [← hstill, hrun]
  exact ⟨s₂, (Relations.nextEqual_unseen h.unseen₂).trans (equalObjects_true h.extends₁ h.extends₂ h.arranged₁
    h.arranged₂ h.standing h.exhausted hw hrun)⟩

end Rearranged

section Given

variable {c : Comparison} {w : Value}

theorem lessGiven_object (w : Value) : (object i ps).lessGiven (.value w) =
    (Relations.below (max (depthPairs ps) w.depth)).nextLess (.object i ps) w := by
  have hless : (object i ps).lessGiven (.value w) = (object i ps).less w := rfl
  rw [hless, less, relationsWith, Relations.upTo_eq_next]
  rfl

theorem equalGiven_object (w : Value) : (object i ps).equalGiven (.value w) =
    (Relations.below (max (depthPairs ps) w.depth)).nextEqual (.object i ps) w := by
  have hequal : (object i ps).equalGiven (.value w) = (object i ps).equal w := rfl
  rw [hequal, equal, relationsWith, Relations.upTo_eq_next]
  rfl

theorem compareGiven_unseen {i' : Nat} {ps' : List (Value × Value)} (h : Unseen s s'
      ((Relations.below (max (depthPairs ps) (depthPairs ps'))).takePairs i ps (ps.length + 1)))
    (c : Comparison) : Unseen s s' ((object i ps).compareGiven c (.value (.object i' ps'))) := by
  have hless : Unseen s s' ((object i ps).lessGiven (.value (.object i' ps'))) := by
    rw [lessGiven_object]
    exact Relations.nextLess_unseen h
  have hequal : Unseen s s' ((object i ps).equalGiven (.value (.object i' ps'))) := by
    rw [equalGiven_object]
    exact Relations.nextEqual_unseen h
  cases c with
  | equal => exact hequal
  | notEqual => exact hequal.bind
  | less => exact hless
  | greater => exact hless.bind
  | lessOrEqual => exact hless.bind
  | greaterOrEqual => exact hless.bind

/-- The kind alone decides about values that are no objects. -/
theorem compareGiven_other (hw : w.kind ≠ .object) (c : Comparison) :
    (object i ps).compareGiven c (.value w) = (object j qs).compareGiven c (.value w) := by
  have hne : ∀ i ps, (object i ps).kind ≠ w.kind := fun _ _ h => hw h.symm
  have hless : (object i ps).lessGiven (.value w) = (object j qs).lessGiven (.value w) := by
    rw [lessGiven_object, lessGiven_object, Relations.nextLess_of_kind (hne i ps),
      Relations.nextLess_of_kind (hne j qs)]
    rfl
  have hequal : (object i ps).equalGiven (.value w) = (object j qs).equalGiven (.value w) := by
    rw [equalGiven_object, equalGiven_object, Relations.nextEqual_of_kind (hne i ps),
      Relations.nextEqual_of_kind (hne j qs)]
  have hnot : (object i ps).notEqualGiven (.value w) = (object j qs).notEqualGiven (.value w) :=
    congrArg (fun r => do return !(← r)) hequal
  cases c with
  | equal => exact hequal
  | notEqual => exact hnot
  | less => exact hless
  | greater => rw [compareGiven, compareGiven, hless, hnot]
  | lessOrEqual => rw [compareGiven, compareGiven, hless, hequal]
  | greaterOrEqual => rw [compareGiven, compareGiven, hless]

end Given

section Same

variable {s₀ : Store} (hs : Tracked s₀ home s) (ha : Untouched s₀ home (Drained s₀ home) (.object i ps))
  (hb : Untouched s₀ home (Drained s₀ home) (.object j qs)) (hperm : qs.Perm ps)
  (hapart : ps.Pairwise fun p q => Answers s₀ (p.1.equal q.1) false)

include hs ha hb hperm hapart

/-- **The text** does not depend on the order of the pairs. -/
theorem Tracked.same_text : ∃ u s₁ s₂, Gives s (object i ps).text u s₁ ∧ Gives s (object j qs).text u s₂ := by
  obtain ⟨k, f, hk, hlevel, hf⟩ := textTo_level (depthPairs ps)
  obtain ⟨P, s₁, s₂, h⟩ := hs.rearranged ha hb hperm hapart hk
  have hdrained : Drained s₁ home (.object i ps) :=
    SettledTo.drained (n := k + 1) ⟨h.arranged₁.ended, ha.1, h.arranged₁.tabled⟩
  obtain ⟨_, u, hu⟩ := hdrained.renders
  have hside := textWith_permuted h.arranged₁ h.arranged₂ h.exhausted (hf _ _ h.covers)
  have hanswer : Answers s₁ (textWith (.below k) f (.object i ps)) u := by
    rw [← hlevel]
    exact hu.writes _ le_rfl
  refine ⟨u, s₁, s₂, ?_, ?_⟩
  · rw [text, depth, hlevel]
    exact (textWith_unseen h.unseen₁ f).trans hanswer
  · rw [text, depth, depthPairs_perm hperm, hlevel]
    exact (textWith_unseen h.unseen₂ f).trans (hside.answers hanswer)

/-- **The lines on a terminal** do not depend on the order of the pairs. -/
theorem Tracked.same_lines (t : Terminal) :
    ((t.lines (.object j qs)).run s).1 = ((t.lines (.object i ps)).run s).1 := by
  unfold Terminal.lines
  split
  · obtain ⟨k, f, hk, hlevel, hf⟩ := linesTo_level t (depthPairs ps)
    obtain ⟨P, s₁, s₂, h⟩ := hs.rearranged ha hb hperm hapart hk
    rw [depth, depth, depthPairs_perm hperm, hlevel]
    exact Rearranged.same (t.linesWith_unseen h.unseen₁ f) (t.linesWith_unseen h.unseen₂ f)
      (linesWith_permuted h.arranged₁ h.arranged₂ h.exhausted t (hf _ _ h.covers))
  · obtain ⟨u, s₁, s₂, htext, htext'⟩ := hs.same_text ha hb hperm hapart
    have hline : Gives s (do return [← (object i ps).text]) [u] s₁ := htext.bind rfl
    have hline' : Gives s (do return [← (object j qs).text]) [u] s₂ := htext'.bind rfl
    have hshown : (Lines.ofReading do return [← (object i ps).text]).run s = ({ lines := [u] }, s₁) :=
      Lines.run_bind hline rfl
    have hshown' : (Lines.ofReading do return [← (object j qs).text]).run s = ({ lines := [u] }, s₂) :=
      Lines.run_bind hline' rfl
    rw [hshown, hshown']

/-- The objects are equal, and have the same hash if there is one. -/
theorem Tracked.same_place : (∃ s', Gives s ((object i ps).equal (.object j qs)) true s') ∧
    ∃ x, ∀ v ∈ [object i ps, object j qs], (Listed s v → ∃ s', Gives s v.hash x s') ∧
      (¬ Listed s v → ∃ s', Fails s v.hash .keysChanged s') := by
  obtain ⟨t₁, hpops₁, hda⟩ := hs.pops_object ha.part
  have ht₁ := (hpops₁.tracked hs).1
  obtain ⟨t, hpops, hdb⟩ := ht₁.pops_object hb.part
  obtain ⟨ht, hext⟩ := hpops.tracked ht₁
  have hda := (hda.extends hext).1
  have hnodup := nodup_of_apart ha.part.drained_keys hapart
  have hstanding : (object i ps).standing t = (object j qs).standing t := by
    rw [ht.standing_object ha.part hda.ended, ht.standing_object hb.part hdb.ended,
      Table.ofPairs_of_nodup hnodup, Table.ofPairs_of_nodup ((hperm.map _).nodup_iff.2 hnodup)]
    refine (Standing.object_inj ?_).2 ⟨by rw [List.length_map, List.length_map, hperm.length_eq], fun p hp => ?_⟩
    · rw [List.map_map]
      have hkeys := ha.part.nodup_keys ht
      rwa [Table.ofPairs_of_nodup hnodup] at hkeys
    · exact (hperm.map _).mem_iff.2 hp
  constructor
  · obtain ⟨x, hx, hgives, -⟩ := hs.equal_objects ha.part hb.part ht hda hdb
    obtain rfl : true = x := by
      rw [hx.unique (answers_equal hda hdb), decide_eq_true hstanding]
    exact hgives ⟨hs.listed_held ha.part ht hda fun p hp => (ha.2.2 p hp).2,
      fun v hv => .inr (hs.listed_held hb.part ht hdb (fun p hp => (hb.2.2 p hp).2) v hv)⟩
  · refine ⟨((object i ps).standing t).hash, List.forall_mem_cons.2 ⟨?_, List.forall_mem_singleton.2 ?_⟩⟩
    · obtain ⟨hgives, hfails⟩ := hs.hash_object ha.part ht hda.ended le_rfl
      exact ⟨fun hlisted => (hgives hlisted).imp fun _ hs' => hs'.1, hfails⟩
    · rw [hstanding]
      obtain ⟨hgives, hfails⟩ := hs.hash_object hb.part ht hdb.ended le_rfl
      exact ⟨fun hlisted => (hgives hlisted).imp fun _ hs' => hs'.1, hfails⟩

/-- **Comparisons** do not depend on the order of the pairs, unless equality is asked for and meets a signaling
not-a-number. -/
theorem Tracked.same_comparison {w : Value} (hw : Exhausted s w) {c : Comparison}
    (hc : c = .less ∨ c = .greaterOrEqual ∨ ¬ w.Occurs s isSignaling) :
    (((object j qs).compareGiven c (.value w)).outcome.run s).1 =
      (((object i ps).compareGiven c (.value w)).outcome.run s).1 := by
  by_cases hkind : w.kind = .object
  · cases w with
    | exception | null | bool | number | string | array => cases hkind
    | object i' ps' =>
      obtain ⟨P, s₁, s₂, h⟩ := hs.rearranged ha hb hperm hapart (le_max_left _ (depthPairs ps'))
      have hunseen₂ := h.unseen₂
      rw [← depthPairs_perm hperm] at hunseen₂
      have hless : Parallel (Store.Pinned s₁ s₂) ((object i ps).lessGiven (.value (.object i' ps')))
          ((object j qs).lessGiven (.value (.object i' ps'))) fun _ => True := by
        rw [lessGiven_object, lessGiven_object, depthPairs_perm hperm]
        exact h.nextLess hw
      have hside : Parallel (Store.Pinned s₁ s₂) ((object i ps).compareGiven c (.value (.object i' ps')))
          ((object j qs).compareGiven c (.value (.object i' ps'))) fun _ => True := by
        rcases hc with rfl | rfl | hnone
        · exact hless
        · exact hless.bind fun _ _ => .pure trivial
        · have hequal : Parallel (Store.Pinned s₁ s₂) ((object i ps).equalGiven (.value (.object i' ps')))
              ((object j qs).equalGiven (.value (.object i' ps'))) fun _ => True := by
            rw [equalGiven_object, equalGiven_object, depthPairs_perm hperm]
            exact h.nextEqual ⟨hw, hnone⟩
          exact Parallel.compareGiven hequal (hequal.bind fun _ _ => .pure trivial) hless c
      exact Rearranged.same (compareGiven_unseen h.unseen₁ c) (compareGiven_unseen hunseen₂ c) hside
  · have hother : (object j qs).compareGiven c (.value w) = (object i ps).compareGiven c (.value w) :=
      compareGiven_other hkind c
    rw [hother]

/-- **Equality** to another value does not depend on the order of the pairs. -/
theorem Tracked.same_equality {w : Value} (hw : Exhausted s w) :
    (∃ s', Gives s ((object i ps).compareGiven .equal (.value w)) true s') ↔
      ∃ s', Gives s ((object j qs).compareGiven .equal (.value w)) true s' := by
  by_cases hkind : w.kind = .object
  · cases w with
    | exception | null | bool | number | string | array => cases hkind
    | object i' ps' =>
      obtain ⟨P, s₁, s₂, h⟩ := hs.rearranged ha hb hperm hapart (le_max_left _ (depthPairs ps'))
      rw [compareGiven, compareGiven, equalGiven_object, equalGiven_object, depthPairs_perm hperm]
      exact ⟨h.nextEqual_true hw, h.symm.nextEqual_true hw⟩
  · have hother : (object j qs).compareGiven .equal (.value w) = (object i ps).compareGiven .equal (.value w) :=
      compareGiven_other hkind .equal
    rw [hother]

end Same

/-- Neither printing nor comparing tells the values apart. -/
structure Indistinct (s : Store) (a b : Value) : Prop where
  text  : ∃ u s₁ s₂, Gives s a.text u s₁ ∧ Gives s b.text u s₂
  lines : ∀ t : Terminal, ((t.lines b).run s).1 = ((t.lines a).run s).1
  equal : ∃ s', Gives s (a.equal b) true s'
  /-- There is a hash if no new key waits, and then it is the same. -/
  hash  : ∃ x, ∀ v ∈ [a, b], (Listed s v → ∃ s', Gives s v.hash x s') ∧
    (¬ Listed s v → ∃ s', Fails s v.hash .keysChanged s')
  /-- Both equal the same values. -/
  equals : ∀ w, Exhausted s w → ((∃ s', Gives s (a.compareGiven .equal (.value w)) true s') ↔
    ∃ s', Gives s (b.compareGiven .equal (.value w)) true s')
  /-- A comparison with another value has the same outcome.  If it asks for equality, there must be no
  signaling not-a-number. -/
  compare : ∀ w, Exhausted s w → ∀ c : Comparison,
    c = .less ∨ c = .greaterOrEqual ∨ ¬ w.Occurs s isSignaling →
    ((b.compareGiven c (.value w)).outcome.run s).1 = ((a.compareGiven c (.value w)).outcome.run s).1

/-- **The order of the pairs is hidden.**  Two objects whose pairs are the same up to their order, with drained keys
and values, are printed and compared in the same way, however much of them has been read. -/
theorem order_hidden {s₀ : Store} (ha : Untouched s₀ home (Drained s₀ home) (.object i ps))
    (hb : Untouched s₀ home (Drained s₀ home) (.object j qs)) (hperm : qs.Perm ps)
    (hapart : ps.Pairwise fun p q => Answers s₀ (p.1.equal q.1) false) (hs : Pops s₀ home s₀ s) :
    Indistinct s (.object i ps) (.object j qs) := by
  obtain ⟨hs, -⟩ := hs.tracked tracked_start
  obtain ⟨hequal, hhash⟩ := hs.same_place ha hb hperm hapart
  exact {
    text := hs.same_text ha hb hperm hapart
    lines := hs.same_lines ha hb hperm hapart
    equal := hequal
    hash := hhash
    equals := fun _ hw => hs.same_equality ha hb hperm hapart hw
    compare := fun _ hw _ hc => hs.same_comparison ha hb hperm hapart hw hc }

/-- An object of which one pair has been taken, another one with its pairs exchanged, and a third one with a
not-a-number as a key. -/
theorem order_hidden_nan :
    let list : Value := .array 1 [.null]
    let a : Value := .object 2 [(.bool true, list), (list, ofNat 2)]
    let b : Value := .object 3 [(list, ofNat 2), (.bool true, list)]
    let w : Value := .object 4 [(.number 5 (.nan false false 0), list)]
    let home : Nat → Value := fun i => if i = 1 then list else if i = 2 then a else b
    let nan : Progress := { taken := 1, ended := true, entries := [⟨Relations.nanHash 5, 0, 0⟩] }
    let s₀ : Store := { progress := [(1, { taken := 1, ended := true }), (4, nan)] }
    let s : Store := s₀.put 2 { taken := 1, entries := [⟨1, 0, 0⟩] }
    Pops s₀ home s₀ s ∧ Exhausted s w ∧ ¬ w.Occurs s isSignaling ∧ Indistinct s a b := by
  intro list a b w home nan s₀ s
  have hlist : Drained s₀ home list := by
    refine .array rfl rfl ?_
    rintro v (_ | ⟨_, ⟨⟩⟩)
    exact .null
  have hpair : Drained s₀ home (.bool true) ∧ Drained s₀ home list := ⟨.bool true, hlist⟩
  have hpair' : Drained s₀ home list ∧ Drained s₀ home (ofNat 2) := ⟨hlist, .number rfl⟩
  have ha : Untouched s₀ home (Drained s₀ home) a :=
    ⟨rfl, ⟨rfl, rfl, rfl, rfl⟩, List.forall_mem_cons.2 ⟨hpair, List.forall_mem_singleton.2 hpair'⟩⟩
  have hb : Untouched s₀ home (Drained s₀ home) b :=
    ⟨rfl, ⟨rfl, rfl, rfl, rfl⟩, List.forall_mem_cons.2 ⟨hpair', List.forall_mem_singleton.2 hpair⟩⟩
  have hpops : Pops s₀ home s₀ s := .pop (.refl _) ha.part rfl
  have hapart : [(Value.bool true, list), (list, ofNat 2)].Pairwise
      fun p q => Answers s₀ (p.1.equal q.1) false :=
    List.pairwise_pair.2 rfl
  have hlist' : Drained s home list := (hlist.extends (hpops.tracked tracked_start).2).1
  have hw : Exhausted s w := by
    refine .intro (by rintro _ ⟨⟩; rfl) ?_ ?_
    · rintro e (_ | ⟨_, ⟨⟩⟩)
      exact ⟨_, rfl⟩
    · rintro v (_ | ⟨_, _ | ⟨_, ⟨⟩⟩⟩)
      exacts [.intro (by rintro _ ⟨⟩) trivial (List.forall_mem_nil _), hlist'.exhausted]
  have hquiet : ¬ w.Occurs s isSignaling := by
    refine not_occurs rfl ?_
    rintro v (_ | ⟨_, _ | ⟨_, ⟨⟩⟩⟩)
    exacts [not_occurs rfl (List.forall_mem_nil _), hlist'.clear.2]
  exact ⟨hpops, hw, hquiet, order_hidden ha hb (.swap _ _ _) hapart hpops⟩

/-- A hash fails where a new key waits.  And it depends on the order of the pairs whether a comparison meets a
signaling not-a-number: either it stops at an entry that the other object does not have, or it fails. -/
theorem order_shows :
    let fresh : Value := .object 1 [(.bool true, ofNat 1)]
    let known : Value := .array 1 [.bool false, ofNat 2]
    let strange : Value := .array 2 [.bool false, .number 3 (.nan false true 0)]
    let a : Value := .object 4 [(.bool false, .bool true), (.bool true, known)]
    let b : Value := .object 5 [(.bool true, known), (.bool false, .bool true)]
    let w : Value := .object 6 [(.bool true, strange), (.bool false, .bool false)]
    let s : Store := { progress := [(1, { taken := 2, ended := true }), (2, { taken := 2, ended := true }),
      (6, { taken := 2, ended := true, entries := [⟨1, 0, 0⟩, ⟨0, 1, 1⟩] })] }
    (fresh.hash.outcome.run {}).1 = .error .keysChanged ∧ Exhausted s w ∧
      ((a.compareGiven .equal (.value w)).outcome.run s).1 = .ok false ∧
      ((b.compareGiven .equal (.value w)).outcome.run s).1 = .error (.arithmetic .invalidOperation) := by
  intro fresh known strange a b w s
  have hbool : ∀ c, Exhausted s (.bool c) := fun c =>
    .intro (by rintro _ ⟨⟩) trivial (List.forall_mem_nil _)
  have hstrange : Exhausted s strange := by
    refine .intro (by rintro _ ⟨⟩; rfl) trivial ?_
    rintro v (_ | ⟨_, _ | ⟨_, ⟨⟩⟩⟩)
    exacts [hbool false, .intro (by rintro _ ⟨⟩) trivial (List.forall_mem_nil _)]
  have hw : Exhausted s w := by
    refine .intro (by rintro _ ⟨⟩; rfl) ?_ ?_
    · rintro e (_ | ⟨_, _ | ⟨_, ⟨⟩⟩⟩) <;> exact ⟨_, rfl⟩
    · rintro v (_ | ⟨_, _ | ⟨_, _ | ⟨_, _ | ⟨_, ⟨⟩⟩⟩⟩⟩)
      exacts [hbool true, hstrange, hbool false, hbool false]
  exact ⟨rfl, hw, rfl, rfl⟩

end Value

end FilterShell
