import FilterShell.Value.Relations
import Mathlib.Data.List.Perm.Basic
import Mathlib.Order.Lattice

/-!
# Reading what has been read

A computation *answers* if it gives a result and leaves the store as it is: `Reading.Answers`.  Once the
end of a container has been taken, every read of it answers, with what was taken before the end.
-/

namespace FilterShell

variable {p : Prop} {s' : Store}

namespace Reading

variable {α β : Type} {s : Store}

/-- The computation gives the result and leaves the second store. -/
def Gives (s : Store) (r : Reading α) (x : α) (s' : Store) : Prop := r.outcome.run s = (.ok x, s')

/-- The computation gives the result and leaves the store as it is. -/
def Answers (s : Store) (r : Reading α) (x : α) : Prop := Gives s r x s

/-- The computation fails and leaves the second store. -/
def Fails (s : Store) (r : Reading α) (f : Fault) (s' : Store) : Prop :=
  r.outcome.run s = (.error f, s')

theorem Answers.unique {r : Reading α} {x y : α} (hx : Answers s r x) (hy : Answers s r y) :
    x = y := by
  have h := hx.symm.trans hy
  cases h
  rfl

theorem answers_return (x : α) : Answers s (return x) x := rfl

theorem run_bind (r : Reading α) (f : α → Reading β) (s : Store) :
    (r >>= f).outcome.run s =
      match r.outcome.run s with
      | (.ok x, s')    => (f x).outcome.run s'
      | (.error e, s') => (.error e, s') := by
  simp only [outcome, ExceptT.run_bind, StateT.run_bind]
  rcases r.run.run s with ⟨_ | _, s'⟩ <;> rfl

theorem Gives.bind {r : Reading α} {f : α → Reading β} {x : α} {y : β} {s'' : Store}
    (hr : Gives s r x s') (hf : Gives s' (f x) y s'') : Gives s (r >>= f) y s'' := by
  rw [Gives, run_bind, hr]
  exact hf

theorem Gives.bind_fails {r : Reading α} {f : α → Reading β} {x : α} {e : Fault} {s'' : Store}
    (hr : Gives s r x s') (hf : Fails s' (f x) e s'') : Fails s (r >>= f) e s'' := by
  rw [Fails, run_bind, hr]
  exact hf

theorem Fails.bind {r : Reading α} {f : α → Reading β} {e : Fault}
    (hr : Fails s r e s') : Fails s (r >>= f) e s' := by
  rw [Fails, run_bind, hr]

theorem Answers.bind {r : Reading α} {f : α → Reading β} {x : α} {y : β} (hr : Answers s r x)
    (hf : Answers s (f x) y) : Answers s (r >>= f) y := Gives.bind hr hf

theorem run_tryCatch (r : Reading α) (g : Fault → Reading α) (s : Store) :
    (tryCatch r g).outcome.run s =
      match r.outcome.run s with
      | (.ok x, s')    => (.ok x, s')
      | (.error e, s') => (g e).outcome.run s' := by
  simp only [outcome, ExceptT.run_tryCatch, StateT.run_bind]
  rcases r.run.run s with ⟨_ | _, s'⟩ <;> rfl

/-- What answers needs no rescue. -/
theorem Answers.rescue {r : Reading α} {x : α} (hr : Answers s r x) (g : Fault → Reading α) :
    Answers s (tryCatch r g) x := by
  rw [Answers, Gives, run_tryCatch, hr]

theorem answers_true [Decidable p] (h : p) : Answers s (return true) (decide p) := by
  rw [decide_eq_true h]
  rfl

theorem answers_false [Decidable p] (h : ¬ p) : Answers s (return false) (decide p) := by
  rw [decide_eq_false h]
  rfl

theorem answers_decide (p : Prop) [Decidable p] : Answers s (return decide p) (decide p) := rfl

/-- A computation that goes on by the answer of a question. -/
theorem Answers.cases [Decidable p] {r : Reading Bool} {f : Bool → Reading β} {y : β}
    (hr : Answers s r (decide p)) (htrue : p → Answers s (f true) y)
    (hfalse : ¬ p → Answers s (f false) y) : Answers s (r >>= f) y := by
  refine hr.bind ?_
  by_cases hp : p
  · rw [decide_eq_true hp]
    exact htrue hp
  · rw [decide_eq_false hp]
    exact hfalse hp

theorem Answers.of_iff {q : Prop} [Decidable p] [Decidable q] {r : Reading Bool}
    (hr : Answers s r (decide p)) (h : p ↔ q) : Answers s r (decide q) := by
  rwa [decide_eq_decide.2 h] at hr

theorem answers_mapM {f : α → Reading β} {g : α → β} :
    ∀ {xs : List α}, (∀ x ∈ xs, Answers s (f x) (g x)) → Answers s (xs.mapM f) (xs.map g)
  | [], _ => rfl
  | x :: xs, h => by
    rw [List.mapM_cons]
    exact (h x List.mem_cons_self).bind
      ((answers_mapM fun y hy => h y (List.mem_cons_of_mem _ hy)).bind rfl)

/-! ### Containers at their end -/

section Ended

variable {id : Nat} (h : (s.get id).ended = true)

include h

theorem answers_drain (size : Nat) : Answers s (drain id size) (s.get id).taken := by
  have hp : Answers s (progress id) (s.get id) := rfl
  refine hp.bind ?_
  rw [if_pos h]
  rfl

theorem answers_wholeText (pieces : List Text) :
    Answers s (wholeText id pieces) (pieces.take (s.get id).taken).flatten :=
  (answers_drain h _).bind rfl

theorem answers_allItems (items : List Value) :
    Answers s (allItems id items) (items.take (s.get id).taken) :=
  (answers_drain h _).bind rfl

theorem answers_item? (items : List Value) (k : Nat) :
    Answers s (item? id items k) (items.take (s.get id).taken)[k]? := by
  have hp : Answers s (progress id) (s.get id) := rfl
  have hreach : Answers s (reach id items.length (k + 1)) (decide (k + 1 ≤ (s.get id).taken)) := by
    refine hp.bind ?_
    by_cases hk : k + 1 ≤ (s.get id).taken
    · rw [if_pos hk, decide_eq_true hk]
      rfl
    · rw [if_neg hk, if_pos h, decide_eq_false hk]
      rfl
  refine hreach.bind ?_
  by_cases hk : k + 1 ≤ (s.get id).taken
  · rw [if_pos (decide_eq_true hk), List.getElem?_take_of_lt hk]
    rfl
  · rw [if_neg (by simpa using hk), List.getElem?_take_eq_none (by omega)]
    rfl

theorem answers_take? (size : Nat) : Answers s (take? id size) none := by
  have hp : Answers s (progress id) (s.get id) := rfl
  refine hp.bind ?_
  rw [if_pos h]
  rfl

end Ended

end Reading

/-! ### Sorting -/

namespace Sorting

open Reading

variable {α κ : Type} [LinearOrder κ] {s : Store} {less : α → α → Reading Bool} {key : α → κ}
  {D : α → Prop}

/-- The comparison of elements in `D` answers by their keys. -/
def ByKey (s : Store) (D : α → Prop) (less : α → α → Reading Bool) (key : α → κ) : Prop :=
  ∀ ⦃a b⦄, D a → D b → Answers s (less a b) (decide (key a < key b))

/-- A run that does not fall, and the rest. -/
theorem answers_ascending (hl : ByKey s D less key) {x : α} (hx : D x) {xs : List α}
    (hxs : ∀ y ∈ xs, D y) : ∃ run rest, Answers s (ascending less x xs) (run, rest) ∧
      run ++ rest = xs ∧ (x :: run).Pairwise fun a b => key a ≤ key b := by
  induction xs generalizing x with
  | nil => exact ⟨[], [], rfl, rfl, List.pairwise_singleton _ _⟩
  | cons y r ih =>
    obtain ⟨hy, hr⟩ := List.forall_mem_cons.1 hxs
    rw [ascending]
    by_cases hlt : key y < key x
    · exact ⟨[], y :: r, (hl hy hx).cases (fun _ => rfl) (absurd hlt), rfl,
        List.pairwise_singleton _ _⟩
    · obtain ⟨run, rest, hrun, rfl, hsorted⟩ := ih hy hr
      have hle : key x ≤ key y := not_lt.1 hlt
      refine ⟨y :: run, rest, (hl hy hx).cases (absurd · hlt) fun _ => hrun.bind rfl, rfl,
        List.pairwise_cons.2 ⟨List.forall_mem_cons.2 ⟨hle, fun z hz => ?_⟩, hsorted⟩⟩
      exact hle.trans ((List.pairwise_cons.1 hsorted).1 z hz)

theorem answers_descending (hl : ByKey s D less key) {x : α} (hx : D x) {xs : List α}
    (hxs : ∀ y ∈ xs, D y) : ∃ run rest, Answers s (descending less x xs) (run, rest) ∧
      run ++ rest = xs ∧ (x :: run).Pairwise fun a b => key b ≤ key a := by
  induction xs generalizing x with
  | nil => exact ⟨[], [], rfl, rfl, List.pairwise_singleton _ _⟩
  | cons y r ih =>
    obtain ⟨hy, hr⟩ := List.forall_mem_cons.1 hxs
    rw [descending]
    by_cases hlt : key y < key x
    · obtain ⟨run, rest, hrun, rfl, hsorted⟩ := ih hy hr
      refine ⟨y :: run, rest, (hl hy hx).cases (fun _ => hrun.bind rfl) (absurd hlt), rfl,
        List.pairwise_cons.2 ⟨List.forall_mem_cons.2 ⟨hlt.le, fun z hz => ?_⟩, hsorted⟩⟩
      exact ((List.pairwise_cons.1 hsorted).1 z hz).trans hlt.le
    · exact ⟨[], y :: r, (hl hy hx).cases (absurd · hlt) fun _ => rfl, rfl,
        List.pairwise_singleton _ _⟩

/-- Place `i` of a list parts it into elements that are not above `x` and elements that are not
below. -/
def Parts (key : α → κ) (x : α) (sorted : List α) (i : Nat) : Prop :=
  (∀ y ∈ sorted.take i, key y ≤ key x) ∧ ∀ y ∈ sorted.drop i, key x ≤ key y

theorem sorted_split {sorted : List α} (hs : sorted.Pairwise fun a b => key a ≤ key b) {m : Nat}
    {y : α} (hy : sorted[m]? = some y) :
    (∀ z ∈ sorted.take (m + 1), key z ≤ key y) ∧ ∀ z ∈ sorted.drop m, key y ≤ key z := by
  obtain ⟨hm, rfl⟩ := List.getElem?_eq_some_iff.1 hy
  rw [← List.take_append_drop m sorted, List.drop_eq_getElem_cons hm, List.pairwise_append,
    List.pairwise_cons] at hs
  obtain ⟨-, ⟨hafter, -⟩, hbefore⟩ := hs
  rw [List.drop_eq_getElem_cons hm, ← List.take_append_getElem hm]
  refine ⟨fun z hz => ?_, List.forall_mem_cons.2 ⟨le_rfl, hafter⟩⟩
  rcases List.mem_append.1 hz with hz | hz
  · exact hbefore z hz _ List.mem_cons_self
  · rw [List.mem_singleton.1 hz]

/-- Halving keeps the elements in front of `low` not above `x`, and those from `high` on not below. -/
theorem answers_place (hl : ByKey s D less key) {x : α} (hx : D x) {sorted : List α}
    (hD : ∀ y ∈ sorted, D y) (hs : sorted.Pairwise fun a b => key a ≤ key b) (low high : Nat)
    (hle : low ≤ high) (hlength : high ≤ sorted.length)
    (hlow : ∀ y ∈ sorted.take low, key y ≤ key x)
    (hhigh : ∀ y ∈ sorted.drop high, key x ≤ key y) :
    ∃ i, Answers s (place less x sorted low high) i ∧ Parts key x sorted i := by
  induction h : high - low using Nat.strongRecOn generalizing low high with
  | _ n ih =>
    rw [place]
    by_cases hlt : low < high
    · rw [dif_pos hlt]
      set middle := low + (high - low) / 2 with hmiddle
      have hm : middle < sorted.length := by omega
      obtain ⟨y, hy⟩ : ∃ y, sorted[middle]? = some y := ⟨_, List.getElem?_eq_getElem hm⟩
      have hyD := hD y (List.mem_of_getElem? hy)
      obtain ⟨hbefore, hafter⟩ := sorted_split hs hy
      -- the element in the middle decides which half is left
      simp only [hy]
      by_cases hxy : key x < key y
      · obtain ⟨i, hi, hparts⟩ := ih (middle - low) (by omega) low middle (by omega) (by omega)
          hlow (fun z hz => hxy.le.trans (hafter z hz)) rfl
        exact ⟨i, (hl hx hyD).cases (fun _ => hi) (absurd hxy), hparts⟩
      · obtain ⟨i, hi, hparts⟩ := ih (high - (middle + 1)) (by omega) (middle + 1) high (by omega)
          hlength (fun z hz => (hbefore z hz).trans (not_lt.1 hxy)) hhigh rfl
        exact ⟨i, (hl hx hyD).cases (absurd · hxy) fun _ => hi, hparts⟩
    · rw [dif_neg hlt]
      obtain rfl : low = high := by omega
      exact ⟨low, rfl, hlow, hhigh⟩

/-- An item goes where the order has it. -/
theorem answers_insert (hl : ByKey s D less key) {x : α} (hx : D x) {sorted : List α}
    (hD : ∀ y ∈ sorted, D y) (hs : sorted.Pairwise fun a b => key a ≤ key b) :
    ∃ ys, Answers s (Sorting.insert less sorted x) ys ∧ ys.Perm (x :: sorted) ∧
      ys.Pairwise fun a b => key a ≤ key b := by
  obtain ⟨i, hi, hbefore, hafter⟩ := answers_place hl hx hD hs 0 sorted.length (Nat.zero_le _)
    (Nat.le_refl _) (by simp) (by simp)
  refine ⟨sorted.take i ++ x :: sorted.drop i, hi.bind rfl, ?_, ?_⟩
  · rw [List.perm_comm]
    conv_lhs => rw [← List.take_append_drop i sorted]
    exact List.perm_middle.symm
  · refine List.pairwise_append.2 ⟨hs.sublist (List.take_sublist _ _),
      List.pairwise_cons.2 ⟨hafter, hs.sublist (List.drop_sublist _ _)⟩, fun y hy => ?_⟩
    exact List.forall_mem_cons.2
      ⟨hbefore y hy, fun z hz => (hbefore y hy).trans (hafter z hz)⟩

theorem answers_insertAll (hl : ByKey s D less key) {rest : List α} (hrest : ∀ y ∈ rest, D y)
    {run : List α} (hrun : ∀ y ∈ run, D y) (hs : run.Pairwise fun a b => key a ≤ key b) :
    ∃ ys, Answers s (rest.foldlM (Sorting.insert less) run) ys ∧ ys.Perm (run ++ rest) ∧
      ys.Pairwise fun a b => key a ≤ key b := by
  induction rest generalizing run with
  | nil => exact ⟨run, rfl, by simp, hs⟩
  | cons x rest ih =>
    obtain ⟨hx, hrest⟩ := List.forall_mem_cons.1 hrest
    obtain ⟨ys, hys, hperm, hsorted⟩ := answers_insert hl hx hrun hs
    obtain ⟨zs, hzs, hperm', hsorted'⟩ := ih hrest
      (fun y hy => (List.mem_cons.1 (hperm.mem_iff.1 hy)).elim (fun h => h ▸ hx) (hrun y)) hsorted
    refine ⟨zs, ?_, hperm'.trans ((hperm.append_right rest).trans List.perm_middle.symm), hsorted'⟩
    rw [List.foldlM_cons]
    exact hys.bind hzs

end Sorting

open Sorting in
/-- **Sorting with a comparison that answers gives a sorted list.** -/
theorem sortBy_answers {α κ : Type} [LinearOrder κ] {s : Store} {D : α → Prop}
    {less : α → α → Reading Bool} {key : α → κ} (hl : ByKey s D less key) {xs : List α}
    (hxs : ∀ x ∈ xs, D x) : ∃ ys, Reading.Answers s (sortBy less xs) ys ∧ ys.Perm xs ∧
      ys.Pairwise fun a b => key a ≤ key b := by
  match xs with
  | [] => exact ⟨[], rfl, .refl _, .nil⟩
  | [x] => exact ⟨[x], rfl, .refl _, List.pairwise_singleton _ _⟩
  | x :: y :: r =>
    obtain ⟨hx, hyr⟩ := List.forall_mem_cons.1 hxs
    obtain ⟨hy, hr⟩ := List.forall_mem_cons.1 hyr
    -- whichever way the run at the start goes, the rest is put into it
    have hrest : ∀ run rest : List α, (run ++ rest).Perm (x :: y :: r) →
        (run.Pairwise fun a b => key a ≤ key b) →
        ∃ ys, Reading.Answers s (rest.foldlM (Sorting.insert less) run) ys ∧
          ys.Perm (x :: y :: r) ∧ ys.Pairwise fun a b => key a ≤ key b := by
      intro run rest hperm hsorted
      obtain ⟨hDrun, hDrest⟩ := List.forall_mem_append.1 fun z hz => hxs z (hperm.mem_iff.1 hz)
      obtain ⟨ys, hys, hperm', hsorted'⟩ := answers_insertAll hl hDrest hDrun hsorted
      exact ⟨ys, hys, hperm'.trans hperm, hsorted'⟩
    by_cases hlt : key y < key x
    · obtain ⟨run, rest, hrun, rfl, hsorted⟩ := answers_descending hl hy hr
      have hdown : (x :: y :: run).reverse.Pairwise fun a b => key a ≤ key b := by
        rw [List.pairwise_reverse]
        exact List.pairwise_cons.2 ⟨List.forall_mem_cons.2
          ⟨hlt.le, fun z hz => ((List.pairwise_cons.1 hsorted).1 z hz).trans hlt.le⟩, hsorted⟩
      obtain ⟨ys, hys, hperm, hsorted'⟩ := hrest (x :: y :: run).reverse rest
        ((List.reverse_perm _).append_right rest) hdown
      exact ⟨ys, (hl hy hx).cases (fun _ => hrun.bind hys) (absurd hlt), hperm, hsorted'⟩
    · have hle : key x ≤ key y := not_lt.1 hlt
      obtain ⟨run, rest, hrun, rfl, hsorted⟩ := answers_ascending hl hy hr
      have hup : (x :: y :: run).Pairwise fun a b => key a ≤ key b :=
        List.pairwise_cons.2 ⟨List.forall_mem_cons.2
          ⟨hle, fun z hz => hle.trans ((List.pairwise_cons.1 hsorted).1 z hz)⟩, hsorted⟩
      obtain ⟨ys, hys, hperm, hsorted'⟩ := hrest (x :: y :: run) rest (.refl _) hup
      exact ⟨ys, (hl hy hx).cases (absurd · hlt) fun _ => hrun.bind hys, hperm, hsorted'⟩

/-- There is one way to sort a list in which the keys differ. -/
theorem sortBy_unique {α κ : Type} [LinearOrder κ] {s : Store} {D : α → Prop}
    {less : α → α → Reading Bool} {key : α → κ} (hl : Sorting.ByKey s D less key) {xs ys : List α}
    (hxs : ∀ x ∈ xs, D x) (hperm : ys.Perm xs) (hys : ys.Pairwise fun a b => key a < key b) :
    Reading.Answers s (sortBy less xs) ys := by
  obtain ⟨zs, hsort, hperm', hzs⟩ := sortBy_answers hl hxs
  have hnodup : (zs.map key).Nodup :=
    ((hperm'.trans hperm.symm).map key).nodup_iff.2 (List.pairwise_map.2 (hys.imp ne_of_lt))
  have hzs' : zs.Pairwise fun a b => key a < key b :=
    (hzs.and (List.pairwise_map.1 hnodup)).imp fun hab => lt_of_le_of_ne hab.1 hab.2
  rwa [(hperm'.trans hperm.symm).eq_of_pairwise
    (fun _ _ _ _ hab hba => absurd hba hab.asymm) hzs' hys] at hsort

end FilterShell
