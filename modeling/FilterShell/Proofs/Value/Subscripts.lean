import FilterShell.Proofs.Value.Sealed
import FilterShell.Value.Slice

/-!
# Places and slices of arrays

A terminated array stands for the list of its items.  What a list answers is defined without any reading:
`subscript?` for places and `Slice.elements` for slices.

* A place that counts from the start is answered as the list answers it, however far the array has been
  read (`Value.itemGiven_fromStart`); one that counts from the end, counts from the end of what has been taken
  (`Value.itemGiven_fromEnd`).
* A slice gives the elements of the list, or it fails.  `Slice.Served` is the exact condition, which does not
  depend on how far the array has been read either.
-/

namespace FilterShell

variable {t : Int × Int × Int} {stop : Int} {x : Nat}

open Reading

/-! ### Slices of lists -/

namespace Slice

variable {α : Type} {s : Slice} {n a b k : Nat}

/-- A bound in a list of a length: a negative one counts from the end. -/
def counted (length bound : Int) : Int := if bound < 0 then bound + length else bound

/-- The slice meets this place on its way through a list of `n` elements.  It begins at the first place or
the last, or at its start if that is in the list, and goes by its step until it comes to its stop. -/
def meets (s : Slice) (n x : Nat) : Bool :=
  let step := s.step.getD 1
  if 0 < step then
    let first := max 0 ((s.start.map (counted n)).getD 0)
    decide (first ≤ x ∧ step ∣ x - first ∧ x < (s.stop.map (counted n)).getD n)
  else
    let first := min (n - 1 : Int) ((s.start.map (counted n)).getD (n - 1))
    decide (x ≤ first ∧ step ∣ first - x ∧ (s.stop.map (counted n)).getD (-1) < x)

/-- The elements of a list that a slice names, in the order in which it meets them. -/
def elements (s : Slice) (xs : List α) : List α :=
  let met := (xs.zipIdx.filter fun p => s.meets xs.length p.2).map Prod.fst
  if 0 < s.step.getD 1 then met else met.reverse

example : Slice.elements { start := some (-2), step := some (-2) } [1, 2, 3, 4, 5] = [4, 2] := by decide

/-- A place is met if it is a number of steps behind the first one. -/
def OnWay (a k x : Nat) : Prop := a ≤ x ∧ k ∣ x - a

instance : DecidablePred (OnWay a k) := fun _ => inferInstanceAs (Decidable (_ ∧ _))

theorem onWay_first : OnWay a k (0 + a) := by
  rw [Nat.zero_add]
  exact ⟨le_rfl, by simp⟩

theorem not_onWay_before {j : Nat} (hj : j < a) : ¬ OnWay a k (0 + j) := by
  rw [Nat.zero_add]
  exact fun h => Nat.not_le.2 hj h.1

theorem OnWay.next {x : Nat} (h : OnWay a k x) : OnWay a k (x + k) := by
  refine ⟨h.1.trans (Nat.le_add_right x k), ?_⟩
  rw [Nat.sub_add_comm h.1]
  exact Nat.dvd_add h.2 dvd_rfl

theorem OnWay.not_between {j : Nat} (h : OnWay a k x) (hpos : 0 < j) (hlt : j < k) : ¬ OnWay a k (x + j) := by
  rintro ⟨-, hdvd⟩
  rw [Nat.sub_add_comm h.1, Nat.dvd_add_right h.2] at hdvd
  exact Nat.not_le.2 hlt (Nat.le_of_dvd hpos hdvd)

/-- Every `k`-th item from the first one on. -/
theorem filter_onWay (hk : 0 < k) (xs : List α) :
    ∀ o g, OnWay a k (o + g) → (∀ j < g, ¬ OnWay a k (o + j)) →
      ((xs.zipIdx o).filter fun p => OnWay a k p.2 ∧ p.2 < b).map Prod.fst =
        every k ((xs.take (b - o)).drop g) := by
  -- `o` is the place of the first element of `xs`, and `g` places on is the first one that is met.
  induction xs with
  | nil =>
    intro o g _ _
    simp [every]
  | cons x r ih =>
    intro o g hmet hpassed
    have htake : (x :: r).take (b - o) = if o < b then x :: r.take (b - (o + 1)) else [] := by
      by_cases hb : o < b
      · rw [if_pos hb, show b - o = b - (o + 1) + 1 by omega, List.take_succ_cons]
      · rw [if_neg hb, Nat.sub_eq_zero_of_le (Nat.le_of_not_lt hb), List.take_zero]
    have hbehind : ¬ o < b → r.take (b - (o + 1)) = [] := by
      intro hb
      rw [Nat.sub_eq_zero_of_le (by omega), List.take_zero]
    rw [List.zipIdx_cons, List.filter_cons, htake]
    cases g with
    | zero =>
      rw [Nat.add_zero] at hmet
      have hnext : OnWay a k (o + 1 + (k - 1)) := by
        rw [show o + 1 + (k - 1) = o + k by omega]
        exact hmet.next
      have hrest := ih (o + 1) (k - 1) hnext fun j hj => by
        rw [Nat.add_assoc]
        exact hmet.not_between (by omega) (by omega)
      by_cases hb : o < b
      · rw [if_pos (by simp [hmet, hb]), if_pos hb, List.map_cons, hrest, List.drop_zero, every]
      · rw [if_neg (by simp [hb]), if_neg hb, hrest, hbehind hb, List.drop_nil, List.drop_nil]
    | succ g =>
      have hrest := ih (o + 1) g (by rwa [Nat.add_assoc, Nat.add_comm 1]) fun j hj => by
        rw [Nat.add_assoc, Nat.add_comm 1]
        exact hpassed (j + 1) (by omega)
      have ho : ¬ OnWay a k o := hpassed 0 (by omega)
      rw [if_neg (by simp [ho]), hrest]
      by_cases hb : o < b
      · rw [if_pos hb, List.drop_succ_cons]
      · rw [if_neg hb, hbehind hb, List.drop_nil, List.drop_nil]

/-- The elements that are met on the way from one place to another are those that are picked. -/
theorem elements_eq_pick {xs : List α} (hk : 0 < k) (hstep : s.step.getD 1 = k)
    (hmeets : ∀ x < xs.length, s.meets xs.length x = decide (OnWay a k x ∧ x < b)) :
    s.elements xs = pick a b k xs := by
  have hwalk := filter_onWay (b := b) hk xs 0 a onWay_first fun _ hj => not_onWay_before hj
  rw [elements, hstep, if_pos (Int.natCast_pos.2 hk), pick, ← Nat.sub_zero b, ← hwalk]
  congr 1
  exact List.filter_congr fun p hp => hmeets p.2 (List.snd_lt_of_mem_zipIdx hp)

/-! ### Which slices are served -/

/-- A bound counts from the end. -/
def isFromEnd (s : Slice) : Bool := s.start.getD 0 < 0 || s.stop.getD 0 < 0

theorem isFromEnd_eq_false : s.isFromEnd = false ↔ 0 ≤ s.start.getD 0 ∧ 0 ≤ s.stop.getD 0 := by
  simp [isFromEnd]

/-- Where a slice that goes forward begins.  Its bounds are placed in the list only if one of them counts
from the end. -/
def first (s : Slice) (n : Nat) : Int :=
  if s.isFromEnd then (s.start.map (placed n 0 n)).getD 0 else s.start.getD 0

/-- Where a slice that goes forward stops. -/
def last (s : Slice) (n : Nat) : Int :=
  if s.isFromEnd then (s.stop.map (placed n 0 n)).getD n else s.stop.getD n

/-- The slice can be taken of an array of `n` items. -/
structure Served (s : Slice) (n : Nat) : Prop where
  forward : 0 < s.step.getD 1
  step    : s.step.getD 1 ≤ maxBound
  first   : s.first n ≤ maxBound
  last    : s.last n ≤ maxBound
  /-- If no bound counts from the end, the slice says where to stop, and this is not before its start
  unless its step is given. -/
  closed  : s.isFromEnd = false → ∃ stop, s.stop = some stop ∧ (s.step = none → s.start.getD 0 ≤ stop)

theorem first_nonneg : 0 ≤ s.first n := by
  unfold first
  cases hend : s.isFromEnd with
  | true =>
    rw [if_pos rfl]
    cases s.start with
    | none => exact le_rfl
    | some start => exact le_max_left _ _
  | false =>
    rw [if_neg Bool.false_ne_true]
    exact (isFromEnd_eq_false.1 hend).1

theorem last_nonneg : 0 ≤ s.last n := by
  unfold last
  cases hend : s.isFromEnd with
  | true =>
    rw [if_pos rfl]
    cases s.stop with
    | none => exact Int.natCast_nonneg n
    | some stop => exact le_max_left _ _
  | false =>
    have hstop := (isFromEnd_eq_false.1 hend).2
    rw [if_neg Bool.false_ne_true]
    cases h : s.stop with
    | none => exact Int.natCast_nonneg n
    | some stop => rwa [h] at hstop

/-- The slice begins at its start, if that is in the list. -/
theorem first_eq : s.first n = max 0 ((s.start.map (counted n)).getD 0) ∨
    n ≤ s.first n ∧ (n : Int) ≤ (s.start.map (counted n)).getD 0 := by
  unfold first
  cases hend : s.isFromEnd with
  | true =>
    rw [if_pos rfl]
    cases s.start with
    | none => exact .inl rfl
    | some start =>
      simp only [Option.map_some, Option.getD_some, placed, counted]
      omega
  | false =>
    have hstart := (isFromEnd_eq_false.1 hend).1
    rw [if_neg Bool.false_ne_true]
    left
    cases h : s.start with
    | none => rfl
    | some start =>
      rw [h, Option.getD_some] at hstart
      rw [Option.getD_some, Option.map_some, Option.getD_some, counted, if_neg (Int.not_lt.2 hstart)]
      exact (max_eq_right hstart).symm

/-- The slice stops before the same places of the list as its stop. -/
theorem lt_last_iff (hx : x < n) : x < (s.stop.map (counted n)).getD n ↔ x < s.last n := by
  unfold last
  cases hend : s.isFromEnd with
  | true =>
    rw [if_pos rfl]
    cases s.stop with
    | none => rfl
    | some stop =>
      simp only [Option.map_some, Option.getD_some, placed, counted]
      omega
  | false =>
    have hstop := (isFromEnd_eq_false.1 hend).2
    rw [if_neg Bool.false_ne_true]
    cases h : s.stop with
    | none => rfl
    | some stop =>
      rw [h, Option.getD_some] at hstop
      rw [Option.getD_some, Option.map_some, Option.getD_some, counted, if_neg (Int.not_lt.2 hstop)]

/-- What a slice that goes forward meets. -/
theorem meets_eq (h : 0 < s.step.getD 1) (hx : x < n) :
    s.meets n x = decide (OnWay (s.first n).toNat (s.step.getD 1).toNat x ∧ x < (s.last n).toNat) := by
  unfold meets
  dsimp only
  rw [if_pos h, decide_eq_decide, lt_last_iff hx, Int.lt_toNat, ← and_assoc]
  refine and_congr_left fun _ => ?_
  obtain ⟨a, ha⟩ := Int.eq_ofNat_of_zero_le (first_nonneg (s := s) (n := n))
  obtain ⟨k, hk⟩ := Int.eq_ofNat_of_zero_le h.le
  have hfirst := first_eq (s := s) (n := n)
  rw [ha] at hfirst ⊢
  rw [hk, Int.toNat_natCast, Int.toNat_natCast, OnWay]
  obtain hfirst | ⟨hbehind, hfirst⟩ := hfirst
  · rw [← hfirst, Int.ofNat_le]
    refine and_congr_right fun hle => ?_
    rw [← Int.ofNat_sub hle, Int.natCast_dvd_natCast]
  · omega

/-- The last check of start, stop and step. -/
def checked (t : Int × Int × Int) : Reading (Nat × Nat × Nat) := do
  if t.1 < 0 || t.2.1 < 0 || t.2.2 < 1 then throw .badStep
  if maxBound < t.1 || maxBound < t.2.1 || maxBound < t.2.2 then throw .badStep
  return (t.1.toNat, t.2.1.toNat, t.2.2.toNat)

theorem checked_eq_pure (hlow : 0 ≤ t.1 ∧ 0 ≤ t.2.1 ∧ 0 < t.2.2)
    (hhigh : t.1 ≤ maxBound ∧ t.2.1 ≤ maxBound ∧ t.2.2 ≤ maxBound) :
    checked t = pure (t.1.toNat, t.2.1.toNat, t.2.2.toNat) := by
  unfold checked
  rw [if_neg (by simp; omega)]
  dsimp only
  rw [if_neg (by simp; omega)]

theorem checked_eq_throw
    (h : 0 < t.2.2 → ¬ (t.1 ≤ maxBound ∧ t.2.1 ≤ maxBound ∧ t.2.2 ≤ maxBound)) :
    checked t = throw .badStep := by
  unfold checked
  by_cases hlow : t.1 < 0 || t.2.1 < 0 || t.2.2 < 1
  · rw [if_pos hlow]
    rfl
  · simp only [Bool.or_eq_true, decide_eq_true_eq] at hlow
    rw [if_neg (by simp; omega)]
    dsimp only
    rw [if_pos (by simp; omega)]
    rfl

theorem bounds_fromEnd (h : s.isFromEnd = true) (length : Reading Nat) :
    s.bounds length = (do s.within (← length)) >>= checked := by
  rw [isFromEnd] at h
  unfold bounds
  cases hstop : s.stop with
  | none =>
    rw [hstop, Option.getD_none] at h
    dsimp only
    rw [if_pos (by simpa using h)]
    rfl
  | some stop =>
    rw [hstop, Option.getD_some] at h
    dsimp only
    rw [if_pos h]
    rfl

theorem bounds_direct (h : s.isFromEnd = false) (hstop : s.stop = some stop)
    (length : Reading Nat) : s.bounds length = checked (direct (s.start.getD 0) stop s.step) := by
  rw [isFromEnd, hstop, Option.getD_some] at h
  unfold bounds
  rw [hstop]
  dsimp only
  rw [h]
  rfl

theorem bounds_open (h : s.isFromEnd = false) (hstop : s.stop = none) (length : Reading Nat) :
    s.bounds length = throw .misfit := by
  rw [isFromEnd, hstop, Option.getD_none] at h
  unfold bounds
  rw [hstop]
  dsimp only
  rw [if_neg (by simpa using h)]
  rfl

theorem within_first (hend : s.isFromEnd = true) (h : 0 < s.step.getD 1) :
    s.within n = .ok (s.first n, s.last n, s.step.getD 1) := by
  unfold within
  dsimp only
  rw [if_neg h.ne', if_pos h, first, last, if_pos hend, if_pos hend]
  rfl

theorem direct_first (hend : s.isFromEnd = false) (hstop : s.stop = some stop)
    (horder : s.step = none → s.start.getD 0 ≤ stop) :
    direct (s.start.getD 0) stop s.step = (s.first n, s.last n, s.step.getD 1) := by
  have hstep : s.step.getD (if stop < s.start.getD 0 then -1 else 1) = s.step.getD 1 := by
    cases hstep : s.step with
    | none => rw [if_neg (Int.not_lt.2 (horder hstep))]
    | some k => rfl
  rw [direct, hstep, first, last, hend, if_neg Bool.false_ne_true, if_neg Bool.false_ne_true, hstop,
    Option.getD_some]

/-- A stop before the start turns the slice round, if its step is left out. -/
theorem direct_forward {start : Int} {step : Option Int} (h : 0 < (direct start stop step).2.2) :
    0 < step.getD 1 ∧ (step = none → start ≤ stop) := by
  cases step with
  | some k => exact ⟨h, by rintro ⟨⟩⟩
  | none =>
    refine ⟨Int.zero_lt_one, fun _ => Int.not_lt.1 fun hlt => ?_⟩
    rw [direct, Option.getD_none, if_pos hlt] at h
    exact absurd h (by simp)

/-- No slice that goes backward passes the last check. -/
theorem within_backward (h : ¬ 0 < s.step.getD 1) :
    s.within n = .error .badStep ∨ ∃ t, s.within n = .ok t ∧ checked t = throw .badStep := by
  by_cases hzero : s.step.getD 1 = 0
  · left
    unfold within
    dsimp only
    rw [if_pos hzero]
    rfl
  · right
    unfold within
    dsimp only
    rw [if_neg hzero, if_neg h]
    exact ⟨_, rfl, checked_eq_throw fun hpos => absurd hpos h⟩

variable {i m : Nat} {length : Reading Nat}

theorem measured_finds (hlength : Finds i m length (.ok n)) (ht : s.within n = .ok t) :
    Finds i m (do s.within (← length)) (.ok t) := by
  refine hlength.bind ?_
  rw [ht]
  exact finds_pure t

/-- A slice that is served has its bounds. -/
theorem bounds_served (h : s.Served n) (hlength : Finds i m length (.ok n)) :
    Finds i m (s.bounds length)
      (.ok ((s.first n).toNat, (s.last n).toNat, (s.step.getD 1).toNat)) := by
  have hchecked := checked_eq_pure (t := (s.first n, s.last n, s.step.getD 1))
    ⟨first_nonneg, last_nonneg, h.forward⟩ ⟨h.first, h.last, h.step⟩
  have hfinds : Finds i m (checked (s.first n, s.last n, s.step.getD 1)) _ := hchecked ▸ finds_pure _
  cases hend : s.isFromEnd with
  | true =>
    rw [bounds_fromEnd hend]
    exact (measured_finds hlength (within_first hend h.forward)).bind hfinds
  | false =>
    obtain ⟨stop, hstop, horder⟩ := h.closed hend
    rw [bounds_direct hend hstop, direct_first hend hstop horder]
    exact hfinds

/-- A slice that is not served fails, at a bound or at its step. -/
theorem bounds_unserved (h : ¬ s.Served n) (hlength : Finds i m length (.ok n)) :
    Finds i m (s.bounds length) (.error .misfit) ∨ Finds i m (s.bounds length) (.error .badStep) := by
  cases hend : s.isFromEnd with
  | true =>
    right
    rw [bounds_fromEnd hend]
    by_cases hforward : 0 < s.step.getD 1
    · refine (measured_finds hlength (within_first hend hforward)).bind ?_
      rw [checked_eq_throw fun _ hhigh => h ⟨hforward, hhigh.2.2, hhigh.1, hhigh.2.1, by simp [hend]⟩]
      exact finds_throw _
    · obtain hwithin | ⟨t, ht, hchecked⟩ := within_backward (n := n) hforward
      · refine Finds.bind_error (hlength.bind ?_)
        rw [hwithin]
        exact finds_throw _
      · refine (measured_finds hlength ht).bind ?_
        rw [hchecked]
        exact finds_throw _
  | false =>
    cases hstop : s.stop with
    | none =>
      left
      rw [bounds_open hend hstop]
      exact finds_throw _
    | some stop =>
      right
      rw [bounds_direct hend hstop, checked_eq_throw ?_]
      · exact finds_throw _
      · intro hpos hhigh
        obtain ⟨hforward, horder⟩ := direct_forward hpos
        rw [direct_first (n := n) hend hstop horder] at hhigh
        exact h ⟨hforward, hhigh.2.2, hhigh.1, hhigh.2.1, fun _ => ⟨stop, hstop, horder⟩⟩

/-- Nothing is picked behind what was reached. -/
theorem pick_take {xs : List α} (h : min (max a b) xs.length ≤ m) :
    pick a b k (xs.take m) = pick a b k xs := by
  have htake : (xs.take m).take b = xs.take b := by
    rw [List.take_take]
    by_cases hb : b ≤ m
    · rw [min_eq_left hb]
    · rw [List.take_of_length_le (by omega), List.take_of_length_le (by omega)]
  rw [pick, pick, htake]

end Slice

/-! ### Arrays -/

/-- The element of a list at a place; a negative one counts from the end. -/
def subscript? {α : Type} (xs : List α) (k : Int) : Option α :=
  (Slice.counted xs.length k).toNat?.bind fun j => xs[j]?

theorem fromEnd?_eq_subscript? {α : Type} (xs : List α) (k : Int) : fromEnd? xs k = subscript? xs k := by
  unfold fromEnd? subscript? Slice.counted
  by_cases hk : 0 ≤ k
  · obtain ⟨j, rfl⟩ := Int.eq_ofNat_of_zero_le hk
    rw [if_pos hk, if_neg (Int.not_lt.2 hk)]
    rfl
  · rw [if_neg hk, if_pos (Int.not_le.1 hk)]
    by_cases hplace : 0 ≤ k + xs.length
    · obtain ⟨j, hj⟩ := Int.eq_ofNat_of_zero_le hplace
      rw [if_pos hplace, hj]
      rfl
    · obtain ⟨j, hj⟩ := Int.eq_negSucc_of_lt_zero (Int.not_le.1 hplace)
      rw [if_neg hplace, hj]
      rfl

/-- Nothing is before the first element. -/
theorem subscript?_before {α : Type} {xs : List α} {k : Int} (h : k < -xs.length) : subscript? xs k = none := by
  rw [← fromEnd?_eq_subscript?, fromEnd?, if_neg (by omega), if_neg (by omega)]

/-- The fault says that there is nothing at a place. -/
inductive Fault.Missing : Fault → Prop
  | outOfBounds (place : Text) : Missing (.outOfBounds place)
  | notRead : Missing .notRead

/-- The outcome is that of a list that is asked for the item at a place. -/
structure AsList (items : List Value) (k : Int) (e : Except Fault Given) : Prop where
  found   : ∀ v, subscript? items k = some v → e = .ok (.value v)
  missing : subscript? items k = none → ∃ f, e = .error f ∧ f.Missing

theorem asList_found {items : List Value} {k : Int} {v : Value} (h : subscript? items k = some v) :
    AsList items k (.ok (.value v)) where
  found w hw := by rw [Option.some.inj (h.symm.trans hw)]
  missing hnone := by
    rw [h] at hnone
    cases hnone

theorem asList_missing {items : List Value} {k : Int} {f : Fault} (h : subscript? items k = none)
    (hf : f.Missing) : AsList items k (.error f) where
  found w hw := by
    rw [h] at hw
    cases hw
  missing _ := ⟨f, rfl, hf⟩

theorem AsList.congr {xs ys : List Value} {k : Int} {e : Except Fault Given} (h : AsList xs k e)
    (hsame : subscript? xs k = subscript? ys k) : AsList ys k e where
  found := hsame ▸ h.found
  missing := hsame ▸ h.missing

namespace Value

variable {s : Store} {i : Nat} {items : List Value}

/-- A place that counts from the start is found however far the array has been read. -/
theorem itemGiven_fromStart (hs : (s.get i).Sealed items.length) {k : Int} (hk : 0 ≤ k) :
    ∃ e s₁, ((Value.array i items).itemGiven (.int k)).outcome.run s = (e, s₁) ∧ AsList items k e := by
  obtain ⟨k, rfl⟩ := Int.eq_ofNat_of_zero_le hk
  obtain ⟨s₁, hrun, -⟩ := ((atPlace_finds (.array i items) (itemAt_finds i items k)).map Given.value) s hs
  have hplace : subscript? items k = items[k]? := (fromEnd?_eq_subscript? items k).symm.trans (if_pos hk)
  refine ⟨_, s₁, hrun, ?_⟩
  cases hitem : items[k]? with
  | some v => exact asList_found (hplace.trans hitem)
  | none => exact asList_missing (hplace.trans hitem) (.outOfBounds _)

/-- A place that counts from the end takes nothing, and is looked for in what has been taken. -/
theorem itemGiven_fromEnd (s : Store) (i : Nat) (items : List Value) {k : Int} (hk : k < 0) :
    ∃ e, ((Value.array i items).itemGiven (.int k)).outcome.run s = (e, s) ∧
      AsList (items.take (s.get i).taken) k e := by
  have hprogress : Answers s (progress i) (s.get i) := rfl
  cases hitem : fromEnd? (items.take (s.get i).taken) k with
  | some v =>
    have hread : Answers s (itemAt i items k) v := by
      unfold itemAt
      rw [if_neg (Int.not_le.2 hk)]
      refine hprogress.bind ?_
      rw [hitem]
      rfl
    have hplace : Answers s ((Value.array i items).atPlace (.int k) i items.length (itemAt i items)) v :=
      Answers.rescue hread _
    exact ⟨_, hplace.bind rfl, asList_found (fromEnd?_eq_subscript? _ k ▸ hitem)⟩
  | none =>
    have hread : Fails s (itemAt i items k) .notRead s := by
      unfold itemAt
      rw [if_neg (Int.not_le.2 hk)]
      refine Gives.bind_fails hprogress ?_
      rw [hitem]
      rfl
    have hplace : Fails s ((Value.array i items).atPlace (.int k) i items.length (itemAt i items))
        .notRead s := by
      refine (run_tryCatch (itemAt i items k) _ s).trans ?_
      rw [hread]
      rfl
    exact ⟨_, Fails.bind hplace, asList_missing (fromEnd?_eq_subscript? _ k ▸ hitem) .notRead⟩

theorem length_finds (i : Nat) (items : List Value) :
    Finds i items.length (Value.array i items).length (.ok items.length) :=
  (allItems_finds i items).map List.length

variable {sl : Slice}

/-- A slice that is served gives a new array of the elements, and at most reads on in the old one. -/
theorem slice_served (hs : (s.get i).Sealed items.length) (h : sl.Served items.length) :
    ∃ s₁, s.Onward i items.length s₁ ∧
      Gives s ((Value.array i items).slice sl) (some (.array s.next (sl.elements items)))
        { s₁ with next := s.next + 1 } := by
  obtain ⟨s₁, hbounds, hon⟩ := Slice.bounds_served h (length_finds i items) s hs
  obtain ⟨s₂, hreach, hon', htaken⟩ := reach_sealed hon.sealed
    (max (sl.first items.length).toNat (sl.last items.length).toNat)
  refine ⟨s₂, hon.trans hon', Gives.bind hbounds (Gives.bind hreach ?_)⟩
  have hpick := Slice.pick_take (k := (sl.step.getD 1).toNat) htaken
  rw [Slice.elements_eq_pick (Int.lt_toNat.2 h.forward) (Int.toNat_of_nonneg h.forward.le).symm fun x hx =>
    Slice.meets_eq h.forward hx, ← hpick, ← (hon.trans hon').next]
  rfl

theorem slice_unserved (hs : (s.get i).Sealed items.length) (h : ¬ sl.Served items.length) :
    ∃ f s₁, (f = .misfit ∨ f = .badStep) ∧ Fails s ((Value.array i items).slice sl) f s₁ := by
  obtain hbounds | hbounds := Slice.bounds_unserved h (length_finds i items)
  · obtain ⟨s₁, hrun, -⟩ := hbounds s hs
    exact ⟨_, s₁, .inl rfl, Fails.bind hrun⟩
  · obtain ⟨s₁, hrun, -⟩ := hbounds s hs
    exact ⟨_, s₁, .inr rfl, Fails.bind hrun⟩

/-- **What an array answers when it is asked for places and slices.**  A place is answered as the list of
items answers it if it counts from the start, if the array has been read to its end, or if it lies before the
first item.  Every place that counts from the end is answered as the list of the items that were taken answers
it.  A slice gives the elements of the list if it is served, and fails otherwise. -/
theorem array_as_list (hs : (s.get i).Sealed items.length) :
    (∀ k : Int, ∃ e s₁, ((Value.array i items).itemGiven (.int k)).outcome.run s = (e, s₁) ∧
      (0 ≤ k ∨ (s.get i).taken = items.length ∨ k < -items.length → AsList items k e) ∧
      (k < 0 → AsList (items.take (s.get i).taken) k e)) ∧
    ∀ sl : Slice,
      (sl.Served items.length → ∃ s₁, s.Onward i items.length s₁ ∧
        Gives s ((Value.array i items).slice sl) (some (.array s.next (sl.elements items)))
          { s₁ with next := s.next + 1 }) ∧
      (¬ sl.Served items.length →
        ∃ f s₁, (f = .misfit ∨ f = .badStep) ∧ Fails s ((Value.array i items).slice sl) f s₁) := by
  refine ⟨fun k => ?_, fun sl => ⟨slice_served hs, slice_unserved hs⟩⟩
  by_cases hk : 0 ≤ k
  · obtain ⟨e, s₁, hrun, he⟩ := itemGiven_fromStart hs hk
    exact ⟨e, s₁, hrun, fun _ => he, fun hneg => absurd hk (Int.not_le.2 hneg)⟩
  · obtain ⟨e, hrun, he⟩ := itemGiven_fromEnd s i items (Int.not_le.1 hk)
    refine ⟨e, s, hrun, ?_, fun _ => he⟩
    rintro (hnonneg | hall | hbefore)
    · exact absurd hnonneg hk
    · rwa [hall, List.take_length] at he
    · refine he.congr ?_
      have hlength := List.length_take_le' (s.get i).taken items
      rw [subscript?_before hbefore, subscript?_before (by omega)]

/-- The theorem at an array of which one item has been taken. -/
theorem array_as_list_partly_read :
    let items : List Value := [.null, .bool true, .bool false]
    let s : Store := { next := 1, progress := [(0, { taken := 1 })] }
    let lastTwo : Slice := { start := some (-2) }
    (s.get 0).Sealed items.length ∧ lastTwo.Served items.length ∧
      lastTwo.elements items = [.bool true, .bool false] ∧
      (∃ e s₁, ((Value.array 0 items).itemGiven (.int 2)).outcome.run s = (e, s₁) ∧ AsList items 2 e) ∧
      ∃ s₁, Gives s ((Value.array 0 items).slice lastTwo) (some (.array 1 [.bool true, .bool false])) s₁ := by
  have helements : Slice.elements { start := some (-2) } [Value.null, .bool true, .bool false] =
      [.bool true, .bool false] := rfl
  intro items s lastTwo
  have hs : (s.get 0).Sealed items.length := ⟨by decide, by rintro ⟨⟩, fun _ => rfl⟩
  have hserved : lastTwo.Served items.length := ⟨by decide, by decide, by decide, by decide, by rintro ⟨⟩⟩
  obtain ⟨e, s₁, hrun, he, -⟩ := (array_as_list hs).1 2
  obtain ⟨s₂, -, hgives⟩ := ((array_as_list hs).2 lastTwo).1 hserved
  rw [show lastTwo.elements items = _ from helements] at hgives
  exact ⟨hs, hserved, helements, ⟨e, s₁, hrun, he (.inl (by decide))⟩, _, hgives⟩

/-- Of an array of three items the first has been taken.  Then the last item is the first one, and there is no
slice of all but the first. -/
theorem array_not_as_list :
    let items : List Value := [.null, .bool true, .bool false]
    let s : Store := { next := 1, progress := [(0, { taken := 1 })] }
    let rest : Slice := { start := some 1 }
    (s.get 0).Sealed items.length ∧
      Answers s ((Value.array 0 items).itemGiven (.int (-1))) (.value .null) ∧
      subscript? items (-1) = some (.bool false) ∧
      Fails s ((Value.array 0 items).slice rest) .misfit s ∧ rest.elements items = [.bool true, .bool false] :=
  ⟨⟨by decide, by rintro ⟨⟩, fun _ => rfl⟩, rfl, rfl, rfl, rfl⟩

end Value

end FilterShell
