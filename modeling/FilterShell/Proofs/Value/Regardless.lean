import FilterShell.Proofs.Value.Parallel
import FilterShell.Proofs.Value.Sealed

/-!
# Reading regardless of what has been read

Two stores may differ in how far some terminated strings and arrays have been read (`Store.AgreeBut`).  A
computation cannot tell: that it runs side by side with itself is a discipline (`regardless`), which covers all
values whose containers are the ones that the stores know (`covers_sized`).  And a string cannot be told from
another of the same text by writing or by comparing it (`Value.text_parallel`, `Value.compare_parallel`).
-/

namespace FilterShell

variable {g : Given}

variable {α : Type} {size : Nat → Option Nat}

/-! ### Stores -/

/-- The stores agree but for how far some terminated containers have been read.  `size` says which these
are, and of how many pieces. -/
structure Store.AgreeBut (size : Nat → Option Nat) (s s' : Store) : Prop where
  next   : s'.next = s.next
  bound  : ∀ i, s.next ≤ i → size i = none
  same   : ∀ i, size i = none → s'.get i = s.get i
  sealed : ∀ i n, size i = some n → (s.get i).Sealed n ∧ (s'.get i).Sealed n

namespace Store.AgreeBut

variable {s s' s₁ s₁' : Store} {i n : Nat}

theorem symm (h : s.AgreeBut size s') : s'.AgreeBut size s where
  next := h.next.symm
  bound i hi := h.bound i (h.next.symm.trans_le hi)
  same i hi := (h.same i hi).symm
  sealed i n hi := (h.sealed i n hi).symm

/-- One of the stores may be read on. -/
theorem onward (h : s.AgreeBut size s') (hi : size i = some n) (hs : s.Onward i n s₁) :
    s₁.AgreeBut size s' where
  next := h.next.trans hs.next.symm
  bound j hj := h.bound j (hs.next.symm.trans_le hj)
  same j hj := by
    have hne : j ≠ i := by
      rintro rfl
      rw [hi] at hj
      cases hj
    rw [hs.same j hne, h.same j hj]
  sealed j m hj := by
    by_cases hji : j = i
    · subst hji
      have hm : n = m := Option.some.inj (hi.symm.trans hj)
      exact ⟨hm ▸ hs.sealed, (h.sealed j m hj).2⟩
    · rw [hs.same j hji]
      exact h.sealed j m hj

theorem put (h : s.AgreeBut size s') (hi : size i = none) (p : Progress) :
    (s.put i p).AgreeBut size (s'.put i p) where
  next := h.next
  bound := h.bound
  same j hj := by rw [Store.get_put, Store.get_put, h.same j hj]
  sealed j m hj := by
    have hne : j ≠ i := by
      rintro rfl
      rw [hi] at hj
      cases hj
    rw [Store.get_put, Store.get_put, if_neg hne, if_neg hne]
    exact h.sealed j m hj

theorem give (h : s.AgreeBut size s') :
    ({ s with next := s.next + 1 } : Store).AgreeBut size { s' with next := s'.next + 1 } where
  next := congrArg (· + 1) h.next
  bound i hi := h.bound i (Nat.le_of_succ_le hi)
  same := h.same
  sealed := h.sealed

end Store.AgreeBut

open Store (AgreeBut)

/-! ### Reads -/

open Reading

variable {i : Nat}

/-- Reads of terminated containers run side by side if they find the same. -/
theorem Parallel.of_finds {j n m : Nat} (hi : size i = some n) (hj : size j = some m) {r r' : Reading α}
    {e : Except Fault α} (hr : Finds i n r e) (hr' : Finds j m r' e) :
    Parallel (AgreeBut size) r r' fun a => e = .ok a := by
  intro s s' hs
  obtain ⟨s₁, hrun, hon⟩ := hr s (hs.sealed i n hi).1
  obtain ⟨s₁', hrun', hon'⟩ := hr' s' (hs.sealed j m hj).2
  rw [hrun, hrun']
  exact ⟨rfl, ((hs.onward hi hon).symm.onward hj hon').symm, fun _ h => h⟩

/-- To run side by side with oneself whatever has been read of some terminated containers. -/
abbrev regardless (size : Nat → Option Nat) : Discipline := side (AgreeBut size)

/-! ### Values -/

/-- Where the containers of a value are among those that may have been read on, they have as many pieces
as these. -/
inductive Value.Sized (size : Nat → Option Nat) : Value → Prop
  | exception (e : Exception) : Sized size (.exception e)
  | null : Sized size .null
  | bool (b : Bool) : Sized size (.bool b)
  | number (id : Nat) (d : Decimal) : Sized size (.number id d)
  | string {id : Nat} {pieces : List Text} (hid : ∀ n, size id = some n → n = pieces.length) :
      Sized size (.string id pieces)
  | array {id : Nat} {items : List Value} (hid : ∀ n, size id = some n → n = items.length)
      (hitems : ∀ v ∈ items, Sized size v) : Sized size (.array id items)
  | object {id : Nat} {pairs : List (Value × Value)} (hid : size id = none)
      (hkeys : ∀ p ∈ pairs, Sized size p.1) (hvalues : ∀ p ∈ pairs, Sized size p.2) :
      Sized size (.object id pairs)

section Regardless

theorem progress_regardless (hi : size i = none) : (regardless size).holds (progress i) fun _ => True :=
  fun _ _ hs => ⟨congrArg Except.ok (hs.same i hi), hs, fun _ _ => trivial⟩

theorem note_regardless (hi : size i = none) (p : Progress) :
    (regardless size).holds (note i p) fun _ => True :=
  fun _ _ hs => ⟨rfl, hs.put hi p, fun _ _ => trivial⟩

theorem finds_regardless {n : Nat} (hi : size i = some n) {r : Reading α} {a : α}
    (hr : Finds i n r (.ok a)) : (regardless size).holds r (· = a) := by
  refine (Parallel.of_finds hi hi hr hr).imp ?_
  rintro _ ⟨⟩
  rfl

/-- Everything is taken, of a container of either sort. -/
theorem drain_regardless {n : Nat} (hi : ∀ m, size i = some m → m = n) :
    (regardless size).holds (drain i n) fun _ => True := by
  cases hsize : size i with
  | none => exact (regardless size).drain_of_note (progress_regardless hsize) (note_regardless hsize) n
  | some m =>
    obtain rfl := hi m hsize
    exact (finds_regardless hsize (drain_finds i m)).imp fun _ _ => trivial

theorem reach_regardless {n : Nat} (hi : ∀ m, size i = some m → m = n) (k : Nat) :
    (regardless size).holds (reach i n k) fun _ => True := by
  cases hsize : size i with
  | none => exact (regardless size).reach_of_note (progress_regardless hsize) (note_regardless hsize) n k
  | some m =>
    obtain rfl := hi m hsize
    exact (finds_regardless hsize (reach_finds i m k)).imp fun _ _ => trivial

end Regardless

/-- **No reading of values shows how far terminated containers have been read.** -/
theorem covers_sized (size : Nat → Option Nat) : (regardless size).Covers (Value.Sized size) where
  wholeText h := by
    cases h with
    | string hid => exact Parallel.bind (drain_regardless hid) fun _ _ => .pure trivial
  allItems h := by
    cases h with
    | array hid hitems =>
      refine Parallel.bind (drain_regardless hid) fun n _ => .pure fun v hv => ?_
      exact hitems v (List.mem_of_mem_take hv)
  item? h k := by
    cases h with
    | array hid hitems =>
      refine Parallel.bind (reach_regardless hid (k + 1)) fun here _ => ?_
      split
      · exact .pure fun v hv => hitems v (List.mem_of_getElem? hv)
      · exact .pure (by rintro _ ⟨⟩)
  endItems h := by
    cases h with
    | array hid hitems => exact drain_regardless hid
  table h := by
    cases h with
    | object hid hkeys hvalues =>
      refine (regardless size).imp (progress_regardless hid) fun p _ => ?_
      exact Relations.tableIn_of_pairs (fun p hp => ⟨hkeys p hp, hvalues p hp⟩) p.entries
  takePair? h R hR := by
    cases h with
    | object hid hkeys hvalues =>
      exact hR.takePair?_of_note hkeys (progress_regardless hid) (note_regardless hid)

/-! ### Given data -/

/-- All values in the data are in a class. -/
inductive Given.All (K : Value → Prop) : Given → Prop
  | null : All K .null
  | bool (b : Bool) : All K (.bool b)
  | int (n : Int) : All K (.int n)
  | binary (x : Binary) : All K (.binary x)
  | text (t : Text) : All K (.text t)
  | list {gs : List Given} (h : ∀ g ∈ gs, All K g) : All K (.list gs)
  | tuple {gs : List Given} (h : ∀ g ∈ gs, All K g) : All K (.tuple gs)
  | dict {es : List (Given × Given)} (hkeys : ∀ e ∈ es, All K e.1) (hvalues : ∀ e ∈ es, All K e.2) :
      All K (.dict es)
  | error (m : Text) : All K (.error m)
  | thing : All K .thing
  | channel (i : Nat) : All K (.channel i)
  | value {v : Value} (h : K v) : All K (.value v)

theorem Given.All.imp {K K' : Value → Prop} (h : ∀ v, K v → K' v) (hg : g.All K) : g.All K' := by
  induction hg with
  | null => exact .null
  | bool b => exact .bool b
  | int n => exact .int n
  | binary x => exact .binary x
  | text t => exact .text t
  | list _ ih => exact .list ih
  | tuple _ ih => exact .tuple ih
  | dict _ _ ihk ihv => exact .dict ihk ihv
  | error m => exact .error m
  | thing => exact .thing
  | channel i => exact .channel i
  | value hv => exact .value (h _ hv)

section Making

/-- A new identity is none of those that have been given. -/
theorem fresh_regardless : (regardless size).holds fresh fun i => size i = none := by
  refine fun s s' hs => ⟨congrArg Except.ok hs.next, hs.give, ?_⟩
  rintro _ ⟨⟩
  exact hs.bound _ le_rfl

theorem sized_new {i n : Nat} (hi : size i = none) : ∀ m, size i = some m → m = n := by
  intro m hm
  rw [hi] at hm
  cases hm

theorem ofText_regardless (t : Text) : (regardless size).holds (Value.ofText t) (Value.Sized size) := by
  have hmade : (regardless size).holds (do return .string (← fresh) [t]) (Value.Sized size) :=
    Parallel.bind fresh_regardless fun _ hi => .pure (.string (sized_new hi))
  unfold Value.ofText
  split
  · exact Parallel.bind (P := fun _ => True) (.throw _) fun _ _ => hmade
  · exact hmade

theorem ofItems_regardless {items : List Value} (h : ∀ v ∈ items, v.Sized size) :
    (regardless size).holds (Value.ofItems items) (Value.Sized size) :=
  Parallel.bind fresh_regardless fun _ hi => .pure (.array (sized_new hi) h)

theorem ofPairs_regardless {pairs : List (Value × Value)}
    (h : ∀ p ∈ pairs, Value.BothIn (Value.Sized size) p) :
    (regardless size).holds (Value.ofPairs pairs) (Value.Sized size) :=
  Parallel.bind fresh_regardless fun _ hi =>
    .pure (.object hi (fun p hp => (h p hp).1) fun p hp => (h p hp).2)

theorem ofDecimal_regardless (d : Decimal) :
    (regardless size).holds (Value.ofDecimal d) (Value.Sized size) := by
  unfold Value.ofDecimal
  split
  · exact Parallel.bind fresh_regardless fun id _ => .pure (.number id d)
  · exact .pure (.number 0 d)

theorem toValues_regardless {gs : List Given}
    (h : ∀ g ∈ gs, (regardless size).holds g.toValue (Value.Sized size)) :
    (regardless size).holds (Given.toValues gs) fun vs => ∀ v ∈ vs, v.Sized size := by
  induction gs with
  | nil => exact .pure (List.forall_mem_nil _)
  | cons g gs ih =>
    obtain ⟨hg, hgs⟩ := List.forall_mem_cons.1 h
    refine Parallel.bind hg fun v hv => Parallel.bind (ih hgs) fun vs hvs => ?_
    exact .pure (List.forall_mem_cons.2 ⟨hv, hvs⟩)

theorem toPairs_regardless {es : List (Given × Given)}
    (hkeys : ∀ e ∈ es, (regardless size).holds e.1.toValue (Value.Sized size))
    (hvalues : ∀ e ∈ es, (regardless size).holds e.2.toValue (Value.Sized size)) :
    (regardless size).holds (Given.toPairs es) fun ps => ∀ p ∈ ps, Value.BothIn (Value.Sized size) p := by
  induction es with
  | nil => exact .pure (List.forall_mem_nil _)
  | cons e es ih =>
    obtain ⟨hk, hkeys⟩ := List.forall_mem_cons.1 hkeys
    obtain ⟨hv, hvalues⟩ := List.forall_mem_cons.1 hvalues
    refine Parallel.bind hk fun k hk => Parallel.bind hv fun v hv => ?_
    refine Parallel.bind (ih hkeys hvalues) fun ps hps => ?_
    exact .pure (List.forall_mem_cons.2 ⟨⟨hk, hv⟩, hps⟩)

/-- Data is made a value of new containers, whatever has been read. -/
theorem toValue_regardless (h : g.All (Value.Sized size)) :
    (regardless size).holds g.toValue (Value.Sized size) := by
  induction h with
  | null => exact .pure .null
  | bool b => exact .pure (.bool b)
  | int n => exact ofDecimal_regardless _
  | binary x => exact ofDecimal_regardless _
  | text t => exact ofText_regardless t
  | list _ ih => exact Parallel.bind (toValues_regardless ih) fun _ hvs => ofItems_regardless hvs
  | tuple _ ih => exact Parallel.bind (toValues_regardless ih) fun _ hvs => ofItems_regardless hvs
  | dict _ _ ihk ihv => exact Parallel.bind (toPairs_regardless ihk ihv) fun _ hps => ofPairs_regardless hps
  | error m => exact .pure (.exception _)
  | thing => exact .throw _
  | channel i => exact ofItems_regardless (List.forall_mem_nil _)
  | value hv => exact .pure hv

end Making

/-! ### Strings of the same text -/

namespace Value

variable {i j : Nat} {ps qs : List Text} (hi : size i = some ps.length) (hj : size j = some qs.length)
  (htext : qs.flatten = ps.flatten)

include hi hj htext

theorem wholeText_parallel : Parallel (AgreeBut size) (wholeText i ps) (wholeText j qs) fun _ => True := by
  have hfinds := wholeText_finds j qs
  rw [htext] at hfinds
  exact (Parallel.of_finds hi hj (wholeText_finds i ps) hfinds).imp fun _ _ => trivial

theorem text_parallel : Parallel (AgreeBut size) (text (.string i ps)) (text (.string j qs)) fun _ => True :=
  (wholeText_parallel hi hj htext).bind fun _ _ => .pure trivial

/-- Strings of one text equal the same values. -/
theorem equal_parallel {b : Value} (hb : b.Sized size) :
    Parallel (AgreeBut size) (equal (.string i ps) b) (equal (.string j qs) b) fun _ => True := by
  have hnext : ∀ R : Relations, Parallel (AgreeBut size) (R.nextEqual (.string i ps) b) (R.nextEqual (.string j qs) b)
      fun _ => True := by
    intro R
    cases b with
    | string id pieces =>
      refine (wholeText_parallel hi hj htext).bind fun t _ => ?_
      exact Parallel.bind ((covers_sized size).wholeText hb) fun _ _ => .pure trivial
    | _ => exact .pure trivial
  unfold equal relationsWith
  change Parallel (AgreeBut size) ((Relations.upTo (max 0 b.depth)).equal _ b)
    ((Relations.upTo (max 0 b.depth)).equal _ b) _
  cases max 0 b.depth with
  | zero => exact hnext _
  | succ n => exact hnext _

theorem less_parallel {b : Value} (hb : b.Sized size) :
    Parallel (AgreeBut size) (less (.string i ps) b) (less (.string j qs) b) fun _ => True := by
  have hnext : ∀ R : Relations, Parallel (AgreeBut size) (R.nextLess (.string i ps) b) (R.nextLess (.string j qs) b)
      fun _ => True := by
    intro R
    cases b with
    | string id pieces =>
      refine Parallel.bind ((covers_sized size).wholeText hb) fun t _ => ?_
      split
      · exact .pure trivial
      · exact (wholeText_parallel hi hj htext).bind fun _ _ => .pure trivial
    | _ => exact .pure trivial
  unfold less relationsWith
  change Parallel (AgreeBut size) ((Relations.upTo (max 0 b.depth)).less _ b)
    ((Relations.upTo (max 0 b.depth)).less _ b) _
  cases max 0 b.depth with
  | zero => exact hnext _
  | succ n => exact hnext _

/-- **Strings of the same text compare alike**, however the text was cut and whatever has been read. -/
theorem compare_parallel (c : Comparison) (hg : g.All (Sized size)) :
    Parallel (AgreeBut size) (compareGiven c (.string i ps) g) (compareGiven c (.string j qs) g) fun _ => True := by
  have hequal : Parallel (AgreeBut size) (equalGiven (.string i ps) g) (equalGiven (.string j qs) g) fun _ => True :=
    Parallel.bind (toValue_regardless hg) fun b hb => equal_parallel hi hj htext hb
  have hless : Parallel (AgreeBut size) (lessGiven (.string i ps) g) (lessGiven (.string j qs) g) fun _ => True :=
    Parallel.bind (toValue_regardless hg) fun b hb => less_parallel hi hj htext hb
  have hnot : Parallel (AgreeBut size) (notEqualGiven (.string i ps) g) (notEqualGiven (.string j qs) g)
      fun _ => True := hequal.bind fun _ _ => .pure trivial
  exact Parallel.compareGiven hequal hnot hless c

end Value

end FilterShell
