import FilterShell.Value.Search
import FilterShell.Proofs.Value.Table

/-!
# Reading containers that are terminated

The end of a terminated container waits behind all its pieces, or has been taken there
(`Progress.Sealed`).  Then a read has the same outcome in every store, however far the container has been read
(`Reading.Finds`); only to take the pieces one by one is to see how far.

A character of a string is found wherever the text was cut into pieces: as many pieces are taken as hold it
(`Reading.piecesFor_le`, `Reading.piecesFor_none`).
-/

namespace FilterShell

variable {α β : Type} {i n : Nat}

/-- As far as a terminated container of `n` pieces can be read. -/
structure Progress.Sealed (n : Nat) (p : Progress) : Prop where
  taken : p.taken ≤ n
  ended : p.ended = true → p.taken = n
  stop  : p.ended = false → p.end? n = some n

namespace Progress

variable {p : Progress}

theorem sealed_atEnd : (p.atEnd n).Sealed n := ⟨le_rfl, fun _ => rfl, by rintro ⟨⟩⟩

theorem Sealed.reached (h : p.Sealed n) {k : Nat} (hk : k ≤ n) (hended : p.ended = false) :
    ({ p with taken := k } : Progress).Sealed n where
  taken := hk
  ended h := by
    rw [hended] at h
    cases h
  stop _ := h.stop hended

end Progress

/-- At most one container has been read on, which is terminated and has `n` pieces.  One that was complete
when it was made has no other end. -/
structure Store.Onward (s : Store) (i n : Nat) (s₁ : Store) : Prop where
  next   : s₁.next = s.next
  same   : s.SameBut i s₁
  sealed : (s₁.get i).Sealed n
  ends   : (s.get i).ends = none → (s₁.get i).ends = none
  system : s₁.system = s.system

namespace Store

variable {s s₁ s₂ : Store}

theorem onward_self (h : (s.get i).Sealed n) : s.Onward i n s := ⟨rfl, fun _ _ => rfl, h, id, rfl⟩

theorem onward_put {p : Progress} (h : p.Sealed n) (hends : (s.get i).ends = none → p.ends = none) :
    s.Onward i n (s.put i p) where
  next := rfl
  same := SameBut.put (fun _ _ => rfl) p
  sealed := by rwa [get_put_self]
  ends := by rwa [get_put_self]
  system := rfl

theorem Onward.trans (h : s.Onward i n s₁) (h' : s₁.Onward i n s₂) : s.Onward i n s₂ where
  next := h'.next.trans h.next
  same j hj := (h'.same j hj).trans (h.same j hj)
  sealed := h'.sealed
  ends hends := h'.ends (h.ends hends)
  system := h'.system.trans h.system

theorem onward_atEnd : s.Onward i n (s.put i ((s.get i).atEnd n)) :=
  onward_put Progress.sealed_atEnd fun h => by rw [Progress.atEnd, h]; rfl

end Store

namespace Reading

/-- However far a terminated container of `n` pieces has been read, the outcome is this one, and nothing
else is read. -/
def Finds (i n : Nat) (r : Reading α) (e : Except Fault α) : Prop :=
  ∀ s : Store, (s.get i).Sealed n → ∃ s₁, r.outcome.run s = (e, s₁) ∧ s.Onward i n s₁

theorem finds_pure (a : α) : Finds i n (pure a) (.ok a) := fun s hs => ⟨s, rfl, Store.onward_self hs⟩

theorem finds_throw (f : Fault) : Finds i n (throw f : Reading α) (.error f) :=
  fun s hs => ⟨s, rfl, Store.onward_self hs⟩

theorem Finds.bind {r : Reading α} {k : α → Reading β} {a : α} {e : Except Fault β}
    (hr : Finds i n r (.ok a)) (hk : Finds i n (k a) e) : Finds i n (r >>= k) e := by
  intro s hs
  obtain ⟨s₁, hrun, hon⟩ := hr s hs
  obtain ⟨s₂, hrun', hon'⟩ := hk s₁ hon.sealed
  refine ⟨s₂, ?_, hon.trans hon'⟩
  rw [run_bind, hrun]
  exact hrun'

theorem Finds.bind_error {r : Reading α} {k : α → Reading β} {f : Fault} (hr : Finds i n r (.error f)) :
    Finds i n (r >>= k) (.error f) := by
  intro s hs
  obtain ⟨s₁, hrun, hon⟩ := hr s hs
  exact ⟨s₁, Fails.bind hrun, hon⟩

theorem Finds.map {r : Reading α} {e : Except Fault α} (f : α → β) (hr : Finds i n r e) :
    Finds i n (do return f (← r)) (e.map f) := by
  cases e with
  | ok a => exact hr.bind (finds_pure _)
  | error _ => exact hr.bind_error

/-- What is found goes through a handler as it is, and what is missed goes to it. -/
theorem Finds.rescue {r : Reading α} {handler : Fault → Reading α} {e e' : Except Fault α}
    (hr : Finds i n r e) (hok : ∀ a, e = .ok a → e' = .ok a)
    (herror : ∀ f, e = .error f → Finds i n (handler f) e') : Finds i n (tryCatch r handler) e' := by
  intro s hs
  obtain ⟨s₁, hrun, hon⟩ := hr s hs
  rw [run_tryCatch, hrun]
  cases e with
  | ok a => exact ⟨s₁, by rw [hok a rfl], hon⟩
  | error f =>
    obtain ⟨s₂, hrun', hon'⟩ := herror f rfl s₁ hon.sealed
    exact ⟨s₂, hrun', hon.trans hon'⟩

/-! ### Taking -/

theorem drain_finds (i n : Nat) : Finds i n (drain i n) (.ok n) := by
  intro s hs
  have hprogress : Answers s (progress i) (s.get i) := rfl
  cases hended : (s.get i).ended with
  | true =>
    refine ⟨s, hprogress.bind ?_, Store.onward_self hs⟩
    rw [hended, hs.ended hended]
    rfl
  | false =>
    refine ⟨_, Gives.bind hprogress ?_, Store.onward_atEnd⟩
    rw [hended, hs.stop hended]
    rfl

/-- As many pieces are taken as are asked for, or all of them. -/
theorem reach_sealed {s : Store} (hs : (s.get i).Sealed n) (k : Nat) :
    ∃ s₁, Gives s (reach i n k) (decide (k ≤ n)) s₁ ∧ s.Onward i n s₁ ∧ min k n ≤ (s₁.get i).taken := by
  have hprogress : Answers s (progress i) (s.get i) := rfl
  by_cases htaken : k ≤ (s.get i).taken
  · refine ⟨s, hprogress.bind ?_, Store.onward_self hs, (Nat.min_le_left k n).trans htaken⟩
    rw [if_pos htaken, decide_eq_true (htaken.trans hs.taken)]
    rfl
  · cases hended : (s.get i).ended with
    | true =>
      have hn : ¬ k ≤ n := by rwa [← hs.ended hended]
      refine ⟨s, hprogress.bind ?_, Store.onward_self hs, ?_⟩
      · rw [if_neg htaken, hended, decide_eq_false hn]
        rfl
      · rw [hs.ended hended]
        exact Nat.min_le_right k n
    | false =>
      by_cases hk : k ≤ n
      · refine ⟨_, Gives.bind hprogress ?_, Store.onward_put (hs.reached hk hended) id, ?_⟩
        · rw [if_neg htaken, hended, hs.stop hended, decide_eq_true hk]
          dsimp only
          rw [if_pos hk]
          rfl
        · rw [Store.get_put_self]
          exact Nat.min_le_left k n
      · refine ⟨_, Gives.bind hprogress ?_, Store.onward_atEnd, ?_⟩
        · rw [if_neg htaken, hended, hs.stop hended, decide_eq_false hk]
          dsimp only
          rw [if_neg hk]
          rfl
        · rw [Store.get_put_self]
          exact Nat.min_le_right k n

theorem reach_finds (i n k : Nat) : Finds i n (reach i n k) (.ok (decide (k ≤ n))) := by
  intro s hs
  obtain ⟨s₁, hgives, hon, -⟩ := reach_sealed hs k
  exact ⟨s₁, hgives, hon⟩

/-- The next piece is taken if there is one, and nothing behind the last. -/
theorem take?_sealed {s : Store} (hs : (s.get i).Sealed n) :
    ∃ s₁, Gives s (take? i n) (if (s.get i).taken < n then some (s.get i).taken else none) s₁ ∧
      s.Onward i n s₁ := by
  cases hended : (s.get i).ended with
  | true =>
    rw [if_neg (hs.ended hended).not_lt]
    exact ⟨s, answers_take? hended n, Store.onward_self hs⟩
  | false =>
    have hstop := hs.stop hended
    by_cases hlt : (s.get i).taken < n
    · rw [if_pos hlt]
      exact ⟨_, take?_next hended hstop hlt le_rfl, Store.onward_put (hs.reached hlt hended) id⟩
    · have htaken : (s.get i).taken = n := le_antisymm hs.taken (Nat.not_lt.1 hlt)
      have hgives := take?_end hended (hstop.trans (congrArg some htaken.symm))
      rw [if_neg hlt]
      rw [htaken] at hgives
      exact ⟨_, hgives, Store.onward_atEnd⟩

/-! ### Strings and arrays -/

theorem wholeText_finds (i : Nat) (pieces : List Text) :
    Finds i pieces.length (wholeText i pieces) (.ok pieces.flatten) := by
  refine (drain_finds i pieces.length).bind ?_
  rw [List.take_length]
  exact finds_pure _

theorem allItems_finds (i : Nat) (items : List Value) :
    Finds i items.length (allItems i items) (.ok items) := by
  refine (drain_finds i items.length).bind ?_
  rw [List.take_length]
  exact finds_pure _

theorem item?_finds (i : Nat) (items : List Value) (k : Nat) :
    Finds i items.length (item? i items k) (.ok items[k]?) := by
  refine (reach_finds i items.length (k + 1)).bind ?_
  by_cases hk : k + 1 ≤ items.length
  · rw [decide_eq_true hk]
    exact finds_pure _
  · rw [decide_eq_false hk, List.getElem?_eq_none (Nat.le_of_not_lt hk)]
    exact finds_pure _

section Characters

variable {pieces : List Text} {k m : Nat}

/-- The first pieces hold the first characters. -/
theorem getElem?_flatten_take (h : k < (pieces.take m).flatten.length) :
    (pieces.take m).flatten[k]? = pieces.flatten[k]? := by
  conv_rhs => rw [← List.take_append_drop m pieces, List.flatten_append]
  exact (List.getElem?_append_left h).symm

/-- The pieces that hold a character are there. -/
theorem piecesFor_le (h : k < pieces.flatten.length) :
    piecesFor k pieces ≤ pieces.length ∧ k < (pieces.take (piecesFor k pieces)).flatten.length := by
  induction pieces generalizing k with
  | nil => cases h
  | cons p r ih =>
    rw [List.flatten_cons, List.length_append] at h
    rw [piecesFor]
    by_cases hk : k < p.length
    · rw [if_pos hk]
      refine ⟨Nat.succ_le_succ (Nat.zero_le _), ?_⟩
      simpa using hk
    · rw [if_neg hk]
      obtain ⟨hle, hlt⟩ := ih (k := k - p.length) (by omega)
      refine ⟨Nat.succ_le_succ hle, ?_⟩
      rw [List.take_succ_cons, List.flatten_cons, List.length_append]
      omega

theorem piecesFor_none (h : pieces.flatten.length ≤ k) : piecesFor k pieces = pieces.length + 1 := by
  induction pieces generalizing k with
  | nil => rfl
  | cons p r ih =>
    rw [List.flatten_cons, List.length_append] at h
    rw [piecesFor, if_neg (by omega), ih (by omega)]
    rfl

/-- A character is found wherever the text was cut. -/
theorem rune?_finds (i : Nat) (pieces : List Text) (k : Nat) :
    Finds i pieces.length (rune? i pieces k) (.ok pieces.flatten[k]?) := by
  intro s hs
  have htaken : Answers s (takenText i pieces) (pieces.take (s.get i).taken).flatten := rfl
  cases hknown : (pieces.take (s.get i).taken).flatten[k]? with
  | some r =>
    -- The character has been taken before.
    have hlt := (List.getElem?_eq_some_iff.1 hknown).1
    refine ⟨s, htaken.bind ?_, Store.onward_self hs⟩
    rw [hknown, ← getElem?_flatten_take hlt, hknown]
    rfl
  | none =>
    have hreached : Finds i pieces.length (do
        if ← reach i pieces.length (piecesFor k pieces) then
          return (pieces.take (piecesFor k pieces)).flatten[k]?
        return none) (.ok pieces.flatten[k]?) := by
      refine (reach_finds i pieces.length (piecesFor k pieces)).bind ?_
      by_cases hk : k < pieces.flatten.length
      · obtain ⟨hle, hlt⟩ := piecesFor_le hk
        rw [decide_eq_true hle, getElem?_flatten_take hlt]
        exact finds_pure _
      · rw [Nat.not_lt] at hk
        rw [piecesFor_none hk, decide_eq_false (Nat.not_succ_le_self _), List.getElem?_eq_none hk]
        exact finds_pure _
    obtain ⟨s₁, hrun, hon⟩ := hreached s hs
    refine ⟨s₁, Gives.bind htaken ?_, hon⟩
    rw [hknown]
    exact hrun

end Characters

/-! ### Places -/

/-- What is found at a place; behind the last one there is nothing. -/
def found (k : Nat) : Option α → Except Fault α
  | some a => .ok a
  | none   => .error (.outOfBounds (Text.ofInt k))

theorem found_map (f : α → β) (k : Nat) (x : Option α) : found k (x.map f) = (found k x).map f := by
  cases x <;> rfl

theorem itemAt_finds (i : Nat) (items : List Value) (k : Nat) :
    Finds i items.length (itemAt i items k) (found k items[k]?) := by
  unfold itemAt
  rw [if_pos (Int.natCast_nonneg k), Int.toNat_natCast]
  refine (item?_finds i items k).bind ?_
  cases items[k]? with
  | some v => exact finds_pure v
  | none => exact finds_throw _

theorem runeAt_finds (i : Nat) (pieces : List Text) (k : Nat) :
    Finds i pieces.length (runeAt i pieces k) (found k pieces.flatten[k]?) := by
  unfold runeAt
  rw [if_pos (Int.natCast_nonneg k), Int.toNat_natCast]
  refine (rune?_finds i pieces k).bind ?_
  cases pieces.flatten[k]? with
  | some r => exact finds_pure r
  | none => exact finds_throw _

end Reading

namespace Value

open Reading

/-- A place that is not there is reported as it was given. -/
theorem atPlace_finds {id size k : Nat} (v : Value) {read : Int → Reading α} {x : Option α}
    (hread : Finds i n (read k) (found k x)) :
    Finds i n (v.atPlace (.int k) id size read) (found k x) := by
  refine hread.rescue (fun _ h => h) fun f hf => ?_
  cases x with
  | some a => cases hf
  | none =>
    obtain rfl : .outOfBounds (Text.ofInt k) = f := Except.error.inj hf
    exact (finds_pure (Text.ofInt k)).bind (finds_throw _)

end Value

end FilterShell
