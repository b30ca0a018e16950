import FilterShell.Proofs.Decimal.Sign
import FilterShell.Proofs.Value.Results
import FilterShell.Proofs.Value.Sealed
import Mathlib.Order.Defs.PartialOrder

/-!
# Stores that cannot be told apart

How far a string or an array has been read makes no difference to what is read of it next; for an object it
does.

A `World` says which identities are those of strings and arrays, which are those of objects, and which are dead.
Two stores are alike in a world if they say the same of all objects, and nothing wrong of strings and arrays,
and if no command can tell their systems apart (`Store.Alike`).  A computation is blind if it gives the same in
two stores that are alike, and leaves them alike in a world that has grown (`Blind`, and `BlindTry` for one
that may fail).  It is still if it makes no containers (`Still`, `StillTry`).
-/

namespace FilterShell

variable {r : Role} {i n : Nat} {items : List Value} {p : Progress}

/-! ### Worlds -/

/-- What is known of an identity. -/
inductive Role where
  /-- No container has it. -/
  | free
  /-- It is that of a string or an array, of so many pieces. -/
  | sized (n : Nat)
  /-- It is that of a string of so many pieces whose end never comes. -/
  | unended (n : Nat)
  | object
  /-- It is that of a container which no value holds any more. -/
  | dead
deriving DecidableEq

/-- The roles of the identities, of which those that have not been given yet are free, and what comes of
starting commands. -/
structure World where
  next  : Nat
  role  : Nat → Role
  bound : ∀ i, next ≤ i → role i = .free
  start : List Invocation → Text → List Text → Outcome

namespace World

/-- A world grows: whatever was given stays. -/
structure Grows (W W' : World) : Prop where
  next  : W.next ≤ W'.next
  role  : ∀ i < W.next, W'.role i = W.role i
  start : W'.start = W.start

instance : Preorder World where
  le := Grows
  le_refl _ := ⟨le_rfl, fun _ _ => rfl, rfl⟩
  le_trans _ _ _ h h' := ⟨h.next.trans h'.next,
    fun i hi => (h'.role i (hi.trans_le h.next)).trans (h.role i hi), h'.start.trans h.start⟩

/-- A role is the same before the world has grown, or the identity was free. -/
theorem role_before {W W' : World} (h : W ≤ W') (i : Nat) : W.role i = W'.role i ∨ W.role i = .free := by
  by_cases hnext : i < W.next
  · exact .inl (h.role i hnext).symm
  · exact .inr (W.bound i (Nat.le_of_not_lt hnext))

theorem role_of_le {W W' : World} (h : W ≤ W') (hi : W.role i = r) (hr : r ≠ .free) :
    W'.role i = r := by
  rcases role_before h i with h | h
  · exact h.symm.trans hi
  · exact absurd (hi.symm.trans h) hr

/-- The next identity is given, to what has the role. -/
def give (W : World) (r : Role) : World where
  next := W.next + 1
  role i := if i = W.next then r else W.role i
  bound i hi := by rw [if_neg (by omega), W.bound i (by omega)]
  start := W.start

theorem le_give (W : World) (r : Role) : W ≤ W.give r :=
  ⟨Nat.le_succ _, fun _ hi => if_neg hi.ne, rfl⟩

theorem role_give (W : World) (r : Role) : (W.give r).role W.next = r := if_pos rfl

end World

/-- As far as a complete container of `n` pieces can be read. -/
structure Progress.Complete (n : Nat) (p : Progress) : Prop where
  ends  : p.ends = none
  taken : p.taken ≤ n
  ended : p.ended = true → p.taken = n

theorem Progress.Complete.sealed (h : p.Complete n) : p.Sealed n :=
  ⟨h.taken, h.ended, fun _ => by rw [Progress.end?, h.ends]⟩

theorem Progress.Sealed.complete (h : p.Sealed n) (hends : p.ends = none) :
    p.Complete n := ⟨hends, h.taken, h.ended⟩

theorem Progress.complete_unread (n : Nat) : Progress.Complete n {} := ⟨rfl, Nat.zero_le n, by rintro ⟨⟩⟩

/-- As far as a container of `n` pieces can be read whose end never comes. -/
structure Progress.Unended (n : Nat) (p : Progress) : Prop where
  ends  : p.ends = some []
  taken : p.taken ≤ n
  ended : p.ended = false

/-- What two stores may say of an identity. -/
def Role.Holds : Role → Progress → Progress → Prop
  | .free, p, p'      => p = {} ∧ p' = {}
  | .sized n, p, p'   => p.Complete n ∧ p'.Complete n
  | .unended n, p, p' => p.Unended n ∧ p'.Unended n
  | .object, p, p'    => p = p'
  | .dead, _, _       => True

/-- The role of a string of so many pieces, whether or not it ends. -/
def Role.IsText (n : Nat) (r : Role) : Prop := r = .sized n ∨ r = .unended n

/-- The role is one that a container can have from the first. -/
def Role.isUnread : Role → Bool
  | .unended _ => false
  | _          => true

/-- An identity that was free can have such a role. -/
theorem Role.holds_unread (hr : r.isUnread) : r.Holds {} {} := by
  cases r with
  | free => exact ⟨rfl, rfl⟩
  | sized n => exact ⟨Progress.complete_unread n, Progress.complete_unread n⟩
  | unended n => cases hr
  | object => rfl
  | dead => trivial

/-- Nothing that the world knows tells the stores apart, and no command tells the systems apart. -/
structure Store.Alike (W : World) (s s' : Store) : Prop where
  next   : s.next = W.next
  next'  : s'.next = W.next
  holds  : ∀ i, (W.role i).Holds (s.get i) (s'.get i)
  start  : s.system.start = W.start
  start' : s'.system.start = W.start
  system : ∀ later, W.start (later ++ s.system.history) = W.start (later ++ s'.system.history)

namespace Store.Alike

variable {W : World} {s s' : Store}

/-- What is noted of a container fits its role. -/
theorem put (h : s.Alike W s') {p' : Progress} (hp : (W.role i).Holds p p') :
    (s.put i p).Alike W (s'.put i p') where
  next := h.next
  next' := h.next'
  start := h.start
  start' := h.start'
  system := h.system
  holds j := by
    rw [Store.get_put, Store.get_put]
    by_cases hj : j = i
    · rwa [if_pos hj, if_pos hj, hj]
    · rw [if_neg hj, if_neg hj]
      exact h.holds j

/-- A new container is unread in both stores. -/
theorem give (h : s.Alike W s') (hr : r.isUnread) :
    ({ s with next := s.next + 1 } : Store).Alike (W.give r) { s' with next := s'.next + 1 } where
  next := congrArg (· + 1) h.next
  next' := congrArg (· + 1) h.next'
  start := h.start
  start' := h.start'
  system := h.system
  holds i := by
    have hi := h.holds i
    by_cases hnext : i = W.next
    · subst hnext
      -- Nobody has read the identity yet: it was free, so both stores say nothing of it.
      rw [W.bound _ le_rfl] at hi
      obtain ⟨hp, hp'⟩ := hi
      rw [World.role_give]
      change r.Holds (s.get W.next) (s'.get W.next)
      rw [hp, hp']
      exact Role.holds_unread hr
    · change ((if i = W.next then r else W.role i)).Holds (s.get i) (s'.get i)
      rwa [if_neg hnext]

/-- The same, and at once it is noted how far the new container has been read. -/
theorem giveNoted (h : s.Alike W s') (hp : r.Holds p p) :
    (({ s with next := s.next + 1 } : Store).put s.next p).Alike (W.give r)
      (({ s' with next := s'.next + 1 } : Store).put s'.next p) where
  next := congrArg (· + 1) h.next
  next' := congrArg (· + 1) h.next'
  start := h.start
  start' := h.start'
  system := h.system
  holds i := by
    rw [Store.get_put, Store.get_put, h.next, h.next']
    by_cases hnext : i = W.next
    · rw [if_pos hnext, if_pos hnext, hnext, World.role_give]
      exact hp
    · rw [if_neg hnext, if_neg hnext]
      change ((if i = W.next then r else W.role i)).Holds (s.get i) (s'.get i)
      rw [if_neg hnext]
      exact h.holds i

end Store.Alike

/-! ### Values of a world -/

/-- The containers of the value are those of the world, and no number is negative. -/
inductive Value.Known (W : World) : Value → Prop
  | exception (e : Exception) : Known W (.exception e)
  | null : Known W .null
  | bool (b : Bool) : Known W (.bool b)
  | number (id : Nat) {d : Decimal} (hd : d.isNegative = false) : Known W (.number id d)
  | string {id : Nat} {pieces : List Text} (hid : (W.role id).IsText pieces.length) :
      Known W (.string id pieces)
  | array {id : Nat} {items : List Value} (hid : W.role id = .sized items.length)
      (hitems : ∀ v ∈ items, Known W v) : Known W (.array id items)
  | object {id : Nat} {pairs : List (Value × Value)} (hid : W.role id = .object)
      (hkeys : ∀ p ∈ pairs, Known W p.1) (hvalues : ∀ p ∈ pairs, Known W p.2) : Known W (.object id pairs)

theorem Value.Known.mono {W W' : World} (h : W ≤ W') {v : Value} (hv : v.Known W) : v.Known W' := by
  induction hv with
  | exception e => exact .exception e
  | null => exact .null
  | bool b => exact .bool b
  | number id hd => exact .number id hd
  | string hid =>
    exact .string (hid.imp (W.role_of_le h · (by rintro ⟨⟩)) (W.role_of_le h · (by rintro ⟨⟩)))
  | array hid _ ih => exact .array (W.role_of_le h hid (by rintro ⟨⟩)) ih
  | object hid _ _ ihk ihv => exact .object (W.role_of_le h hid (by rintro ⟨⟩)) ihk ihv

/-! ### Blind computations -/

variable {ε α β : Type} {W : World}

/-- In stores that are alike the computation gives the same, which satisfies `P` in a world that has grown,
and leaves stores that are alike there. -/
def Blind (W : World) (m : StateM Store α) (P : World → α → Prop) : Prop :=
  ∀ s s', s.Alike W s' → ∃ W', W ≤ W' ∧ (m.run s').1 = (m.run s).1 ∧ P W' (m.run s).1 ∧
    (m.run s).2.Alike W' (m.run s').2

/-- Blind, and the world is the same. -/
def Still (W : World) (m : StateM Store α) (P : α → Prop) : Prop :=
  Blind W m fun W' a => W' = W ∧ P a

/-- Blind; what the computation gives satisfies `P` if it does not fail. -/
def BlindTry (W : World) (x : ExceptT ε (StateM Store) α) (P : World → α → Prop) : Prop :=
  Blind W x.run fun W' r => ∀ a, r = .ok a → P W' a

/-- Still; what the computation gives satisfies `P` if it does not fail. -/
def StillTry (W : World) (x : ExceptT ε (StateM Store) α) (P : α → Prop) : Prop :=
  Still W x.run fun r => ∀ a, r = .ok a → P a

namespace Blind

variable {m : StateM Store α} {k : α → StateM Store β} {P : World → α → Prop} {R : World → β → Prop}

theorem pure {a : α} (h : P W a) : Blind W (pure a) P :=
  fun _ _ hs => ⟨W, le_rfl, rfl, h, hs⟩

/-- A computation may look at the store for something that is the same in stores that are alike. -/
theorem look {k : Store → StateM Store β} (hsame : ∀ s s', s.Alike W s' → k s' = k s)
    (hk : ∀ s, Blind W (k s) R) : Blind W (do k (← get)) R := by
  intro s s' hs
  have hrun : ∀ t : Store, (do k (← get) : StateM Store β).run t = (k t).run t := fun _ => rfl
  rw [hrun, hrun, hsame s s' hs]
  exact hk s s s' hs

theorem bind (hm : Blind W m P) (hk : ∀ W' a, W ≤ W' → P W' a → Blind W' (k a) R) :
    Blind W (m >>= k) R := by
  intro s s' hs
  obtain ⟨W₁, hle₁, ha, hP, hs₁⟩ := hm s s' hs
  obtain ⟨W₂, hle₂, hb, hR, hs₂⟩ := hk W₁ _ hle₁ hP _ _ hs₁
  rw [run_andThen, run_andThen, ha]
  exact ⟨W₂, hle₁.trans hle₂, hb, hR, hs₂⟩

end Blind

namespace Still

variable {m : StateM Store α} {k : α → StateM Store β} {P : α → Prop} {R : β → Prop}

theorem pure {a : α} (h : P a) : Still W (pure a) P := Blind.pure ⟨rfl, h⟩

theorem andThen (hm : Still W m P) {R : World → β → Prop} (hk : ∀ a, P a → Blind W (k a) R) :
    Blind W (m >>= k) R := by
  refine Blind.bind hm ?_
  rintro _ a - ⟨rfl, ha⟩
  exact hk a ha

theorem bind (hm : Still W m P) (hk : ∀ a, P a → Still W (k a) R) : Still W (m >>= k) R :=
  hm.andThen hk

end Still

namespace BlindTry

variable {x : ExceptT ε (StateM Store) α} {k : α → ExceptT ε (StateM Store) β}
  {P : World → α → Prop} {R : World → β → Prop}

theorem pure {a : α} (h : P W a) : BlindTry W (pure a : ExceptT ε (StateM Store) α) P := by
  refine Blind.pure ?_
  rintro _ ⟨⟩
  exact h

theorem throw {e : ε} : BlindTry W (throw e : ExceptT ε (StateM Store) α) P :=
  Blind.pure (by rintro _ ⟨⟩)

theorem bind (hx : BlindTry W x P) (hk : ∀ W' a, W ≤ W' → P W' a → BlindTry W' (k a) R) :
    BlindTry W (x >>= k) R := by
  refine Blind.bind (k := ExceptT.bindCont k) hx fun W' r hle hr => ?_
  cases r with
  | error e => exact Blind.pure (by rintro _ ⟨⟩)
  | ok a => exact hk W' a hle (hr a rfl)

end BlindTry

namespace StillTry

variable {x : ExceptT ε (StateM Store) α} {k : α → ExceptT ε (StateM Store) β} {P : α → Prop} {R : β → Prop}

theorem pure {a : α} (h : P a) : StillTry W (pure a : ExceptT ε (StateM Store) α) P := by
  refine Still.pure ?_
  rintro _ ⟨⟩
  exact h

theorem throw {e : ε} : StillTry W (throw e : ExceptT ε (StateM Store) α) P :=
  Still.pure (by rintro _ ⟨⟩)

theorem bind (hx : StillTry W x P) (hk : ∀ a, P a → StillTry W (k a) R) : StillTry W (x >>= k) R := by
  refine Still.bind (k := ExceptT.bindCont k) hx fun r hr => ?_
  cases r with
  | error e => exact Still.pure (by rintro _ ⟨⟩)
  | ok a => exact hk a (hr a rfl)

theorem andThen (hx : StillTry W x P) {R : World → β → Prop} (hk : ∀ a, P a → BlindTry W (k a) R) :
    BlindTry W (x >>= k) R := by
  refine Still.andThen (k := ExceptT.bindCont k) hx fun r hr => ?_
  cases r with
  | error e => exact Blind.pure (by rintro _ ⟨⟩)
  | ok a => exact hk a (hr a rfl)

theorem rescue {handler : ε → ExceptT ε (StateM Store) α} (hx : StillTry W x P)
    (hhandler : ∀ e, StillTry W (handler e) P) : StillTry W (tryCatch x handler) P := by
  unfold StillTry
  rw [ExceptT.run_tryCatch]
  refine Still.bind hx fun r hr => ?_
  cases r with
  | error e => exact hhandler e
  | ok a => exact Still.pure hr

end StillTry

/-! ### Strings and arrays -/

/-- Reading on in a string or array is not seen. -/
theorem Store.Alike.onward {s s' s₁ s₁' : Store} (h : s.Alike W s') (hi : W.role i = .sized n)
    (hs : s.Onward i n s₁) (hs' : s'.Onward i n s₁') : s₁.Alike W s₁' where
  next := hs.next.trans h.next
  next' := hs'.next.trans h.next'
  start := hs.system ▸ h.start
  start' := hs'.system ▸ h.start'
  system := hs.system ▸ hs'.system ▸ h.system
  holds j := by
    by_cases hj : j = i
    · have hboth := h.holds i
      rw [hi] at hboth
      rw [hj, hi]
      exact ⟨hs.sealed.complete (hs.ends hboth.1.ends), hs'.sealed.complete (hs'.ends hboth.2.ends)⟩
    · rw [hs.same j hj, hs'.same j hj]
      exact h.holds j

namespace Reading

/-- What one complete container is read for does not depend on how far it has been read. -/
theorem still_sized {r : Reading α} {a : α} (hi : W.role i = .sized n)
    (h : Finds i n r (.ok a)) : StillTry W r (· = a) := by
  intro s s' hs
  have hboth := hs.holds i
  rw [hi] at hboth
  -- The stores may have read differently far before and after; only the answers are the same.
  obtain ⟨s₁, hgives, honward⟩ := h s hboth.1.sealed
  obtain ⟨s₁', hgives', honward'⟩ := h s' hboth.2.sealed
  have hrun : r.run.run s = (.ok a, s₁) := hgives
  have hrun' : r.run.run s' = (.ok a, s₁') := hgives'
  rw [hrun, hrun']
  refine ⟨W, le_rfl, rfl, ⟨rfl, ?_⟩, hs.onward hi honward honward'⟩
  rintro _ ⟨⟩
  rfl

theorem drain_still (hi : W.role i = .sized n) : StillTry W (drain i n) (· = n) :=
  still_sized hi (drain_finds i n)

/-- The end of a string that has none is waited for, however much of it has been taken. -/
theorem drain_unended (hi : W.role i = .unended n) : StillTry W (drain i n) fun _ => False := by
  intro s s' hs
  have hboth := hs.holds i
  rw [hi] at hboth
  have hrun : ∀ t : Store, (t.get i).Unended n → ((drain i n).run.run t) =
      (.error .nothingWaiting, t.put i { t.get i with taken := n }) := by
    intro t ht
    have hopen : (t.get i).end? n = none := by rw [Progress.end?, ht.ends]; rfl
    change (if (t.get i).ended then _ else _ : Reading Nat).run.run t = _
    rw [if_neg (by simp [ht.ended]), hopen]
    rfl
  rw [hrun s hboth.1, hrun s' hboth.2]
  refine ⟨W, le_rfl, rfl, ⟨rfl, by rintro _ ⟨⟩⟩, hs.put ?_⟩
  rw [hi]
  exact ⟨⟨hboth.1.ends, le_rfl, hboth.1.ended⟩, ⟨hboth.2.ends, le_rfl, hboth.2.ended⟩⟩

/-- The whole text of a string that is known; of one that never ends there is none. -/
theorem wholeText_still {pieces : List Text} (h : (Value.string i pieces).Known W) :
    StillTry W (wholeText i pieces) (· = pieces.flatten) := by
  cases h with
  | string hid =>
    rcases hid with hid | hid
    · exact still_sized hid (wholeText_finds i pieces)
    · exact (drain_unended hid).bind fun _ h => h.elim

theorem allItems_still (hi : W.role i = .sized items.length) :
    StillTry W (allItems i items) (· = items) := still_sized hi (allItems_finds i items)

theorem item?_still (hi : W.role i = .sized items.length) (k : Nat) :
    StillTry W (item? i items k) (· = items[k]?) := still_sized hi (item?_finds i items k)

/-- A place that counts from the start is read as far as needed. -/
theorem itemAt_still (hi : W.role i = .sized items.length) {k : Int}
    (hk : 0 ≤ k) : StillTry W (itemAt i items k) (· ∈ items) := by
  unfold itemAt
  rw [if_pos hk]
  refine (item?_still hi k.toNat).bind ?_
  rintro _ rfl
  split
  · rename_i v hv
    exact .pure (List.mem_of_getElem? hv)
  · exact .throw

/-! ### Objects -/

theorem progress_still (hi : W.role i = .object) : StillTry W (progress i) fun _ => True := by
  intro s s' hs
  have hsame := hs.holds i
  rw [hi] at hsame
  exact ⟨W, le_rfl, congrArg Except.ok hsame.symm, ⟨rfl, fun _ _ => trivial⟩, hs⟩

theorem note_still (hi : W.role i = .object) (p : Progress) :
    StillTry W (note i p) fun _ => True := by
  intro s s' hs
  refine ⟨W, le_rfl, rfl, ⟨rfl, fun _ _ => trivial⟩, hs.put ?_⟩
  rw [hi]
  rfl

/-! ### Containers that are made -/

/-- A new identity has the role that it is meant for. -/
theorem fresh_blind (hr : r.isUnread) : BlindTry W fresh fun W' i => W'.role i = r := by
  intro s s' hs
  refine ⟨W.give r, W.le_give r, ?_, ?_, hs.give hr⟩
  · exact congrArg Except.ok (hs.next'.trans hs.next.symm)
  · rintro i ⟨⟩
    rw [hs.next, World.role_give]

/-- A new string whose end never comes. -/
theorem freshUnended_blind (n : Nat) :
    BlindTry W (do
      let i ← fresh
      note i { ends := some [] }
      return i) fun W' i => W'.role i = .unended n := by
  intro s s' hs
  have hopen : Progress.Unended n { ends := some [] } := ⟨rfl, Nat.zero_le n, rfl⟩
  refine ⟨W.give (.unended n), W.le_give _, ?_, ?_, hs.giveNoted ⟨hopen, hopen⟩⟩
  · exact congrArg Except.ok (hs.next'.trans hs.next.symm)
  · rintro i ⟨⟩
    rw [hs.next, World.role_give]

end Reading

end FilterShell
