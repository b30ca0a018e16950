import FilterShell.Proofs.Value.Agreement

/-!
# Levels of nesting

A value is *settled* over a set of values if its end has been taken, in case it is a container, and if what
it holds is in the set.  The relations of one level agree with the standings on settled values if those of the
level below agree on the set (`Relations.Agrees.next`), and so on all values that are settled to the bottom
(`Relations.upTo_agrees`).
-/

namespace FilterShell

variable {a b v : Value} {d : Decimal}

open Reading

variable {s : Store} {home : Nat → Value} {D : Value → Prop} {R : Relations}

/-- The end of the value has been taken if it is a container, and what it holds is in `D`. -/
def Value.Settled (s : Store) (home : Nat → Value) (D : Value → Prop) : Value → Prop
  | .exception _ | .null | .bool _ => True
  | .number _ d       => d.isNaN = false
  | .string id pieces => (s.get id).ended = true ∧ home id = .string id pieces
  | .array id items   => (s.get id).ended = true ∧ home id = .array id items ∧
      ∀ v ∈ items.take (s.get id).taken, D v
  | .object id pairs  => (s.get id).ended = true ∧ home id = .object id pairs ∧
      Relations.Tabled s D pairs (s.get id).entries

theorem Value.same_cases (h : a.same b) :
    (∃ i, a.id? = some i ∧ b.id? = some i) ∨ ∃ i d, a = .number i d ∧ d.isNaN := by
  unfold Value.same at h
  split at h
  · simp only [Bool.and_eq_true] at h
    exact .inr ⟨_, _, rfl, h.1.1⟩
  · split at h
    · rename_i i j hi hj
      obtain rfl : i = j := of_decide_eq_true h
      exact .inl ⟨i, hi, hj⟩
    · cases h

theorem Value.Settled.home_eq {i : Nat} (h : v.Settled s home D) (hi : v.id? = some i) :
    home i = v := by
  cases v with
  | string => cases hi; exact h.2
  | array | object => cases hi; exact h.2.1
  | exception | null | bool | number => cases hi

/-- Of settled values, two with one identity are one. -/
theorem Value.Settled.same (ha : a.Settled s home D) (hb : b.Settled s home D)
    (h : a.same b) : a = b := by
  obtain ⟨i, hi, hi'⟩ | ⟨i, d, rfl, hnan⟩ := Value.same_cases h
  · rw [← ha.home_eq hi, ← hb.home_eq hi']
  · exact absurd hnan (Bool.eq_false_iff.1 ha)

namespace Relations

/-! ### One level -/

theorem nextEqual_of_kind (h : a.kind ≠ b.kind) : R.nextEqual a b = return false := by
  cases a <;> cases b <;> first | rfl | exact absurd rfl h

theorem nextLess_of_kind (h : a.kind ≠ b.kind) :
    R.nextLess a b = return a.kind.rank < b.kind.rank := by
  cases a <;> cases b <;> first | rfl | exact absurd rfl h

theorem isSignaling_of_isNaN (h : d.isNaN = false) : d.isSignaling = false := by
  cases d <;> first | rfl | cases h

/-- Hashes go by standings, one level further. -/
theorem Agrees.nextHash (h : R.Agrees s D) (ha : a.Settled s home D) :
    Answers s (R.nextHash a) (a.standing s).hash := by
  cases a with
  | exception e =>
    change Answers s _ (Standing.textHash e.name.codes)
    rw [Standing.textHash_codes]
    rfl
  | null => rfl
  | bool b => cases b <;> rfl
  | number id d =>
    have hd : d.isNaN = false := ha
    change Answers s (numberHash id d) (Decimal.valueResidue d.value)
    rw [← Decimal.residue_eq hd, numberHash, isSignaling_of_isNaN hd, hd]
    rfl
  | string id pieces =>
    change Answers s _ (Standing.textHash (Text.codes _))
    rw [Standing.textHash_codes]
    exact (answers_wholeText ha.1 pieces).bind rfl
  | array id items =>
    obtain ⟨hend, -, hitems⟩ := ha
    rw [Value.standing_array, Standing.hash_array]
    refine (answers_item? hend items 0).bind ?_
    cases htake : items.take (s.get id).taken with
    | nil => rfl
    | cons v r => exact h.hash (hitems v (htake ▸ List.mem_cons_self))
  | object id pairs =>
    obtain ⟨hend, -, ht⟩ := ha
    rw [Value.standing_object, Standing.hash_object, List.map_map]
    exact (answers_mapKeys (g := fun k => (k.standing s).hash) hend pairs
      fun p hp => h.hash (ht.mem hp).1).bind rfl

theorem answers_equalNumbers {d' : Decimal} (hd : d.isNaN = false) (hd' : d'.isNaN = false) :
    Answers s (equalNumbers d d') (decide (d.value = d'.value)) := by
  rw [equalNumbers, isSignaling_of_isNaN hd, isSignaling_of_isNaN hd', hd, hd',
    Decimal.compare_eq_cmp hd hd']
  exact (answers_decide (cmp d.value d'.value = .eq)).of_iff (cmp_eq_eq_iff _ _)

theorem answers_lessNumbers {d' : Decimal} (hd : d.isNaN = false) (hd' : d'.isNaN = false) :
    Answers s (lessNumbers d d') (decide (d.value < d'.value)) := by
  rw [lessNumbers, hd, hd', Decimal.compare_eq_cmp hd hd']
  exact (answers_decide (cmp d.value d'.value = .lt)).of_iff (cmp_eq_lt_iff _ _)

theorem Agrees.nextEqual (h : R.Agrees s D) (ha : a.Settled s home D) (hb : b.Settled s home D) :
    Answers s (R.nextEqual a b) (decide (a.standing s = b.standing s)) := by
  by_cases hkind : a.kind = b.kind
  · cases a with
    | exception e => cases b with
      | exception e' =>
        refine (answers_decide (e.name = e'.name)).of_iff ?_
        simp [Value.standing, Standing.flat_inj, Text.codes_inj]
      | _ => cases hkind
    | null => cases b with
      | null => exact answers_true rfl
      | _ => cases hkind
    | bool x => cases b with
      | bool y =>
        refine (answers_decide (x = y)).of_iff ?_
        cases x <;> cases y <;> simp [Value.standing, Standing.flat_inj]
      | _ => cases hkind
    | number i d => cases b with
      | number j d' =>
        refine (answers_equalNumbers ha hb).of_iff ?_
        simp [Value.standing, Standing.flat_inj]
      | _ => cases hkind
    | string i p => cases b with
      | string j p' =>
        refine (answers_wholeText ha.1 p).bind ((answers_wholeText hb.1 p').bind ?_)
        refine (answers_decide _).of_iff ?_
        simp [Value.standing, Standing.flat_inj, Text.codes_inj]
      | _ => cases hkind
    | array i xs => cases b with
      | array j ys =>
        refine (answers_allItems ha.1 xs).bind ((answers_allItems hb.1 ys).bind ?_)
        refine (h.equalItems ha.2.2 hb.2.2).of_iff ?_
        rw [Value.standing_array, Value.standing_array, Standing.array_inj]
      | _ => cases hkind
    | object i ps => cases b with
      | object j ps' => exact h.equalObjects ha.1 ha.2.2 hb.1 hb.2.2
      | _ => cases hkind
  · rw [nextEqual_of_kind hkind]
    exact answers_false (Value.standing_lt_of_kind s hkind).2

theorem answers_lessStrings {i j : Nat} (hi : (s.get i).ended = true) (p : List Text)
    (hj : (s.get j).ended = true) (p' : List Text) :
    Answers s (lessStrings i p j p') (decide (Text.codes (p.take (s.get i).taken).flatten <
      Text.codes (p'.take (s.get j).taken).flatten)) := by
  refine (answers_wholeText hj p').bind ?_
  by_cases hempty : (p'.take (s.get j).taken).flatten = []
  · rw [hempty]
    exact answers_false (by simp [Text.codes])
  · rw [if_neg (by simpa using hempty)]
    refine (answers_wholeText hi p).bind ?_
    rw [Text.lt_eq]
    exact answers_decide _

theorem Agrees.nextLess (h : R.Agrees s D) (ha : a.Settled s home D) (hb : b.Settled s home D) :
    Answers s (R.nextLess a b) (decide (a.standing s < b.standing s)) := by
  by_cases hkind : a.kind = b.kind
  · cases a with
    | exception e => cases b with
      | exception e' =>
        rw [Relations.nextLess, Text.lt_eq]
        refine (answers_decide (e.name.codes < e'.name.codes)).of_iff ?_
        simp [Value.standing, Standing.flat_lt]
      | _ => cases hkind
    | null => cases b with
      | null => exact answers_false (lt_irrefl _)
      | _ => cases hkind
    | bool x => cases b with
      | bool y =>
        have hlt : (Value.bool false).standing s < (Value.bool true).standing s :=
          Standing.flat_lt.2 (.inl (by decide))
        cases x <;> cases y
        · exact answers_false (lt_irrefl _)
        · exact answers_true hlt
        · exact answers_false hlt.asymm
        · exact answers_false (lt_irrefl _)
      | _ => cases hkind
    | number i d => cases b with
      | number j d' =>
        refine (answers_lessNumbers ha hb).of_iff ?_
        simp [Value.standing, Standing.flat_lt]
      | _ => cases hkind
    | string i p => cases b with
      | string j p' =>
        refine (answers_lessStrings ha.1 p hb.1 p').of_iff ?_
        simp [Value.standing, Standing.flat_lt]
      | _ => cases hkind
    | array i xs => cases b with
      | array j ys =>
        refine (answers_allItems hb.1 ys).bind ?_
        simp only [Value.standing_array, Standing.array_lt]
        cases hys : ys.take (s.get j).taken with
        | nil => exact answers_false (by simp)
        | cons y r =>
          refine (answers_allItems ha.1 xs).bind ?_
          exact h.lessItems ha.2.2 (hys ▸ hb.2.2)
      | _ => cases hkind
    | object i ps => cases b with
      | object j ps' => exact h.lessObjects ha.1 ha.2.2 hb.1 hb.2.2
      | _ => cases hkind
  · rw [nextLess_of_kind hkind]
    exact (answers_decide _).of_iff (Value.standing_lt_of_kind s hkind).1.symm

/-- **Relations agree with the standings one level up.** -/
theorem Agrees.next (h : R.Agrees s D) : R.next.Agrees s (Value.Settled s home D) where
  hash _ := h.nextHash
  equal _ _ := h.nextEqual
  less _ _ := h.nextLess
  same _ _ := Value.Settled.same

/-- A table stays in order while its keys stand where they stood. -/
theorem Tabled.transfer {s' : Store} {D' : Value → Prop} {pairs : List (Value × Value)}
    {entries : List Entry} (h : Tabled s D pairs entries)
    (hD : ∀ v, D v → D' v ∧ v.standing s' = v.standing s) : Tabled s' D' pairs entries where
  entry e he := by
    obtain ⟨k, v, hpick, hk, hv, hhash⟩ := h.entry e he
    exact ⟨k, v, hpick, (hD k hk).1, (hD v hv).1, by rw [hhash, (hD k hk).2]⟩
  nodup := by
    rw [List.map_congr_left fun p hp => (hD p.1 (h.mem hp).1).2]
    exact h.nodup

end Relations

/-! ### All levels -/

theorem Value.Settled.mono {D' : Value → Prop} (h : v.Settled s home D)
    (hD : ∀ v, D v → D' v) : v.Settled s home D' := by
  cases v with
  | exception | null | bool | number | string => exact h
  | array => exact ⟨h.1, h.2.1, fun v hv => hD v (h.2.2 v hv)⟩
  | object => exact ⟨h.1, h.2.1, h.2.2.transfer fun v hv => ⟨hD v hv, rfl⟩⟩

/-- The value is settled to the bottom, which is less than `n` levels down. -/
def Value.SettledTo (s : Store) (home : Nat → Value) : Nat → Value → Prop
  | 0     => fun _ => False
  | n + 1 => Value.Settled s home (SettledTo s home n)

theorem Value.SettledTo.mono {m n : Nat} (h : v.SettledTo s home m) (hmn : m ≤ n) :
    v.SettledTo s home n := by
  induction n generalizing m v with
  | zero =>
    obtain rfl := Nat.le_zero.1 hmn
    exact h
  | succ n ih => cases m with
    | zero => exact h.elim
    | succ m => exact Value.Settled.mono h fun w hw => ih hw (Nat.le_of_succ_le_succ hmn)

/-- **The relations of every level agree with the standings.** -/
theorem Relations.upTo_agrees (n : Nat) :
    (Relations.upTo n).Agrees s (Value.SettledTo s home (n + 1)) := by
  induction n with
  | zero => exact Agrees.next ⟨nofun, nofun, nofun, nofun⟩
  | succ n ih => exact Agrees.next ih

end FilterShell
