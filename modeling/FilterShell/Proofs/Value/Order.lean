import FilterShell.Proofs.Value.Drained
import FilterShell.Value.Compare

/-!
# The order of values

Comparing drained values reads nothing new, and the outcome is that of comparing where they stand
(`Value.answers_compareGiven`).  So drained values are strictly and totally ordered
(`Value.drained_ordered`).
-/

namespace FilterShell

open Reading

variable {s : Store} {home : Nat → Value}

/-- What a comparison of two places says. -/
def Comparison.between (c : Comparison) (x y : Standing) : Bool :=
  match c with
  | .equal          => x = y
  | .notEqual       => x ≠ y
  | .less           => x < y
  | .greater        => y < x
  | .lessOrEqual    => x ≤ y
  | .greaterOrEqual => y ≤ x

namespace Value

variable {a b : Value} (ha : Drained s home a) (hb : Drained s home b)

include ha hb

theorem answers_equal : Answers s (a.equal b) (decide (a.standing s = b.standing s)) :=
  (Relations.upTo_agrees _).equal (ha.settledTo.mono (by omega)) (hb.settledTo.mono (by omega))

theorem answers_less : Answers s (a.less b) (decide (a.standing s < b.standing s)) :=
  (Relations.upTo_agrees _).less (ha.settledTo.mono (by omega)) (hb.settledTo.mono (by omega))

theorem answers_equalGiven :
    Answers s (a.equalGiven (.value b)) (decide (a.standing s = b.standing s)) := by
  have hequal := answers_equal ha hb
  cases a <;> exact hequal

theorem answers_lessGiven :
    Answers s (a.lessGiven (.value b)) (decide (a.standing s < b.standing s)) := by
  have hless := answers_less ha hb
  cases a <;> exact hless

theorem answers_notEqualGiven :
    Answers s (a.notEqualGiven (.value b)) (decide (a.standing s ≠ b.standing s)) := by
  cases a with
  | number i d => cases b with
    | number j d' =>
      have hvalue : (Value.number i d).standing s = (Value.number j d').standing s ↔
          d.value = d'.value := by simp [Value.standing, Standing.flat_inj]
      refine (Relations.answers_equalNumbers ha.isNaN hb.isNaN).cases (fun heq => answers_false ?_)
        fun hne => answers_true ?_
      · exact not_not.2 (hvalue.2 heq)
      · exact fun heq => hne (hvalue.1 heq)
    | _ =>
      refine answers_true (standing_lt_of_kind s ?_).2
      intro h
      cases h
  | _ =>
    refine (answers_equalGiven ha hb).cases (fun heq => ?_) fun hne => answers_true hne
    exact answers_false (not_not.2 heq)

/-- **Comparing drained values is comparing where they stand.**  The store stays as it is. -/
theorem answers_compareGiven (c : Comparison) : Answers s (a.compareGiven c (.value b))
    (c.between (a.standing s) (b.standing s)) := by
  have hless := answers_lessGiven ha hb
  cases c with
  | equal => exact answers_equalGiven ha hb
  | notEqual => exact answers_notEqualGiven ha hb
  | less => exact hless
  | greater =>
    refine hless.cases (fun hlt => answers_false hlt.asymm) fun hlt => ?_
    refine (answers_notEqualGiven ha hb).of_iff ?_
    exact ⟨fun hne => lt_of_le_of_ne (not_lt.1 hlt) hne.symm, fun hgt => hgt.ne'⟩
  | lessOrEqual =>
    refine hless.cases (fun hlt => answers_true hlt.le) fun hlt => ?_
    exact (answers_equalGiven ha hb).of_iff ⟨le_of_eq, fun hle => hle.lt_or_eq.resolve_left hlt⟩
  | greaterOrEqual =>
    exact hless.cases (fun hlt => answers_false hlt.not_ge) fun hlt => answers_true (not_lt.1 hlt)

omit ha hb

/-- The comparison of two values says yes, and the store stays as it is. -/
def Holds (s : Store) (c : Comparison) (a b : Value) : Prop :=
  Answers s (a.compareGiven c (.value b)) true

/-- Three values are compared as elements of a strict total order. -/
structure Ordered (s : Store) (a b c : Value) : Prop where
  /-- Every comparison gives an answer, and the store stays as it is. -/
  answers : ∀ op : Comparison, ∃ x, Answers s (a.compareGiven op (.value b)) x
  /-- Exactly one of less, equal and greater is the case. -/
  trichotomy :
    (Holds s .less a b ∧ ¬ Holds s .equal a b ∧ ¬ Holds s .less b a) ∨
    (¬ Holds s .less a b ∧ Holds s .equal a b ∧ ¬ Holds s .less b a) ∨
    (¬ Holds s .less a b ∧ ¬ Holds s .equal a b ∧ Holds s .less b a)
  equal_refl : Holds s .equal a a
  equal_symm : Holds s .equal a b → Holds s .equal b a
  equal_trans : Holds s .equal a b → Holds s .equal b c → Holds s .equal a c
  less_trans : Holds s .less a b → Holds s .less b c → Holds s .less a c
  /-- Equal values are less than the same values, and greater than the same. -/
  less_congr : Holds s .equal a b →
    (Holds s .less a c ↔ Holds s .less b c) ∧ (Holds s .less c a ↔ Holds s .less c b)
  notEqual_iff : Holds s .notEqual a b ↔ ¬ Holds s .equal a b
  greater_iff : Holds s .greater a b ↔ Holds s .less b a
  lessOrEqual_iff : Holds s .lessOrEqual a b ↔ ¬ Holds s .less b a
  greaterOrEqual_iff : Holds s .greaterOrEqual a b ↔ ¬ Holds s .less a b
  /-- The order of the kinds comes first. -/
  kinds : a.kind.rank < b.kind.rank → Holds s .less a b

theorem holds_iff (ha : Drained s home a) (hb : Drained s home b) (c : Comparison) :
    Holds s c a b ↔ c.between (a.standing s) (b.standing s) = true := by
  have hanswers := answers_compareGiven ha hb c
  refine ⟨fun h => hanswers.unique h, fun h => ?_⟩
  rw [h] at hanswers
  exact hanswers

theorem holds_equal (ha : Drained s home a) (hb : Drained s home b) :
    Holds s .equal a b ↔ a.standing s = b.standing s := by
  simp [holds_iff ha hb, Comparison.between]

theorem answers_hash (ha : Drained s home a) : Answers s a.hash (a.standing s).hash :=
  (Relations.upTo_agrees _).hash ha.settledTo

/-- **Drained values are strictly and totally ordered.** -/
theorem drained_ordered {c : Value} (ha : Drained s home a) (hb : Drained s home b)
    (hc : Drained s home c) : Ordered s a b c := by
  have hless : ∀ {x y}, Drained s home x → Drained s home y →
      (Holds s .less x y ↔ x.standing s < y.standing s) := fun hx hy => by
    simp [holds_iff hx hy, Comparison.between]
  have hequal : ∀ {x y}, Drained s home x → Drained s home y →
      (Holds s .equal x y ↔ x.standing s = y.standing s) := fun hx hy => by
    simp [holds_iff hx hy, Comparison.between]
  constructor
  case answers => exact fun op => ⟨_, answers_compareGiven ha hb op⟩
  case trichotomy =>
    rw [hless ha hb, hequal ha hb, hless hb ha]
    rcases lt_trichotomy (a.standing s) (b.standing s) with h | h | h
    · exact .inl ⟨h, h.ne, h.asymm⟩
    · exact .inr (.inl ⟨h.not_lt, h, h.not_gt⟩)
    · exact .inr (.inr ⟨h.asymm, h.ne', h⟩)
  case equal_refl => exact (hequal ha ha).2 rfl
  case equal_symm =>
    rw [hequal ha hb, hequal hb ha]
    exact Eq.symm
  case equal_trans =>
    rw [hequal ha hb, hequal hb hc, hequal ha hc]
    exact Eq.trans
  case less_trans =>
    rw [hless ha hb, hless hb hc, hless ha hc]
    exact lt_trans
  case less_congr =>
    rw [hequal ha hb, hless ha hc, hless hb hc, hless hc ha, hless hc hb]
    intro h
    rw [h]
    exact ⟨Iff.rfl, Iff.rfl⟩
  case notEqual_iff =>
    rw [hequal ha hb, holds_iff ha hb]
    simp [Comparison.between]
  case greater_iff =>
    rw [hless hb ha, holds_iff ha hb]
    simp [Comparison.between]
  case lessOrEqual_iff =>
    rw [hless hb ha, holds_iff ha hb]
    simp [Comparison.between]
  case greaterOrEqual_iff =>
    rw [hless ha hb, holds_iff ha hb]
    simp [Comparison.between]
  case kinds =>
    intro hrank
    have hkind : a.kind ≠ b.kind := fun h => hrank.ne (congrArg Kind.rank h)
    exact (hless ha hb).2 ((standing_lt_of_kind s hkind).1.2 hrank)

/-- A key, an object with that key and with null, and an array of both. -/
theorem drained_ordered_nested :
    let key : Value := .string 1 ["k"]
    let record : Value := .object 2 [(key, .bool true), (.null, key)]
    let list : Value := .array 3 [record, key]
    let home : Nat → Value := fun i => if i = 1 then key else if i = 2 then record else list
    let s : Store := { progress := [
      (1, { taken := 1, ended := true }),
      (2, { taken := 2, ended := true, entries := [⟨108, 0, 0⟩, ⟨Relations.nullHash, 1, 1⟩] }),
      (3, { taken := 2, ended := true })] }
    Drained s home record ∧ Drained s home list ∧ Drained s home key ∧ Ordered s record list key := by
  intro key record list home s
  have hkey : Drained s home key := .string rfl rfl
  have hrecord : Drained s home record := by
    refine .object rfl rfl ?_ ?_ ?_ ?_
    · rintro e (_ | ⟨_, _ | ⟨_, ⟨⟩⟩⟩)
      · exact ⟨key, .bool true, rfl, rfl⟩
      · exact ⟨.null, key, rfl, rfl⟩
    · rintro p (_ | ⟨_, _ | ⟨_, ⟨⟩⟩⟩)
      exacts [hkey, .null]
    · rintro p (_ | ⟨_, _ | ⟨_, ⟨⟩⟩⟩)
      exacts [.bool true, hkey]
    · exact List.pairwise_pair.2 rfl
  have hlist : Drained s home list := by
    refine .array rfl rfl ?_
    rintro v (_ | ⟨_, _ | ⟨_, ⟨⟩⟩⟩)
    exacts [hrecord, hkey]
  exact ⟨hrecord, hlist, hkey, drained_ordered hrecord hlist hkey⟩

end Value

end FilterShell
