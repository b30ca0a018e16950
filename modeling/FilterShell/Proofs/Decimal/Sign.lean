import FilterShell.Decimal.Arithmetic
import FilterShell.Proofs.Decimal.Digits

/-!
# Numbers that are not negative

A number that is written by digits and points has no sign, and neither have sums and products of such
numbers.  The integer part of a number without a sign counts from the start.
-/

namespace FilterShell.Decimal

variable {w : Text} {a b d : Decimal} {negative : Bool} {m : Nat} {e : Int}

/-- The number has a minus sign. -/
def isNegative : Decimal → Bool
  | .finite negative _ _ => negative
  | .infinite negative   => negative
  | .nan negative _ _    => negative

theorem toInt_nonneg (h : d.isNegative = false) : 0 ≤ d.toInt := by
  cases d with
  | finite negative m e =>
    obtain rfl : negative = false := h
    exact Int.natCast_nonneg _
  | infinite negative => exact Int.le_refl 0
  | nan negative signaling payload => exact Int.le_refl 0

/-! ### Arithmetic -/

/-- Rounding keeps the sign. -/
theorem rounded_sign (h : rounded a = .ok d) : d.isNegative = a.isNegative := by
  cases a with
  | nan negative signaling payload =>
    cases h
    rfl
  | infinite negative =>
    cases h
    rfl
  | finite negative m e =>
    rw [rounded] at h
    dsimp only at h
    repeat' split at h
    all_goals cases h
    all_goals rfl

theorem rounded_unsigned (h : rounded (.finite false m e) = .ok d) :
    d.isNegative = false := rounded_sign h

theorem nanResult?_unsigned (ha : a.isNegative = false) (hb : b.isNegative = false)
    (h : nanResult? a b = some (.ok d)) : d.isNegative = false := by
  rw [nanResult?] at h
  by_cases hsignaling : (a.isSignaling || b.isSignaling) = true
  · rw [if_pos hsignaling] at h
    cases h
  · rw [if_neg hsignaling] at h
    by_cases hnan : a.isNaN = true
    · rw [if_pos hnan] at h
      exact (rounded_sign (Option.some.inj h)).trans ha
    · rw [if_neg hnan] at h
      by_cases hnan' : b.isNaN = true
      · rw [if_pos hnan'] at h
        exact (rounded_sign (Option.some.inj h)).trans hb
      · rw [if_neg hnan'] at h
        cases h

theorem addFinite_unsigned {n : Nat} {f : Int}
    (h : addFinite false m e false n f = .ok d) : d.isNegative = false := by
  have hsum : ∀ a b : Nat, decide ((a : Int) + b < 0) = false := fun a b => decide_eq_false (by omega)
  rw [addFinite] at h
  by_cases hlt : e < f
  · simp only [if_pos hlt, Bool.false_eq_true, if_false, hsum, Bool.and_false] at h
    repeat' split at h
    all_goals exact rounded_unsigned h
  · simp only [if_neg hlt, Bool.false_eq_true, if_false, hsum, Bool.and_false] at h
    repeat' split at h
    all_goals exact rounded_unsigned h

/-- Sums of numbers without sign have none. -/
theorem add_unsigned (ha : a.isNegative = false) (hb : b.isNegative = false)
    (h : a.add b = .ok d) : d.isNegative = false := by
  unfold add at h
  split at h
  · rename_i r hr
    exact nanResult?_unsigned ha hb (h ▸ hr)
  · split at h
    · split at h
      · cases h
        exact ha
      · cases h
    · cases h
      exact ha
    · cases h
      exact hb
    · obtain rfl := ha
      obtain rfl := hb
      exact addFinite_unsigned h
    · cases h

theorem mul_unsigned (ha : a.isNegative = false) (hb : b.isNegative = false)
    (h : a.mul b = .ok d) : d.isNegative = false := by
  unfold mul at h
  split at h
  · rename_i r hr
    exact nanResult?_unsigned ha hb (h ▸ hr)
  · split at h
    · obtain rfl := ha
      obtain rfl := hb
      cases h
      rfl
    · obtain rfl := ha
      obtain rfl := hb
      split at h
      · cases h
      · cases h
        rfl
    · obtain rfl := ha
      obtain rfl := hb
      split at h
      · cases h
      · cases h
        rfl
    · obtain rfl := ha
      obtain rfl := hb
      exact rounded_unsigned h
    · cases h

/-! ### Reading -/

/-- A digit or a point is looked at as it is or as another digit, never as a sign. -/
theorem folded_ne_minus (h : ∀ r ∈ w, r.isDigit ∨ r = Rune.ofChar '.') {r : Rune}
    (hr : r ∈ folded w) : r ≠ Rune.ofChar '-' := by
  obtain ⟨c, hkept, rfl⟩ := List.mem_map.1 hr
  have hc : c ∈ w := by
    have hsub : (w.trim Rune.isSpace).Sublist w := by
      simpa [Text.trim] using
        (List.dropWhile_sublist Rune.isSpace).reverse.trans (by simpa using List.dropWhile_sublist Rune.isSpace)
    exact hsub.subset (List.mem_filter.1 hkept).1
  have hmem : c ∈ Text.ofString "0123456789." := by
    rcases h c hc with hc | rfl
    · have hsub : Text.ofString "0123456789" ⊆ Text.ofString "0123456789." := by decide
      exact hsub (Rune.isDigit_mem hc)
    · decide
  -- There are eleven of them.
  clear hr hc hkept
  revert c
  decide

theorem splitSign_unsigned (h : ∀ r ∈ w, r ≠ Rune.ofChar '-') : (splitSign w).1 = false := by
  cases w with
  | nil => rfl
  | cons r t =>
    rw [splitSign, if_neg (h r List.mem_cons_self)]
    split <;> rfl

theorem bounded?_sign (h : bounded? negative m e = some d) : d.isNegative = negative := by
  unfold bounded? at h
  split at h
  · cases h
  · split at h
    · cases h
    · cases h
      rfl

theorem readFinite?_sign {t : Text} (h : readFinite? negative t = some d) :
    d.isNegative = negative := by
  -- Every way to read digits ends in `bounded?`, with the sign as it is.
  obtain ⟨m, e, hd⟩ : ∃ m e, bounded? negative m e = some d := by
    unfold readFinite? at h
    dsimp only at h
    repeat' split at h
    all_goals first
      | cases h
      | obtain ⟨power, -, hpower⟩ := Option.bind_eq_some_iff.1 h
        exact ⟨_, _, hpower⟩
  exact bounded?_sign hd

theorem readPayload?_sign {signaling : Bool} {t : Text}
    (h : readPayload? negative signaling t = some d) : d.isNegative = negative := by
  unfold readPayload? at h
  split at h
  · cases h
    rfl
  · cases h

/-- **A number that is written by digits and points is not negative.** -/
theorem read?_unsigned (hw : ∀ r ∈ w, r.isDigit ∨ r = Rune.ofChar '.')
    (h : read? w = some d) : d.isNegative = false := by
  have hsign := splitSign_unsigned fun r hr => folded_ne_minus hw hr
  unfold read? at h
  dsimp only at h
  rw [hsign] at h
  split at h
  · cases h
    rfl
  · split at h
    · exact readPayload?_sign h
    · split at h
      · exact readPayload?_sign h
      · exact readFinite?_sign h

end FilterShell.Decimal
