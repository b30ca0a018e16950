import FilterShell.Decimal.Arithmetic
import FilterShell.Proofs.Decimal.Value

/-!
# Whole numbers

A number may be written with a power of ten, or with zeros behind its point.  If its value is a natural
number of at most 28 digits it is found to be whole, and its integer part is the value (`whole_of_value`).
-/

namespace FilterShell.Decimal

variable {m n : Nat} {e : Int}

/-- A natural number with a power of ten. -/
theorem shifted_eq (h : (m : ℚ) * 10 ^ e = n) (he : 0 ≤ e) : m * Nat.pow 10 e.toNat = n := by
  obtain ⟨k, rfl⟩ := Int.eq_ofNat_of_zero_le he
  rw [zpow_natCast] at h
  exact_mod_cast h

/-- A natural number with zeros behind its point. -/
theorem eq_shifted (h : (m : ℚ) * 10 ^ e = n) (he : e < 0) : m = n * Nat.pow 10 (-e).toNat := by
  obtain ⟨k, rfl⟩ : ∃ k : Nat, e = -(k : Int) := ⟨(-e).toNat, by omega⟩
  rw [zpow_neg, zpow_natCast, mul_inv_eq_iff_eq_mul₀ (by positivity)] at h
  rw [neg_neg, Int.toNat_natCast]
  exact_mod_cast h

/-- It has more digits than zeros behind its point. -/
theorem places_lt_digits (h : m = n * Nat.pow 10 (-e).toNat) (hm : m ≠ 0) : (-e).toNat < digits m := by
  have hn : 0 < n := Nat.pos_of_ne_zero fun hn => hm (by rw [h, hn, Nat.zero_mul])
  have hle : 10 ^ (-e).toNat ≤ m := by
    rw [h]
    exact Nat.le_mul_of_pos_left _ hn
  exact (Nat.pow_lt_pow_iff_right (by decide)).1 (hle.trans_lt (lt_pow_digits m))

theorem toInt_magnitude (s : Bool) (h : (m : ℚ) * 10 ^ e = n) :
    toInt (.finite s m e) = if s then -(n : Int) else n := by
  have hmagnitude : (if e ≥ 0 then m * Nat.pow 10 e.toNat else if (-e).toNat > digits m then 0
      else m / Nat.pow 10 (-e).toNat) = n := by
    by_cases he : e ≥ 0
    · rw [if_pos he, shifted_eq h he]
    have hm := eq_shifted h (by omega)
    rw [if_neg he]
    have hpos : 0 < Nat.pow 10 (-e).toNat := Nat.pow_pos (by decide)
    by_cases hzero : m = 0
    · have hn : n = 0 := by
        rw [hzero, eq_comm, Nat.mul_eq_zero] at hm
        exact hm.resolve_right hpos.ne'
      simp [hzero, hn]
    · have hplaces := places_lt_digits hm hzero
      rw [if_neg (by omega), hm, Nat.mul_div_cancel _ hpos]
  rw [toInt, hmagnitude]

theorem isWhole?_magnitude (s : Bool) (h : (m : ℚ) * 10 ^ e = n) (hn : n < Nat.pow 10 precision) :
    isWhole? (.finite s m e) = .ok true := by
  rw [isWhole?]
  by_cases hzero : m = 0
  · rw [if_pos hzero]
  have hlead : ¬ e + digits m - 1 > precision := by
    have hlt : (10 : ℚ) ^ (e + digits m - 1) < 10 ^ (precision : ℤ) := by
      refine (le_magnitude hzero e).trans_lt ?_
      rw [h, zpow_natCast]
      exact_mod_cast hn
    have hexp := (zpow_lt_zpow_iff_right₀ (by norm_num)).1 hlt
    omega
  rw [if_neg hzero, if_neg hlead]
  by_cases he : e ≥ 0
  · rw [if_pos he, shifted_eq h he, if_pos hn]
  -- nothing is left behind the point
  have hm := eq_shifted h (by omega)
  have hplaces := places_lt_digits hm hzero
  have hrest : m % Nat.pow 10 (-e).toNat = 0 := by rw [hm, Nat.mul_mod_left]
  have hpos : 0 < Nat.pow 10 (-e).toNat := Nat.pow_pos (by decide)
  have hwhole : m / Nat.pow 10 (-e).toNat = n := by rw [hm, Nat.mul_div_cancel _ hpos]
  dsimp only
  rw [if_neg he, if_neg hplaces.not_gt, hrest, hwhole, if_neg (by simpa using fun _ => hn)]
  rfl

/-- **A number whose value is a natural number is whole**, and this is its integer part. -/
theorem whole_of_value {d : Decimal} (h : d.value = ((n : ℚ) : WithTop ℚ)) (hn : n < Nat.pow 10 precision) :
    d.isWhole? = .ok true ∧ d.toInt = n := by
  cases d with
  | nan => cases h
  | infinite s => cases s <;> cases h
  | finite s m e =>
    have hsigned : signed s m e = n := WithTop.coe_injective (WithBot.coe_injective h)
    cases s with
    | false =>
      have hmagnitude : (m : ℚ) * 10 ^ e = n := by simpa [signed] using hsigned
      exact ⟨isWhole?_magnitude false hmagnitude hn, toInt_magnitude false hmagnitude⟩
    | true =>
      -- only zero has a value that is not negative
      have hneg : -((m : ℚ) * 10 ^ e) = n := by simpa [signed] using hsigned
      have hnonneg := magnitude_nonneg m e
      have hcast : (0 : ℚ) ≤ n := Nat.cast_nonneg n
      obtain rfl : n = 0 := by exact_mod_cast (by linarith : (n : ℚ) = 0)
      have hmagnitude : (m : ℚ) * 10 ^ e = (0 : ℕ) := by linarith
      exact ⟨isWhole?_magnitude true hmagnitude hn, toInt_magnitude true hmagnitude⟩

end FilterShell.Decimal
