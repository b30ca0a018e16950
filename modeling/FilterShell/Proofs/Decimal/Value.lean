import FilterShell.Decimal.Order
import Mathlib.Algebra.Order.Field.Power
import Mathlib.Data.Nat.Digits.Defs
import Mathlib.Data.ZMod.Basic
import Mathlib.Order.WithBot

/-!
# The value of a decimal number

A number that is not a not-a-number stands for a rational number or an infinity: `Decimal.value`.  Comparing
numbers is comparing their values (`compare_eq_cmp`), and the residue of a number is its value modulo
`modulus`, in which ten has an inverse (`residue_eq`).
-/

namespace FilterShell.Decimal

variable {m : Nat}

/-- The rational number with a sign, a coefficient and a power of ten. -/
def signed (negative : Bool) (coefficient : Nat) (exponent : Int) : ℚ :=
  (if negative then -(coefficient : ℤ) else (coefficient : ℤ) : ℤ) * 10 ^ exponent

/-- The value of a number; not-a-numbers have none of their own. -/
def value : Decimal → WithBot (WithTop ℚ)
  | .finite negative coefficient exponent => ((signed negative coefficient exponent : WithTop ℚ) :)
  | .infinite negative                    => if negative then ⊥ else (⊤ : WithTop ℚ)
  | .nan ..                               => ⊥

/-! ### Magnitudes -/

theorem lt_pow_digits (n : Nat) : n < 10 ^ digits n :=
  (Nat.length_toDigits_le_iff (by decide) Nat.length_toDigits_pos).1 le_rfl

theorem pow_digits_le {n : Nat} (h : n ≠ 0) : 10 ^ (digits n - 1) ≤ n := by
  by_contra hlt
  have hlt : n < 10 ^ (digits n - 1) := Nat.lt_of_not_le hlt
  rcases Nat.eq_zero_or_pos (digits n - 1) with hzero | hpos
  · rw [hzero] at hlt
    exact h (Nat.lt_one_iff.1 hlt)
  · have hle : digits n ≤ digits n - 1 := (Nat.length_toDigits_le_iff (by decide) hpos).2 hlt
    omega

theorem digits_pos (n : Nat) : 0 < digits n := Nat.length_toDigits_pos

theorem magnitude_lt (m : Nat) (e : Int) : (m : ℚ) * 10 ^ e < 10 ^ (e + digits m) := by
  have hm : (m : ℚ) < 10 ^ digits m := by exact_mod_cast lt_pow_digits m
  rw [add_comm, zpow_add₀ (by norm_num), zpow_natCast]
  exact mul_lt_mul_of_pos_right hm (by positivity)

theorem le_magnitude (h : m ≠ 0) (e : Int) : 10 ^ (e + digits m - 1) ≤ (m : ℚ) * 10 ^ e := by
  have hm : (10 : ℚ) ^ (digits m - 1) ≤ m := by exact_mod_cast pow_digits_le h
  have hexp : e + digits m - 1 = ((digits m - 1 : ℕ) : ℤ) + e := by
    have := digits_pos m
    omega
  rw [hexp, zpow_add₀ (by norm_num), zpow_natCast]
  exact mul_le_mul_of_nonneg_right hm (by positivity)

/-- A number whose leading digit stands at a lower place is less. -/
theorem magnitude_lt_of_high {n : Nat} {e f : Int} (hn : n ≠ 0)
    (h : e + digits m < f + digits n) : (m : ℚ) * 10 ^ e < n * 10 ^ f :=
  calc (m : ℚ) * 10 ^ e < 10 ^ (e + digits m) := magnitude_lt m e
    _ ≤ 10 ^ (f + digits n - 1) := zpow_le_zpow_right₀ (by norm_num) (by omega)
    _ ≤ n * 10 ^ f := le_magnitude hn f

theorem shift_magnitude (m : Nat) {e low : Int} (h : low ≤ e) :
    ((m * Nat.pow 10 (e - low).toNat : ℕ) : ℚ) * 10 ^ low = m * 10 ^ e := by
  have hexp : e = ((e - low).toNat : ℤ) + low := by omega
  rw [Nat.pow_eq]
  conv_rhs => rw [hexp, zpow_add₀ (by norm_num), zpow_natCast]
  push_cast
  ring

/-- The shortcut by leading digits gives the right order. -/
theorem compareMagnitude_eq_cmp (m : Nat) (e : Int) (n : Nat) (f : Int) :
    compareMagnitude m e n f = cmp ((m : ℚ) * 10 ^ e) (n * 10 ^ f) := by
  have hpow : ∀ k : ℤ, (0 : ℚ) < 10 ^ k := fun k => by positivity
  unfold compareMagnitude
  by_cases hz : m = 0 ∨ n = 0
  -- zero has no leading digit, so it is looked at first
  · rw [if_pos (by simpa using hz), ← cmp_eq_compare]
    rcases hz with rfl | rfl
    · rcases Nat.eq_zero_or_pos n with rfl | hn
      · rw [Nat.cast_zero, zero_mul, zero_mul, cmp_self_eq_eq, cmp_self_eq_eq]
      · have hpos : (0 : ℚ) < n * 10 ^ f := mul_pos (by exact_mod_cast hn) (hpow f)
        rw [hn.cmp_eq_lt, eq_comm, cmp_eq_lt_iff]
        simpa using hpos
    · rcases Nat.eq_zero_or_pos m with rfl | hm
      · rw [Nat.cast_zero, zero_mul, zero_mul, cmp_self_eq_eq, cmp_self_eq_eq]
      · have hpos : (0 : ℚ) < m * 10 ^ e := mul_pos (by exact_mod_cast hm) (hpow e)
        rw [hm.cmp_eq_gt, eq_comm, cmp_eq_gt_iff]
        simpa using hpos
  · rw [not_or] at hz
    rw [if_neg (by simpa using hz)]
    dsimp only
    by_cases hlt : e + digits m < f + digits n
    · rw [if_pos hlt, (magnitude_lt_of_high hz.2 hlt).cmp_eq_lt]
    by_cases hgt : f + digits n < e + digits m
    · rw [if_neg hlt, if_pos hgt, (magnitude_lt_of_high hz.1 hgt).cmp_eq_gt]
    -- the leading digits stand at one place: compare at the lower exponent
    rw [if_neg hlt, if_neg hgt, ← cmp_eq_compare, ← Nat.strictMono_cast.cmp_map_eq (β := ℚ),
      ← cmp_mul_pos_right (hpow (min e f)), shift_magnitude m (min_le_left e f),
      shift_magnitude n (min_le_right e f)]

/-! ### Numbers -/

/-- A sign counts unless it stands on zero. -/
theorem signed_eq (s : Bool) (m : Nat) (e : Int) :
    signed s m e = if s && m != 0 then -((m : ℚ) * 10 ^ e) else m * 10 ^ e := by
  cases s with
  | false => simp [signed]
  | true => by_cases hm : m = 0 <;> simp [signed, hm]

theorem magnitude_nonneg (m : Nat) (e : Int) : 0 ≤ (m : ℚ) * 10 ^ e := by positivity

theorem negative_lt {s : Bool} (h : (s && m != 0) = true) (e : Int) (n : Nat) (f : Int) :
    -((m : ℚ) * 10 ^ e) < n * 10 ^ f := by
  have hm : m ≠ 0 := by simp_all
  have hpos : 0 < (m : ℚ) * 10 ^ e := by positivity
  exact (neg_neg_of_pos hpos).trans_le (magnitude_nonneg n f)

theorem signed_zero (s : Bool) (e : Int) : signed s 0 e = 0 := by
  cases s <;> simp [signed]

theorem compare_finite (s : Bool) (m : Nat) (e : Int) (s' : Bool) (n : Nat) (f : Int) :
    compare (.finite s m e) (.finite s' n f) = cmp (signed s m e) (signed s' n f) := by
  by_cases hzero : m = 0 ∧ n = 0
  · obtain ⟨rfl, rfl⟩ := hzero
    rw [signed_zero, signed_zero, cmp_self_eq_eq]
    rfl
  · rw [signed_eq, signed_eq, compare, if_neg (by simpa using hzero)]
    cases h : s && m != 0 <;> cases h' : s' && n != 0
    · exact compareMagnitude_eq_cmp m e n f
    · exact (negative_lt h' f m e).cmp_eq_gt.symm
    · exact (negative_lt h e n f).cmp_eq_lt.symm
    · have hneg : StrictAnti fun x : ℚ => -x := fun x y hxy => neg_lt_neg hxy
      exact (compareMagnitude_eq_cmp n f m e).trans (hneg.cmp_map_eq _ _).symm

/-- **Comparing numbers is comparing their values.** -/
theorem compare_eq_cmp {a b : Decimal} (ha : a.isNaN = false) (hb : b.isNaN = false) :
    compare a b = cmp a.value b.value := by
  cases a with
  | nan => cases ha
  | infinite s => cases b with
    | nan => cases hb
    | infinite s' => cases s <;> cases s' <;> rfl
    | finite s' n f => cases s <;> rfl
  | finite s m e => cases b with
    | nan => cases hb
    | infinite s' => cases s' <;> rfl
    | finite s' n f =>
      rw [compare_finite, value, value, WithBot.coe_strictMono.cmp_map_eq,
        WithTop.coe_strictMono.cmp_map_eq]

/-! ### Residues -/

theorem one_lt_modulus : 1 < modulus := by decide

instance : NeZero modulus := ⟨by decide⟩

theorem powMod_eq (b n : Nat) : powMod b n = b ^ n % modulus := by
  fun_induction powMod b n with
  | case1 => exact (Nat.mod_eq_of_lt one_lt_modulus).symm
  | case2 b n hn half hodd ih =>
    rw [show half = _ from ih, ← Nat.pow_mod, Nat.mod_mul_mod, ← pow_two, ← pow_mul, ← pow_succ]
    congr 2
    omega
  | case3 b n hn half hodd ih =>
    rw [show half = _ from ih, ← Nat.pow_mod, ← pow_two, ← pow_mul]
    congr 2
    omega

/-- A rational number modulo `modulus`; it counts only if the denominator has an inverse. -/
def residueClass (q : ℚ) : ZMod modulus := (q.num : ZMod modulus) * (q.den : ZMod modulus)⁻¹

theorem ten_mul_tenInverse : (10 : ZMod modulus) * (tenInverse : ℕ) = 1 := by
  have h : ((10 * tenInverse : ℕ) : ZMod modulus) = (1 : ℕ) :=
    (ZMod.natCast_eq_natCast_iff' _ _ _).2 (by decide)
  exact_mod_cast h

/-- The residue of a fraction, by its denominator. -/
theorem residueClass_mul_pow {q : ℚ} {n : ℤ} {k : ℕ} (h : q * 10 ^ k = n) :
    residueClass q * 10 ^ k = n := by
  have hint : q.num * 10 ^ k = n * q.den := by
    have hq : (q.num : ℚ) * 10 ^ k = n * q.den := by
      rw [← h, ← Rat.mul_den_eq_num]
      ring
    exact_mod_cast hq
  -- the denominator divides a power of ten, so it has an inverse
  have hdvd : q.den ∣ 10 ^ k := by
    have hdvd : (q.den : ℤ) ∣ q.num * (10 ^ k : ℕ) := ⟨n, by push_cast; rw [hint, mul_comm]⟩
    exact Nat.Coprime.dvd_of_dvd_mul_left q.reduced.symm
      (by simpa [Int.natAbs_mul] using Int.natAbs_dvd_natAbs.2 hdvd)
  have hcoprime : q.den.Coprime modulus :=
    Nat.Coprime.coprime_dvd_left hdvd (Nat.Coprime.pow_left k (by decide))
  have hcast : (q.num : ZMod modulus) * 10 ^ k = n * q.den := by exact_mod_cast congrArg _ hint
  calc residueClass q * 10 ^ k
      = (q.num : ZMod modulus) * 10 ^ k * (q.den : ZMod modulus)⁻¹ := by rw [residueClass]; ring
    _ = n * (q.den * (q.den : ZMod modulus)⁻¹) := by rw [hcast]; ring
    _ = n := by rw [ZMod.coe_mul_inv_eq_one _ hcoprime, mul_one]

/-- A power of ten modulo `modulus`. -/
def tenPower (e : Int) : Nat :=
  if e ≥ 0 then powMod 10 e.toNat else powMod tenInverse (-e).toNat

theorem residueClass_signed (s : Bool) (m : Nat) (e : Int) :
    residueClass (signed s m e) =
      ((if s then -(m : ℤ) else (m : ℤ) : ℤ) : ZMod modulus) * (tenPower e : ℕ) := by
  set n : ℤ := if s then -(m : ℤ) else (m : ℤ) with hn
  have hsigned : signed s m e = n * 10 ^ e := rfl
  unfold tenPower
  by_cases he : e ≥ 0
  · have hint : signed s m e * 10 ^ 0 = ((n * 10 ^ e.toNat : ℤ) : ℚ) := by
      obtain ⟨k, rfl⟩ := Int.eq_ofNat_of_zero_le he
      simp [hsigned]
    have hclass := residueClass_mul_pow hint
    rw [pow_zero, mul_one] at hclass
    rw [if_pos he, powMod_eq, hclass]
    push_cast [ZMod.natCast_mod]
    rfl
  · have hint : signed s m e * 10 ^ (-e).toNat = (n : ℚ) := by
      rw [hsigned, mul_assoc, ← zpow_natCast, ← zpow_add₀ (by norm_num)]
      simp [Int.toNat_of_nonneg (show 0 ≤ -e by omega)]
    have hclass := residueClass_mul_pow hint
    rw [if_neg he, powMod_eq, ← hclass, ZMod.natCast_mod, Nat.cast_pow, mul_assoc, ← mul_pow,
      ten_mul_tenInverse, one_pow, mul_one]

theorem residue_finite (s : Bool) (m : Nat) (e : Int) : residue (.finite s m e) =
    if s && m * tenPower e % modulus != 0 then modulus - m * tenPower e % modulus
    else m * tenPower e % modulus := rfl

/-- The residue of a value. -/
def valueResidue : WithBot (WithTop ℚ) → Nat
  | ⊥              => modulus - 314159
  | some ⊤         => 314159
  | some (some q)  => (residueClass q).val

/-- **The residue of a number depends on its value alone.** -/
theorem residue_eq {d : Decimal} (h : d.isNaN = false) : d.residue = valueResidue d.value := by
  cases d with
  | nan => cases h
  | infinite s => cases s <;> rfl
  | finite s m e =>
    change residue _ = (residueClass (signed s m e)).val
    have hr : ((m * tenPower e % modulus : ℕ) : ZMod modulus) = m * (tenPower e : ℕ) := by
      rw [ZMod.natCast_mod, Nat.cast_mul]
    have hval : (m * (tenPower e : ℕ) : ZMod modulus).val = m * tenPower e % modulus := by
      rw [← hr, ZMod.val_natCast, Nat.mod_mod]
    rw [residueClass_signed]
    cases s with
    | false => simpa [residue_finite] using hval.symm
    | true =>
      have hzero : (m * (tenPower e : ℕ) : ZMod modulus) = 0 ↔ m * tenPower e % modulus = 0 := by
        rw [← ZMod.val_eq_zero, hval]
      simp only [if_true, Int.cast_neg, Int.cast_natCast, neg_mul, ZMod.neg_val, hval, hzero]
      by_cases h0 : m * tenPower e % modulus = 0 <;> simp [residue_finite, h0]

end FilterShell.Decimal
