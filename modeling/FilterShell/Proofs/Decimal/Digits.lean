import FilterShell.Decimal.Basic
import Mathlib.Data.List.TakeWhile
import Mathlib.Tactic.IntervalCases

/-!
# Numbers written by digits alone

A text of digits is read as the whole number that it writes, unless that has too many digits
(`read?_digits`).  Only a whole number with the exponent zero is written by digits alone; any other has a
mark behind its first digits (`text_cases`).
-/

namespace FilterShell

theorem Rune.isDigit_mem {r : Rune} (h : r.isDigit) : r ∈ Text.ofString "0123456789" := by
  obtain ⟨code, hbound⟩ := r
  simp only [isDigit, Bool.and_eq_true, decide_eq_true_eq] at h
  obtain ⟨hlow, hhigh⟩ := h
  interval_cases code <;> decide +revert

theorem Text.ofNat_digits {n : Nat} {r : Rune} (h : r ∈ Text.ofNat n) : r.isDigit := by
  obtain ⟨c, hc, rfl⟩ := List.mem_map.1 h
  have hdigit := Nat.isDigit_of_mem_toDigits (by decide) (Nat.le_refl 10) hc
  rw [Char.isDigit, Bool.and_eq_true, decide_eq_true_eq, decide_eq_true_eq] at hdigit
  rw [Rune.isDigit, Bool.and_eq_true, decide_eq_true_eq, decide_eq_true_eq]
  exact ⟨UInt32.le_iff_toNat_le.1 hdigit.1, UInt32.le_iff_toNat_le.1 hdigit.2⟩

theorem Text.ofNat_ne_nil (n : Nat) : Text.ofNat n ≠ [] := by
  simp [Text.ofNat]

namespace Decimal

variable {w : Text}

theorem trim_digits (h : ∀ r ∈ w, r.isDigit) : w.trim Rune.isSpace = w := by
  have hspace : ∀ r ∈ Text.ofString "0123456789", r.isSpace = false := by decide
  have hdrop : ∀ u : Text, (∀ r ∈ u, r.isDigit) → u.dropWhile Rune.isSpace = u := by
    intro u hu
    cases u with
    | nil => rfl
    | cons r u =>
      rw [List.dropWhile_cons_of_neg]
      simp [hspace r (Rune.isDigit_mem (hu r List.mem_cons_self))]
  rw [Text.trim, hdrop w h, hdrop w.reverse (by simpa using h), List.reverse_reverse]

/-- Digits are looked at as they are. -/
theorem folded_digits (h : ∀ r ∈ w, r.isDigit) : folded w = w := by
  have hscore : ∀ r ∈ Text.ofString "0123456789", decide (r ≠ Rune.ofChar '_') = true := by decide
  have hdecimal : ∀ r ∈ Text.ofString "0123456789",
      (r.decimal?.map fun d => Rune.ofChar (Nat.digitChar d)) = some r := by decide
  rw [folded, trim_digits h, List.filter_eq_self.2 fun r hr => hscore r (Rune.isDigit_mem (h r hr))]
  refine (List.map_congr_left fun r hr => ?_).trans (List.map_id w)
  obtain ⟨d, hd, hr⟩ := Option.map_eq_some_iff.1 (hdecimal r (Rune.isDigit_mem (h r hr)))
  rw [hd]
  exact hr

theorem bounded?_whole (n : Nat) :
    bounded? false n 0 = if digits n ≤ 1000000000000000000 then some (.ofNat n) else none := by
  rw [bounded?]
  by_cases hsize : digits n ≤ 1000000000000000000
  · rw [if_pos hsize, if_neg (by omega), if_neg (by decide)]
    rfl
  · rw [if_neg hsize, if_pos (by omega)]

/-- **Digits are read as the number that they write.** -/
theorem read?_digits (hw : w ≠ []) (h : ∀ r ∈ w, r.isDigit) :
    read? w = if digits (natOf w) ≤ 1000000000000000000 then some (.ofNat (natOf w)) else none := by
  obtain ⟨r, t, rfl⟩ := List.exists_cons_of_ne_nil hw
  have hr := Rune.isDigit_mem (h r List.mem_cons_self)
  have hall : (r :: t).takeWhile Rune.isDigit = r :: t := List.takeWhile_eq_self_iff.2 h
  have hnone : (r :: t).dropWhile Rune.isDigit = [] := List.dropWhile_eq_nil_iff.2 h
  have hminus : ∀ r ∈ Text.ofString "0123456789", r ≠ Rune.ofChar '-' := by decide
  have hplus : ∀ r ∈ Text.ofString "0123456789", r ≠ Rune.ofChar '+' := by decide
  have hletter : ∀ r ∈ Text.ofString "0123456789",
      r ≠ Rune.ofChar 'i' ∧ r ≠ Rune.ofChar 'n' ∧ r ≠ Rune.ofChar 's' := by decide
  obtain ⟨hi, hn, hs⟩ := hletter r hr
  have hsign : splitSign (r :: t) = (false, r :: t) := by
    rw [splitSign, if_neg (hminus r hr), if_neg (hplus r hr)]
  have hinf : (r :: t = Text.ofString "inf" || r :: t = Text.ofString "infinity") = false := by
    simp [Text.ofString, hi]
  have hnan : Text.dropStart? (r :: t) "nan" = none := if_neg hn
  have hsnan : Text.dropStart? (r :: t) "snan" = none := if_neg hs
  have hfinite : readFinite? false (r :: t) = bounded? false (natOf (r :: t)) 0 := by
    rw [readFinite?, hall, hnone]
    simp [readExponent?]
  rw [read?, folded_digits h, hsign]
  dsimp only
  rw [hinf, hnan, hsnan, hfinite, bounded?_whole]
  rfl

/-! ### Writing -/

theorem natOf_ofNat (n : Nat) : natOf (Text.ofNat n) = n := by
  have hfold : natOf (Text.ofNat n) = Nat.ofDigitChars 10 (Nat.toDigits 10 n) 0 := by
    rw [natOf, Text.ofNat, List.foldl_map, Nat.ofDigitChars]
    simp only [Nat.mul_comm 10]
    rfl
  rw [hfold, Nat.ofDigitChars_toDigits (by decide) (Nat.le_refl 10)]

/-- There is something behind the first digits of the text. -/
def Marked (t : Text) : Prop :=
  ∃ w c r, t = w ++ c :: r ∧ (∀ d ∈ w, d.isDigit) ∧ c ∈ Text.ofString "-.EI"

theorem Marked.append {t : Text} (h : Marked t) (u : Text) : Marked (t ++ u) := by
  obtain ⟨w, c, r, rfl, hw, hc⟩ := h
  exact ⟨w, c, r ++ u, by rw [List.append_assoc, List.cons_append], hw, hc⟩

/-- A finite number is written by digits alone only if it is a whole one that is written as such. -/
theorem finiteText_cases (m : Nat) (e : Int) :
    (e = 0 ∧ finiteText m e = Text.ofNat m) ∨ Marked (finiteText m e) := by
  have hint : ∀ r ∈ Text.ofNat m, r.isDigit := fun r hr => Text.ofNat_digits hr
  have hlen : (0 : Int) < (Text.ofNat m).length :=
    Int.natCast_pos.2 (List.length_pos_iff.2 (Text.ofNat_ne_nil m))
  unfold finiteText
  extract_lets int len left point shown power
  by_cases hsmall : point ≤ 0
  · have hshown : shown = Text.ofString "0" ++ Rune.ofChar '.' ::
        (Text.repeated (-point).toNat (Text.ofString "0") ++ int) := if_pos hsmall
    rw [hshown]
    exact .inr (Marked.append ⟨_, _, _, rfl, by decide, by decide⟩ power)
  by_cases hwhole : point ≥ len
  · have hshown : shown = int ++ Text.repeated (point - len).toNat (Text.ofString "0") :=
      (if_neg hsmall).trans (if_pos hwhole)
    by_cases hpower : left = point
    · -- nothing is left of the exponent, and there are no zeros to fill in
      have hpoint : point = if e ≤ 0 && left > -6 then left else 1 := rfl
      have hleft : left = e + len := rfl
      have hlen : 0 < len := hlen
      have he : e = 0 := by
        simp only [Bool.and_eq_true, decide_eq_true_eq] at hpoint
        split_ifs at hpoint <;> omega
      have hzeros : (point - len).toNat = 0 := by omega
      have hnone : power = [] := if_pos hpower
      rw [hshown, hzeros, hnone, List.append_nil]
      exact .inl ⟨he, List.append_nil _⟩
    · have hdigits : ∀ r ∈ shown, r.isDigit := by
        intro r hr
        rw [hshown, List.mem_append, Text.repeated, List.mem_flatten] at hr
        rcases hr with hr | ⟨zero, hzero, hr⟩
        · exact hint r hr
        · rw [List.eq_of_mem_replicate hzero] at hr
          exact (by decide : ∀ r ∈ Text.ofString "0", r.isDigit) r hr
      have hpowered : ∃ t, power = Rune.ofChar 'E' :: t := by
        by_cases hpos : left - point ≥ 0
        · exact ⟨_, (if_neg hpower).trans (if_pos hpos)⟩
        · exact ⟨_, (if_neg hpower).trans (if_neg hpos)⟩
      obtain ⟨t, hpowered⟩ := hpowered
      exact .inr ⟨shown, _, t, congrArg (shown ++ ·) hpowered, hdigits, by decide⟩
  · have hshown : shown = int.take point.toNat ++ Rune.ofChar '.' :: int.drop point.toNat :=
      (if_neg hsmall).trans ((if_neg hwhole).trans (List.append_assoc _ _ _))
    rw [hshown]
    exact .inr (Marked.append ⟨_, _, _, rfl, fun r hr => hint r (List.mem_of_mem_take hr), by decide⟩ power)

/-- **A number is written by digits alone** only if it is a whole one, and then by those of it. -/
theorem text_cases {d : Decimal} (h : d.isNaN = false) :
    (∃ n, d = ofNat n ∧ d.text = Text.ofNat n) ∨ Marked d.text := by
  cases d with
  | finite negative m e =>
    cases negative with
    | true => exact .inr ⟨[], _, _, rfl, List.forall_mem_nil _, by decide⟩
    | false =>
      rcases finiteText_cases m e with ⟨rfl, htext⟩ | hmarked
      · exact .inl ⟨m, rfl, htext⟩
      · exact .inr hmarked
  | infinite negative =>
    cases negative with
    | true => exact .inr ⟨[], _, _, rfl, List.forall_mem_nil _, by decide⟩
    | false => exact .inr ⟨[], _, _, rfl, List.forall_mem_nil _, by decide⟩
  | nan => cases h

theorem Marked.not_digits {t : Text} (h : Marked t) : ¬ ∀ r ∈ t, r.isDigit := by
  obtain ⟨w, c, r, rfl, -, hc⟩ := h
  have hnone : ∀ c ∈ Text.ofString "-.EI", ¬ c.isDigit := by decide
  intro hall
  exact hnone c hc (hall c (List.mem_append_right w List.mem_cons_self))

end Decimal

end FilterShell
