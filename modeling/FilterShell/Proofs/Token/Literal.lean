import FilterShell.Text.Literal
import FilterShell.Token.Scan
import Mathlib.Algebra.Group.Nat.Defs
import Mathlib.Data.List.Basic

/-!
# Literals are read back

Reading what `Text.literal` writes gives the text again, as long as no character needs more than four places
in base sixteen (`scanBody_literal`): a larger one is read as two characters.  In turn, no such character comes
out of a source without one (`scanBody_narrow`).
-/

namespace FilterShell

variable {t : Text} {c r : Rune} {n : Nat}

namespace Rune

/-- The value of a digit in base sixteen. -/
def hex? (r : Rune) : Option Nat :=
  if 48 ≤ r.code ∧ r.code ≤ 57 then some (r.code - 48)
  else if 65 ≤ r.code ∧ r.code ≤ 70 then some (r.code - 55)
  else if 97 ≤ r.code ∧ r.code ≤ 102 then some (r.code - 87)
  else none

/-- What `readInt?` asks of a character, answered for the digits of base sixteen. -/
theorem hex?_read {d : Nat} (h : r.hex? = some d) : r.isMargin = false ∧
    r.digit? 16 = some d ∧ r ≠ ofChar '_' ∧ r ≠ ofChar '-' ∧ r ≠ ofChar '+' ∧ r ≠ ofChar 'x' ∧
    r ≠ ofChar 'X' := by
  have hall : ∀ n ∈ List.range' 48 10 ++ List.range' 65 6 ++ List.range' 97 6, ∀ hn : n < 0x110000,
      let r : Rune := ⟨n, hn⟩
      r.isMargin = false ∧ r.digit? 16 = r.hex? ∧ r ≠ ofChar '_' ∧ r ≠ ofChar '-' ∧ r ≠ ofChar '+' ∧
        r ≠ ofChar 'x' ∧ r ≠ ofChar 'X' := by decide
  have hcode : r.code ∈ List.range' 48 10 ++ List.range' 65 6 ++ List.range' 97 6 := by
    unfold hex? at h
    simp only [List.mem_append, List.mem_range'_1]
    split_ifs at h <;> omega
  rw [← h]
  exact hall r.code hcode r.lt_bound

end Rune

namespace Text

/-- No character of the text needs more than four places in base sixteen. -/
def Narrow (t : Text) : Prop := ∀ r ∈ t, r.code < 0x10000

@[simp] theorem narrow_nil : Narrow [] := by simp [Narrow]

@[simp] theorem narrow_cons : Narrow (r :: t) ↔ r.code < 0x10000 ∧ t.Narrow := by simp [Narrow]

/-! ### Numbers of four places -/

/-- The number that four digits in base sixteen write. -/
def code? : Text → Option Nat
  | [h₁, h₂, h₃, h₄] => do
    let a ← h₁.hex?
    let b ← h₂.hex?
    let c ← h₃.hex?
    let d ← h₄.hex?
    return ((a * 16 + b) * 16 + c) * 16 + d
  | _ => none

theorem code?_eq_some (h : t.code? = some n) :
    ∃ h₁ h₂ h₃ h₄ a b c d, t = [h₁, h₂, h₃, h₄] ∧ h₁.hex? = some a ∧ h₂.hex? = some b ∧
      h₃.hex? = some c ∧ h₄.hex? = some d ∧ n = ((a * 16 + b) * 16 + c) * 16 + d := by
  unfold code? at h
  split at h
  · simp only [Option.bind_eq_bind, Option.bind_eq_some_iff] at h
    obtain ⟨a, ha, b, hb, c, hc, d, hd, hn⟩ := h
    exact ⟨_, _, _, _, a, b, c, d, rfl, ha, hb, hc, hd, (Option.some.inj hn).symm⟩
  · cases h

/-- Four digits are read as the number that they write. -/
theorem readInt?_code (h : t.code? = some n) : readInt? 16 t = some (n : Int) := by
  obtain ⟨h₁, h₂, h₃, h₄, a, b, c, d, rfl, ha, hb, hc, hd, rfl⟩ := code?_eq_some h
  obtain ⟨ma, da, ua, na, pa, -, -⟩ := Rune.hex?_read ha
  obtain ⟨-, db, ub, -, -, xb, Xb⟩ := Rune.hex?_read hb
  obtain ⟨-, dc, uc, -, -, -, -⟩ := Rune.hex?_read hc
  obtain ⟨md, dd, ud, -, -, -, -⟩ := Rune.hex?_read hd
  have htrim : trim Rune.isMargin [h₁, h₂, h₃, h₄] = [h₁, h₂, h₃, h₄] := by
    simp [trim, ma, md]
  have hmark : dropMark 16 [h₁, h₂, h₃, h₄] = [h₁, h₂, h₃, h₄] := by
    simp [dropMark, xb, Xb]
  simp only [readInt?, htrim, na, pa, if_false, hmark]
  simp [readDigits?, ua, ub, uc, ud, da, db, dc, dd]

/-- One place of a number in base sixteen. -/
def hexDigit (d : Nat) : Rune := Rune.ofChar d.digitChar

theorem hex?_hexDigit : ∀ d < 16, (hexDigit d).hex? = some d := by decide

theorem hex_four (h : n < 0x10000) :
    hex 4 n = [hexDigit (n / 4096), hexDigit (n / 256 % 16), hexDigit (n / 16 % 16),
      hexDigit (n % 16)] := by
  have hb : 1 < 16 := by decide
  unfold hex hexDigit
  rw [Nat.toDigits_eq_if hb, Nat.toDigits_eq_if hb, Nat.toDigits_eq_if hb,
    Nat.toDigits_of_lt_base (by omega)]
  -- one case for each number of places
  split_ifs with h₁ h₂ h₃
  · obtain ⟨e₃, e₂, e₁, e₀⟩ :
        n / 4096 = 0 ∧ n / 256 % 16 = 0 ∧ n / 16 % 16 = 0 ∧ n % 16 = n := by omega
    rw [e₃, e₂, e₁, e₀]
    rfl
  · obtain ⟨e₃, e₂, e₁⟩ : n / 4096 = 0 ∧ n / 256 % 16 = 0 ∧ n / 16 % 16 = n / 16 := by omega
    rw [e₃, e₂, e₁]
    rfl
  · obtain ⟨e₃, e₂⟩ : n / 4096 = 0 ∧ n / 256 % 16 = n / 16 / 16 := by omega
    rw [e₃, e₂]
    rfl
  · obtain ⟨e₃, e₂⟩ : n / 4096 = n / 16 / 16 / 16 ∧ n / 256 % 16 = n / 16 / 16 % 16 := by omega
    rw [e₃, e₂]
    rfl

theorem code?_hex (h : n < 0x10000) : (hex 4 n).code? = some n := by
  rw [hex_four h, code?, hex?_hexDigit _ (by omega), hex?_hexDigit _ (by omega),
    hex?_hexDigit _ (by omega), hex?_hexDigit _ (by omega)]
  refine congrArg some ?_
  omega

theorem digit?_lt {base d : Nat} (h : r.digit? base = some d) : d < base := by
  simpa using (Option.filter_eq_some_iff.1 h).2

theorem readDigits?_lt {value : Nat} {afterDigit : Bool}
    (h : readDigits? 16 value afterDigit t = some n) : n < (value + 1) * 16 ^ t.length := by
  induction t generalizing value afterDigit with
  | nil =>
    simp only [readDigits?] at h
    split at h
    · cases h
      simp
    · cases h
  | cons r t ih =>
    simp only [List.length_cons, Nat.pow_succ]
    rw [readDigits?] at h
    split at h
    · split at h
      · have hle : (value + 1) * 16 ^ t.length ≤ (value + 1) * (16 ^ t.length * 16) :=
          Nat.mul_le_mul_left _ (by omega)
        exact Nat.lt_of_lt_of_le (ih h) hle
      · cases h
    · split at h
      · next d hd =>
        have hlt := digit?_lt hd
        have := ih h
        calc n < (value * 16 + d + 1) * 16 ^ t.length := this
          _ ≤ ((value + 1) * 16) * 16 ^ t.length := Nat.mul_le_mul_right _ (by omega)
          _ = (value + 1) * (16 ^ t.length * 16) := by rw [Nat.mul_assoc, Nat.mul_comm 16]
      · cases h

theorem length_trim_le (q : Rune → Bool) (t : Text) : (trim q t).length ≤ t.length := by
  have h₁ := (List.dropWhile_sublist (l := t) q).length_le
  have h₂ := (List.dropWhile_sublist (l := (t.dropWhile q).reverse) q).length_le
  simp only [trim, List.length_reverse] at h₂ ⊢
  omega

theorem length_dropMark_le (base : Nat) (t : Text) : (dropMark base t).length ≤ t.length := by
  unfold dropMark
  split
  · split
    · split
      · split
        · split
          · simp
            omega
          · simp
        · simp
      · exact Nat.le_refl _
    · exact Nat.le_refl _
  · exact Nat.le_refl _

/-- A number of so many places is not larger than that. -/
theorem readInt?_lt {n : Int} (h : readInt? 16 t = some n) : n.toNat < 16 ^ t.length := by
  have hlen := length_trim_le Rune.isMargin t
  -- the digits are among the characters that are left
  have hdigits : ∀ (s : Text) (m : Nat), s.length ≤ t.length →
      readDigits? 16 0 false (dropMark 16 s) = some m → m < 16 ^ t.length := by
    intro s m hs hm
    have hpow : 16 ^ (dropMark 16 s).length ≤ 16 ^ t.length :=
      Nat.pow_le_pow_right (by decide) (Nat.le_trans (length_dropMark_le 16 s) hs)
    have hlt := readDigits?_lt hm
    rw [Nat.zero_add, Nat.one_mul] at hlt
    exact Nat.lt_of_lt_of_le hlt hpow
  rw [readInt?] at h
  split at h
  · cases h
  · next r s htrim =>
    simp only [htrim, List.length_cons] at hlen
    split at h
    · obtain ⟨m, hm, rfl⟩ : ∃ m, readDigits? 16 0 false (dropMark 16 s) = some m ∧ -(m : Int) = n := by
        simpa [Option.bind_eq_some_iff] using h
      rw [Int.toNat_neg_natCast]
      exact Nat.pow_pos (by decide)
    · split at h
      · obtain ⟨m, hm, rfl⟩ : ∃ m, readDigits? 16 0 false (dropMark 16 s) = some m ∧ (m : Int) = n := by
          simpa [Option.bind_eq_some_iff] using h
        exact hdigits s m (by omega) hm
      · obtain ⟨m, hm, rfl⟩ :
            ∃ m, readDigits? 16 0 false (dropMark 16 (r :: s)) = some m ∧ (m : Int) = n := by
          simpa [Option.bind_eq_some_iff] using h
        exact hdigits (r :: s) m hlen hm

end Text

namespace Token

/-! ### Strings -/

/-- How a character is written between quotes: with a letter of its own, by number, or as itself. -/
theorem escaped_cases (h : r.code < 0x10000) :
    (∃ e, r.escaped = [Rune.ofChar '\\', e] ∧ escape? e = some r) ∨
    r.escaped = Rune.ofChar '\\' :: Rune.ofChar 'u' :: Text.hex 4 r.code ∨
    (r.escaped = [r] ∧ r ≠ Rune.ofChar '"' ∧ r ≠ Rune.ofChar '\\') := by
  by_cases hb : r = Rune.ofChar '\x08'
  · exact .inl ⟨Rune.ofChar 'b', hb ▸ rfl, hb ▸ by decide⟩
  by_cases ht : r = Rune.ofChar '\t'
  · exact .inl ⟨Rune.ofChar 't', ht ▸ rfl, ht ▸ by decide⟩
  by_cases hn : r = Rune.ofChar '\n'
  · exact .inl ⟨Rune.ofChar 'n', hn ▸ rfl, hn ▸ by decide⟩
  by_cases hf : r = Rune.ofChar '\x0c'
  · exact .inl ⟨Rune.ofChar 'f', hf ▸ rfl, hf ▸ by decide⟩
  by_cases hr : r = Rune.ofChar '\r'
  · exact .inl ⟨Rune.ofChar 'r', hr ▸ rfl, hr ▸ by decide⟩
  by_cases hquote : r = Rune.ofChar '"'
  · exact .inl ⟨r, by rw [hquote]; rfl, by rw [hquote]; decide⟩
  by_cases hslash : r = Rune.ofChar '\\'
  · exact .inl ⟨r, by rw [hslash]; rfl, by rw [hslash]; decide⟩
  rw [Rune.escaped, if_neg hb, if_neg ht, if_neg hn, if_neg hf, if_neg hr, if_neg hquote,
    if_neg hslash, if_neg (by omega)]
  split
  · exact .inr (.inl rfl)
  · exact .inr (.inr ⟨rfl, hquote, hslash⟩)

/-! What is read first decides what is done with it. -/

section Items

variable (rest : Text)

theorem scanBody_quote :
    scanBody (Rune.ofChar '"' :: rest) = ⟨[Rune.ofChar '"'], [], .quote, rest⟩ := by
  rw [scanBody.eq_def]
  simp

theorem scanBody_plain (hquote : r ≠ Rune.ofChar '"') (hslash : r ≠ Rune.ofChar '\\') :
    scanBody (r :: rest) = (scanBody rest).push [r] [r] := by
  rw [scanBody.eq_def]
  simp [hquote, hslash]

theorem scanBody_letter {e : Rune} (h : escape? e = some c) :
    scanBody (Rune.ofChar '\\' :: e :: rest) = (scanBody rest).push [Rune.ofChar '\\', e] [c] := by
  have hslash : Rune.ofChar '\\' ≠ Rune.ofChar '"' := by decide
  rw [scanBody.eq_def]
  simp [hslash, h]

theorem scanBody_number {h₁ h₂ h₃ h₄ : Rune} {n : Int}
    (hn : Text.readInt? 16 [h₁, h₂, h₃, h₄] = some n)
    (hc : (if n < 0 then none else Rune.ofNat? n.toNat) = some c) :
    scanBody (Rune.ofChar '\\' :: Rune.ofChar 'u' :: h₁ :: h₂ :: h₃ :: h₄ :: rest) =
      (scanBody rest).push [Rune.ofChar '\\', Rune.ofChar 'u', h₁, h₂, h₃, h₄] [c] := by
  have hslash : Rune.ofChar '\\' ≠ Rune.ofChar '"' := by decide
  have hletter : escape? (Rune.ofChar 'u') = none := by decide
  rw [scanBody.eq_def]
  simp [hslash, hletter, hn, hc]

end Items

/-- A character that is written between quotes is read back. -/
theorem scanBody_escaped (h : r.code < 0x10000) (t : Text) :
    scanBody (r.escaped ++ t) = (scanBody t).push r.escaped [r] := by
  obtain ⟨e, hesc, he⟩ | hesc | ⟨hesc, hq, hs⟩ := escaped_cases h
  · rw [hesc]
    exact scanBody_letter t he
  · have hread := Text.readInt?_code (Text.code?_hex h)
    rw [Text.hex_four h] at hesc hread
    rw [hesc]
    exact scanBody_number t hread (by simp [Rune.ofNat?, r.lt_bound])
  · rw [hesc]
    exact scanBody_plain t hq hs

theorem scanBody_literal {s : Text} (h : s.Narrow) (rest : Text) :
    scanBody (s.flatMap Rune.escaped ++ Rune.ofChar '"' :: rest) =
      ⟨s.flatMap Rune.escaped ++ [Rune.ofChar '"'], s, .quote, rest⟩ := by
  induction s with
  | nil => exact scanBody_quote rest
  | cons r s ih =>
    obtain ⟨hr, hs⟩ := Text.narrow_cons.1 h
    rw [List.flatMap_cons, List.append_assoc, scanBody_escaped hr, ih hs]
    simp [Body.push]

theorem escape?_narrow {e : Rune} (h : escape? e = some c) (he : e.code < 0x10000) :
    c.code < 0x10000 := by
  unfold escape? at h
  split at h
  · cases h
    exact he
  · repeat' split at h
    all_goals first | (cases h; decide) | cases h

/-- What is read between quotes is no wider than the source, since an escape has four places. -/
theorem scanBody_narrow (h : t.Narrow) :
    (scanBody t).content.Narrow ∧ (scanBody t).rest.Narrow := by
  fun_induction scanBody t with
  | case1 | case3 | case6 | case8 => simp
  | case2 | case5 | case9 | case10 => simp_all
  | case4 e tail c he _ ih =>
    simp only [Text.narrow_cons] at h
    simpa [Body.push, escape?_narrow he h.2.1] using ih h.2.2
  | case7 n c h₁ h₂ h₃ h₄ tail hc _ _ hn ih =>
    simp only [Text.narrow_cons] at h
    have hlt : n.toNat < 16 ^ 4 := by simpa using Text.readInt?_lt hn
    have hcode : c.code < 0x10000 := by
      split at hc
      · cases hc
      · unfold Rune.ofNat? at hc
        split at hc
        · cases hc
          exact hlt
        · cases hc
    simpa [Body.push, hcode] using ih h.2.2.2.2.2.2
  | case11 r rest _ _ ih =>
    simp only [Text.narrow_cons] at h
    simpa [Body.push, h.1] using ih h.2

end Token

end FilterShell
