import FilterShell.Proofs.Decimal.Digits
import FilterShell.Proofs.Token.Literal

/-!
# What is written in ASCII

Literals are written in printable ASCII, whatever the text (`Text.shown_literal`), and numbers in ASCII
(`Decimal.ascii_text`).
-/

namespace FilterShell

variable {t u : Text}

namespace Text

/-- Every character is one of ASCII. -/
def Ascii (t : Text) : Prop := ∀ r ∈ t, r.code < 0x80

instance (t : Text) : Decidable t.Ascii := inferInstanceAs (Decidable (∀ r ∈ t, r.code < 0x80))

theorem Ascii.append (ht : t.Ascii) (hu : u.Ascii) : Ascii (t ++ u) :=
  List.forall_mem_append.2 ⟨ht, hu⟩

theorem forall_mem_ite {P : Rune → Prop} {p : Prop} [Decidable p] (ht : p → ∀ r ∈ t, P r)
    (hu : ¬ p → ∀ r ∈ u, P r) : ∀ r ∈ (if p then t else u), P r := by
  split
  · exact ht ‹p›
  · exact hu ‹¬ p›

theorem Ascii.narrow (h : t.Ascii) : t.Narrow := fun r hr => (h r hr).trans (by decide)

theorem ascii_join {us : List Text} (h : ∀ u ∈ us, u.Ascii) : (join ", " us).Ascii := by
  fun_induction join ", " us with
  | case1 => exact List.forall_mem_nil _
  | case2 t => exact h t List.mem_cons_self
  | case3 t u us ih =>
    obtain ⟨ht, hus⟩ := List.forall_mem_cons.1 h
    have hcomma : Ascii ", " := by decide
    exact (ht.append hcomma).append (ih hus)

/-- Every character is a printable one of ASCII. -/
def Shown (t : Text) : Prop := ∀ r ∈ t, 0x20 ≤ r.code ∧ r.code < 0x7F

instance (t : Text) : Decidable t.Shown :=
  inferInstanceAs (Decidable (∀ r ∈ t, 0x20 ≤ r.code ∧ r.code < 0x7F))

theorem Shown.append (ht : t.Shown) (hu : u.Shown) : Shown (t ++ u) :=
  List.forall_mem_append.2 ⟨ht, hu⟩

theorem Shown.ascii (h : t.Shown) : t.Ascii := fun r hr => (h r hr).2.trans (by decide)

theorem shown_hex {n : Nat} (h : n ≤ 0x10000) : (hex 4 n).Shown := by
  rcases h.eq_or_lt with rfl | h
  · decide
  have hdigit : ∀ d < 16, 0x20 ≤ (hexDigit d).code ∧ (hexDigit d).code < 0x7F := by decide
  have hn : n / 4096 < 16 := by omega
  rw [hex_four h]
  simp [Shown, hdigit, hn, Nat.mod_lt]

theorem shown_escaped (r : Rune) : r.escaped.Shown := by
  have hescape : ∀ s ∈ ["\\b", "\\t", "\\n", "\\f", "\\r", "\\\"", "\\\\", "\\u"],
      Shown (ofString s) := by decide
  have hbound := r.lt_bound
  unfold Rune.escaped
  -- the characters that have a letter of their own, or stand behind a backslash
  iterate 7 refine forall_mem_ite (fun _ => hescape _ (by decide)) fun _ => ?_
  refine forall_mem_ite (fun _ => ?_) fun hlow => forall_mem_ite (fun _ => ?_) fun hshown => ?_
  · have hhigh : 0xD800 + (r.code - 0x10000) / 0x400 ≤ 0x10000 := by omega
    have hlow : 0xDC00 + (r.code - 0x10000) % 0x400 ≤ 0x10000 := by omega
    have hu := hescape "\\u" (by decide)
    exact ((hu.append (shown_hex hhigh)).append hu).append (shown_hex hlow)
  · exact (hescape "\\u" (by decide)).append (shown_hex (Nat.le_of_not_lt hlow))
  · intro r' hr'
    rw [List.mem_singleton.1 hr']
    simp only [Bool.or_eq_true, decide_eq_true_eq, not_or] at hshown
    omega

theorem shown_literal (t : Text) : t.literal.Shown := by
  have hquote : 0x20 ≤ (Rune.ofChar '"').code ∧ (Rune.ofChar '"').code < 0x7F := by decide
  refine Shown.append (List.forall_mem_cons.2 ⟨hquote, ?_⟩) (List.forall_mem_singleton.2 hquote)
  intro r hr
  obtain ⟨r', -, hr⟩ := List.mem_flatMap.1 hr
  exact shown_escaped r' r hr

end Text

namespace Decimal

section Characters

variable {P : Rune → Prop} (hdigit : ∀ r, r.isDigit → P r)
  (hmark : ∀ r ∈ Text.ofString "-+.EInfity", P r)

include hdigit

theorem forall_mem_ofNat (n : Nat) : ∀ r ∈ Text.ofNat n, P r := fun r hr => hdigit r (Text.ofNat_digits hr)

include hmark

theorem forall_mem_ofInt (n : Int) : ∀ r ∈ Text.ofInt n, P r := by
  cases n with
  | ofNat n => exact forall_mem_ofNat hdigit n
  | negSucc n => exact List.forall_mem_cons.2 ⟨hmark _ (by decide), forall_mem_ofNat hdigit _⟩

theorem forall_mem_finiteText (m : Nat) (e : Int) : ∀ r ∈ finiteText m e, P r := by
  have hzero : ∀ r ∈ Text.ofString "0", P r := List.forall_mem_singleton.2 (hdigit _ (by decide))
  have hzeros : ∀ n, ∀ r ∈ Text.repeated n (Text.ofString "0"), P r := by
    intro n r hr
    obtain ⟨zero, hmem, hr⟩ := List.mem_flatten.1 hr
    rw [List.eq_of_mem_replicate hmem] at hr
    exact hzero r hr
  have hpoint : ∀ r ∈ Text.ofString ".", P r := List.forall_mem_singleton.2 (hmark _ (by decide))
  have hint : ∀ r ∈ Text.ofNat m, P r := forall_mem_ofNat hdigit m
  have hexponent : ∀ s ∈ ["E+", "E"], ∀ n, ∀ r ∈ Text.ofString s ++ Text.ofInt n, P r := by
    intro s hs n
    have hsub : ∀ r ∈ Text.ofString s, r ∈ Text.ofString "-+.EInfity" :=
      (by decide : ∀ s ∈ ["E+", "E"], ∀ r ∈ Text.ofString s, r ∈ Text.ofString "-+.EInfity") s hs
    exact List.forall_mem_append.2 ⟨fun r hr => hmark r (hsub r hr), forall_mem_ofInt hdigit hmark n⟩
  unfold finiteText
  extract_lets int len left point shown power
  have hshown : ∀ r ∈ shown, P r := by
    refine Text.forall_mem_ite (fun _ => ?_) fun _ => Text.forall_mem_ite (fun _ => ?_) fun _ => ?_
    · refine List.forall_mem_append.2 ⟨List.forall_mem_append.2 ⟨?_, hzeros _⟩, hint⟩
      exact List.forall_mem_cons.2 ⟨hdigit _ (by decide), hpoint⟩
    · exact List.forall_mem_append.2 ⟨hint, hzeros _⟩
    · refine List.forall_mem_append.2 ⟨List.forall_mem_append.2 ⟨?_, hpoint⟩, ?_⟩
      · exact fun r hr => hint r (List.mem_of_mem_take hr)
      · exact fun r hr => hint r (List.mem_of_mem_drop hr)
  have hpower : ∀ r ∈ power, P r := by
    refine Text.forall_mem_ite (fun _ => ?_) fun _ => Text.forall_mem_ite (fun _ => ?_) fun _ => ?_
    · exact List.forall_mem_nil _
    · exact hexponent _ (by decide) _
    · exact hexponent _ (by decide) _
  exact List.forall_mem_append.2 ⟨hshown, hpower⟩

/-- What holds of digits, and of the signs and letters in numbers, holds of all characters of a number. -/
theorem forall_mem_text {d : Decimal} (h : d.isNaN = false) : ∀ r ∈ d.text, P r := by
  have hsign : ∀ negative, ∀ r ∈ signText negative, P r := by
    intro negative r hr
    exact hmark r ((by decide : ∀ negative, ∀ r ∈ signText negative,
      r ∈ Text.ofString "-+.EInfity") negative r hr)
  cases d with
  | finite negative m e =>
    exact List.forall_mem_append.2 ⟨hsign negative, forall_mem_finiteText hdigit hmark m e⟩
  | infinite negative =>
    refine List.forall_mem_append.2 ⟨hsign negative, fun r hr => hmark r ?_⟩
    exact (by decide : ∀ r ∈ Text.ofString "Infinity", r ∈ Text.ofString "-+.EInfity") r hr
  | nan => cases h

end Characters

theorem ascii_text {d : Decimal} (h : d.isNaN = false) : d.text.Ascii := by
  refine forall_mem_text (fun r hr => ?_) (by decide) h
  simp only [Rune.isDigit, Bool.and_eq_true, decide_eq_true_eq] at hr
  omega

end Decimal

end FilterShell
