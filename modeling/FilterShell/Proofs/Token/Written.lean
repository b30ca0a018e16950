import FilterShell.Proofs.Filter.Tree
import FilterShell.Proofs.Token.Literal

/-!
# Scanning what was written

`Written t ms` says that the text `t` writes the tokens with the marks `ms` one after the other, with
blanks wherever they are wanted.  A name or number must not run into a letter or digit.  Such a text is cut into
these tokens again (`scan_written`), besides white space at its end.
-/

namespace FilterShell

variable {ms : List Mark} {k : Kind} {w : Text} {r : Rune}

namespace Token

/-- No name or number goes on in the text. -/
def Apart (t : Text) : Prop := ∀ r ∈ t.head?, ¬ r.isLetter ∧ ¬ r.isDigit

theorem apart_nil : Apart [] := nofun

theorem apart_cons {t : Text} (h : ¬ r.isLetter ∧ ¬ r.isDigit) : Apart (r :: t) := by
  rintro _ ⟨⟩
  exact h

/-- The text writes the marks one after the other. -/
inductive Written : Text → List Mark → Prop
  | nil : Written [] []
  | blank {r : Rune} {t : Text} {ms : List Mark} (hr : r.isBlank) (ht : Written t ms) :
      Written (r :: t) ms
  | symbol {r : Rune} {k : Kind} {t : Text} {ms : List Mark} (hr : symbol? r = some k)
      (ht : Written t ms) : Written (r :: t) ((k, none) :: ms)
  | name {w t : Text} {ms : List Mark} (hw : w ≠ []) (hl : ∀ r ∈ w, r.isLetter) (ha : Apart t)
      (ht : Written t ms) : Written (w ++ t) ((.name, some w) :: ms)
  | number {w t : Text} {ms : List Mark} (hw : w ≠ []) (hd : ∀ r ∈ w, r.isDigit) (ha : Apart t)
      (ht : Written t ms) : Written (w ++ t) ((.number, some w) :: ms)
  | string {s t : Text} {ms : List Mark} (hs : s.Narrow) (ht : Written t ms) :
      Written (s.literal ++ t) ((.string, some s) :: ms)

/-! ### Characters -/

theorem eq_ofChar {c : Char} (h : r.toChar? = some c) : r = Rune.ofChar c := by
  unfold Rune.toChar? at h
  by_cases hv : r.code.isValidChar
  · rw [dif_pos hv] at h
    cases h
    rfl
  · rw [dif_neg hv] at h
    cases h

/-- A symbol is nothing else. -/
theorem symbol_only (h : symbol? r = some k) :
    r ≠ Rune.ofChar '"' ∧ ¬ r.isBlank ∧ r ≠ Rune.ofChar '#' ∧ ¬ r.isLetter ∧ ¬ r.isDigit ∧
      r ≠ byteOrderMark ∧ k ≠ .comment ∧ k ≠ .illegal ∧ k ≠ .trailingWhitespace := by
  unfold symbol? at h
  split at h <;> rename_i hr <;> cases h <;> rw [eq_ofChar hr] <;> decide

theorem letter_only (h : r.isLetter) :
    r ≠ Rune.ofChar '"' ∧ ¬ r.isBlank ∧ r ≠ Rune.ofChar '#' ∧ r ≠ byteOrderMark := by
  have hblank : ¬ r.isBlank := by
    simp only [Rune.isLetter, Rune.isBlank, Bool.or_eq_true, Bool.and_eq_true, decide_eq_true_eq,
      beq_iff_eq] at h ⊢
    omega
  refine ⟨?_, hblank, ?_, ?_⟩ <;> rintro rfl <;> revert h <;> decide

theorem digit_only (h : r.isDigit) :
    r ≠ Rune.ofChar '"' ∧ ¬ r.isBlank ∧ r ≠ Rune.ofChar '#' ∧ ¬ r.isLetter ∧
      r ≠ byteOrderMark := by
  have hblank : ¬ r.isBlank ∧ ¬ r.isLetter := by
    simp only [Rune.isDigit, Rune.isLetter, Rune.isBlank, Bool.or_eq_true, Bool.and_eq_true,
      decide_eq_true_eq, beq_iff_eq] at h ⊢
    omega
  refine ⟨?_, hblank.1, ?_, hblank.2, ?_⟩ <;> rintro rfl <;> revert h <;> decide

theorem blank_only (h : r.isBlank) : r ≠ Rune.ofChar '"' ∧ r ≠ byteOrderMark := by
  refine ⟨?_, ?_⟩ <;> rintro rfl <;> revert h <;> decide

/-- A run of characters of a class ends where the class does. -/
theorem takeWhile_run {q : Rune → Bool} {t : Text} (hw : ∀ r ∈ w, q r)
    (ht : ∀ r ∈ t.head?, ¬ q r) : (w ++ t).takeWhile q = w ∧ (w ++ t).dropWhile q = t := by
  rw [List.takeWhile_append_of_pos hw, List.dropWhile_append_of_pos hw]
  cases t with
  | nil => simp
  | cons r t => simp [ht r rfl]

/-! ### One token -/

section Chunk

variable (lead : Text) (p : Position) {t : Text}

theorem scanFrom_blank (h : r.isBlank) :
    scanFrom lead p [] (r :: t) = scanFrom (lead ++ [r]) (p.after r) [] t := by
  have hq := (blank_only h).1
  rw [scanFrom]
  simp [hq, h]

theorem scanFrom_symbol (h : symbol? r = some k) : scanFrom lead p [] (r :: t) =
      (scanFrom [] (p.after r) [] t).push (placed k (lead ++ [r]) none p) := by
  obtain ⟨hq, hb, hc, hl, hd, -⟩ := symbol_only h
  rw [scanFrom]
  simp [hq, hb, hc, hl, hd, h]

theorem scanFrom_name (hw : w ≠ []) (hl : ∀ r ∈ w, r.isLetter) (ha : ∀ r ∈ t.head?, ¬ r.isLetter) :
    scanFrom lead p [] (w ++ t) =
      (scanFrom [] (p.afterAll w) [] t).push (placed .name (lead ++ w) (some w) p) := by
  obtain ⟨r, w, rfl⟩ := List.exists_cons_of_ne_nil hw
  obtain ⟨htake, hdrop⟩ := takeWhile_run hl ha
  have hr := hl r List.mem_cons_self
  obtain ⟨hq, hb, hc, -⟩ := letter_only hr
  rw [List.cons_append] at htake hdrop ⊢
  rw [scanFrom]
  simp [htake, hdrop, hq, hb, hc, hr]

theorem scanFrom_number (hw : w ≠ []) (hd : ∀ r ∈ w, r.isDigit) (ha : ∀ r ∈ t.head?, ¬ r.isDigit) :
    scanFrom lead p [] (w ++ t) =
      (scanFrom [] (p.afterAll w) [] t).push (placed .number (lead ++ w) (some w) p) := by
  obtain ⟨r, w, rfl⟩ := List.exists_cons_of_ne_nil hw
  obtain ⟨htake, hdrop⟩ := takeWhile_run hd ha
  have hr := hd r List.mem_cons_self
  obtain ⟨hq, hb, hc, hl, -⟩ := digit_only hr
  rw [List.cons_append] at htake hdrop ⊢
  rw [scanFrom]
  simp [htake, hdrop, hq, hb, hc, hl, hr]

theorem scanFrom_string {s : Text} (hs : s.Narrow) :
    ∃ source start next, scanFrom lead p [] (s.literal ++ t) =
      (scanFrom [] next [] t).push (placed .string source (some s) start) := by
  rw [Text.literal, List.cons_append, List.cons_append, scanFrom]
  simp only [List.append_assoc, List.singleton_append, scanBody_literal hs]
  exact ⟨_, _, _, rfl⟩

end Chunk

/-! ### The whole text -/

/-- The source is cut into tokens with the marks `ms`, besides white space at its end. -/
def Scanned.Gives (s : Scanned) (ms : List Mark) : Prop :=
  s.error = none ∧ (∀ t ∈ s.tokens, t.kind ≠ .comment ∧ t.kind ≠ .illegal) ∧
    (s.tokens.filter fun t => t.kind ≠ .trailingWhitespace).map mark = ms

theorem Scanned.Gives.push {s : Scanned} {source : Text}
    {text : Option Text} {p : Position} (h : s.Gives ms)
    (hk : k ≠ .comment ∧ k ≠ .illegal ∧ k ≠ .trailingWhitespace) :
    (s.push (placed k source text p)).Gives ((k, text) :: ms) := by
  refine ⟨h.1, List.forall_mem_cons.2 ⟨⟨hk.1, hk.2.1⟩, h.2.1⟩, ?_⟩
  simp [Scanned.push, placed, hk.2.2, ← h.2.2, mark]

/-- What was written is cut as it was written. -/
theorem scanFrom_written {t : Text} (h : Written t ms) (lead : Text)
    (p : Position) : (scanFrom lead p [] t).Gives ms := by
  induction h generalizing lead p with
  | nil =>
    rw [scanFrom]
    split <;> simp [Scanned.Gives]
  | blank hr _ ih =>
    rw [scanFrom_blank _ _ hr]
    exact ih _ _
  | symbol hr _ ih =>
    rw [scanFrom_symbol _ _ hr]
    exact (ih _ _).push (symbol_only hr).2.2.2.2.2.2
  | name hw hl ha _ ih =>
    rw [scanFrom_name _ _ hw hl fun r hr => (ha r hr).1]
    exact (ih _ _).push (by decide)
  | number hw hd ha _ ih =>
    rw [scanFrom_number _ _ hw hd fun r hr => (ha r hr).2]
    exact (ih _ _).push (by decide)
  | string hs _ ih =>
    obtain ⟨_, _, _, hscan⟩ := scanFrom_string lead p hs
    rw [hscan]
    exact (ih _ _).push (by decide)

theorem Written.head_ne_mark {t : Text} (h : Written t ms) : ∀ r ∈ t.head?, r ≠ byteOrderMark := by
  cases h with
  | nil => simp
  | blank hr => simpa using (blank_only hr).2
  | symbol hr => simpa using (symbol_only hr).2.2.2.2.2.1
  | @name w t _ hw hl =>
    obtain ⟨r, w, rfl⟩ := List.exists_cons_of_ne_nil hw
    simpa using (letter_only (hl r List.mem_cons_self)).2.2.2
  | @number w t _ hw hd =>
    obtain ⟨r, w, rfl⟩ := List.exists_cons_of_ne_nil hw
    simpa using (digit_only (hd r List.mem_cons_self)).2.2.2.2
  | string =>
    simp only [Text.literal, List.cons_append, List.head?_cons, Option.mem_some_iff]
    rintro r rfl
    decide

/-- **What was written is cut into its tokens.** -/
theorem scan_written {t : Text} (h : Written t ms) : (scan t).Gives ms := by
  have hhead := h.head_ne_mark
  unfold scan
  split
  · exact scanFrom_written h [] {}
  · next r rest =>
    rw [if_neg (hhead r rfl)]
    exact scanFrom_written h [] {}

end Token

end FilterShell
