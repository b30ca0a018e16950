import FilterShell.Proofs.Json.Scanned
import FilterShell.Proofs.Text.Faithful

/-!
# Scanning lines

`Cut ms u` says that the text `u` is cut into tokens with the marks `ms`, whatever stands around it.  Lines
that are cut one by one are cut alike when they stand below each other, however far they are indented
(`Laid.cut_join`, `Laid.indented`).
-/

namespace FilterShell.Token

variable {ls : List Text}

/-- The text is cut into tokens with the marks, whatever stands in front of it, and whatever stands behind it
that does not run into it. -/
structure Cut (ms : List Mark) (u : Text) : Prop where
  ascii : u.Ascii
  scans : Scans (fun _ => True) (fun _ => True) (fun ts => ts.map mark = ms) u

/-- Every line is cut on its own, and the marks are those of all lines. -/
inductive Laid : List Text → List Mark → Prop
  | nil : Laid [] []
  | cons {u : Text} {ls : List Text} {m ms : List Mark} (hu : Cut m u) (h : Laid ls ms) :
      Laid (u :: ls) (m ++ ms)

/-- Marks with commas between them. -/
def separated : List (List Mark) → List Mark
  | []          => []
  | [m]         => m
  | m :: n :: r => m ++ (.comma, none) :: separated (n :: r)

variable {ms ns : List Mark} {u v : Text} {c : Rune} {k : Kind}

/-! ### Texts -/

theorem cut_one {w : Option Text} (hu : u.Ascii)
    (h : Scans (fun _ => True) (fun _ => True) (fun ts => ∃ t, ts = [t] ∧ t.kind = k ∧ t.text = w) u) :
    Cut [(k, w)] u := by
  refine ⟨hu, h.imp ?_⟩
  rintro _ ⟨t, rfl, rfl, rfl⟩
  rfl

theorem symbol_ascii (h : symbol? c = some k) : c.code < 0x80 := by
  unfold symbol? at h
  split at h <;> rename_i hc <;> cases h <;> rw [eq_ofChar hc] <;> decide

theorem blank_ascii (h : c.isBlank) : c.code < 0x80 := by
  simp only [Rune.isBlank, Bool.or_eq_true, Bool.and_eq_true, decide_eq_true_eq, beq_iff_eq] at h
  omega

theorem blank_apart (h : c.isBlank) : ¬ c.isLetter ∧ ¬ c.isDigit :=
  ⟨fun hl => (letter_only hl).2.1 h, fun hd => (digit_only hd).2.1 h⟩

theorem cut_symbol (hc : symbol? c = some k) : Cut [(k, none)] [c] :=
  cut_one (List.forall_mem_singleton.2 (symbol_ascii hc)) (scans_symbol hc)

theorem Cut.cons_blank (h : Cut ms u) (hc : c.isBlank) : Cut ms (c :: u) :=
  ⟨List.forall_mem_cons.2 ⟨blank_ascii hc, h.ascii⟩, h.scans.cons_blank hc⟩

theorem Cut.cons_symbol (h : Cut ms u) (hc : symbol? c = some k) : Cut ((k, none) :: ms) (c :: u) := by
  refine ⟨List.forall_mem_cons.2 ⟨symbol_ascii hc, h.ascii⟩, ?_⟩
  intro lead p r hr
  obtain ⟨ts, next, rfl, -, hscan⟩ := h.scans [] (p.after c) r hr
  refine ⟨placed k (lead ++ [c]) none p :: ts, next, rfl, fun _ _ => ⟨fun _ _ _ => trivial,
    fun _ _ _ => trivial⟩, ?_⟩
  rw [List.cons_append, scanFrom_symbol lead p hc, hscan, pushAll_push]

/-- Two texts one after the other, if the second does not run into the first. -/
theorem Cut.append (h : Cut ms u) (hv : Cut ns (c :: v)) (hc : ¬ c.isLetter ∧ ¬ c.isDigit) :
    Cut (ms ++ ns) (u ++ c :: v) := by
  refine ⟨h.ascii.append hv.ascii, (h.scans.append hv.scans hc).imp ?_⟩
  rintro _ ⟨us, vs, rfl, rfl, rfl⟩
  exact List.map_append

theorem Cut.append_blank (h : Cut ms u) (hv : Cut ns v) (hc : c.isBlank) :
    Cut (ms ++ ns) (u ++ c :: v) := h.append (hv.cons_blank hc) (blank_apart hc)

theorem Cut.append_symbol (h : Cut ms u) (hv : Cut ns v) (hc : symbol? c = some k) :
    Cut (ms ++ (k, none) :: ns) (u ++ c :: v) := h.append (hv.cons_symbol hc) (symbol_apart hc)

theorem Cut.snoc_symbol (h : Cut ms u) (hc : symbol? c = some k) :
    Cut (ms ++ [(k, none)]) (u ++ [c]) := h.append (cut_symbol hc) (symbol_apart hc)

/-- **A literal is one token**, whatever the text of it. -/
theorem cut_literal (t : Text) : Cut [(.string, some (t.flatMap Rune.units))] t.literal := by
  obtain ⟨w, hliteral, hcontent⟩ := isLiteral_literal t
  refine cut_one (Text.shown_literal t).ascii (scans_one (fun _ _ => ⟨fun _ _ _ => trivial,
    fun _ _ _ => trivial⟩) fun lead p r _ => ?_)
  have hbody : scanBody (w ++ Rune.ofChar '"' :: r) =
      ⟨w ++ [Rune.ofChar '"'], t.flatMap Rune.units, .quote, r⟩ := by
    rw [scanBody_content hcontent, scanBody_quote]
    simp [Body.push]
  rw [hliteral, List.cons_append, List.append_assoc, List.singleton_append, scanFrom]
  simp only [hbody]
  exact ⟨_, _, _, rfl⟩

/-! ### Words -/

/-- The character of a word: a letter, digit or symbol. -/
def InWord (r : Rune) : Prop := r.isLetter ∨ r.isDigit ∨ (symbol? r).isSome

instance (r : Rune) : Decidable (InWord r) :=
  inferInstanceAs (Decidable (r.isLetter ∨ r.isDigit ∨ (symbol? r).isSome))

/-- The longest run of characters of a class. -/
theorem exists_run {q : Rune → Bool} (hc : q c) (t : Text) :
    ∃ w r, c :: t = w ++ r ∧ w ≠ [] ∧ (∀ x ∈ w, q x) ∧ ∀ x ∈ r.head?, ¬ q x := by
  refine ⟨_, _, List.takeWhile_append_dropWhile.symm, ?_, fun x hx => List.mem_takeWhile_imp hx, ?_⟩
  · rw [List.takeWhile_cons_of_pos hc]
    exact List.cons_ne_nil _ _
  · intro x hx
    have hhead := List.head?_dropWhile_not q (c :: t)
    rw [hx] at hhead
    exact Bool.not_eq_true _ ▸ hhead

/-- A run of characters in front of a word, which is one token. -/
theorem cut_run {q : Rune → Bool} {w t : Text} (hq : ∀ x, ¬ x.isLetter ∧ ¬ x.isDigit → ¬ q x)
    (hscan : ∀ lead p r, (∀ x ∈ r.head?, ¬ q x) → scanFrom lead p [] (w ++ r) =
      (scanFrom [] (p.afterAll w) [] r).push (placed k (lead ++ w) (some w) p))
    (hascii : Text.Ascii w) (hhead : ∀ x ∈ t.head?, ¬ q x) (ht : t ≠ [] → ∃ ms, Cut ms t) :
    ∃ ms, Cut ms (w ++ t) := by
  by_cases hnil : t = []
  · subst hnil
    rw [List.append_nil]
    refine ⟨_, cut_one hascii (scans_one (w := some w) (fun _ _ => ⟨fun _ _ _ => trivial,
      fun _ _ _ => trivial⟩) fun lead p r hr => ⟨_, _, _, hscan lead p r fun x hx => hq x (hr x hx)⟩)⟩
  · obtain ⟨ms, hcut⟩ := ht hnil
    refine ⟨(k, some w) :: ms, hascii.append hcut.ascii, fun lead p r hr => ?_⟩
    obtain ⟨ts, next, rfl, -, hrest⟩ := hcut.scans [] (p.afterAll w) r hr
    refine ⟨placed k (lead ++ w) (some w) p :: ts, next, rfl, fun _ _ => ⟨fun _ _ _ => trivial,
      fun _ _ _ => trivial⟩, ?_⟩
    have hhead' : ∀ x ∈ (t ++ r).head?, ¬ q x := by
      rwa [List.head?_append_of_ne_nil t hnil]
    rw [List.append_assoc, hscan lead p (t ++ r) hhead', hrest, pushAll_push]

/-- **A word is cut into something**: names, numbers and symbols. -/
theorem exists_cut_word (hne : u ≠ []) (h : ∀ r ∈ u, InWord r) : ∃ ms, Cut ms u := by
  induction hn : u.length using Nat.strong_induction_on generalizing u with
  | _ n ih =>
    subst hn
    obtain ⟨c, t, rfl⟩ := List.exists_cons_of_ne_nil hne
    -- what stands behind a run at the start is shorter
    have hrest : ∀ w r, c :: t = w ++ r → w ≠ [] → r ≠ [] → ∃ ms, Cut ms r := by
      intro w r heq hw hr
      have hlength := congrArg List.length heq
      rw [List.length_append] at hlength
      have hpos := List.length_pos_iff.2 hw
      refine ih r.length (by omega) hr (fun x hx => h x ?_) rfl
      rw [heq]
      exact List.mem_append_right w hx
    rcases h c List.mem_cons_self with hc | hc | hc
    · obtain ⟨w, r, heq, hw, hletters, hhead⟩ := exists_run hc t
      have hascii : Text.Ascii w := by
        intro x hx
        have hx := hletters x hx
        simp only [Rune.isLetter, Bool.or_eq_true, Bool.and_eq_true, decide_eq_true_eq] at hx
        omega
      rw [heq]
      exact cut_run (fun x hx => hx.1) (fun lead p _ hr => scanFrom_name lead p hw hletters hr)
        hascii hhead (hrest w r heq hw)
    · obtain ⟨w, r, heq, hw, hdigits, hhead⟩ := exists_run hc t
      have hascii : Text.Ascii w := by
        intro x hx
        have hx := hdigits x hx
        simp only [Rune.isDigit, Bool.and_eq_true, decide_eq_true_eq] at hx
        omega
      rw [heq]
      exact cut_run (fun x hx => hx.2) (fun lead p _ hr => scanFrom_number lead p hw hdigits hr)
        hascii hhead (hrest w r heq hw)
    · obtain ⟨k, hk⟩ := Option.isSome_iff_exists.1 hc
      by_cases hnil : t = []
      · subst hnil
        exact ⟨_, cut_symbol hk⟩
      · obtain ⟨ms, hcut⟩ := hrest [c] t rfl (List.cons_ne_nil _ _) hnil
        exact ⟨_, hcut.cons_symbol hk⟩

theorem exists_cut_number {d : Decimal} (h : d.isNaN = false) : ∃ ms, Cut ms d.text := by
  refine exists_cut_word ?_ (Decimal.forall_mem_text (fun r hr => .inr (.inl hr)) (by decide) h)
  rcases Decimal.text_cases h with ⟨n, -, htext⟩ | ⟨w, c, t, htext, -, -⟩
  · rw [htext]
    exact Text.ofNat_ne_nil n
  · rw [htext]
    simp

/-! ### Parts with commas between them -/

section Parts

variable {α : Type} {f : α → Text} {M : α → List Mark} {xs : List α}

theorem cut_join (hne : xs ≠ []) (h : ∀ x ∈ xs, Cut (M x) (f x)) :
    Cut (separated (xs.map M)) (Text.join ", " (xs.map f)) := by
  induction xs with
  | nil => exact absurd rfl hne
  | cons x xs ih =>
    obtain ⟨hx, hxs⟩ := List.forall_mem_cons.1 h
    cases xs with
    | nil => exact hx
    | cons y ys =>
      have hrest := ih (List.cons_ne_nil y ys) hxs
      simp only [List.map_cons, join_cons_cons]
      exact hx.append_symbol (hrest.cons_blank (by decide)) symbol_comma

/-- Parts in brackets. -/
theorem cut_bracketed {o c : Rune} {ko kc : Kind} (ho : symbol? o = some ko) (hc : symbol? c = some kc)
    (h : ∀ x ∈ xs, Cut (M x) (f x)) :
    Cut ((ko, none) :: (separated (xs.map M) ++ [(kc, none)]))
      ([o] ++ Text.join ", " (xs.map f) ++ [c]) := by
  refine Cut.cons_symbol ?_ ho
  by_cases hnil : xs = []
  · subst hnil
    exact cut_symbol hc
  · exact (cut_join hnil h).snoc_symbol hc

end Parts

/-! ### Lines -/

theorem laid_one (h : Cut ms u) : Laid [u] ms := by
  simpa using Laid.cons h .nil

theorem Laid.append {ls' : List Text} (h : Laid ls ms) (h' : Laid ls' ns) :
    Laid (ls ++ ls') (ms ++ ns) := by
  induction h with
  | nil => exact h'
  | cons hu _ ih =>
    rw [List.append_assoc]
    exact .cons hu ih

/-- The last line can be taken off. -/
theorem Laid.concat_inv (h : Laid (ls ++ [u]) ms) : ∃ m n, ms = m ++ n ∧ Laid ls m ∧ Cut n u := by
  induction ls generalizing ms with
  | nil =>
    obtain _ | ⟨hu, ⟨⟩⟩ := h
    exact ⟨[], _, List.append_nil _, .nil, hu⟩
  | cons w ls ih =>
    obtain _ | ⟨hw, h⟩ := h
    obtain ⟨m, n, rfl, hls, hu⟩ := ih h
    exact ⟨_, n, (List.append_assoc _ _ _).symm, .cons hw hls, hu⟩

theorem Laid.indented (h : Laid ls ms) : Laid (ls.map (Text.ofString "  " ++ ·)) ms := by
  induction h with
  | nil => exact .nil
  | cons hu _ ih => exact .cons ((hu.cons_blank (by decide)).cons_blank (by decide)) ih

/-- A symbol behind the last line. -/
theorem Laid.snoc_symbol (h : Laid (ls ++ [u]) ms) (hc : symbol? c = some k) :
    Laid (ls ++ [u ++ [c]]) (ms ++ [(k, none)]) := by
  obtain ⟨m, n, rfl, hls, hu⟩ := h.concat_inv
  rw [List.append_assoc]
  exact hls.append (laid_one (hu.snoc_symbol hc))

/-- The last line goes on, behind a colon, with the first one of other lines. -/
theorem Laid.colon {ls ls' : List Text} (h : Laid (ls ++ [u]) ms) (h' : Laid (v :: ls') ns) :
    Laid (ls ++ (u ++ Text.ofString ": " ++ v) :: ls') (ms ++ (.colon, none) :: ns) := by
  obtain ⟨m, n, rfl, hls, hu⟩ := h.concat_inv
  obtain _ | @⟨_, _, m', ms', hv, h'⟩ := h'
  have hline := hu.append_symbol (hv.cons_blank (by decide : (Rune.ofChar ' ').isBlank)) symbol_colon
  have hmarks : m ++ n ++ (Kind.colon, none) :: (m' ++ ms') =
      m ++ ((n ++ (Kind.colon, none) :: m') ++ ms') := by
    simp
  rw [hmarks, List.append_assoc u]
  exact hls.append (.cons hline h')

/-- **Lines below each other** are cut as each of them is. -/
theorem Laid.cut_join (h : Laid ls ms) (hne : ls ≠ []) : Cut ms (Text.join "\n" ls) := by
  induction h with
  | nil => exact absurd rfl hne
  | @cons u ls m ms hu h ih =>
    cases ls with
    | nil =>
      cases h
      rwa [List.append_nil]
    | cons w ls =>
      have hrest := ih (List.cons_ne_nil w ls)
      rw [Text.join, List.append_assoc]
      exact hu.append_blank hrest (by decide : (Rune.ofChar '\n').isBlank)

/-- The whole text is cut. -/
theorem Cut.scan_eq (h : Cut ms u) : ∃ ts, scan u = ⟨ts, none⟩ ∧ ts.map mark = ms := by
  obtain ⟨ts, hms, -, hscan⟩ := h.scans.scan_eq h.ascii
  exact ⟨ts, hscan, hms⟩

end FilterShell.Token
