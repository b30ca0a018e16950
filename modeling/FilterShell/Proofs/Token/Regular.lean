import FilterShell.Proofs.Token.Literal

/-!
# Scanned tokens

The tokens of a source are regular: a name has letters, a number has digits, comments, strings and
their pieces have some text, and a symbol has none.  If no character of the source is above `0xFFFF`, then none
in a string is, since an escape has only four places.
-/

namespace FilterShell

variable {source : Text}

namespace Token

/-- The text of a token is what its kind asks for. -/
def Regular (t : Token) : Prop :=
  match t.kind with
  | .name   => ∃ w, t.text = some w ∧ w ≠ [] ∧ ∀ r ∈ w, r.isLetter
  | .number => ∃ w, t.text = some w ∧ w ≠ [] ∧ ∀ r ∈ w, r.isDigit
  | .comment | .illegal | .string | .stringEnd | .stringEndIncomplete | .stringIncomplete
  | .stringMiddle | .stringStart => ∃ w, t.text = some w
  | _       => t.text = none

theorem symbol_regular {r : Rune} {k : Kind} (h : symbol? r = some k) (source : Text)
    (p : Position) : (placed k source none p).Regular ∧ k ≠ .trailingWhitespace := by
  unfold symbol? at h
  split at h <;> simp at h <;> subst h <;> simp [Regular, placed]

theorem piece_regular (continued : Bool) (stop : Stop) (source content : Text) (p : Position) :
    (placed (pieceKind continued stop) source (some content) p).Regular ∧
      pieceKind continued stop ≠ .trailingWhitespace := by
  cases continued <;> cases stop <;> simp [Regular, placed, pieceKind]

/-- Every token is regular, and one with another behind it is not trailing white space. -/
def AllRegular (tokens : List Token) : Prop :=
  (∀ t ∈ tokens, t.Regular) ∧ tokens.Pairwise fun t _ => t.kind ≠ .trailingWhitespace

theorem AllRegular.cons {t : Token} {tokens : List Token}
    (ht : t.Regular ∧ t.kind ≠ .trailingWhitespace) (h : AllRegular tokens) :
    AllRegular (t :: tokens) :=
  ⟨List.forall_mem_cons.2 ⟨ht.1, h.1⟩, List.pairwise_cons.2 ⟨fun _ _ => ht.2, h.2⟩⟩

theorem allRegular_single {t : Token} (ht : t.Regular) : AllRegular [t] :=
  ⟨by simpa using ht, List.pairwise_singleton _ _⟩

theorem takeWhile_regular {q : Rune → Bool} {r : Rune} {rest : Text} (h : q r) :
    (r :: rest).takeWhile q ≠ [] ∧ ∀ c ∈ (r :: rest).takeWhile q, q c := by
  refine ⟨by simp [h], fun c hc => ?_⟩
  exact List.all_eq_true.1 List.all_takeWhile c hc

/-- **All scanned tokens are regular.** -/
theorem scanFrom_regular (lead : Text) (p : Position) (depths : List Nat) (source : Text) :
    AllRegular (scanFrom lead p depths source).tokens := by
  fun_induction scanFrom lead p depths source with
  | case1 => simp [AllRegular]
  | case2 => exact allRegular_single rfl
  | case3 | case4 | case5 => exact AllRegular.cons (piece_regular ..) ‹_›
  | case6 | case7 =>
    exact AllRegular.cons (piece_regular ..) (allRegular_single (by simp [Regular, placed]))
  | case8 => simp [AllRegular]
  | case9 => assumption
  | case10 =>
    exact AllRegular.cons ⟨by simp [Regular, placed], by simp [placed]⟩ ‹_›
  | case11 lead p depths r rest closes hq hb hc hl letters ih =>
    exact AllRegular.cons ⟨⟨letters, rfl, takeWhile_regular hl⟩, by simp [placed]⟩ ih
  | case12 lead p depths r rest closes hq hb hc hl hd digits ih =>
    exact AllRegular.cons ⟨⟨digits, rfl, takeWhile_regular hd⟩, by simp [placed]⟩ ih
  | case13 lead p depths r rest closes hq hb hc hl hd kind hk ds ih =>
    exact AllRegular.cons (symbol_regular hk ..) ih
  | case14 => exact allRegular_single (by simp [Regular, placed])

/-- **The tokens of a source are regular.** -/
theorem scan_regular (source : Text) : AllRegular (scan source).tokens := by
  unfold scan
  split
  · exact scanFrom_regular ..
  · split <;> exact scanFrom_regular ..

/-! ### Narrow sources -/

/-- The text of the token is narrow. -/
def Narrow (t : Token) : Prop := ∀ w, t.text = some w → w.Narrow

theorem narrow_text {k : Kind} {w : Text} {p : Position} (h : w.Narrow) :
    (placed k source (some w) p).Narrow := by
  rintro _ ⟨⟩
  exact h

theorem narrow_symbol (k : Kind) (source : Text) (p : Position) :
    (placed k source none p).Narrow := nofun

theorem narrow_part {s t : Text} (h : s.Sublist t) (ht : t.Narrow) : s.Narrow := fun r hr =>
  ht r (h.subset hr)

/-- An escape names no wide character. -/
theorem scanFrom_narrow (h : source.Narrow) (lead : Text) (p : Position)
    (depths : List Nat) : ∀ t ∈ (scanFrom lead p depths source).tokens, t.Narrow := by
  fun_induction scanFrom lead p depths source with
  | case1 | case8 => simp
  | case2 => simp [Narrow]
  | case3 lead p depths r rest _ _ body _ piece _ _ _ ih
  | case4 lead p depths r rest _ _ body _ piece _ _ _ ih
  | case5 lead p depths r rest _ _ body _ piece _ _ _ ih =>
    obtain ⟨hc, hr⟩ := scanBody_narrow (Text.narrow_cons.1 h).2
    exact List.forall_mem_cons.2 ⟨narrow_text hc, ih hr⟩
  | case6 lead p depths r rest _ _ body _ piece =>
    obtain ⟨hc, hr⟩ := scanBody_narrow (Text.narrow_cons.1 h).2
    exact List.forall_mem_cons.2 ⟨narrow_text hc, List.forall_mem_singleton.2 (narrow_text hr)⟩
  | case7 lead p depths r rest _ _ body _ piece =>
    obtain ⟨hc, hr⟩ := scanBody_narrow (Text.narrow_cons.1 h).2
    have hslash : Text.Narrow (Rune.ofChar '\\' :: body.rest) :=
      Text.narrow_cons.2 ⟨by decide, hr⟩
    exact List.forall_mem_cons.2
      ⟨narrow_text hc, List.forall_mem_singleton.2 (narrow_text hslash)⟩
  | case9 lead p depths r rest _ _ _ ih => exact ih (Text.narrow_cons.1 h).2
  | case10 lead p depths rest comment _ _ _ ih =>
    have hr := (Text.narrow_cons.1 h).2
    exact List.forall_mem_cons.2 ⟨narrow_text (narrow_part (List.takeWhile_sublist _) hr),
      ih (narrow_part (List.dropWhile_sublist _) hr)⟩
  | case11 lead p depths r rest _ _ _ _ _ letters ih =>
    exact List.forall_mem_cons.2 ⟨narrow_text (narrow_part (List.takeWhile_sublist _) h),
      ih (narrow_part (List.dropWhile_sublist _) h)⟩
  | case12 lead p depths r rest _ _ _ _ _ _ digits ih =>
    exact List.forall_mem_cons.2 ⟨narrow_text (narrow_part (List.takeWhile_sublist _) h),
      ih (narrow_part (List.dropWhile_sublist _) h)⟩
  | case13 lead p depths r rest _ _ _ _ _ _ kind _ _ ih =>
    exact List.forall_mem_cons.2 ⟨narrow_symbol _ _ _, ih (Text.narrow_cons.1 h).2⟩
  | case14 => exact List.forall_mem_singleton.2 (narrow_text h)

/-- **The tokens of a narrow source are narrow.** -/
theorem scan_narrow (h : source.Narrow) : ∀ t ∈ (scan source).tokens, t.Narrow := by
  unfold scan
  split
  · exact scanFrom_narrow h _ _ _
  · split
    · exact scanFrom_narrow (Text.narrow_cons.1 h).2 _ _ _
    · exact scanFrom_narrow h _ _ _

/-! ### Pieces of source -/

theorem scanFrom_source (lead : Text) (p : Position) (depths : List Nat) (source : Text) :
    ∀ t ∈ (scanFrom lead p depths source).tokens, t.source.isSome := by
  fun_induction scanFrom lead p depths source with
  | case1 | case8 => simp
  | case2 | case14 => simp [placed]
  | case3 | case4 | case5 | case10 | case11 | case12 | case13 =>
    exact List.forall_mem_cons.2 ⟨rfl, ‹_›⟩
  | case6 | case7 => exact List.forall_mem_cons.2 ⟨rfl, List.forall_mem_singleton.2 rfl⟩
  | case9 => assumption

theorem scan_source (source : Text) : ∀ t ∈ (scan source).tokens, t.source.isSome := by
  unfold scan
  split
  · exact scanFrom_source _ _ _ _
  · split <;> exact scanFrom_source _ _ _ _

end Token

end FilterShell
