import FilterShell.Proofs.Token.Lossless
import FilterShell.Proofs.Token.Written
import Mathlib.Data.List.DropRight

/-!
# Where tokens stand

A token has the place of its first character, and a string that of the character behind its quote.  The place
that the scan carries along is the one that the text taken so far gives (`Position.afterAll_eq`): as many lines
as it has line feeds, and as many columns as it has characters behind the last of them.  So it is
found from the tokens before it (`scan_positions`).
-/

namespace FilterShell

/-- The character that ends a line. -/
def Rune.lineFeed : Rune := Rune.ofChar '\n'

namespace Position

theorem afterAll_append (p : Position) (t u : Text) : p.afterAll (t ++ u) = (p.afterAll t).afterAll u :=
  List.foldl_append

/-- **The place behind a text** is given by its line feeds and what stands behind the last of them. -/
theorem afterAll_eq (t : Text) : Position.afterAll {} t =
    ⟨1 + t.count Rune.lineFeed, (t.rtakeWhile (· ≠ Rune.lineFeed)).length⟩ := by
  induction t using List.reverseRecOn with
  | nil => rfl
  | append_singleton t r ih =>
    have hlast : Position.afterAll {} (t ++ [r]) = (Position.afterAll {} t).after r := afterAll_append _ _ _
    rw [hlast, ih, after, show Rune.ofChar '\n' = Rune.lineFeed from rfl, List.count_append,
      List.rtakeWhile_concat]
    by_cases hr : r = Rune.lineFeed
    · rw [if_pos hr, hr]
      simp [Nat.add_assoc]
    · rw [if_neg hr]
      simp [hr]

end Position

namespace Token

/-- White space, or the mark in front of a source, which counts as such. -/
def isLead (r : Rune) : Bool := r.isBlank || r = byteOrderMark

/-- The white space in front of a token. -/
def leading (t : Token) : Text := (t.source.getD []).takeWhile isLead

/-- The piece of source of a token without the white space in front of it. -/
def core (t : Token) : Text := (t.source.getD []).dropWhile isLead

/-- A text without the mark in front of it. -/
def unmarked : Text → Text
  | []     => []
  | r :: t => if r = byteOrderMark then t else r :: t

theorem unmarked_append {r : Rune} (h : r ≠ byteOrderMark) (t u : Text) :
    unmarked (t ++ r :: u) = unmarked t ++ r :: u := by
  cases t with
  | nil => exact if_neg h
  | cons s t =>
    by_cases hs : s = byteOrderMark
    · simp [unmarked, hs]
    · simp [unmarked, hs]

/-- The place of a token is the one behind a text, or one further on if it begins with a quote. -/
def StandsBehind (before : Text) (t : Token) : Prop :=
  t.line = some (1 + before.count Rune.lineFeed : Int) ∧
    t.column = some ((before.rtakeWhile (· ≠ Rune.lineFeed)).length +
      if t.core.head? = some (Rune.ofChar '"') then 1 else 0)

/-- In this source and behind this text, each token stands where its white space and what is before it say. -/
def AllInPlace (source : Text) : Text → List Token → Prop
  | _, []           => True
  | before, t :: ts =>
    (t.kind ≠ .illegal → t.kind ≠ .trailingWhitespace →
      unmarked (before ++ t.leading) <+: unmarked source ∧ t.StandsBehind (unmarked (before ++ t.leading))) ∧
    AllInPlace source (before ++ t.source.getD []) ts

theorem AllInPlace.at {source before : Text} {earlier later : List Token} {t : Token}
    (h : AllInPlace source before (earlier ++ t :: later)) (hillegal : t.kind ≠ .illegal)
    (htrailing : t.kind ≠ .trailingWhitespace) :
    unmarked (before ++ joined earlier ++ t.leading) <+: unmarked source ∧
      t.StandsBehind (unmarked (before ++ joined earlier ++ t.leading)) := by
  induction earlier generalizing before with
  | nil =>
    rw [joined, List.flatMap_nil, List.append_nil]
    exact h.1 hillegal htrailing
  | cons u earlier ih =>
    rw [joined_cons, ← List.append_assoc]
    exact ih h.2

/-! ### Along the scan -/

/-- The scan of a whole text has come behind `before` and the white space `lead`: there it stands at the
place `p`, and `rest` is left. -/
structure Reached (whole before lead : Text) (p : Position) (rest : Text) : Prop where
  blank : ∀ r ∈ lead, isLead r
  place : p = Position.afterAll {} (unmarked (before ++ lead))
  whole : whole = before ++ lead ++ rest

theorem not_mark {r : Rune} (h : isLead r = false) : r ≠ byteOrderMark := by
  rintro rfl
  exact absurd h (by decide)

theorem leading_placed {lead : Text} {r : Rune} (hlead : ∀ s ∈ lead, isLead s) (hr : isLead r = false)
    (kind : Kind) (piece : Text) (text : Option Text) (p : Position) :
    (placed kind (lead ++ r :: piece) text p).leading = lead ∧
      (placed kind (lead ++ r :: piece) text p).core = r :: piece :=
  takeWhile_run hlead (by simpa using hr)

namespace Reached

variable {whole before lead piece rest : Text} {p : Position} {r : Rune}

theorem blank_next (h : Reached whole before lead p (r :: rest)) (hr : r.isBlank) :
    Reached whole before (lead ++ [r]) (p.after r) rest where
  blank := by
    intro s hs
    rcases List.mem_append.1 hs with hs | hs
    · exact h.blank s hs
    · rw [List.mem_singleton.1 hs, isLead, hr]
      rfl
  place := by
    rw [← List.append_assoc, unmarked_append (blank_only hr).2, Position.afterAll_append, ← h.place]
    rfl
  whole := by
    rw [h.whole]
    simp

/-- Behind a token that was read. -/
theorem next (h : Reached whole before lead p (r :: (piece ++ rest))) (hr : isLead r = false) :
    Reached whole (before ++ (lead ++ r :: piece)) [] (p.afterAll (r :: piece)) rest where
  blank := List.forall_mem_nil _
  place := by
    rw [List.append_nil, ← List.append_assoc, unmarked_append (not_mark hr), Position.afterAll_append, ← h.place]
  whole := by
    rw [h.whole]
    simp

/-- **A token that is read stands where it was reached**, or behind its quote. -/
theorem token (h : Reached whole before lead p (r :: rest)) (hr : isLead r = false) {kind : Kind}
    {text : Option Text} {start : Position} {ts : List Token}
    (hstart : start = if r = Rune.ofChar '"' then p.after r else p)
    (hts : AllInPlace whole (before ++ (lead ++ r :: piece)) ts) :
    AllInPlace whole before (placed kind (lead ++ r :: piece) text start :: ts) := by
  obtain ⟨hleading, hcore⟩ := leading_placed h.blank hr kind piece text start
  have hplace := h.place
  rw [Position.afterAll_eq] at hplace
  refine ⟨fun _ _ => ?_, hts⟩
  rw [StandsBehind, hleading, hcore, h.whole, unmarked_append (not_mark hr)]
  refine ⟨List.prefix_append _ _, ?_⟩
  by_cases hquote : r = Rune.ofChar '"'
  · have hafter : p.after r = ⟨p.line, p.column + 1⟩ := by
      rw [hquote]
      rfl
    have hhead : (r :: piece).head? = some (Rune.ofChar '"') := congrArg some hquote
    rw [if_pos hquote, hafter, hplace] at hstart
    rw [hstart, if_pos hhead]
    exact ⟨by simp [placed], rfl⟩
  · have hhead : (r :: piece).head? ≠ some (Rune.ofChar '"') := hquote ∘ Option.some.inj
    rw [if_neg hquote, hplace] at hstart
    rw [hstart, if_neg hhead]
    exact ⟨by simp [placed], rfl⟩

/-- A token of all characters of a class that follow. -/
theorem run {q : Rune → Bool} (h : Reached whole before lead p (r :: rest)) (hr : isLead r = false)
    (hquote : r ≠ Rune.ofChar '"') (hq : q r) {kind : Kind} {text : Option Text} {ts : List Token}
    (hts : ∀ before', Reached whole before' [] (p.afterAll ((r :: rest).takeWhile q)) ((r :: rest).dropWhile q) →
      AllInPlace whole before' ts) :
    AllInPlace whole before (placed kind (lead ++ (r :: rest).takeWhile q) text p :: ts) := by
  rw [List.takeWhile_cons_of_pos hq] at hts ⊢
  rw [List.dropWhile_cons_of_pos hq] at hts
  refine h.token hr (if_neg hquote).symm (hts _ (next ?_ hr))
  rwa [List.takeWhile_append_dropWhile]

end Reached

/-- A piece of a string begins with a quote, and stands behind it, or with a parenthesis. -/
theorem piece_start {r : Rune} {closes : Bool} {d : Prop} [Decidable d] (p : Position)
    (hcloses : closes = (r = Rune.ofChar ')' && decide d)) (h : r = Rune.ofChar '"' || closes) :
    isLead r = false ∧
      (if _h : closes then p else p.after r) = if r = Rune.ofChar '"' then p.after r else p := by
  cases closes with
  | false =>
    obtain rfl : r = Rune.ofChar '"' := by simpa using h
    exact ⟨by decide, rfl⟩
  | true =>
    obtain ⟨rfl, -⟩ : r = Rune.ofChar ')' ∧ d := by simpa using hcloses.symm
    exact ⟨by decide, rfl⟩

/-- The statement for the rest of a source, behind the pieces of the tokens before. -/
theorem scanFrom_inPlace (whole lead : Text) (p : Position) (depths : List Nat) (source : Text) :
    ∀ before, Reached whole before lead p source →
      AllInPlace whole before (scanFrom lead p depths source).tokens := by
  fun_induction scanFrom lead p depths source with
  | case1 | case8 => exact fun _ _ => trivial
  | case2 => exact fun _ _ => ⟨fun _ htrailing => absurd rfl htrailing, trivial⟩
  | case3 lead p depths r rest closes hr body start piece outer next hstop ih
  | case4 lead p depths r rest closes hr body start piece outer next hstop ih
  | case5 lead p depths r rest closes hr body start piece outer next hstop ih =>
    intro before h
    obtain ⟨hlead, hstart⟩ := piece_start p rfl hr
    have hsplit : rest = body.literal ++ body.rest := by
      have := scanBody_split (t := rest) (by simp [body, hstop])
      simpa [body, hstop, Stop.skipped] using this
    refine h.token hlead hstart (ih _ ?_)
    rw [hsplit] at h
    exact h.next hlead
  | case6 lead p depths r rest closes hr body start piece outer next hstop
  | case7 lead p depths r rest closes hr body start piece outer next hstop =>
    intro before h
    obtain ⟨hlead, hstart⟩ := piece_start p rfl hr
    exact h.token hlead hstart ⟨fun hillegal => absurd rfl hillegal, trivial⟩
  | case9 lead p depths r rest _ _ hblank ih => exact fun before h => ih before (h.blank_next hblank)
  | case10 lead p depths rest comment _ _ _ ih =>
    intro before h
    have hlead : isLead (Rune.ofChar '#') = false := by decide
    refine h.token hlead rfl (ih _ (Reached.next ?_ hlead))
    rwa [List.takeWhile_append_dropWhile]
  | case11 lead p depths r rest _ _ _ _ hletter letters ih =>
    obtain ⟨hquote, hblank, -, hmark⟩ := letter_only hletter
    exact fun before h => h.run (by simp [isLead, hblank, hmark]) hquote hletter ih
  | case12 lead p depths r rest _ _ _ _ _ hdigit digits ih =>
    obtain ⟨hquote, hblank, -, -, hmark⟩ := digit_only hdigit
    exact fun before h => h.run (by simp [isLead, hblank, hmark]) hquote hdigit ih
  | case13 lead p depths r rest _ _ _ _ _ _ kind hkind _ ih =>
    intro before h
    obtain ⟨hquote, hblank, -, -, -, hmark, -⟩ := symbol_only hkind
    have hlead : isLead r = false := by simp [isLead, hblank, hmark]
    have hnext : Reached whole (before ++ (lead ++ [r])) [] (p.after r) rest := h.next hlead
    exact h.token hlead (if_neg hquote).symm (ih _ hnext)
  | case14 => exact fun _ _ => ⟨fun hillegal => absurd rfl hillegal, trivial⟩

/-- **Tokens stand where they say.**  The pieces of source of the tokens before and the white space in front of a
token are what stands in the source before it, a byte order mark apart, and line and column count the line feeds
and the characters of the last line of that.  A token that begins with a quote stands one further on. -/
theorem scan_positions {source : Text} {earlier later : List Token} {t : Token}
    (h : (scan source).tokens = earlier ++ t :: later) (hillegal : t.kind ≠ .illegal)
    (htrailing : t.kind ≠ .trailingWhitespace) :
    let before := unmarked (joined earlier ++ t.leading)
    before <+: unmarked source ∧ t.line = some (1 + before.count Rune.lineFeed : Int) ∧
      t.column = some ((before.rtakeWhile (· ≠ Rune.lineFeed)).length +
        if t.core.head? = some (Rune.ofChar '"') then 1 else 0) := by
  have hall : AllInPlace source [] (scan source).tokens := by
    have hnil : ∀ r ∈ ([] : Text), isLead r := List.forall_mem_nil _
    unfold scan
    split
    · exact scanFrom_inPlace _ _ _ _ _ _ ⟨hnil, rfl, rfl⟩
    · split
      · next r rest hmark =>
        subst hmark
        exact scanFrom_inPlace _ _ _ _ _ _ ⟨List.forall_mem_singleton.2 rfl, rfl, rfl⟩
      · exact scanFrom_inPlace _ _ _ _ _ _ ⟨hnil, rfl, rfl⟩
  rw [h] at hall
  exact hall.at hillegal htrailing

/-- The theorem at the end of an interpolation, behind a byte order mark and a string of two lines. -/
theorem scan_positions_interpolation :
    let source : Text := "\ufeff \"a\nb\\( 1 )c\""
    let start := placed .stringStart "\ufeff \"a\nb\\(" (some "a\nb") ⟨1, 2⟩
    let one := placed .number " 1" (some "1") ⟨2, 4⟩
    let close := placed .stringEnd " )c\"" (some "c") ⟨2, 6⟩
    let before := unmarked (joined [start, one] ++ close.leading)
    (scan source).tokens = [start, one] ++ close :: [] ∧ before = " \"a\nb\\( 1 " ∧
      before <+: unmarked source ∧ close.line = some (1 + before.count Rune.lineFeed : Int) ∧
      close.column = some ((before.rtakeWhile (· ≠ Rune.lineFeed)).length +
        if close.core.head? = some (Rune.ofChar '"') then 1 else 0) := by
  intro source start one close before
  have hscan : (scan source).tokens = [start, one] ++ close :: [] := by decide +kernel
  exact ⟨hscan, by decide +kernel, scan_positions hscan (by decide) (by decide)⟩

end Token

end FilterShell
