import FilterShell.Value.Text
import FilterShell.Proofs.Text.Ascii
import FilterShell.Proofs.Token.StringGrammar
import FilterShell.Proofs.Value.Answers

/-!
# Written strings as others read them

JSON has the grammar of `Token.IsLiteral` for its strings, without control characters.  A number stands for
a unit of sixteen bits, and two surrogates for one character: `Text.IsJson`.

What is written for a text is JSON and stands for that text, unless the text has the character `0x10000`, which
is written with five places (`Rune.reread`).  Nothing else is lost (`text_faithful`).
-/

namespace FilterShell

variable {t u w : Text} {r : Rune}

namespace Rune

/-- The character that a high surrogate and a low one stand for together. -/
def paired? (a b : Rune) : Option Rune :=
  if 0xD800 ≤ a.code ∧ a.code < 0xDC00 ∧ 0xDC00 ≤ b.code ∧ b.code < 0xE000 then
    ofNat? (0x10000 + (a.code - 0xD800) * 0x400 + (b.code - 0xDC00))
  else none

/-- The first character whose number has five places. -/
def wide : Rune := ⟨0x10000, by decide⟩

/-- What a character that has been written stands for. -/
def reread (r : Rune) : Text := if r = wide then [⟨0x1000, by decide⟩, ofChar '0'] else [r]

/-- The same as the units that have been written. -/
def units (r : Rune) : Text :=
  if 0x10000 < r.code then
    [⟨0xD800 + (r.code - 0x10000) / 0x400, by have := r.lt_bound; omega⟩,
      ⟨0xDC00 + (r.code - 0x10000) % 0x400, by omega⟩]
  else r.reread

theorem paired?_eq_none {a : Rune} (h : a.isSurrogate = false) (b : Rune) : a.paired? b = none := by
  refine if_neg fun hpair => ?_
  simp only [isSurrogate, Bool.and_eq_false_iff, decide_eq_false_iff_not] at h
  omega

theorem escaped_pair (h : 0x10000 < r.code) :
    r.escaped = Text.ofString "\\u" ++ Text.hex 4 (0xD800 + (r.code - 0x10000) / 0x400)
      ++ Text.ofString "\\u" ++ Text.hex 4 (0xDC00 + (r.code - 0x10000) % 0x400) := by
  have hne : ∀ c : Char, c.toNat < 0x80 → r ≠ ofChar c := by
    rintro c hc rfl
    exact absurd (hc.trans (by decide)) (Nat.lt_asymm h)
  rw [escaped, if_neg (hne _ (by decide)), if_neg (hne _ (by decide)), if_neg (hne _ (by decide)),
    if_neg (hne _ (by decide)), if_neg (hne _ (by decide)), if_neg (hne _ (by decide)),
    if_neg (hne _ (by decide)), if_pos h]

end Rune

namespace Text

/-- Units with each pair of surrogates as the character that it stands for. -/
def joined : Text → Text
  | a :: b :: t => match a.paired? b with
    | some r => r :: joined t
    | none   => a :: joined (b :: t)
  | t => t

/-- A string of JSON, and the text that it stands for. -/
def IsJson (q t : Text) : Prop := (∀ r ∈ q, 0x20 ≤ r.code) ∧ ∃ w, Token.IsLiteral q w ∧ t = w.joined

theorem joined_cons (h : r.isSurrogate = false) (t : Text) : joined (r :: t) = r :: joined t := by
  cases t with
  | nil => rfl
  | cons b t => rw [joined, Rune.paired?_eq_none h]

theorem joined_pair {a b : Rune} (h : a.paired? b = some r) (t : Text) :
    joined (a :: b :: t) = r :: joined t := by
  rw [joined, h]

end Text

/-! ### Only one text is read -/

namespace Token

theorem IsContent.append {u' w' : Text} (h : IsContent u w) (h' : IsContent u' w') :
    IsContent (u ++ u') (w ++ w') := by
  induction h with
  | nil => exact h'
  | cons hitem _ ih =>
    rw [List.append_assoc]
    exact .cons hitem ih

theorem IsItem.content {item : Text} (h : IsItem item r) : IsContent item [r] := by
  simpa using IsContent.cons h .nil

theorem IsContent.eq_scanBody (h : IsContent u w) : (scanBody u).content = w := by
  have hscan := scanBody_content h []
  rw [List.append_nil] at hscan
  rw [hscan]
  exact List.append_nil w

theorem IsLiteral.unique {q w' : Text} (h : IsLiteral q w) (h' : IsLiteral q w') : w = w' := by
  obtain ⟨u, rfl, hu⟩ := h
  obtain ⟨u', hq, hu'⟩ := h'
  obtain rfl := List.append_cancel_right (List.cons.inj hq).2
  exact hu.eq_scanBody.symm.trans hu'.eq_scanBody

/-! ### What is written -/

theorem isItem_hex {n : Nat} (h : n < 0x10000) :
    IsItem (Text.ofString "\\u" ++ Text.hex 4 n) ⟨n, h.trans (by decide)⟩ :=
  .number (Text.code?_hex h)

theorem isContent_escaped (r : Rune) : IsContent r.escaped r.units := by
  rcases Nat.lt_trichotomy r.code 0x10000 with hlow | hwide | hhigh
  · have hunits : r.units = [r] := by
      have hne : r ≠ Rune.wide := fun h => absurd hlow (h ▸ by decide)
      rw [Rune.units, if_neg (by omega), Rune.reread, if_neg hne]
    rw [hunits]
    obtain ⟨e, hesc, he⟩ | hesc | ⟨hesc, hquote, hslash⟩ := escaped_cases hlow
    · rw [hesc]
      exact (isItem_escape? he).content
    · rw [hesc]
      exact (isItem_hex hlow).content
    · rw [hesc]
      exact (IsItem.plain hquote hslash).content
  · -- the five places are four and a zero
    obtain rfl : r = Rune.wide := by cases r; cases hwide; rfl
    have hnumber : IsItem "\\u1000" ⟨0x1000, by decide⟩ := .number (t := "1000") (by decide)
    have hzero : IsItem "0" (Rune.ofChar '0') := .plain (by decide) (by decide)
    exact hnumber.content.append hzero.content
  · have hbound := r.lt_bound
    rw [Rune.escaped_pair hhigh, Rune.units, if_pos hhigh, List.append_assoc]
    exact (isItem_hex (by omega)).content.append (isItem_hex (by omega)).content

theorem isLiteral_literal (t : Text) : IsLiteral t.literal (t.flatMap Rune.units) := by
  refine ⟨t.flatMap Rune.escaped, rfl, ?_⟩
  induction t with
  | nil => exact .nil
  | cons r t ih => exact (isContent_escaped r).append ih

end Token

namespace Text

/-- Units are joined again to characters. -/
theorem joined_units_append (h : r.isSurrogate = false) (t : Text) :
    joined (r.units ++ t) = r.reread ++ joined t := by
  by_cases hhigh : 0x10000 < r.code
  · have hbound := r.lt_bound
    have hne : r ≠ Rune.wide := fun h => absurd hhigh (h ▸ by decide)
    rw [Rune.units, if_pos hhigh, Rune.reread, if_neg hne]
    refine joined_pair ?_ t
    -- the two halves of the number are put together again
    have hsum : 0x10000 + (0xD800 + (r.code - 0x10000) / 0x400 - 0xD800) * 0x400 +
        (0xDC00 + (r.code - 0x10000) % 0x400 - 0xDC00) = r.code := by omega
    rw [Rune.paired?, if_pos (by dsimp only; omega), hsum, Rune.ofNat?, dif_pos hbound]
  · rw [Rune.units, if_neg hhigh, Rune.reread]
    split
    · have hfirst : (⟨0x1000, by decide⟩ : Rune).isSurrogate = false := by decide
      have hzero : (Rune.ofChar '0').isSurrogate = false := by decide
      simp only [List.cons_append, List.nil_append, joined_cons hfirst, joined_cons hzero]
    · exact joined_cons h t

theorem joined_units (h : t.isWellFormed) :
    joined (t.flatMap Rune.units) = t.flatMap Rune.reread := by
  induction t with
  | nil => rfl
  | cons r t ih =>
    obtain ⟨hr, ht⟩ : r.isSurrogate = false ∧ isWellFormed t := by simpa [isWellFormed] using h
    rw [List.flatMap_cons, joined_units_append hr, ih ht, List.flatMap_cons]

/-- **What is written is a string of JSON**, and there is one text that it stands for. -/
theorem isJson_literal (h : t.isWellFormed) (w : Text) :
    IsJson t.literal w ↔ w = t.flatMap Rune.reread := by
  rw [← joined_units h]
  constructor
  · rintro ⟨-, w', hw', rfl⟩
    rw [hw'.unique (Token.isLiteral_literal t)]
  · rintro rfl
    exact ⟨fun r hr => (shown_literal t r hr).1, _, Token.isLiteral_literal t, rfl⟩

theorem wide_notMem_reread (t : Text) : Rune.wide ∉ t.flatMap Rune.reread := by
  intro h
  obtain ⟨r, -, hr⟩ := List.mem_flatMap.1 h
  unfold Rune.reread at hr
  split at hr
  · exact absurd hr (by decide)
  · next hne => exact hne (List.mem_singleton.1 hr).symm

theorem flatMap_reread_eq_self : t.flatMap Rune.reread = t ↔ Rune.wide ∉ t := by
  constructor
  · intro h
    exact h ▸ wide_notMem_reread t
  · intro h
    induction t with
    | nil => rfl
    | cons r t ih =>
      obtain ⟨hr, ht⟩ := not_or.1 (mt List.mem_cons.2 h)
      rw [List.flatMap_cons, ih ht, Rune.reread, if_neg (Ne.symm hr)]
      rfl

theorem literal_reread (t : Text) : literal (t.flatMap Rune.reread) = t.literal := by
  have hrune : ∀ r : Rune, r.reread.flatMap Rune.escaped = r.escaped := by
    intro r
    unfold Rune.reread
    split
    · next h => rw [h]; decide
    · exact List.flatMap_singleton ..
  rw [literal, List.flatMap_assoc]
  simp only [hrune, literal]

theorem literal_eq_iff (ht : t.isWellFormed) (hu : u.isWellFormed) :
    t.literal = u.literal ↔ t.flatMap Rune.reread = u.flatMap Rune.reread := by
  constructor
  · intro h
    exact (isJson_literal hu _).1 (h ▸ (isJson_literal ht _).2 rfl)
  · intro h
    rw [← literal_reread t, h, literal_reread u]

end Text

namespace Value

open Reading

theorem text_string {s s' : Store} {id : Nat} {pieces : List Text}
    (h : Gives s (wholeText id pieces) t s') : Gives s (Value.string id pieces).text t.literal s' :=
  h.bind rfl

/-- **Strings are written faithfully**: what is printed for a string is JSON that stands for the text of the
string exactly if the text does not have the one wide character, and in general for the text with that
character reread.  Two strings are printed alike only if this makes their texts the same. -/
theorem text_faithful {s s' r r' : Store} {i j : Nat} {pieces pieces' : List Text} {t u : Text}
    (ht : Gives s (wholeText i pieces) t s') (hu : Gives r (wholeText j pieces') u r')
    (hwt : t.isWellFormed) (hwu : u.isWellFormed) :
    ∃ q q', Gives s (Value.string i pieces).text q s' ∧ Gives r (Value.string j pieces').text q' r' ∧
      (Text.IsJson q t ↔ Rune.wide ∉ t) ∧ (∀ w, Text.IsJson q w ↔ w = t.flatMap Rune.reread) ∧
      (q = q' ↔ t.flatMap Rune.reread = u.flatMap Rune.reread) ∧
      (Rune.wide ∉ t → Rune.wide ∉ u → (q = q' ↔ t = u)) := by
  have hsame := Text.literal_eq_iff hwt hwu
  refine ⟨_, _, text_string ht, text_string hu, ?_, Text.isJson_literal hwt, hsame, fun hnt hnu => ?_⟩
  · rw [Text.isJson_literal hwt, eq_comm, Text.flatMap_reread_eq_self]
  · rw [hsame, Text.flatMap_reread_eq_self.2 hnt, Text.flatMap_reread_eq_self.2 hnu]

theorem text_faithful_pair :
    ∃ q q', Gives {} (Value.string 0 ["\"\n", "é\x7f😀0"]).text q (Store.put {} 0 (Progress.atEnd {} 2)) ∧
      Gives {} (Value.string 1 ["\"\n"]).text q' (Store.put {} 1 (Progress.atEnd {} 1)) ∧
      Text.IsJson q "\"\né\x7f😀0" ∧ q ≠ q' := by
  have hwide : Rune.wide ∉ Text.ofString "\"\né\x7f😀0" := by decide
  have ht : Gives {} (wholeText 0 ["\"\n", "é\x7f😀0"]) "\"\né\x7f😀0"
      (Store.put {} 0 (Progress.atEnd {} 2)) := rfl
  have hu : Gives {} (wholeText 1 ["\"\n"]) "\"\n" (Store.put {} 1 (Progress.atEnd {} 1)) := rfl
  obtain ⟨q, q', hq, hq', hjson, -, -, hsame⟩ := text_faithful ht hu (by decide) (by decide)
  refine ⟨q, q', hq, hq', hjson.2 hwide, fun h => ?_⟩
  exact absurd ((hsame hwide (by decide)).1 h) (by decide)

/-- One character that needs five places is printed as two that do not. -/
theorem wide_not_faithful : ¬ Text.IsJson (Text.literal [Rune.wide]) [Rune.wide] ∧
    Text.literal [Rune.wide] = Text.literal [⟨0x1000, by decide⟩, Rune.ofChar '0'] := by
  refine ⟨?_, by decide⟩
  rw [Text.isJson_literal (by decide)]
  decide

end Value

end FilterShell
