import FilterShell.Proofs.Token.Written

/-!
# The scan as a loop

`scanFrom` reads the rest of a string at once when it meets the parenthesis that ends the program in it.  A
scanner that looks at one token at a time takes two turns for that: in the first, the depth falls below zero and
no token is made, which is the sign for the next one to read the rest of the string.  The loop of such turns
(`Cursor.turn`) comes to an end on every source, and has made its tokens by then (`Cursor.halts_start`).
-/

namespace FilterShell

namespace Token

/-- Where the loop stands: the white space since the last token, the place, the counts of open parentheses,
and what is left of the source.  A count below zero says that the program in a string has ended. -/
structure Cursor where
  lead   : Text
  place  : Position
  depths : List Int
  rest   : Text

/-- What a turn of the loop does: it makes some tokens and goes on, or it is the last one. -/
inductive Turn where
  | next (tokens : List Token) (c : Cursor)
  | last (s : Scanned)

namespace Cursor

/-- The program in the innermost string has ended. -/
def isAtString (depths : List Int) : Bool := depths.head?.any (· < 0)

/-- The counts after a symbol. -/
def counted (kind : Kind) : List Int → List Int
  | []      => []
  | d :: ds => (if kind = .openParen then d + 1 else if kind = .closeParen then d - 1 else d) :: ds

/-- The piece of a string behind its first character. -/
def token (c : Cursor) (continued : Bool) (first : Rune) (start : Position) : Token :=
  let body := scanBody c.rest
  placed (pieceKind continued body.stop) (c.lead ++ first :: body.literal) (some body.content) start

/-- Reads a piece of a string behind its first character. -/
def piece (c : Cursor) (continued : Bool) (first : Rune) (start : Position) : Turn :=
  let body := scanBody c.rest
  let next := c.place.afterAll body.literal
  let slash := Rune.ofChar '\\'
  match body.stop with
  | .quote | .sourceEnd => .next [c.token continued first start] ⟨[], next, c.depths, body.rest⟩
  | .interpolation      => .next [c.token continued first start] ⟨[], next, 0 :: c.depths, body.rest⟩
  | .badNumber          =>
    .last ⟨[c.token continued first start,
      placed .illegal (c.lead ++ body.rest) (some body.rest) (next.after slash)], none⟩
  | .badEscape          =>
    .last ⟨[c.token continued first start,
      placed .illegal (c.lead ++ slash :: body.rest) (some (slash :: body.rest)) (next.after slash)], none⟩
  | .failed error       => .last ⟨[], some error⟩

/-- One turn of the loop. -/
def turn (c : Cursor) : Turn :=
  if isAtString c.depths then
    -- The parenthesis has been passed already.
    piece { c with depths := c.depths.tail } true (Rune.ofChar ')')
      { c.place with column := c.place.column - 1 }
  else match c.rest with
    | []        => .last ⟨if c.lead.isEmpty then [] else
        [{ kind := .trailingWhitespace, source := some c.lead }], none⟩
    | r :: rest =>
      let next := c.place.after r
      if r = Rune.ofChar '"' then piece ⟨c.lead, next, c.depths, rest⟩ false r next
      else if r.isBlank then .next [] ⟨c.lead ++ [r], next, c.depths, rest⟩
      else if r = Rune.ofChar '#' then
        let comment := rest.takeWhile (· ≠ Rune.ofChar '\n')
        .next [placed .comment (c.lead ++ r :: comment) (some comment) c.place]
          ⟨[], next.afterAll comment, c.depths, rest.dropWhile (· ≠ Rune.ofChar '\n')⟩
      else if r.isLetter then
        let letters := (r :: rest).takeWhile Rune.isLetter
        .next [placed .name (c.lead ++ letters) (some letters) c.place]
          ⟨[], c.place.afterAll letters, c.depths, (r :: rest).dropWhile Rune.isLetter⟩
      else if r.isDigit then
        let digits := (r :: rest).takeWhile Rune.isDigit
        .next [placed .number (c.lead ++ digits) (some digits) c.place]
          ⟨[], c.place.afterAll digits, c.depths, (r :: rest).dropWhile Rune.isDigit⟩
      else match symbol? r with
        | some kind =>
          let depths := counted kind c.depths
          if isAtString depths then .next [] ⟨c.lead, next, depths, rest⟩
          else .next [placed kind (c.lead ++ [r]) none c.place] ⟨[], next, depths, rest⟩
        | none      => .last ⟨[placed .illegal (c.lead ++ r :: rest) (some (r :: rest)) c.place], none⟩

/-- Before the first turn. -/
def start : Text → Cursor
  | []        => ⟨[], {}, [], []⟩
  | r :: rest => if r = byteOrderMark then ⟨[r], {}, [], rest⟩ else ⟨[], {}, [], r :: rest⟩

end Cursor

/-- The loop ends from this turn on, and makes these tokens. -/
inductive Turn.Halts : Turn → Scanned → Prop
  | last (s : Scanned) : Halts (.last s) s
  | next {ts : List Token} {c : Cursor} {s : Scanned} (h : Halts c.turn s) :
      Halts (.next ts c) { s with tokens := ts ++ s.tokens }

theorem symbol_closeParen {r : Rune} (h : symbol? r = some .closeParen) : r = Rune.ofChar ')' := by
  unfold symbol? at h
  split at h <;> rename_i hr <;> cases h
  exact eq_ofChar hr

/-- A parenthesis that is a token of its own does not end the program in a string. -/
theorem depth_ne_zero {r : Rune} {depths : List Nat} (h : symbol? r = some .closeParen)
    (hr : ¬ (r = Rune.ofChar '"' || (r = Rune.ofChar ')' && decide (depths.head? = some 0)))) :
    depths.head? ≠ some 0 := by
  intro hzero
  rw [symbol_closeParen h, hzero] at hr
  exact hr rfl

namespace Cursor

/-! ### Turns at the pieces of a string -/

theorem isAtString_counts (ds : List Nat) : isAtString (ds.map Int.ofNat) = false := by
  cases ds <;> simp [isAtString]

section Piece

variable {lead rest : Text} {p : Position} {depths : List Nat} {r : Rune} {s : Scanned}

/-- **The program in a string ends** in a turn that makes no token, and the string goes on in the next. -/
theorem turn_close (h : (piece ⟨lead, p.after (Rune.ofChar ')'), depths.map Int.ofNat, rest⟩ true
      (Rune.ofChar ')') p).Halts s) :
    (turn ⟨lead, p, (0 :: depths).map Int.ofNat, Rune.ofChar ')' :: rest⟩).Halts s := by
  have hcount : turn ⟨lead, p, (0 :: depths).map Int.ofNat, Rune.ofChar ')' :: rest⟩ =
      .next [] ⟨lead, p.after (Rune.ofChar ')'), -1 :: depths.map Int.ofNat, rest⟩ := rfl
  have hpiece : turn ⟨lead, p.after (Rune.ofChar ')'), -1 :: depths.map Int.ofNat, rest⟩ =
      piece ⟨lead, p.after (Rune.ofChar ')'), depths.map Int.ofNat, rest⟩ true (Rune.ofChar ')') p := rfl
  rw [hcount]
  rw [← hpiece] at h
  exact .next h

/-- The turn that reads the rest of a string. -/
theorem turn_piece {closes : Bool} (hcloses : closes = (r = Rune.ofChar ')' && decide (depths.head? = some 0)))
    (hr : r = Rune.ofChar '"' || closes)
    (h : (piece ⟨lead, p.after r, (if _h : closes then depths.tail else depths).map Int.ofNat, rest⟩ closes r
      (if _h : closes then p else p.after r)).Halts s) :
    (turn ⟨lead, p, depths.map Int.ofNat, r :: rest⟩).Halts s := by
  cases closes with
  | false =>
    obtain rfl : r = Rune.ofChar '"' := by simpa using hr
    rw [turn, isAtString_counts]
    exact h
  | true =>
    obtain ⟨rfl, hzero⟩ : r = Rune.ofChar ')' ∧ depths.head? = some 0 := by simpa using hcloses.symm
    obtain ⟨ds, rfl⟩ := List.head?_eq_some_iff.1 hzero
    exact turn_close h

end Piece

/-- The statement for the rest of a source. -/
theorem halts_scanFrom (lead : Text) (p : Position) (depths : List Nat) (source : Text) :
    (turn ⟨lead, p, depths.map Int.ofNat, source⟩).Halts (scanFrom lead p depths source) := by
  have hcounts := isAtString_counts
  fun_induction scanFrom lead p depths source with
  | case1 lead p depths h | case2 lead p depths h =>
    simp only [turn, hcounts, h]
    exact .last _
  | case3 lead p depths r rest closes hr body start token outer next hstop ih
  | case4 lead p depths r rest closes hr body start token outer next hstop ih
  | case5 lead p depths r rest closes hr body start token outer next hstop ih =>
    refine turn_piece rfl hr ?_
    simp only [piece, show (scanBody rest).stop = _ from hstop]
    exact .next ih
  | case6 lead p depths r rest closes hr body start token outer next hstop
  | case7 lead p depths r rest closes hr body start token outer next hstop
  | case8 lead p depths r rest closes hr body error hstop =>
    refine turn_piece rfl hr ?_
    simp only [piece, show (scanBody rest).stop = _ from hstop]
    exact .last _
  | case9 lead p depths r rest closes hr hblank ih =>
    rw [turn, hcounts, if_neg Bool.false_ne_true]
    dsimp only
    rw [if_neg (blank_only hblank).1, if_pos hblank]
    exact .next ih
  | case10 lead p depths rest comment closes hr hblank ih =>
    rw [turn, hcounts, if_neg Bool.false_ne_true]
    exact .next ih
  | case11 lead p depths r rest closes hr hblank hcomment hletter letters ih =>
    rw [turn, hcounts, if_neg Bool.false_ne_true]
    dsimp only
    rw [if_neg (letter_only hletter).1, if_neg hblank, if_neg hcomment, if_pos hletter]
    exact .next ih
  | case12 lead p depths r rest closes hr hblank hcomment hletter hdigit digits ih =>
    rw [turn, hcounts, if_neg Bool.false_ne_true]
    dsimp only
    rw [if_neg (digit_only hdigit).1, if_neg hblank, if_neg hcomment, if_neg hletter, if_pos hdigit]
    exact .next ih
  | case13 lead p depths r rest closes hr hblank hcomment hletter hdigit kind hkind next ih =>
    rw [turn, hcounts, if_neg Bool.false_ne_true]
    dsimp only
    rw [if_neg (symbol_only hkind).1, if_neg hblank, if_neg hcomment, if_neg hletter, if_neg hdigit, hkind]
    dsimp only
    have hcounted : counted kind (depths.map Int.ofNat) = next.map Int.ofNat := by
      cases depths with
      | nil => cases kind <;> rfl
      | cons d ds =>
        cases kind with
        | closeParen =>
          have hzero := depth_ne_zero hkind hr
          cases d with
          | zero => exact absurd rfl hzero
          | succ d => exact congrArg (· :: ds.map Int.ofNat) (Int.add_sub_cancel d 1)
        | _ => rfl
    rw [hcounted, hcounts, if_neg Bool.false_ne_true]
    exact .next ih
  | case14 lead p depths r rest closes hr hblank hcomment hletter hdigit hkind =>
    have hquote : r ≠ Rune.ofChar '"' := by
      rintro rfl
      exact hr rfl
    rw [turn, hcounts, if_neg Bool.false_ne_true]
    dsimp only
    rw [if_neg hquote, if_neg hblank, if_neg hcomment, if_neg hletter, if_neg hdigit, hkind]
    exact .last _

/-- **The loop ends on every source**, also behind a parenthesis that is its last character, and has made the
tokens of the source by then. -/
theorem halts_start (source : Text) : (start source).turn.Halts (scan source) := by
  cases source with
  | nil => exact halts_scanFrom [] {} [] []
  | cons r rest =>
    by_cases hmark : r = byteOrderMark
    · rw [start, scan, if_pos hmark, if_pos hmark]
      exact halts_scanFrom [r] {} [] rest
    · rw [start, scan, if_neg hmark, if_neg hmark]
      exact halts_scanFrom [] {} [] (r :: rest)

end Cursor

end Token

end FilterShell
