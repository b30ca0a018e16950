/-!
# Text

A text is a list of code points.  A code point is any number below `0x110000`; the surrogates
`0xD800`–`0xDFFF` are code points too, because an escape in a string literal may name one alone.
A text without surrogates is *well formed* and stands for a sequence of Unicode characters.
-/

namespace FilterShell

/-- A code point, lone surrogates included. -/
structure Rune where
  code     : Nat
  lt_bound : code < 0x110000
deriving DecidableEq

/-- A sequence of code points. -/
abbrev Text := List Rune

namespace Rune

theorem toNat_lt_bound (c : Char) : c.toNat < 0x110000 := by
  rcases c.valid with h | ⟨_, h⟩
  · exact Nat.lt_trans h (by decide)
  · exact h

/-- The code point of a character. -/
def ofChar (c : Char) : Rune := ⟨c.toNat, toNat_lt_bound c⟩

instance : Coe Char Rune := ⟨ofChar⟩

instance : Inhabited Rune := ⟨ofChar ' '⟩

/-- The code point with a given number, if the number is small enough. -/
def ofNat? (n : Nat) : Option Rune :=
  if h : n < 0x110000 then some ⟨n, h⟩ else none

/-- Surrogates stand for no character. -/
def isSurrogate (r : Rune) : Bool := 0xD800 ≤ r.code && r.code ≤ 0xDFFF

/-- The character of a code point; a surrogate has none. -/
def toChar? (r : Rune) : Option Char :=
  if h : r.code.isValidChar then some (Char.ofNatAux r.code h) else none

/-- The letters `A`–`Z` and `a`–`z`. -/
def isLetter (r : Rune) : Bool :=
  (65 ≤ r.code && r.code ≤ 90) || (97 ≤ r.code && r.code ≤ 122)

/-- The digits `0`–`9`. -/
def isDigit (r : Rune) : Bool := 48 ≤ r.code && r.code ≤ 57

/-- The six blanks of the language: space, tab, line feed, carriage return, vertical tab and
form feed. -/
def isBlank (r : Rune) : Bool := (9 ≤ r.code && r.code ≤ 13) || r.code == 32

end Rune

namespace Text

/-- The text of a string. -/
def ofString (s : String) : Text := s.toList.map Rune.ofChar

instance : Coe String Text := ⟨ofString⟩

/-- No surrogate occurs: the text is a sequence of Unicode characters. -/
def isWellFormed (t : Text) : Bool := t.all fun r => !r.isSurrogate

/-- The string of a well formed text. -/
def toString? (t : Text) : Option String := (t.mapM Rune.toChar?).map String.ofList

/-- A number in base ten. -/
def ofNat (n : Nat) : Text := (Nat.toDigits 10 n).map Rune.ofChar

/-- An integer in base ten, with `-` in front of a negative one. -/
def ofInt : Int → Text
  | .ofNat n   => ofNat n
  | .negSucc n => Rune.ofChar '-' :: ofNat (n + 1)

/-- A number in base sixteen with small letters, filled up with zeros to `width` places. -/
def hex (width n : Nat) : Text :=
  let digits := Nat.toDigits 16 n
  (List.replicate (width - digits.length) '0' ++ digits).map Rune.ofChar

/-- A number in base sixteen with capital letters. -/
def hexUpper (n : Nat) : Text := (Nat.toDigits 16 n).map fun c => Rune.ofChar c.toUpper

/-- The texts in order, `separator` between neighbours. -/
def join (separator : Text) : List Text → Text
  | []          => []
  | [t]         => t
  | t :: u :: r => t ++ separator ++ join separator (u :: r)

/-- The order of texts: by the first code point that differs, a shorter text first. -/
def lt : Text → Text → Bool
  | _, []          => false
  | [], _ :: _     => true
  | a :: s, b :: t => a.code < b.code || (a.code == b.code && lt s t)

/-- `t` repeated `n` times. -/
def repeated (n : Nat) (t : Text) : Text := (List.replicate n t).flatten

/-- The first text without the second, if it starts with that. -/
def dropStart? : Text → Text → Option Text
  | t, []          => some t
  | [], _ :: _     => none
  | a :: t, b :: s => if a = b then dropStart? t s else none

end Text

end FilterShell
