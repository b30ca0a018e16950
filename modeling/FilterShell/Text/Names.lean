import FilterShell.Text.NameTable

/-!
# Names of characters

Messages about an illegal character give its Unicode name.  Most names are in a table.  The unified
ideographs are named by their number and the Hangul syllables by the letters that they are composed
of; a control or private character has no name.
-/

namespace FilterShell.Rune

/-- Whether the code point is an ideograph that is named by its number. -/
def isUnifiedIdeograph (r : Rune) : Bool :=
  (0x3400 ≤ r.code && r.code ≤ 0x4DBF) || (0x4E00 ≤ r.code && r.code ≤ 0x9FFF) ||
  (0x20000 ≤ r.code && r.code ≤ 0x2A6DF) || (0x2A700 ≤ r.code && r.code ≤ 0x2B738) ||
  (0x2B740 ≤ r.code && r.code ≤ 0x2B81D) || (0x2B820 ≤ r.code && r.code ≤ 0x2CEA1) ||
  (0x2CEB0 ≤ r.code && r.code ≤ 0x2EBE0) || (0x30000 ≤ r.code && r.code ≤ 0x3134A)

/-! ### Hangul syllables -/

/-- The consonants that start a syllable. -/
def hangulInitials : List String :=
  ["G", "GG", "N", "D", "DD", "R", "M", "B", "BB", "S", "SS", "", "J", "JJ", "C", "K", "T", "P",
   "H"]

/-- The vowels of a syllable. -/
def hangulVowels : List String :=
  ["A", "AE", "YA", "YAE", "EO", "E", "YEO", "YE", "O", "WA", "WAE", "OE", "YO", "U", "WEO", "WE",
   "WI", "YU", "EU", "YI", "I"]

/-- The consonants that end a syllable. -/
def hangulFinals : List String :=
  ["", "G", "GG", "GS", "N", "NJ", "NH", "D", "L", "LG", "LM", "LB", "LS", "LT", "LP", "LH", "M",
   "B", "BS", "S", "SS", "NG", "J", "C", "K", "T", "P", "H"]

/-- The name of a Hangul syllable.  The syllables are ordered by initial, vowel and final. -/
def hangulName? (r : Rune) : Option String :=
  if r.code < 0xAC00 then none
  else do
    let place := r.code - 0xAC00
    let initial ← hangulInitials[place / 588]?
    let vowel ← hangulVowels[place / 28 % 21]?
    let final ← hangulFinals[place % 28]?
    return "HANGUL SYLLABLE " ++ initial ++ vowel ++ final

/-! ### All characters -/

/-- The name in the tables.  The wide forms of signs and letters are named after these. -/
def tabledName? (code : Nat) : Option String :=
  nameRuns.findSome? (·.name? code) <|> (symbolNames.lookup code).map spellOut

/-- The name of a character, `unknown character` for one without a name. -/
def name (r : Rune) : Text :=
  let wide? := if 0xFF01 ≤ r.code && r.code ≤ 0xFF5E then
    (tabledName? (r.code - 0xFEE0)).map ("FULLWIDTH " ++ ·) else none
  match tabledName? r.code <|> wide? <|> r.hangulName? with
  | some n => n
  | none   =>
    if r.isUnifiedIdeograph then
      Text.ofString "CJK UNIFIED IDEOGRAPH-" ++ Text.hexUpper r.code
    else Text.ofString "unknown character"

end FilterShell.Rune
