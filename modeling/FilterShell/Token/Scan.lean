import FilterShell.Text.Digit
import FilterShell.Text.Utf8
import FilterShell.Token.Basic

/-!
# From source to tokens

`Token.scan` cuts a source into tokens.  White space goes to the token after it, and to a token
of its own at the end; a byte order mark at the start counts as white space without a place.  A
character that starts no token makes the rest of the source one illegal token.

The content of a string ends at the closing quote, at `\(`, at a backslash that starts no escape,
or with the source.  An escape `\u` takes four characters and reads them as a number in base
sixteen, in any spelling that `Text.readInt?` takes.  Within a string's program, the open parentheses
are counted, for each string that is being read; the one too many continues the string.
-/

namespace FilterShell

/-- A place in the source: line from one, column from zero. -/
structure Position where
  line   : Nat := 1
  column : Nat := 0
deriving DecidableEq

namespace Position

/-- The place after a character. -/
def after (p : Position) (r : Rune) : Position :=
  if r = Rune.ofChar '\n' then ⟨p.line + 1, 0⟩ else ⟨p.line, p.column + 1⟩

/-- The place after a text. -/
def afterAll (p : Position) (t : Text) : Position := t.foldl after p

end Position

namespace Token

/-- Why the source cannot be cut into tokens at all. -/
inductive ScanError where
  /-- An escape in a string is cut off by the end of the source. -/
  | cutEscape
  /-- The number of an escape is negative. -/
  | negativeEscape
  /-- The source is not UTF-8. -/
  | notUtf8
deriving DecidableEq

/-! ### Strings -/

/-- The character that a backslash and a letter stand for. -/
def escape? (r : Rune) : Option Rune :=
  if r = Rune.ofChar '"' || r = Rune.ofChar '/' || r = Rune.ofChar '\\' then some r
  else if r = Rune.ofChar 'b' then some (Rune.ofChar '\x08')
  else if r = Rune.ofChar 'f' then some (Rune.ofChar '\x0c')
  else if r = Rune.ofChar 'n' then some (Rune.ofChar '\n')
  else if r = Rune.ofChar 'r' then some (Rune.ofChar '\r')
  else if r = Rune.ofChar 't' then some (Rune.ofChar '\t')
  else none

/-- How the content of a string ends. -/
inductive Stop where
  | quote
  | interpolation
  | sourceEnd
  /-- A backslash and `u` without a number. -/
  | badNumber
  /-- A backslash before any other character. -/
  | badEscape
  | failed (error : ScanError)
deriving DecidableEq

/-- The content of a string up to its end. -/
structure Body where
  /-- The source characters that were read. -/
  literal : Text
  /-- The characters that they stand for. -/
  content : Text
  stop    : Stop
  /-- The source after the content; after a bad escape, from behind the backslash. -/
  rest    : Text
deriving DecidableEq

/-- One more item in front of the content. -/
def Body.push (literal content : Text) (b : Body) : Body :=
  { b with literal := literal ++ b.literal, content := content ++ b.content }

/-- Reads the content of a string. -/
def scanBody : Text → Body
  | []        => ⟨[], [], .sourceEnd, []⟩
  | r :: rest =>
    if r = Rune.ofChar '"' then ⟨[r], [], .quote, rest⟩
    else if r = Rune.ofChar '\\' then
      match rest with
      | []        => ⟨[], [], .failed .cutEscape, []⟩
      | e :: tail =>
        match escape? e with
        | some c => (scanBody tail).push [r, e] [c]
        | none   =>
          if e = Rune.ofChar 'u' then
            match Text.readInt? 16 (tail.take 4) with
            | none   => ⟨[], [], .badNumber, rest⟩
            | some n =>
              match (if n < 0 then none else Rune.ofNat? n.toNat), tail with
              | none, _                              => ⟨[], [], .failed .negativeEscape, []⟩
              | some c, h₁ :: h₂ :: h₃ :: h₄ :: tail =>
                (scanBody tail).push [r, e, h₁, h₂, h₃, h₄] [c]
              | some _, _                            => ⟨[], [], .failed .cutEscape, []⟩
          else if e = Rune.ofChar '(' then ⟨[r, e], [], .interpolation, tail⟩
          else ⟨[], [], .badEscape, rest⟩
    else (scanBody rest).push [r] [r]

/-- The kind of a piece of a string: `continued` pieces start with `)`, others with a quote. -/
def pieceKind (continued : Bool) : Stop → Kind
  | .quote         => if continued then .stringEnd else .string
  | .interpolation => if continued then .stringMiddle else .stringStart
  | _              => if continued then .stringEndIncomplete else .stringIncomplete

/-! ### The whole source -/

/-- The kind of a symbol. -/
def symbol? (r : Rune) : Option Kind :=
  match r.toChar? with
  | some '!' => some .command
  | some '$' => some .globalVariable
  | some '%' => some .modulo
  | some '(' => some .openParen
  | some ')' => some .closeParen
  | some '*' => some .multiply
  | some '+' => some .plus
  | some ',' => some .comma
  | some '-' => some .minus
  | some '.' => some .dot
  | some ':' => some .colon
  | some ';' => some .semicolon
  | some '=' => some .assign
  | some '@' => some .formatString
  | some '[' => some .openArray
  | some ']' => some .closeArray
  | some '{' => some .openObject
  | some '|' => some .pipe
  | some '}' => some .closeObject
  | _        => none

/-- Tokens, and the error that stopped the scan, if one did. -/
structure Scanned where
  tokens : List Token
  error  : Option ScanError := none
deriving DecidableEq

/-- One more token in front. -/
def Scanned.push (t : Token) (s : Scanned) : Scanned := { s with tokens := t :: s.tokens }

/-- A token that starts at a place. -/
def placed (kind : Kind) (source : Text) (text : Option Text) (p : Position) : Token :=
  { kind, source := some source, text, line := some p.line, column := some p.column }

theorem length_rest_le (t : Text) : (scanBody t).rest.length ≤ t.length := by
  fun_induction scanBody t <;> simp_all [Body.push] <;> omega

theorem length_dropWhile_le (p : Rune → Bool) (t : Text) :
    (t.dropWhile p).length ≤ t.length :=
  (List.dropWhile_sublist p).length_le

theorem length_dropWhile_lt {p : Rune → Bool} {r : Rune} {t : Text} (h : p r) :
    ((r :: t).dropWhile p).length < (r :: t).length := by
  have := length_dropWhile_le p t
  simp only [List.dropWhile_cons, h, if_true, List.length_cons]
  omega

/-- The tokens of a source.  `lead` is the white space read since the last token and `depths`
the counts of open parentheses, innermost string first. -/
def scanFrom (lead : Text) (p : Position) (depths : List Nat) (source : Text) : Scanned :=
  match source with
  | []        => if lead.isEmpty then ⟨[], none⟩ else
      ⟨[{ kind := .trailingWhitespace, source := some lead }], none⟩
  | r :: rest =>
    let closes := r = Rune.ofChar ')' && depths.head? = some 0
    if r = Rune.ofChar '"' || closes then
      let body := scanBody rest
      let start := if closes then p else p.after r
      let piece := placed (pieceKind closes body.stop) (lead ++ r :: body.literal)
        (some body.content) start
      let outer := if closes then depths.tail else depths
      let next := (p.after r).afterAll body.literal
      let slash := Rune.ofChar '\\'
      match body.stop with
      | .quote | .sourceEnd => (scanFrom [] next outer body.rest).push piece
      | .interpolation      => (scanFrom [] next (0 :: outer) body.rest).push piece
      | .badNumber          =>
        ⟨[piece, placed .illegal (lead ++ body.rest) (some body.rest) (next.after slash)], none⟩
      | .badEscape          =>
        ⟨[piece, placed .illegal (lead ++ slash :: body.rest) (some (slash :: body.rest))
          (next.after slash)], none⟩
      | .failed error       => ⟨[], some error⟩
    else if r.isBlank then
      scanFrom (lead ++ [r]) (p.after r) depths rest
    else if r = Rune.ofChar '#' then
      let comment := rest.takeWhile (· ≠ Rune.ofChar '\n')
      (scanFrom [] ((p.after r).afterAll comment) depths
        (rest.dropWhile (· ≠ Rune.ofChar '\n'))).push
        (placed .comment (lead ++ r :: comment) (some comment) p)
    else if r.isLetter then
      let letters := (r :: rest).takeWhile Rune.isLetter
      (scanFrom [] (p.afterAll letters) depths ((r :: rest).dropWhile Rune.isLetter)).push
        (placed .name (lead ++ letters) (some letters) p)
    else if r.isDigit then
      let digits := (r :: rest).takeWhile Rune.isDigit
      (scanFrom [] (p.afterAll digits) depths ((r :: rest).dropWhile Rune.isDigit)).push
        (placed .number (lead ++ digits) (some digits) p)
    else match symbol? r with
      | some kind =>
        let depths := match depths, kind with
          | d :: ds, .openParen  => (d + 1) :: ds
          | d :: ds, .closeParen => (d - 1) :: ds
          | ds, _                => ds
        (scanFrom [] (p.after r) depths rest).push (placed kind (lead ++ [r]) none p)
      | none      => ⟨[placed .illegal (lead ++ r :: rest) (some (r :: rest)) p], none⟩
termination_by source.length
decreasing_by
  · have := length_rest_le rest; simp only [List.length_cons]; omega
  · have := length_rest_le rest; simp only [List.length_cons]; omega
  · simp
  · exact Nat.lt_succ_of_le (length_dropWhile_le _ rest)
  · exact length_dropWhile_lt (by assumption)
  · exact length_dropWhile_lt (by assumption)
  · simp

/-- The mark that may stand in front of a source. -/
def byteOrderMark : Rune := ⟨0xFEFF, by decide⟩

/-- The tokens of a source. -/
def scan : Text → Scanned
  | []        => scanFrom [] {} [] []
  | r :: rest =>
    if r = byteOrderMark then scanFrom [r] {} [] rest else scanFrom [] {} [] (r :: rest)

/-- The tokens of a source given as octets. -/
def scanUtf8 (octets : List Nat) : Scanned :=
  match Text.ofUtf8? octets with
  | some source => scan source
  | none        => ⟨[], some .notUtf8⟩

end Token

end FilterShell
