import FilterShell.Text.Names
import FilterShell.Text.Quoted

/-!
# Tokens

A token has a kind, the piece of source that it comes from (with the white space before it), a
text that the kind may need, and the place of its first character.  Tokens made by hand may lack any
of these.

A string that holds programs, as in `"a\(1)b"`, is cut into pieces: `stringStart` up to `\(`,
then the tokens of the program, then `stringMiddle` or `stringEnd` from `)` on.
-/

namespace FilterShell

inductive Token.Kind where
  | assign | closeArray | closeObject | closeParen | colon | comma | command | comment | dot
  | formatString | globalVariable | illegal | minus | modulo | multiply | name | number
  | openArray | openObject | openParen | pipe | plus | semicolon | string | stringEnd
  | stringEndIncomplete | stringIncomplete | stringMiddle | stringStart | trailingWhitespace
deriving DecidableEq, Repr

structure Token where
  kind   : Token.Kind
  /-- The piece of source, with the white space before the token. -/
  source : Option Text := none
  text   : Option Text := none
  line   : Option Int := none
  column : Option Nat := none
deriving DecidableEq

namespace Token

namespace Kind

/-- The kinds in the order in which they are numbered, from one. -/
def all : List (Kind × String) :=
  [(.assign, "assign"), (.closeArray, "close_array"), (.closeObject, "close_object"),
   (.closeParen, "close_paren"), (.colon, "colon"), (.comma, "comma"), (.command, "command"),
   (.comment, "comment"), (.dot, "dot"), (.formatString, "format_string"),
   (.globalVariable, "global_variable"), (.illegal, "illegal"), (.minus, "minus"),
   (.modulo, "modulo"), (.multiply, "multiply"), (.name, "name"), (.number, "number"),
   (.openArray, "open_array"), (.openObject, "open_object"), (.openParen, "open_paren"),
   (.pipe, "pipe"), (.plus, "plus"), (.semicolon, "semicolon"), (.string, "string"),
   (.stringEnd, "string_end"), (.stringEndIncomplete, "string_end_incomplete"),
   (.stringIncomplete, "string_incomplete"), (.stringMiddle, "string_middle"),
   (.stringStart, "string_start"), (.trailingWhitespace, "trailing_whitespace")]

/-- The word for a kind. -/
def word (k : Kind) : Text :=
  match all.find? (·.1 = k) with
  | some (_, w) => w
  | none        => []

/-- The number of a kind. -/
def index (k : Kind) : Nat := all.findIdx (·.1 = k) + 1

/-- The kind with a given word. -/
def ofWord? (w : String) : Option Kind := (all.find? (·.2 = w)).map (·.1)

/-- A kind as messages show it. -/
def shown (k : Kind) : Text :=
  Text.ofString "<TokenType." ++ k.word ++ Text.ofString ": " ++ Text.ofNat k.index
    ++ Text.ofString ">"

end Kind

/-- The name `word`, wherever it comes from. -/
def isName (t : Token) (word : Text) : Bool := t.kind = .name && t.text = some word

/-- Two tokens are the same to the reader if kind and text agree. -/
def same (t u : Token) : Bool := t.kind = u.kind && t.text = u.text

/-- A token as messages show it. -/
def shown (t : Token) : Text :=
  Text.ofString "jqsh.parser.Token(" ++ t.kind.shown
    ++ (match t.source with
        | some s => Text.ofString ", token_string=" ++ s.quoted
        | none   => [])
    ++ (match t.text with
        | some s => Text.ofString ", text=" ++ s.quoted
        | none   => [])
    ++ Text.ofString ")"

/-- The source of a token, or how it is shown if it has none. -/
def display (t : Token) : Text :=
  match t.source with
  | some s => s
  | none   => Text.ofString "'" ++ t.shown ++ Text.ofString "'"

/-- Where a message says that a token stands: its place in a list of tokens, or its line if
lines are asked for. -/
def whereText (t : Token) (position : Option Int) (lines : Bool) : Text :=
  match position with
  | some p => Text.ofString " at position " ++ Text.ofInt p
  | none   => match lines, t.line with
    | true, some l => Text.ofString " in line " ++ Text.ofInt l
    | _, _         => []

/-- The words of kinds, sorted, with `or` between them. -/
def expectedText (kinds : List Kind) : Text :=
  Text.join (Text.ofString " or ") ((kinds.map Kind.word).mergeSort fun a b => !b.lt a)

/-- What is said about a token at a place where it may not stand. -/
def illegalMessage (t : Token) (position : Option Int) (expected : Option (List Kind))
    (lines : Bool) : Text :=
  match t.kind, t.text with
  | .illegal, some (r :: _) =>
    Text.ofString "illegal character" ++ t.whereText position lines ++ Text.ofString ": "
      ++ Text.quoted [r] ++ Text.ofString " (U+" ++ Text.hexUpper r.code ++ Text.ofString " "
      ++ r.name ++ Text.ofString ")"
  | kind, _ =>
    Text.ofString "illegal "
      ++ (if kind = .illegal then [] else kind.word ++ Text.ofString " ")
      ++ Text.ofString "token" ++ t.whereText position lines
      ++ (match expected with
          | some kinds =>
            Text.ofString " (expected " ++ expectedText kinds ++ Text.ofString ")"
          | none       => [])

end Token

end FilterShell
