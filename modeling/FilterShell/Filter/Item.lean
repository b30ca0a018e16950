import FilterShell.Filter.Permission
import FilterShell.Token.Scan

/-!
# Half-read programs

While a program is read, its tokens are replaced by filters step by step; an item is either.  A
caller may also hand in a finished value, which no rule accepts.
`ParseError` lists everything that can go wrong on the way, and `ParseError.message` has the
words for it.
-/

namespace FilterShell

inductive Item where
  | token (token : Token)
  | filter (filter : Filter)
  | value

namespace Item

/-- An item as messages show it. -/
def shown : Item → Text
  | .token t  => t.shown
  | .filter f => f.shown
  | .value    => []

/-- The item is a comment, which means nothing. -/
def isComment : Item → Bool
  | .token t => t.kind = .comment
  | _        => false

def isValue : Item → Bool
  | .value => true
  | _      => false

end Item

inductive ParseError where
  /-- A token that may not stand where it stands. -/
  | illegal (token : Token) (position : Option Int) (expected : Option (List Token.Kind))
      (lines : Bool)
  /-- A bracket or keyword is never closed. -/
  | unclosed (opener : Token)
  /-- A bracket or `end` closes nothing. -/
  | mismatched
  /-- A bracket is closed by one of another kind. -/
  | wrongCloser (opener closer : Token.Kind)
  /-- An operator in front needs an operand. -/
  | noOperand (operator : Token) (found : Option Token)
  /-- No rule applies any more. -/
  | leftover (items : List Item)
  /-- A filter is not allowed. -/
  | forbidden (filter : Filter)
  | unscannable (error : Token.ScanError)
  /-- A finished filter or value stands where only a token can be read. -/
  | notToken
  /-- A keyword is looked for behind the end of the program. -/
  | lostKeyword
  /-- A number token that is no number. -/
  | badNumber
  /-- A token lacks the text or source that is needed here. -/
  | missingText

namespace ParseError

/-- The program could become correct by adding to it. -/
def isIncomplete : ParseError → Bool
  | .unclosed _ => true
  | _           => false

/-- The words for an error, where there are any. -/
def message : ParseError → Option Text
  | .illegal t position expected lines => some (t.illegalMessage position expected lines)
  | .unclosed t =>
    some (Text.ofString "too many opening parens of type "
      ++ (match t.kind, t.text with
          | .name, some n => n.quoted
          | k, _          => k.shown))
  | .mismatched => some "mismatched parens"
  | .wrongCloser opener closer =>
    some (Text.ofString "opening paren of type " ++ opener.shown
      ++ Text.ofString " does not match closing paren of type " ++ closer.shown)
  | .noOperand op found =>
    some (Text.ofString "expected a filter after " ++ op.shown
      ++ (match found with
          | some t => Text.ofString ", found " ++ t.shown ++ Text.ofString " instead"
          | none   => Text.ofString ", nothing found"))
  | .leftover items =>
    some (Text.ofString "Could not parse token list: "
      ++ Filter.shownList (items.map Item.shown))
  | .forbidden f => some (Text.ofString "disallowed filter: " ++ f.text)
  | .unscannable _ | .notToken | .lostKeyword | .badNumber | .missingText => none

end ParseError

/-- The filter itself if it is allowed.  Where a text is missing, the filter can neither be judged by
its text nor be named in a message. -/
def Permissions.check (p : Permissions) (f : Filter) : Except ParseError Filter :=
  if (p.rule f.kind).readsText && !f.isWritten then .error .missingText
  else if p.allows f then .ok f
  else if f.isWritten then .error (.forbidden f)
  else .error .missingText

end FilterShell
