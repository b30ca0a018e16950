import FilterShell.Value.Given

/-!
# JSON documents

A document is read from tokens; where the caller allows it, finished values may stand among them.
A string that is a whole document stays a text, and one whose text is missing counts as null in a
container.  `Json.Error` lists what can be wrong with a
document, and says whether more tokens could complete it.
-/

namespace FilterShell.Json

/-- What a document is read from. -/
inductive Element where
  | token (t : Token)
  | value (v : Value)
  /-- A finished filter, which has no place in a document. -/
  | filter

/-- What a document says. -/
inductive Document where
  | text (t : Text)
  | value (v : Value)
  /-- A string whose text is missing. -/
  | textless

namespace Document

/-- The value of a document. -/
def toValue : Document → Reading Value
  | .text t   => Value.ofText t
  | .value v  => return v
  | .textless => return .null

/-- Reads a document to the end. -/
def settle : Document → Reading Datum
  | .text t   => return .text t
  | .value v  => v.settle
  | .textless => return .null

/-- A document as text; one that is a text is not quoted. -/
def written : Document → Reading Text
  | .text t   => return t
  | .value v  => v.text
  | .textless => return Filter.missingText

end Document

inductive Error where
  /-- There is nothing. -/
  | empty
  /-- The tokens end inside an array. -/
  | unclosedArray (position : Nat)
  /-- The tokens end inside an object. -/
  | unclosedObject (position : Nat)
  /-- A token that may not stand where it stands. -/
  | illegal (token : Token) (position : Nat) (expected : List Token.Kind)
  /-- A name that is no value. -/
  | illegalName (name : Option Text) (position : Nat)
  | fault (f : Fault)

namespace Error

/-- More tokens could complete the document. -/
def isIncomplete : Error → Bool
  | .empty | .unclosedArray _ | .unclosedObject _ => true
  | _                                             => false

/-- The tokens break the rules of JSON. -/
def isIllegal : Error → Bool
  | .illegal .. | .illegalName .. => true
  | _                             => false

/-- The words for an error, where there are any. -/
def message : Error → Option Text
  | .empty               => some "JSON is empty"
  | .unclosedArray p     =>
    some (Text.ofString "Unclosed JSON array at position " ++ Text.ofNat p)
  | .unclosedObject p    =>
    some (Text.ofString "Unclosed JSON object at position " ++ Text.ofNat p)
  | .illegal t p kinds   => some (t.illegalMessage (some p) (some kinds) false)
  | .illegalName n p     =>
    some (Text.ofString "Illegal name token "
      ++ (match n with
          | some n => n.quoted
          | none   => Text.ofString "None")
      ++ Text.ofString " at position " ++ Text.ofNat p
      ++ Text.ofString " (expected false, null, or true)")
  | .fault f             => f.message

end Error

end FilterShell.Json
