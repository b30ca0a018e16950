import FilterShell.Filter.Item
import FilterShell.Decimal.Arithmetic

/-!
# Faults

A fault is what can go wrong while values are read, built and combined.  A fault inside a running
filter becomes an exception value of the shell; a fault in a single operation is its result.
`Fault.message` has the words for those that have any.
-/

namespace FilterShell

inductive Fault where
  /-- A push to a channel that takes no more. -/
  | closed
  /-- A read from a channel that has ended. -/
  | exhausted
  /-- A read where nothing is waiting. -/
  | nothingWaiting
  /-- The keys of an object became more while they were listed. -/
  | keysChanged
  /-- A piece of a string that is no text. -/
  | notText
  /-- A piece of a string with a lone surrogate. -/
  | loneSurrogate
  /-- An entry of an object that is no pair. -/
  | notPair
  /-- An entry of an object that has another length than two. -/
  | pairLength
  /-- A place behind the end of an array or string. -/
  | outOfBounds (place : Text)
  /-- A place that has not been read yet, counted from the end. -/
  | notRead
  /-- A key that an object does not have. -/
  | noKey
  /-- A slice of an object. -/
  | sliceOfObject
  /-- Parts that make no number. -/
  | badParts
  /-- A slice that does not go forward. -/
  | badStep
  /-- An item that is not in the sequence. -/
  | notFound
  /-- A key that cannot be hashed. -/
  | unhashable
  /-- Arithmetic without a result. -/
  | arithmetic (signal : Decimal.Signal)
  /-- A number that is too large for a count. -/
  | countTooLarge
  /-- A result that does not fit into memory. -/
  | outOfMemory
  /-- Something given from outside that is no value. -/
  | unconvertible (kind : Text)
  /-- Something given from outside that does not fit here. -/
  | misfit
  /-- An operation that a value does not have. -/
  | noOperation
  /-- A value of a kind that has no length. -/
  | noLength
  /-- A container is asked whether it can be written as JSON. -/
  | containerCheck
  /-- A kind of value that cannot be made. -/
  | cannotMake
  /-- The context of an imported module is asked for. -/
  | moduleContext
  /-- Going through a container that is in itself. -/
  | endless
  /-- An unknown clause of a conditional. -/
  | unknownClause
  /-- A clause whose condition or body is missing. -/
  | missingClause
  /-- A text was needed, not a value of the given kind. -/
  | textNeeded (kind : Text)
  /-- A name of a command or file that no system accepts. -/
  | badName
  /-- A function that is not there at all. -/
  | unknownFunction
  /-- A function called with another number of arguments than it takes. -/
  | argumentCount (expected found : Int)
  /-- A text or file that is no UTF-8. -/
  | notUtf8
  | noSuchFile
  | isDirectory
  /-- A path leads through a file. -/
  | notDirectory
  | parse (error : ParseError)

namespace Fault

/-- The words for a fault, where there are any. -/
def message : Fault → Option Text
  | .closed | .exhausted     => some "jqsh channel has terminated"
  | .notText | .loneSurrogate => some "String channel only accepts valid Unicode strings"
  | .notPair | .pairLength   => some "Object channel only accepts pairs (arrays of 2 values)"
  | .outOfBounds place       =>
    some (Text.ofString "Index " ++ place ++ Text.ofString " is out of bounds for jqsh array")
  | .sliceOfObject           => some "Cannot slice jqsh objects"
  | .unconvertible kind      =>
    some (Text.ofString "cannot convert Python object of type " ++ kind
      ++ Text.ofString " to a jqsh value")
  | .unknownClause           => some "unknown clause in if filter"
  | .textNeeded kind         =>
    some (Text.ofString "got a " ++ kind ++ Text.ofString ", expected a string")
  | .unknownFunction         => some "No such built-in function"
  | .argumentCount n m       =>
    some (Text.ofString "incorrect number of arguments: expected " ++ Text.ofInt n
      ++ Text.ofString ", found " ++ Text.ofInt m)
  | .parse e                 => e.message
  | _                        => none

end Fault

end FilterShell
