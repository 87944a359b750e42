/-!
# Failures of JSON encoding and decoding

One constructor per cause, with the number and the wording under which it is reported. A call that
succeeds is reported as number zero.
-/

namespace ObjectModel

inductive JsonError where
  /-- Containers are nested too deeply. -/
  | depth
  /-- A string contains a control character that is not escaped. -/
  | controlCharacter
  /-- The text is not JSON. -/
  | malformed
  /-- A string or text is not UTF-8. -/
  | utf8
  /-- A container lies inside itself. -/
  | recursion
  /-- A double is infinite or a NaN. -/
  | infOrNan
  /-- A value has no counterpart in JSON. -/
  | unsupportedType
  /-- The name of a member cannot be the name of a property. -/
  | invalidPropertyName
  /-- An escape denotes half of a surrogate pair. -/
  | utf16
deriving DecidableEq, Repr

namespace JsonError

/-- The number of an error. -/
def code : JsonError → Nat
  | depth => 1
  | controlCharacter => 3
  | malformed => 4
  | utf8 => 5
  | recursion => 6
  | infOrNan => 7
  | unsupportedType => 8
  | invalidPropertyName => 9
  | utf16 => 10

def message : JsonError → String
  | depth => "Maximum stack depth exceeded"
  | controlCharacter => "Control character error, possibly incorrectly encoded"
  | malformed => "Syntax error"
  | utf8 => "Malformed UTF-8 characters, possibly incorrectly encoded"
  | recursion => "Recursion detected"
  | infOrNan => "Inf and NaN cannot be JSON encoded"
  | unsupportedType => "Type is not supported"
  | invalidPropertyName => "The decoded property name is invalid"
  | utf16 => "Single unpaired UTF-16 surrogate in unicode escape"

/-- The number under which the outcome of a call is reported. -/
def lastCode (e? : Option JsonError) : Nat := (e?.map code).getD 0

def lastMessage (e? : Option JsonError) : String := (e?.map message).getD "No error"

end JsonError

end ObjectModel
