import ObjectModel.Bytes.Utf8
import ObjectModel.Json.Basic
import ObjectModel.Json.Error
/-!
# Parsing JSON

The parser of JSON texts is not part of this library. It turns characters into a document, or says
in words why it cannot. What is added here are the bytes of the text, which must be UTF-8, the
nesting that a caller allows, and the error that the words of the parser stand for.
-/

namespace ObjectModel

/-- The error that a parser's complaint stands for. -/
def JsonError.ofComplaint (complaint : Bytes) : JsonError :=
  let mentions (words : String) : Bool := complaint.containsBytes (Bytes.ofString words)
  if mentions "recursion limit" then .depth
  else if mentions "control character" then .controlCharacter
  else if mentions "surrogate" || mentions "hex escape" then .utf16
  else .malformed

namespace Json

/-- A parser of JSON texts. -/
structure Parser where
  /-- The document of a text, in which each object has one member for each name, or a complaint. -/
  read (text : List Char) : Except Bytes Json

namespace Parser

/-- How deep documents may be nested that a parser reads, whatever its caller allows. -/
def maxNesting : Nat := 127

/-- Parses a document whose containers are nested at most `maxDepth` deep. -/
def parse (p : Parser) (text : Bytes) (maxDepth : Nat) : Except JsonError Json :=
  match Bytes.Utf8.decode? text with
  | none => .error .utf8
  | some cs =>
    match p.read cs with
    | .error complaint => .error (.ofComplaint complaint)
    | .ok v => if maxDepth < v.nesting then .error .depth else .ok v

end Parser

end Json

end ObjectModel
