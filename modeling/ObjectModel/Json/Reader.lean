import ObjectModel.Json.Parser
import ObjectModel.Json.Token
/-!
# Reading JSON documents

A document is read token by token with the open arrays and objects on a stack. The token that cannot
come next decides the error; a string that is expected but faulty reports its own fault.

`Strictness` says what is asked beyond well-formedness. A strict reader wants the value of every
string and number and limits the number of open brackets. A tolerant one passes over values it has
no use for: inside the outermost members any string and number will do, and a number beyond the
doubles counts as infinite. Programs take the strict reader for their parser.
-/

namespace ObjectModel.Json

/-- What a reader asks beyond well-formedness. -/
structure Strictness where
  /-- How many open brackets are too many, if there is such a number. -/
  bracketLimit? : Option Nat
  /-- Whether strings and numbers must have a value everywhere. -/
  isStrict : Bool
deriving Repr

/-- An open array or object with what has been read of it, in reverse. -/
inductive Frame where
  | items (rev : List Json)
  /-- The value that comes next belongs to `name`. -/
  | members (rev : List (List Char × Json)) (name : List Char)

/-- What may come next, inside the open brackets of `stack`. -/
inductive Reader where
  /-- A value. -/
  | value (stack : List Frame)
  /-- A value, or the end of an array that has no items yet. -/
  | firstItem (stack : List Frame)
  /-- A name, or the end of an object that has no members yet. -/
  | firstName (stack : List Frame)
  /-- A name, after a comma. -/
  | nextName (rev : List (List Char × Json)) (stack : List Frame)
  /-- The colon after a name. -/
  | colon (rev : List (List Char × Json)) (name : List Char) (stack : List Frame)
  /-- What follows a value: a comma or a closing bracket, or nothing. -/
  | after (v : Json) (stack : List Frame)

namespace Reader

/-- The content of a string, which may be missing if it is not needed. -/
def content (needed : Bool) : Except JsonError (List Char) → Except JsonError (List Char)
  | .ok s => .ok s
  | .error e => if needed then .error e else .ok ['\uFFFD']

/-- Opens an array or object, unless too many are open. -/
def openBracket (m : Strictness) (stack : List Frame) (next : Reader) : Except JsonError Reader :=
  if m.bracketLimit?.any (· ≤ stack.length + 1) then .error .depth else .ok next

/-- Reads a token where a value must come. -/
def readValue (m : Strictness) (stack : List Frame) : Token → Except JsonError Reader
  | .beginArray => openBracket m stack (.firstItem stack)
  | .beginObject => openBracket m stack (.firstName stack)
  | .scalar v => .ok (.after v stack)
  | .hugeNumber =>
    if m.isStrict then .error .malformed else .ok (.after (.float (.infinity false)) stack)
  | .string s => do return .after (.string (← content m.isStrict s)) stack
  | .endArray | .endObject | .comma | .colon | .malformed => .error .malformed

/-- Reads a token where a name must come. The names of an outermost object are always needed. -/
def readName (m : Strictness) (rev : List (List Char × Json)) (stack : List Frame) :
    Token → Except JsonError Reader
  | .string s => do return .colon rev (← content (m.isStrict || stack.isEmpty) s) stack
  | _ => .error .malformed

/-- Reads a token behind a value. -/
def readAfter (v : Json) : List Frame → Token → Except JsonError Reader
  | .items rev :: stack, .comma => .ok (.value (.items (v :: rev) :: stack))
  | .items rev :: stack, .endArray => .ok (.after (.array (v :: rev).reverse) stack)
  | .members rev name :: stack, .comma => .ok (.nextName ((name, v) :: rev) stack)
  | .members rev name :: stack, .endObject =>
    .ok (.after (.object ((name, v) :: rev).reverse) stack)
  | _, _ => .error .malformed

def step (m : Strictness) : Reader → Token → Except JsonError Reader
  | value stack, t => readValue m stack t
  | firstItem stack, .endArray => .ok (.after (.array []) stack)
  | firstItem stack, t => readValue m (.items [] :: stack) t
  | firstName stack, .endObject => .ok (.after (.object []) stack)
  | firstName stack, t => readName m [] stack t
  | nextName rev stack, t => readName m rev stack t
  | colon rev name stack, .colon => .ok (.value (.members rev name :: stack))
  | colon .., _ => .error .malformed
  | after v stack, t => readAfter v stack t

/-- The document that has been read, if it is complete. -/
def finish : Reader → Except JsonError Json
  | after v [] => .ok v
  | _ => .error .malformed

end Reader

/-- Reads the tokens of one document. -/
def ofTokens (m : Strictness) (ts : List Token) : Except JsonError Json := do
  (← ts.foldlM (Reader.step m) (.value [])).finish

/-- What is asked of a document that becomes a value. -/
def strict : Strictness where
  bracketLimit? := some (Parser.maxNesting + 1)
  isStrict := true

/-- What is asked of a document of which only some members are used. -/
def tolerant : Strictness where
  bracketLimit? := none
  isStrict := false

/-- How the reader complains about what it found wrong. -/
def complaint (e : JsonError) : Bytes :=
  Bytes.ofString <|
    match e with
    | .depth => "recursion limit exceeded"
    | .controlCharacter => "control character found while parsing a string"
    | .utf16 => "lone leading surrogate in hex escape"
    | _ => "expected value"

/-- The parser that reads a text with a strict reader. -/
def Parser.standard : Parser where
  read text := ((ofTokens strict (tokens text)).map collapsed).mapError complaint

end ObjectModel.Json
