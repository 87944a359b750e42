import ObjectModel.Bytes.Utf8
import ObjectModel.Json.Error
import ObjectModel.Json.Number
/-!
# JSON tokens

A text is cut into punctuation, strings and words; a word is a literal or a number. What cannot be
cut ends the sequence with a malformed token.

The content of a string may be missing although the string has an end: an escape may denote half of
a surrogate pair. A number may lie beyond the doubles. Such tokens are kept, because a reader may
skip them without asking for their value; a string that breaks off is followed by a malformed token.
-/

namespace ObjectModel.Json

inductive Token where
  | beginArray
  | endArray
  | beginObject
  | endObject
  | comma
  | colon
  /-- A literal, or a number that lies in the range of the doubles. -/
  | scalar (v : Json)
  /-- A number beyond the doubles. -/
  | hugeNumber
  /-- A string, or what is wrong with it first. -/
  | string (content : Except JsonError (List Char))
  /-- Something that is no token. -/
  | malformed
deriving Inhabited

def isBlank (c : Char) : Bool := c == ' ' || c == '\t' || c == '\n' || c == '\r'

/-- A character of a literal or number. -/
def isWordChar (c : Char) : Bool := c.isAlphanum || c == '+' || c == '-' || c == '.'

def wordToken (word : List Char) : Token :=
  if word = "null".toList then .scalar .null
  else if word = "true".toList then .scalar (.bool true)
  else if word = "false".toList then .scalar (.bool false)
  else
    match number? (Bytes.Utf8.encode word) with
    | none => .malformed
    | some none => .hugeNumber
    | some (some v) => .scalar v

def flush : List Char → List Token
  | [] => []
  | word => [wordToken word.reverse]

def punctuation? : Char → Option Token
  | '[' => some .beginArray
  | ']' => some .endArray
  | '{' => some .beginObject
  | '}' => some .endObject
  | ',' => some .comma
  | ':' => some .colon
  | _ => none

/-- The character that a backslash and a letter denote. -/
def simpleEscape? : Char → Option Char
  | '"' => some '"'
  | '\\' => some '\\'
  | '/' => some '/'
  | 'b' => some '\x08'
  | 'f' => some '\x0C'
  | 'n' => some '\n'
  | 'r' => some '\r'
  | 't' => some '\t'
  | _ => none

def hexDigit? (c : Char) : Option Nat :=
  if c.isDigit then some (c.toNat - '0'.toNat)
  else if 'a' ≤ c && c ≤ 'f' then some (c.toNat - 'a'.toNat + 10)
  else if 'A' ≤ c && c ≤ 'F' then some (c.toNat - 'A'.toNat + 10)
  else none

/-- The unit denoted by four hexadecimal digits. -/
def unit? (a b c d : Char) : Option Nat := do
  return (((← hexDigit? a) * 16 + (← hexDigit? b)) * 16 + (← hexDigit? c)) * 16 + (← hexDigit? d)

def isHighSurrogate (n : Nat) : Bool := 0xD800 ≤ n && n ≤ 0xDBFF

def isLowSurrogate (n : Nat) : Bool := 0xDC00 ≤ n && n ≤ 0xDFFF

/-- The character of a surrogate pair. -/
def ofSurrogates (high low : Nat) : Char :=
  Char.ofNat (0x10000 + (high - 0xD800) * 0x400 + (low - 0xDC00))

/-- A string under way: its characters in reverse and the first thing wrong with it, if any. -/
structure Partial where
  rev : List Char := []
  fault? : Option JsonError := none

namespace Partial

def push (p : Partial) (c : Char) : Partial := { p with rev := c :: p.rev }

def fail (p : Partial) (e : JsonError) : Partial := { p with fault? := p.fault? <|> some e }

def token (p : Partial) : Token :=
  .string <| match p.fault? with
    | none => .ok p.rev.reverse
    | some e => .error e

/-- The tokens of a string that breaks off. -/
def broken (p : Partial) (e : JsonError) : List Token := [(p.fail e).token, .malformed]

end Partial

mutual

/-- The tokens of a text, where `word` has been read of a word, in reverse. -/
def lex (word : List Char) : List Char → List Token
  | [] => flush word
  | '"' :: s => flush word ++ lexString {} s
  | c :: s =>
    if isWordChar c then lex (c :: word) s
    else if isBlank c then flush word ++ lex [] s
    else match punctuation? c with
      | some t => flush word ++ t :: lex [] s
      | none => flush word ++ [.malformed]

/-- The tokens of a text that continues a string. -/
def lexString (p : Partial) : List Char → List Token
  | [] => p.broken .malformed
  | '"' :: s => p.token :: lex [] s
  | '\\' :: 'u' :: a :: b :: c :: d :: s =>
    match unit? a b c d with
    | none => p.broken .malformed
    | some n =>
      if isLowSurrogate n then lexString (p.fail .utf16) s
      else if !isHighSurrogate n then lexString (p.push (Char.ofNat n)) s
      else match s with
        | '\\' :: 'u' :: a :: b :: c :: d :: s =>
          match unit? a b c d with
          | none => p.broken .malformed
          | some m =>
            if isLowSurrogate m then lexString (p.push (ofSurrogates n m)) s
            else lexString (p.fail .utf16) s
        | [] | ['\\'] | '\\' :: 'u' :: _ => p.broken .malformed
        | s => lexString (p.fail .utf16) s
  | '\\' :: c :: s =>
    match simpleEscape? c with
    | some c => lexString (p.push c) s
    | none => p.broken .malformed
  | c :: s =>
    if c == '\\' then p.broken .malformed
    else if c < ' ' then p.broken .controlCharacter
    else lexString (p.push c) s

end

def tokens (text : List Char) : List Token := lex [] text

end ObjectModel.Json
