import ObjectModel.Json.Parser
import ObjectModel.Json.Token
import ObjectModel.Proofs.Json.Document
import ObjectModel.Proofs.Utf8
/-!
# The grammar of JSON

A JSON text is a sequence of tokens with blanks between them, and `toTokens` lists the tokens of a
document. How a literal, a string or a punctuation character is spelled is laid down here. A number
has a form, but what it denotes is left to the parser, since parsers round differently: it denotes
inside a document what the parser reads it as alone.

`Parser.IsCorrect` says what is expected of a parser: it reads the texts of documents, except for
those that are nested too deep, of which it says so.
-/

namespace ObjectModel.Json

/-- Puts a comma between sequences of tokens. -/
def separated : List (List Token) → List Token
  | [] => []
  | [ts] => ts
  | ts :: us :: tss => ts ++ .comma :: separated (us :: tss)

mutual

def toTokens : Json → List Token
  | null => [.scalar .null]
  | bool b => [.scalar (.bool b)]
  | int i => [.scalar (.int i)]
  | float d => [.scalar (.float d)]
  | string s => [.string (.ok s)]
  | array items => .beginArray :: (separated (itemTokens items) ++ [.endArray])
  | object members => .beginObject :: (separated (memberTokens members) ++ [.endObject])

def itemTokens : List Json → List (List Token)
  | [] => []
  | v :: vs => v.toTokens :: itemTokens vs

def memberTokens : List (List Char × Json) → List (List Token)
  | [] => []
  | (name, v) :: ms => (.string (.ok name) :: .colon :: v.toTokens) :: memberTokens ms

end

def IsDigits (text : List Char) : Prop := text ≠ [] ∧ ∀ c ∈ text, c.isDigit = true

def IsWhole (text : List Char) : Prop := text = ['0'] ∨ (IsDigits text ∧ text.head? ≠ some '0')

def IsFraction (text : List Char) : Prop := ∃ ds, text = '.' :: ds ∧ IsDigits ds

def IsExponent (text : List Char) : Prop :=
  ∃ mark sign ds, text = mark :: sign ++ ds ∧ (mark = 'e' ∨ mark = 'E') ∧
    (sign = [] ∨ sign = ['+'] ∨ sign = ['-']) ∧ IsDigits ds

def IsNumber (text : List Char) : Prop :=
  ∃ sign whole fraction exponent, text = sign ++ whole ++ fraction ++ exponent ∧
    (sign = [] ∨ sign = ['-']) ∧ IsWhole whole ∧ (fraction = [] ∨ IsFraction fraction) ∧
    (exponent = [] ∨ IsExponent exponent)

/-- How a character of a string is spelled. -/
inductive SpellsChar : List Char → Char → Prop
  /-- A character that needs no escape stands for itself. -/
  | plain {c : Char} (hq : c ≠ '"') (hb : c ≠ '\\') (hc : ¬c < ' ') : SpellsChar [c] c
  | simple {c d : Char} (hd : simpleEscape? c = some d) : SpellsChar ['\\', c] d
  | unit {a b c d : Char} {n : Nat} (hn : unit? a b c d = some n)
      (hs : isHighSurrogate n = false ∧ isLowSurrogate n = false) :
      SpellsChar ['\\', 'u', a, b, c, d] (.ofNat n)
  | surrogates {a b c d a' b' c' d' : Char} {n m : Nat} (hn : unit? a b c d = some n)
      (hm : unit? a' b' c' d' = some m) (hhigh : isHighSurrogate n = true)
      (hlow : isLowSurrogate m = true) :
      SpellsChar ['\\', 'u', a, b, c, d, '\\', 'u', a', b', c', d'] (ofSurrogates n m)

def IsNumeric : Json → Prop
  | int _ | float _ => True
  | _ => False

theorem head?_toDigits_ne {n : Nat} (hn : n ≠ 0) : (Nat.toDigits 10 n).head? ≠ some '0' := by
  induction n using Nat.strongRecOn with
  | ind n ih =>
    obtain h | h := Nat.lt_or_ge n 10
    · have digit : ∀ i : Fin 10, i.val ≠ 0 → [i.val.digitChar].head? ≠ some '0' := by decide
      rw [Nat.toDigits_of_lt_base h]
      exact digit ⟨n, h⟩ hn
    · rw [Nat.toDigits_of_base_le (by decide) h,
        List.head?_append_of_ne_nil _ Nat.toDigits_ne_nil]
      exact ih (n / 10) (by omega) (by omega)

/-- Every integer is written in the form of a number. -/
theorem isNumber_decimalText (i : Int) : IsNumber (decimalText i) := by
  have hwhole : IsWhole (Nat.toDigits 10 i.natAbs) := by
    obtain h | h := Nat.eq_zero_or_pos i.natAbs
    · exact .inl (h ▸ Nat.toDigits_zero 10)
    · exact .inr ⟨⟨Nat.toDigits_ne_nil, fun _ => Nat.isDigit_of_mem_toDigits (by decide) (by decide)⟩,
        head?_toDigits_ne (Nat.ne_of_gt h)⟩
  obtain h | h := Int.lt_or_le i 0
  · exact ⟨['-'], _, [], [], by simp [decimalText, h], .inr rfl, hwhole, .inl rfl, .inl rfl⟩
  · exact ⟨[], _, [], [], by simp [decimalText, Int.not_lt.2 h], .inl rfl, hwhole, .inl rfl,
      .inl rfl⟩

namespace Parser

variable {p : Parser}

/-- How a token is spelled. -/
inductive Spells (p : Parser) : List Char → Token → Prop
  | punctuation {c : Char} {t : Token} (ht : punctuation? c = some t) : Spells p [c] t
  | null : Spells p "null".toList (.scalar .null)
  | bool (b : Bool) : Spells p (if b then "true" else "false").toList (.scalar (.bool b))
  /-- A number denotes what the parser reads it as. -/
  | number {text : List Char} {v : Json} (hn : IsNumber text) (hv : v.IsNumeric)
      (hp : p.read text = .ok v) : Spells p text (.scalar v)
  | string {texts : List (List Char)} {cs : List Char} (h : List.Forall₂ SpellsChar texts cs) :
      Spells p ('"' :: texts.flatten ++ ['"']) (.string (.ok cs))

/-- How a sequence of tokens is spelled. Nothing has to stand between two tokens here; in a
document no two words follow each other. -/
inductive SpellsAll (p : Parser) : List Char → List Token → Prop
  | nil : SpellsAll p [] []
  | blank {c : Char} {text : List Char} {ts : List Token} (hc : isBlank c = true)
      (h : SpellsAll p text ts) : SpellsAll p (c :: text) ts
  | token {text rest : List Char} {t : Token} {ts : List Token} (ht : Spells p text t)
      (h : SpellsAll p rest ts) : SpellsAll p (text ++ rest) (t :: ts)

/-- Whether a text is a text of a document. -/
def Writes (p : Parser) (text : List Char) (v : Json) : Prop := SpellsAll p text v.toTokens

/-- What a correct parser does. -/
structure IsCorrect (p : Parser) : Prop where
  /-- An integer of at most 64 bits, signed or unsigned, is read exactly. -/
  read_decimalText : ∀ {i : Int}, -0x8000000000000000 ≤ i → i < 0x10000000000000000 →
    p.read (decimalText i) = .ok (.int i)
  /-- A text of a document is read as the document in the order of the text, where the last of
  several members with one name takes the place of the first. -/
  read_eq_ok : ∀ {text : List Char} {v : Json}, p.Writes text v → v.nesting ≤ maxNesting →
    p.read text = .ok v.collapsed
  /-- A text of a document that is nested too deep is refused for this reason. -/
  read_eq_error : ∀ {text : List Char} {v : Json}, p.Writes text v → maxNesting < v.nesting →
    ∃ complaint, p.read text = .error complaint ∧
      complaint.containsBytes (Bytes.ofString "recursion limit") = true
  /-- Whatever is read is not nested too deep, and no object in it has a name twice. -/
  of_read_eq_ok : ∀ {text : List Char} {v : Json}, p.read text = .ok v →
    v.nesting ≤ maxNesting ∧ v.all hasDistinctNames

theorem SpellsAll.append {text rest : List Char} {ts us : List Token} (h : p.SpellsAll text ts)
    (h' : p.SpellsAll rest us) : p.SpellsAll (text ++ rest) (ts ++ us) := by
  induction h with
  | nil => exact h'
  | blank hc _ ih => exact .blank hc ih
  | token ht _ ih =>
    rw [List.append_assoc]
    exact .token ht ih

theorem SpellsAll.punctuation {c : Char} {t : Token} (hc : punctuation? c = some t)
    {text : List Char} {ts : List Token} (h : p.SpellsAll text ts) :
    p.SpellsAll (c :: text) (t :: ts) :=
  .token (.punctuation hc) h

theorem Spells.all {text : List Char} {t : Token} (h : p.Spells text t) :
    p.SpellsAll text [t] := by
  have hall : p.SpellsAll (text ++ []) [t] := .token h .nil
  rwa [List.append_nil] at hall

theorem spellsAll_blanks {text : List Char} (h : ∀ c ∈ text, isBlank c = true) :
    p.SpellsAll text [] := by
  induction text with
  | nil => exact .nil
  | cons c text ih =>
    obtain ⟨hc, h⟩ := List.forall_mem_cons.1 h
    exact .blank hc (ih h)

variable {text : List Char} {bytes : Bytes} {maxDepth : Nat} {v : Json}

theorem parse_encode (p : Parser) (text : List Char) (maxDepth : Nat) :
    p.parse (Bytes.Utf8.encode text) maxDepth =
      match p.read text with
      | .error complaint => .error (.ofComplaint complaint)
      | .ok v => if maxDepth < v.nesting then .error .depth else .ok v := by
  cases hr : p.read text <;> simp only [parse, Bytes.Utf8.decode?_encode, hr]

namespace IsCorrect

/-- A text of a document is parsed as this document unless it is nested too deep. -/
theorem parse_eq_ok (hp : p.IsCorrect) (ht : p.Writes text v)
    (hd : v.nesting ≤ min maxDepth maxNesting) :
    p.parse (Bytes.Utf8.encode text) maxDepth = .ok v.collapsed := by
  have hc := nesting_collapsed_le v
  rw [parse_encode, hp.read_eq_ok ht (by omega)]
  exact if_neg (by omega)

theorem parse_eq_error (hp : p.IsCorrect) (ht : p.Writes text v) (hd : maxNesting < v.nesting) :
    p.parse (Bytes.Utf8.encode text) maxDepth = .error .depth := by
  obtain ⟨complaint, hr, hc⟩ := hp.read_eq_error ht hd
  rw [parse_encode, hr]
  exact congrArg Except.error (if_pos hc)

/-- A document that was parsed is nested no deeper than the call and the parser allow, no object in
it has a name twice, and it is the one that the text is a text of, if there is one. -/
theorem of_parse_eq_ok (hp : p.IsCorrect) (h : p.parse bytes maxDepth = .ok v) :
    v.nesting ≤ min maxDepth maxNesting ∧ v.all hasDistinctNames ∧
      ∀ text u, bytes = Bytes.Utf8.encode text → p.Writes text u → u.collapsed = v := by
  rw [parse] at h
  split at h
  · cases h
  next cs hcs =>
    split at h
    · cases h
    next w hr =>
      split at h
      · cases h
      cases h
      obtain ⟨hn, hd⟩ := hp.of_read_eq_ok hr
      refine ⟨by omega, hd, ?_⟩
      rintro text u rfl hw
      rw [Bytes.Utf8.decode?_encode] at hcs
      cases hcs
      obtain hu | hu := Nat.lt_or_ge maxNesting u.nesting
      · obtain ⟨complaint, he, -⟩ := hp.read_eq_error hw hu
        cases he.symm.trans hr
      · exact Except.ok.inj ((hp.read_eq_ok hw hu).symm.trans hr)

end IsCorrect

end Parser

end ObjectModel.Json
