import ObjectModel.Json.Encoder
import ObjectModel.Proofs.Json.Grammar
import ObjectModel.Proofs.Json.ValueTree
import ObjectModel.Proofs.Utf8
/-!
# What the writer spells

The text of a value tree is a text of its document, whatever the style. The written form of every
character spells this character; line breaks and the blank behind a colon leave no token, so the
layout plays no part. The parser comes in only where an integer is to be read back.
-/

namespace ObjectModel

namespace Json

private theorem hexDigit?_digitChar {n : Nat} (h : n < 16) : hexDigit? n.digitChar = some n := by
  have digit : ∀ i : Fin 16, hexDigit? i.val.digitChar = some i.val := by decide
  exact digit ⟨n, h⟩

private theorem toDigits_sixteen {n : Nat} (h : 16 ≤ n) :
    Nat.toDigits 16 n = Nat.toDigits 16 (n / 16) ++ [(n % 16).digitChar] :=
  Nat.toDigits_of_base_le (by decide) h

/-- An escape has four digits, the first of which may be zeros. -/
theorem hexEscape_eq {n : Nat} (h : n < 0x10000) :
    hexEscape n = ['\\', 'u', (n / 4096).digitChar, (n / 256 % 16).digitChar,
      (n / 16 % 16).digitChar, (n % 16).digitChar] := by
  have small {m : Nat} (hm : m < 16) : Nat.toDigits 16 m = [m.digitChar] :=
    Nat.toDigits_of_lt_base hm
  rw [hexEscape]
  obtain h₁ | h₁ := Nat.lt_or_ge n 16
  · have e₁ : n / 4096 = 0 := by omega
    have e₂ : n / 256 % 16 = 0 := by omega
    have e₃ : n / 16 % 16 = 0 := by omega
    rw [small h₁, e₁, e₂, e₃, Nat.mod_eq_of_lt h₁]
    rfl
  rw [toDigits_sixteen h₁]
  obtain h₂ | h₂ := Nat.lt_or_ge n 256
  · have e₁ : n / 4096 = 0 := by omega
    have e₂ : n / 256 % 16 = 0 := by omega
    have hd : n / 16 < 16 := by omega
    rw [small hd, e₁, e₂, Nat.mod_eq_of_lt hd]
    rfl
  rw [toDigits_sixteen (n := n / 16) (by omega), Nat.div_div_eq_div_mul]
  obtain h₃ | h₃ := Nat.lt_or_ge n 4096
  · have e₁ : n / 4096 = 0 := by omega
    have hd : n / 256 < 16 := by omega
    rw [small hd, e₁, Nat.mod_eq_of_lt hd]
    rfl
  · have hd : n / 4096 < 16 := by omega
    rw [toDigits_sixteen (n := n / (16 * 16)) (by omega), Nat.div_div_eq_div_mul, small hd]
    rfl

theorem unit?_digitChar {n : Nat} (h : n < 0x10000) :
    unit? (n / 4096).digitChar (n / 256 % 16).digitChar (n / 16 % 16).digitChar
      (n % 16).digitChar = some n := by
  rw [unit?, hexDigit?_digitChar (by omega), hexDigit?_digitChar (by omega),
    hexDigit?_digitChar (by omega), hexDigit?_digitChar (by omega)]
  change some _ = some n
  congr 1
  omega

theorem SpellsChar.ite {t u : List Char} {c : Char} {p : Prop} [Decidable p]
    (ht : p → SpellsChar t c) (hu : ¬ p → SpellsChar u c) : SpellsChar (if p then t else u) c :=
  iteInduction (motive := (SpellsChar · c)) ht hu

/-- An escape that is no surrogate stands for its unit. -/
theorem spellsChar_unit {a b c d : Char} {n : Nat} (hn : unit? a b c d = some n)
    (hs : n < 0xD800 ∨ 0xDFFF < n) : SpellsChar ['\\', 'u', a, b, c, d] (.ofNat n) := by
  refine .unit hn ⟨?_, ?_⟩
  · simp only [isHighSurrogate, Bool.and_eq_false_iff, decide_eq_false_iff_not]
    omega
  · simp only [isLowSurrogate, Bool.and_eq_false_iff, decide_eq_false_iff_not]
    omega

theorem spellsChar_hexEscape {n : Nat} (hn : n < 0x10000) (hs : n < 0xD800 ∨ 0xDFFF < n) :
    SpellsChar (hexEscape n) (.ofNat n) := by
  rw [hexEscape_eq hn]
  exact spellsChar_unit (unit?_digitChar hn) hs

/-- Two surrogates stand for one character. -/
theorem spellsChar_surrogates {n m : Nat} (hn : 0xD800 ≤ n ∧ n ≤ 0xDBFF)
    (hm : 0xDC00 ≤ m ∧ m ≤ 0xDFFF) :
    SpellsChar (hexEscape n ++ hexEscape m) (ofSurrogates n m) := by
  have hhigh : isHighSurrogate n = true := by simpa [isHighSurrogate] using hn
  have hlow : isLowSurrogate m = true := by simpa [isLowSurrogate] using hm
  rw [hexEscape_eq (by omega), hexEscape_eq (by omega)]
  exact .surrogates (unit?_digitChar (by omega)) (unit?_digitChar (by omega)) hhigh hlow

/-- The escapes of a character beyond ASCII stand for it. -/
theorem spellsChar_unicodeEscape (c : Char) : SpellsChar (unicodeEscape c) c := by
  have hc := Bytes.Utf8.toNat_bounds c
  apply SpellsChar.ite
  · intro h
    have form := spellsChar_hexEscape h (by omega)
    rwa [Char.ofNat_toNat] at form
  · intro h
    have form := spellsChar_surrogates (n := 0xD800 + (c.toNat - 0x10000) / 0x400)
      (m := 0xDC00 + (c.toNat - 0x10000) % 0x400) (by omega) (by omega)
    have he : 0x10000 + (0xD800 + (c.toNat - 0x10000) / 0x400 - 0xD800) * 0x400 +
        (0xDC00 + (c.toNat - 0x10000) % 0x400 - 0xDC00) = c.toNat := by omega
    rwa [ofSurrogates, he, Char.ofNat_toNat] at form

theorem spellsChar_ascii {a b : Char} {n : Nat} (hn : unit? '0' '0' a b = some n) (hs : n < 0xD800) :
    SpellsChar ['\\', 'u', '0', '0', a, b] (.ofNat n) :=
  spellsChar_unit hn (.inl hs)

/-- A branch for one character, which is written as a short escape. -/
theorem spellsChar_ite_simple {c d e : Char} {t : List Char} (hd : simpleEscape? d = some e)
    (ht : SpellsChar t c) : SpellsChar (if c == e then ['\\', d] else t) c := by
  apply SpellsChar.ite
  · intro h
    rw [beq_iff_eq.1 h]
    exact .simple hd
  · intro _
    exact ht

/-- A branch for one character, which is taken under a flag. -/
theorem spellsChar_ite_flag {c e : Char} {flag : Bool} {t u : List Char} (ht : SpellsChar t e)
    (hu : SpellsChar u c) : SpellsChar (if c == e && flag then t else u) c := by
  apply SpellsChar.ite
  · intro h
    rw [beq_iff_eq.1 (Bool.and_eq_true_iff.1 h).1]
    exact ht
  · intro _
    exact hu

/-- Whatever the style, the written form of a character stands for this character. -/
theorem spellsChar_escape (style : JsonStyle) (c : Char) : SpellsChar (escape style c) c := by
  -- the branches follow the order in which the writer asks
  apply SpellsChar.ite
  · intro h
    apply SpellsChar.ite
    · intro _
      rw [beq_iff_eq.1 h]
      exact spellsChar_ascii (n := 0x22) (by decide) (by decide)
    · intro _
      rw [beq_iff_eq.1 h]
      exact .simple (by decide)
  intro hq
  apply SpellsChar.ite
  · intro h
    rw [beq_iff_eq.1 h]
    exact .simple (by decide)
  intro hb
  apply spellsChar_ite_flag (.simple (by decide))
  apply spellsChar_ite_simple (by decide)
  apply spellsChar_ite_simple (by decide)
  apply spellsChar_ite_simple (by decide)
  apply spellsChar_ite_simple (by decide)
  apply spellsChar_ite_simple (by decide)
  apply spellsChar_ite_flag (spellsChar_ascii (n := 0x3C) (by decide) (by decide))
  apply spellsChar_ite_flag (spellsChar_ascii (n := 0x3E) (by decide) (by decide))
  apply spellsChar_ite_flag (spellsChar_ascii (n := 0x26) (by decide) (by decide))
  apply spellsChar_ite_flag (spellsChar_ascii (n := 0x27) (by decide) (by decide))
  apply SpellsChar.ite
  · intro h
    have hn : c.toNat < 0x20 := h
    have form := spellsChar_hexEscape (n := c.toNat) (by omega) (by omega)
    rwa [Char.ofNat_toNat] at form
  intro hc
  have plain : SpellsChar [c] c :=
    .plain (fun h => hq (beq_iff_eq.2 h)) (fun h => hb (beq_iff_eq.2 h)) hc
  apply SpellsChar.ite
  · intro _
    exact plain
  intro _
  apply SpellsChar.ite
  · intro _
    exact spellsChar_unicodeEscape c
  intro _
  apply SpellsChar.ite
  · intro _
    exact spellsChar_unicodeEscape c
  · intro _
    exact plain

theorem forall₂_escape (style : JsonStyle) (cs : List Char) :
    List.Forall₂ SpellsChar (cs.map (escape style)) cs := by
  induction cs with
  | nil => exact .nil
  | cons c cs ih => exact .cons (spellsChar_escape style c) ih

variable {p : Parser}

/-- A written string spells its characters. -/
theorem spells_quote (style : JsonStyle) (cs : List Char) :
    p.Spells (quote style cs) (.string (.ok cs)) := by
  rw [quote, List.flatMap_def]
  exact .string (forall₂_escape style cs)

/-- A machine integer is spelled by its decimal text. -/
theorem spells_decimalText (hp : p.IsCorrect) (i : Int64) :
    p.Spells (decimalText i.toInt) (.scalar (.int i.toInt)) := by
  have hi := i.toInt_lt
  exact .number (isNumber_decimalText _) trivial (hp.read_decimalText i.le_toInt (by omega))

theorem spellsAll_lineBreak (style : JsonStyle) (depth : Nat) :
    p.SpellsAll (lineBreak style depth) [] := by
  apply Parser.spellsAll_blanks
  rw [lineBreak]
  split
  · refine List.forall_mem_cons.2 ⟨by decide, fun c hc => ?_⟩
    rw [List.eq_of_mem_replicate hc]
    decide
  · exact List.forall_mem_nil _

theorem spellsAll_joinMembers (style : JsonStyle) (depth : Nat) {texts : List (List Char)}
    {tss : List (List Token)} (h : List.Forall₂ p.SpellsAll texts tss) :
    p.SpellsAll (joinMembers style depth texts) (separated tss) := by
  induction h with
  | nil => exact .nil
  | @cons m ts ms tss hm h ih =>
    have hfirst := (spellsAll_lineBreak style depth).append hm
    cases h with
    | nil => exact hfirst
    | cons hm' h =>
      have hall := hfirst.append (ih.punctuation (c := ',') rfl)
      rwa [List.append_assoc] at hall

/-- Members between brackets spell their tokens with brackets around and commas between. -/
theorem spellsAll_bracket (style : JsonStyle) (depth : Nat) {left right : Char} {tl tr : Token}
    (hl : punctuation? left = some tl) (hr : punctuation? right = some tr)
    {texts : List (List Char)} {tss : List (List Token)}
    (h : List.Forall₂ p.SpellsAll texts tss) :
    p.SpellsAll (bracket style depth left right texts) (tl :: (separated tss ++ [tr])) := by
  have hclose : p.SpellsAll (if texts.isEmpty then [] else lineBreak style (depth - 1)) [] := by
    split
    · exact .nil
    · exact spellsAll_lineBreak style _
  have hend := hclose.append (.punctuation hr .nil)
  exact ((spellsAll_joinMembers style depth h).append hend).punctuation hl

/-- A name and a value spell the name, a colon and the tokens of the value. -/
theorem spellsAll_member (style : JsonStyle) (name : List Char) {text : List Char}
    {ts : List Token} (h : p.SpellsAll text ts) :
    p.SpellsAll (quote style name ++ nameSeparator style ++ text)
      (.string (.ok name) :: .colon :: ts) := by
  have hsep : p.SpellsAll (nameSeparator style ++ text) (.colon :: ts) := by
    rw [nameSeparator]
    split
    · exact .punctuation rfl (.blank rfl h)
    · exact .punctuation rfl h
  rw [List.append_assoc]
  exact .token (spells_quote style name) hsep

end Json

namespace ValueTree

open Json

variable {p : Parser}

mutual

/-- The text of a tree is a text of its document. -/
theorem writes_text (hp : p.IsCorrect) (style : JsonStyle) (depth : Nat) (t : ValueTree) :
    p.Writes (t.text style depth) (t.document style) := by
  match t with
  | .null => exact Parser.Spells.null.all
  | .bool true => exact (Parser.Spells.bool true).all
  | .bool false => exact (Parser.Spells.bool false).all
  | .int i => exact (spells_decimalText hp i).all
  | .str s => exact (spells_quote style s.chars).all
  | .array es =>
    rw [text, document]
    split
    · exact spellsAll_bracket style _ rfl rfl (forall₂_memberTexts hp style _ es)
    · exact spellsAll_bracket style _ rfl rfl (forall₂_itemTexts hp style _ es)

theorem forall₂_itemTexts (hp : p.IsCorrect) (style : JsonStyle) (depth : Nat)
    (es : List (Key × ValueTree)) :
    List.Forall₂ p.SpellsAll (itemTexts style depth es) (itemTokens (items style es)) := by
  match es with
  | [] => exact .nil
  | (_, t) :: es =>
    exact .cons (writes_text hp style depth t) (forall₂_itemTexts hp style depth es)

theorem forall₂_memberTexts (hp : p.IsCorrect) (style : JsonStyle) (depth : Nat)
    (es : List (Key × ValueTree)) :
    List.Forall₂ p.SpellsAll (memberTexts style depth es) (memberTokens (members style es)) := by
  match es with
  | [] => exact .nil
  | (k, t) :: es =>
    exact .cons (spellsAll_member style _ (writes_text hp style depth t))
      (forall₂_memberTexts hp style depth es)

end

end ValueTree

end ObjectModel
