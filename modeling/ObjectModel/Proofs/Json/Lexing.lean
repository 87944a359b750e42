import Mathlib.Data.List.Chain
import Mathlib.Data.List.TakeWhile
import ObjectModel.Json.Reader
import ObjectModel.Proofs.Json.Grammar
import ObjectModel.Proofs.Numeral
import ObjectModel.Proofs.Utf8
/-!
# Cutting texts into tokens

A text that spells a sequence of tokens is cut into these tokens. Words end where something else
begins, so this needs that no two words follow each other, which is so in the tokens of a document.
A string is cut one character at a time: the spelling of a character adds this character, and
nothing else, to the string under way.
-/

namespace ObjectModel.Json

/-- A text before which a word ends: it is empty or starts with no character of a word. -/
def EndsWord : List Char → Prop
  | [] => True
  | c :: _ => isWordChar c = false

private theorem ne_quote_of_isWordChar {c : Char} (h : isWordChar c = true) : c ≠ '"' := by
  rintro rfl
  exact absurd h (by decide)

theorem lex_word {c : Char} (h : isWordChar c = true) (word s : List Char) :
    lex word (c :: s) = lex (c :: word) s := by
  rw [lex.eq_3 _ _ _ (ne_quote_of_isWordChar h), if_pos h]

theorem lex_append_word {u : List Char} (h : ∀ c ∈ u, isWordChar c = true) (word s : List Char) :
    lex word (u ++ s) = lex (u.reverse ++ word) s := by
  induction u generalizing word with
  | nil => rfl
  | cons c u ih =>
    rw [List.cons_append, lex_word (h c List.mem_cons_self),
      ih (fun d hd => h d (List.mem_cons_of_mem c hd)), List.reverse_cons, List.append_assoc]
    rfl

/-- A word is complete where no further character of it follows. -/
theorem lex_eq_flush_append {s : List Char} (h : EndsWord s) (word : List Char) :
    lex word s = flush word ++ lex [] s := by
  cases s with
  | nil => rw [lex, lex]; exact (List.append_nil _).symm
  | cons c s =>
    by_cases hq : c = '"'
    · subst hq
      rw [lex, lex]
      rfl
    · have hw : ¬ isWordChar c = true := by rw [show isWordChar c = false from h]; decide
      rw [lex.eq_3 _ _ _ hq, lex.eq_3 _ _ _ hq, if_neg hw, if_neg hw]
      split
      · rfl
      · cases punctuation? c <;> rfl

theorem lex_word_append {w s : List Char} (hne : w ≠ []) (hw : ∀ c ∈ w, isWordChar c = true)
    (hs : EndsWord s) : lex [] (w ++ s) = wordToken w :: lex [] s := by
  rw [lex_append_word hw, List.append_nil, lex_eq_flush_append hs]
  cases hr : w.reverse with
  | nil => exact absurd (List.reverse_eq_nil_iff.1 hr) hne
  | cons c u =>
    rw [flush, ← hr, List.reverse_reverse]
    · rfl
    · exact List.cons_ne_nil c u

private theorem ne_quote_of_isBlank {c : Char} (h : isBlank c = true) : c ≠ '"' := by
  rintro rfl
  exact absurd h (by decide)

private theorem isWordChar_of_isBlank {c : Char} (h : isBlank c = true) : isWordChar c = false := by
  simp only [isBlank, Bool.or_eq_true, beq_iff_eq] at h
  rcases h with ((rfl | rfl) | rfl) | rfl <;> decide

theorem lex_blank {c : Char} (h : isBlank c = true) (s : List Char) :
    lex [] (c :: s) = lex [] s := by
  rw [lex.eq_3 _ _ _ (ne_quote_of_isBlank h), isWordChar_of_isBlank h, if_neg Bool.false_ne_true,
    if_pos h]
  rfl

private theorem of_punctuation? {c : Char} {t : Token} (h : punctuation? c = some t) :
    c ≠ '"' ∧ isWordChar c = false ∧ isBlank c = false := by
  rw [punctuation?.eq_def] at h
  split at h
  iterate 6 decide
  cases h

theorem endsWord_punctuation {c : Char} {t : Token} (h : punctuation? c = some t)
    (s : List Char) : EndsWord (c :: s) := (of_punctuation? h).2.1

theorem lex_punctuation {c : Char} {t : Token} (h : punctuation? c = some t) (s : List Char) :
    lex [] (c :: s) = t :: lex [] s := by
  obtain ⟨hq, hw, hb⟩ := of_punctuation? h
  rw [lex.eq_3 _ _ _ hq, hw, hb, if_neg Bool.false_ne_true, if_neg Bool.false_ne_true, h]
  rfl

private theorem takeWhile_digitBytes (n : Nat) :
    (Numeral.digitBytes n).takeWhile Bytes.isDigit = Numeral.digitBytes n :=
  List.takeWhile_eq_self_iff.2 fun _ => Numeral.isDigit_of_mem_digitBytes

private theorem dropWhile_digitBytes (n : Nat) :
    (Numeral.digitBytes n).dropWhile Bytes.isDigit = [] :=
  List.dropWhile_eq_nil_iff.2 fun _ => Numeral.isDigit_of_mem_digitBytes

private theorem number?_minus {n : Nat} (h : n ≠ 0) :
    number? (0x2D :: Numeral.digitBytes n) =
      some (numberValue? true (Numeral.digitBytes n) none none) := by
  obtain ⟨b, bs, he, hb⟩ := Numeral.digitBytes_eq_cons h
  rw [number?]
  simp only [takeWhile_digitBytes, dropWhile_digitBytes, Numeral.splitFraction,
    Numeral.splitExponent]
  rw [he, if_pos]
  simp [hb]

private theorem number?_digitBytes (n : Nat) :
    number? (Numeral.digitBytes n) =
      some (numberValue? false (Numeral.digitBytes n) none none) := by
  rw [number?]
  · simp only [takeWhile_digitBytes, dropWhile_digitBytes, Numeral.splitFraction,
      Numeral.splitExponent]
    obtain rfl | hn := Nat.eq_zero_or_pos n
    · rw [Numeral.digitBytes_zero]
      rfl
    · obtain ⟨b, bs, he, hb⟩ := Numeral.digitBytes_eq_cons (Nat.ne_of_gt hn)
      rw [he, if_pos]
      simp [hb]
  · exact Numeral.digitBytes_ne_minus n

private theorem numberValue?_whole {negative : Bool} {n : Nat} {i : Int}
    (hs : Numeral.signed negative n = i) (hz : negative = true → n ≠ 0)
    (hi : -0x8000000000000000 ≤ i ∧ i < 0x10000000000000000) :
    numberValue? negative (Numeral.digitBytes n) none none = some (.int i) := by
  rw [numberValue?]
  simp only [Numeral.digitsValue_digitBytes, hs]
  rw [if_pos]
  cases negative with
  | false => simpa using hi
  | true => simpa [hz rfl] using hi

/-- An integer of at most 64 bits is read back from its text. -/
theorem number?_decimalText {i : Int} (hlow : -0x8000000000000000 ≤ i)
    (hhigh : i < 0x10000000000000000) :
    number? (Bytes.Utf8.encode (decimalText i)) = some (some (.int i)) := by
  rw [Numeral.encode_decimalText]
  split
  next h =>
    rw [number?_minus (by omega), numberValue?_whole _ (fun _ => by omega) ⟨hlow, hhigh⟩]
    rw [Numeral.signed, if_pos rfl]
    omega
  next h =>
    rw [number?_digitBytes, numberValue?_whole _ (fun h => by cases h) ⟨hlow, hhigh⟩]
    rw [Numeral.signed, if_neg Bool.false_ne_true]
    omega

theorem wordToken_decimalText {i : Int} (hlow : -0x8000000000000000 ≤ i)
    (hhigh : i < 0x10000000000000000) : wordToken (decimalText i) = .scalar (.int i) := by
  have hn := number?_decimalText hlow hhigh
  have literal {w : List Char} (hw : number? (Bytes.Utf8.encode w) = none) :
      ¬decimalText i = w := by
    rintro rfl
    rw [hn] at hw
    cases hw
  rw [wordToken, if_neg (literal (by decide)), if_neg (literal (by decide)),
    if_neg (literal (by decide)), hn]

theorem IsDigits.isWordChar {text : List Char} (h : IsDigits text) :
    ∀ c ∈ text, isWordChar c = true := fun c hc => by
  simp [Json.isWordChar, Char.isAlphanum, h.2 c hc]

/-- A number is a word. -/
theorem IsNumber.isWord {text : List Char} (h : IsNumber text) :
    text ≠ [] ∧ ∀ c ∈ text, isWordChar c = true := by
  obtain ⟨sign, whole, fraction, exponent, rfl, hs, hw, hf, he⟩ := h
  have hwhole : whole ≠ [] ∧ ∀ c ∈ whole, isWordChar c = true := by
    obtain rfl | ⟨hd, -⟩ := hw
    · exact ⟨List.cons_ne_nil _ _, List.forall_mem_singleton.2 (by decide)⟩
    · exact ⟨hd.1, hd.isWordChar⟩
  have hsign : ∀ c ∈ sign, isWordChar c = true := by
    obtain rfl | rfl := hs
    · exact List.forall_mem_nil _
    · exact List.forall_mem_singleton.2 (by decide)
  have hfraction : ∀ c ∈ fraction, isWordChar c = true := by
    obtain rfl | ⟨ds, rfl, hd⟩ := hf
    · exact List.forall_mem_nil _
    · exact List.forall_mem_cons.2 ⟨by decide, hd.isWordChar⟩
  have hexponent : ∀ c ∈ exponent, isWordChar c = true := by
    obtain rfl | ⟨mark, esign, ds, rfl, hmark, hes, hd⟩ := he
    · exact List.forall_mem_nil _
    · have hm : isWordChar mark = true := by obtain rfl | rfl := hmark <;> decide
      have hes' : ∀ c ∈ esign, isWordChar c = true := by
        obtain rfl | rfl | rfl := hes
        · exact List.forall_mem_nil _
        · exact List.forall_mem_singleton.2 (by decide)
        · exact List.forall_mem_singleton.2 (by decide)
      exact List.forall_mem_cons.2 ⟨hm, List.forall_mem_append.2 ⟨hes', hd.isWordChar⟩⟩
  constructor
  · simp [hwhole.1]
  · simp only [List.forall_mem_append]
    exact ⟨⟨⟨hsign, hwhole.2⟩, hfraction⟩, hexponent⟩

/-- What a number is read as alone is the token of its word. -/
theorem wordToken_eq_of_read {text : List Char} {v : Json} (hn : IsNumber text)
    (hv : v.IsNumeric) (hr : Parser.standard.read text = .ok v) : wordToken text = .scalar v := by
  obtain ⟨hne, hw⟩ := hn.isWord
  have hlex : tokens text = [wordToken text] := by
    have h := lex_word_append (s := []) hne hw trivial
    rwa [List.append_nil] at h
  change ((ofTokens strict (tokens text)).map collapsed).mapError complaint = .ok v at hr
  rw [hlex] at hr
  cases ht : wordToken text with
  | scalar u =>
    rw [ht] at hr
    cases hr
    cases u with
    | array => exact hv.elim
    | object => exact hv.elim
    | _ => rfl
  | string s =>
    rw [ht] at hr
    cases s with
    | ok cs =>
      cases hr
      exact hv.elim
    | error => cases hr
  | _ =>
    rw [ht] at hr
    cases hr

theorem isLowSurrogate_of_isHighSurrogate {n : Nat} (h : isHighSurrogate n = true) :
    isLowSurrogate n = false := by
  simp only [isHighSurrogate, Bool.and_eq_true, decide_eq_true_eq] at h
  simp only [isLowSurrogate, Bool.and_eq_false_iff, decide_eq_false_iff_not]
  omega

/-- Whether a text adds a character to every string under way. -/
def IsFormOf (t : List Char) (c : Char) : Prop :=
  ∀ (p : Partial) (s : List Char), lexString p (t ++ s) = lexString (p.push c) s

/-- The spelling of a character adds this character to a string. -/
theorem SpellsChar.isFormOf {t : List Char} {c : Char} (h : SpellsChar t c) : IsFormOf t c := by
  intro p s
  cases h with
  | plain hq hb hc =>
    rw [List.singleton_append, lexString.eq_5 _ _ _ hq (fun _ _ _ _ _ h => absurd h hb)
      (fun _ _ h => absurd h hb), if_neg (by simpa using hb), if_neg hc]
  | @simple d _ hd =>
    change lexString p ('\\' :: d :: s) = _
    rw [lexString.eq_4, hd]
    rintro - - - - - rfl -
    cases hd
  | @unit a b c d n hn hs =>
    change lexString p ('\\' :: 'u' :: a :: b :: c :: d :: s) = _
    rw [lexString, hn]
    simp only [hs]
    rfl
  | surrogates hn hm hhigh hlow =>
    have hl := isLowSurrogate_of_isHighSurrogate hhigh
    simp only [List.cons_append, List.nil_append]
    rw [lexString, hn]
    simp only [hl, hhigh, hm, hlow]
    rfl

private theorem foldl_push (cs : List Char) (p : Partial) :
    cs.foldl Partial.push p = { p with rev := cs.reverse ++ p.rev } := by
  induction cs generalizing p with
  | nil => rfl
  | cons c cs ih =>
    rw [List.foldl_cons, ih, List.reverse_cons, List.append_assoc]
    rfl

theorem lexString_flatten {texts : List (List Char)} {cs : List Char}
    (h : List.Forall₂ SpellsChar texts cs) (p : Partial) (s : List Char) :
    lexString p (texts.flatten ++ s) = lexString (cs.foldl Partial.push p) s := by
  induction h generalizing p with
  | nil => rfl
  | cons hc _ ih =>
    rw [List.flatten_cons, List.append_assoc, hc.isFormOf, ih]
    rfl

/-- The spelling of a string is cut into one token with its characters. -/
theorem lex_string_append {texts : List (List Char)} {cs : List Char}
    (h : List.Forall₂ SpellsChar texts cs) (s : List Char) :
    lex [] ('"' :: texts.flatten ++ ['"'] ++ s) = .string (.ok cs) :: lex [] s := by
  have hq : '"' :: texts.flatten ++ ['"'] ++ s = '"' :: (texts.flatten ++ '"' :: s) := by simp
  rw [hq, lex.eq_2, lexString_flatten h, lexString.eq_2, foldl_push]
  change Token.string (.ok (cs.reverse ++ []).reverse) :: _ = _
  rw [List.append_nil, List.reverse_reverse]

/-- Whether a token is a word, which needs something else behind it. -/
def Token.IsWord : Token → Prop
  | .scalar _ => True
  | _ => False

/-- Whether no two words of a sequence follow each other. -/
def IsSeparated (ts : List Token) : Prop := ts.IsChain fun t u => ¬(t.IsWord ∧ u.IsWord)

variable {text : List Char} {ts : List Token}

theorem endsWord_of_spellsAll {p : Parser} (h : p.SpellsAll text ts)
    (hw : ∀ t ∈ ts.head?, ¬t.IsWord) : EndsWord text := by
  cases h with
  | nil => trivial
  | blank hc _ => exact isWordChar_of_isBlank hc
  | token ht _ =>
    cases ht with
    | punctuation ht => exact endsWord_punctuation ht _
    | string _ => exact (rfl : isWordChar '"' = false)
    | null | bool | number => exact absurd trivial (hw _ rfl)

/-- A text that spells tokens is cut into them. -/
theorem lex_eq_of_spellsAll (h : Parser.standard.SpellsAll text ts) (hts : IsSeparated ts) :
    lex [] text = ts := by
  induction h with
  | nil => rfl
  | blank hc _ ih => rw [lex_blank hc, ih hts]
  | @token text rest t ts ht h ih =>
    obtain ⟨hnext, hrest⟩ := List.isChain_cons.1 hts
    specialize ih hrest
    have word {v : Json} (hne : text ≠ []) (hw : ∀ c ∈ text, isWordChar c = true)
        (ht : t = .scalar v) (hv : wordToken text = .scalar v) :
        lex [] (text ++ rest) = t :: ts := by
      have hends : EndsWord rest :=
        endsWord_of_spellsAll h fun u hu hu' => hnext u hu ⟨ht ▸ trivial, hu'⟩
      rw [lex_word_append hne hw hends, hv, ih, ht]
    cases ht with
    | punctuation ht => rw [List.singleton_append, lex_punctuation ht, ih]
    | null => exact word (by decide) (List.all_eq_true.1 rfl) rfl rfl
    | bool b =>
      cases b with
      | true => exact word (by decide) (List.all_eq_true.1 rfl) rfl rfl
      | false => exact word (by decide) (List.all_eq_true.1 rfl) rfl rfl
    | number hn hv hr =>
      exact word hn.isWord.1 hn.isWord.2 rfl (wordToken_eq_of_read hn hv hr)
    | string hs => rw [lex_string_append hs, ih]

theorem isSeparated_separated {tss : List (List Token)} (h : ∀ ts ∈ tss, IsSeparated ts) :
    IsSeparated (separated tss) := by
  induction tss with
  | nil => exact .nil
  | cons ts tss ih =>
    obtain ⟨hts, h⟩ := List.forall_mem_cons.1 h
    cases tss with
    | nil => exact hts
    | cons us tss =>
      refine List.isChain_append.2 ⟨hts, List.isChain_cons.2 ⟨fun _ _ h => h.1, ih h⟩, ?_⟩
      rintro t - u hu ⟨-, hw⟩
      cases hu
      exact hw

theorem isSeparated_bracket {l r : Token} (hl : ¬l.IsWord) (hr : ¬r.IsWord)
    (hts : IsSeparated ts) : IsSeparated (l :: (ts ++ [r])) := by
  refine List.isChain_cons.2 ⟨fun _ _ h => hl h.1, List.isChain_append.2 ⟨hts, .singleton r, ?_⟩⟩
  rintro t - u hu ⟨-, hw⟩
  cases hu
  exact hr hw

theorem itemTokens_eq_map (items : List Json) : itemTokens items = items.map toTokens := by
  induction items with
  | nil => rfl
  | cons v vs ih => rw [itemTokens, ih, List.map_cons]

theorem memberTokens_eq_map (members : List (List Char × Json)) :
    memberTokens members =
      members.map fun e => .string (.ok e.1) :: .colon :: e.2.toTokens := by
  induction members with
  | nil => rfl
  | cons e ms ih => rw [memberTokens, ih, List.map_cons]

/-- No two words follow each other in a document. -/
theorem isSeparated_toTokens (v : Json) : IsSeparated v.toTokens := by
  induction v using Json.induction with
  | array items ih =>
    rw [toTokens, itemTokens_eq_map]
    exact isSeparated_bracket id id (isSeparated_separated (List.forall_mem_map.2 ih))
  | object members ih =>
    rw [toTokens, memberTokens_eq_map]
    refine isSeparated_bracket id id (isSeparated_separated (List.forall_mem_map.2 ?_))
    intro e he
    exact .cons_cons (fun h => h.1) (List.isChain_cons.2 ⟨fun _ _ h => h.1, ih e he⟩)
  | _ => exact .singleton _

/-- A text of a document is cut into the tokens of the document. -/
theorem tokens_eq_of_writes {v : Json} (h : Parser.standard.Writes text v) :
    tokens text = v.toTokens := lex_eq_of_spellsAll h (isSeparated_toTokens v)

end ObjectModel.Json
