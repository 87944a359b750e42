import ObjectModel.Proofs.Except
import ObjectModel.Proofs.Json.Lexing
import ObjectModel.Proofs.Json.Reading
/-!
# The standard parser is correct

A text of a document is cut into the tokens of the document, and these are read as the document or
refused for its depth. What is left to show is that nothing is read that is nested too deep.

A reader opens a bracket only while few enough are open, so a document that it has read is nested no
deeper than that. The invariant of the reader is that every document on its stack, together with the
brackets around it, keeps to the bound. It rests on the tokens of scalars being scalars: cutting a
text yields no other ones.
-/

namespace ObjectModel.Json

def Token.IsFlat : Token → Prop
  | .scalar v => v.nesting = 0
  | _ => True

def AllFlat (ts : List Token) : Prop := ∀ t ∈ ts, t.IsFlat

@[simp] theorem allFlat_nil : AllFlat [] := nofun

@[simp] theorem allFlat_cons {t : Token} {ts : List Token} :
    AllFlat (t :: ts) ↔ t.IsFlat ∧ AllFlat ts := List.forall_mem_cons

@[simp] theorem allFlat_append {ts us : List Token} :
    AllFlat (ts ++ us) ↔ AllFlat ts ∧ AllFlat us := List.forall_mem_append

theorem nesting_numberValue? {negative : Bool} {whole : Bytes} {fraction? : Option Bytes}
    {exponent? : Option Int} {v : Json}
    (h : numberValue? negative whole fraction? exponent? = some v) : v.nesting = 0 := by
  rw [numberValue?] at h
  split at h
  · cases h
    rfl
  · obtain ⟨d, -, rfl⟩ := Option.map_eq_some_iff.1 h
    rfl

theorem nesting_number? {word : Bytes} {v : Json} (h : number? word = some (some v)) :
    v.nesting = 0 := by
  rw [number?.eq_def] at h
  dsimp only at h
  split at h
  all_goals
    obtain ⟨-, h⟩ := Option.ite_none_right_eq_some.1 h
    exact nesting_numberValue? (Option.some.inj h)

theorem isFlat_wordToken (word : List Char) : (wordToken word).IsFlat := by
  rw [wordToken]
  split
  · rfl
  split
  · rfl
  split
  · rfl
  split
  next => trivial
  next => trivial
  next h => exact nesting_number? h

@[simp] theorem allFlat_flush (word : List Char) : AllFlat (flush word) := by
  cases word with
  | nil => exact allFlat_nil
  | cons c word => exact allFlat_cons.2 ⟨isFlat_wordToken _, allFlat_nil⟩

theorem isFlat_of_punctuation? {c : Char} {t : Token} (h : punctuation? c = some t) : t.IsFlat := by
  rw [punctuation?.eq_def] at h
  split at h <;> cases h <;> trivial

@[simp] theorem isFlat_token (p : Partial) : p.token.IsFlat := trivial

@[simp] theorem isFlat_malformed : Token.malformed.IsFlat := trivial

@[simp] theorem allFlat_broken (p : Partial) (e : JsonError) : AllFlat (p.broken e) := by
  simp [Partial.broken]

/-- Cutting a text yields scalars, strings, brackets and separators. -/
theorem allFlat_lex : (∀ word s, AllFlat (lex word s)) ∧ ∀ p s, AllFlat (lexString p s) := by
  apply lex.mutual_induct
  -- every case emits tokens of the kinds above, and goes on as the hypotheses say
  all_goals
    intros
    first | rw [lex] | rw [lexString]
    all_goals simp_all
  case case5 h _ => exact isFlat_of_punctuation? h
  case case23 =>
    split
    · exact allFlat_broken _ _
    · assumption

theorem allFlat_tokens (text : List Char) : AllFlat (tokens text) := allFlat_lex.1 [] text

def Frame.nesting : Frame → Nat
  | .items rev => nestingOfItems rev
  | .members rev _ => nestingOfMembers rev

/-- Whether the documents of a stack, with the brackets around them, are nested at most `n` deep. -/
def StackFits (n : Nat) : List Frame → Prop
  | [] => True
  | f :: stack => stack.length + 1 + f.nesting ≤ n ∧ StackFits n stack

/-- Whether what a reader has read, with the brackets around it, is nested at most `n` deep. -/
def Reader.Fits (n : Nat) : Reader → Prop
  | .value stack => StackFits n stack
  | .firstItem stack | .firstName stack => stack.length + 1 ≤ n ∧ StackFits n stack
  | .nextName rev stack | .colon rev _ stack =>
    stack.length + 1 + nestingOfMembers rev ≤ n ∧ StackFits n stack
  | .after v stack => stack.length + v.nesting ≤ n ∧ StackFits n stack

theorem StackFits.length_le {n : Nat} {stack : List Frame} (h : StackFits n stack) :
    stack.length ≤ n := by
  cases stack with
  | nil => exact Nat.zero_le n
  | cons f stack => exact Nat.le_trans (Nat.le_add_right _ _) h.1

theorem nestingOfItems_reverse_le (items : List Json) :
    nestingOfItems items.reverse ≤ nestingOfItems items :=
  nestingOfItems_le_iff.2 fun _ hv => nesting_le_of_mem_items (List.mem_reverse.1 hv)

theorem nestingOfMembers_reverse_le (members : List (List Char × Json)) :
    nestingOfMembers members.reverse ≤ nestingOfMembers members :=
  nestingOfMembers_le_iff.2 fun _ he => nesting_le_of_mem_members (List.mem_reverse.1 he)

namespace Reader

variable {m : Strictness} {n : Nat} {stack : List Frame} {t : Token} {r r' next : Reader}

theorem of_openBracket (hm : m.bracketLimit? = some (n + 1))
    (h : openBracket m stack next = .ok r) : r = next ∧ stack.length + 1 ≤ n := by
  rw [openBracket, hm, Option.any_some] at h
  split at h
  · cases h
  next hn =>
    cases h
    rw [decide_eq_true_eq] at hn
    exact ⟨rfl, by omega⟩

theorem fits_readValue (hm : m.bracketLimit? = some (n + 1)) (ht : t.IsFlat)
    (hs : StackFits n stack) (h : readValue m stack t = .ok r) : r.Fits n := by
  cases t with
  | beginArray =>
    obtain ⟨rfl, hn⟩ := of_openBracket hm h
    exact ⟨hn, hs⟩
  | beginObject =>
    obtain ⟨rfl, hn⟩ := of_openBracket hm h
    exact ⟨hn, hs⟩
  | scalar v =>
    cases h
    have hv : v.nesting = 0 := ht
    exact ⟨by rw [hv]; exact hs.length_le, hs⟩
  | hugeNumber =>
    rw [readValue] at h
    split at h
    · cases h
    · cases h
      exact ⟨hs.length_le, hs⟩
  | string s =>
    obtain ⟨cs, -, h⟩ := exists_of_bind_eq_ok h
    cases h
    exact ⟨hs.length_le, hs⟩
  | _ => cases h

theorem fits_readName {rev : List (List Char × Json)}
    (hs : stack.length + 1 + nestingOfMembers rev ≤ n ∧ StackFits n stack)
    (h : readName m rev stack t = .ok r) : r.Fits n := by
  cases t with
  | string s =>
    obtain ⟨cs, -, h⟩ := exists_of_bind_eq_ok h
    cases h
    exact hs
  | _ => cases h

theorem fits_readAfter {v : Json} (hs : stack.length + v.nesting ≤ n ∧ StackFits n stack)
    (h : readAfter v stack t = .ok r) : r.Fits n := by
  obtain ⟨hv, hs⟩ := hs
  rw [readAfter.eq_def] at h
  split at h
  next rev stack =>
    cases h
    refine ⟨?_, hs.2⟩
    have hf : stack.length + 1 + nestingOfItems rev ≤ n := hs.1
    rw [List.length_cons] at hv
    rw [Frame.nesting, nestingOfItems]
    omega
  next rev stack =>
    cases h
    refine ⟨?_, hs.2⟩
    have hf : stack.length + 1 + nestingOfItems rev ≤ n := hs.1
    have hr := nestingOfItems_reverse_le (v :: rev)
    rw [List.length_cons] at hv
    rw [nestingOfItems] at hr
    rw [Json.nesting]
    omega
  next rev name stack =>
    cases h
    refine ⟨?_, hs.2⟩
    have hf : stack.length + 1 + nestingOfMembers rev ≤ n := hs.1
    rw [List.length_cons] at hv
    rw [nestingOfMembers]
    omega
  next rev name stack =>
    cases h
    refine ⟨?_, hs.2⟩
    have hf : stack.length + 1 + nestingOfMembers rev ≤ n := hs.1
    have hr := nestingOfMembers_reverse_le ((name, v) :: rev)
    rw [List.length_cons] at hv
    rw [nestingOfMembers] at hr
    rw [Json.nesting]
    omega
  next => cases h

/-- Reading one token keeps the bound. -/
theorem fits_step (hm : m.bracketLimit? = some (n + 1)) (ht : t.IsFlat) (hr : r.Fits n)
    (h : step m r t = .ok r') : r'.Fits n := by
  rw [step.eq_def] at h
  split at h
  next => exact fits_readValue hm ht hr h
  next =>
    cases h
    exact hr
  next =>
    have hs : StackFits n (.items [] :: _) := ⟨hr.1, hr.2⟩
    exact fits_readValue hm ht hs h
  next =>
    cases h
    exact hr
  next =>
    have hs : _ + 1 + nestingOfMembers [] ≤ n ∧ StackFits n _ := hr
    exact fits_readName hs h
  next => exact fits_readName hr h
  next =>
    cases h
    exact ⟨hr.1, hr.2⟩
  next => cases h
  next => exact fits_readAfter hr h

/-- Reading tokens of scalars, strings, brackets and separators keeps the bound. -/
theorem fits_foldlM (hm : m.bracketLimit? = some (n + 1)) {ts : List Token} (ht : AllFlat ts)
    (hr : r.Fits n) (h : ts.foldlM (step m) r = .ok r') : r'.Fits n := by
  induction ts generalizing r with
  | nil =>
    cases h
    exact hr
  | cons t ts ih =>
    rw [allFlat_cons] at ht
    obtain ⟨r₁, h₁, h⟩ := exists_of_bind_eq_ok h
    exact ih ht.2 (fits_step hm ht.1 hr h₁) h

end Reader

/-- A document that was read is nested no deeper than brackets may be open. -/
theorem nesting_le_of_ofTokens {m : Strictness} {n : Nat} (hm : m.bracketLimit? = some (n + 1))
    {ts : List Token} (ht : AllFlat ts) {v : Json} (h : ofTokens m ts = .ok v) : v.nesting ≤ n := by
  obtain ⟨r, hr, h⟩ := exists_of_bind_eq_ok h
  have hstart : (Reader.value []).Fits n := trivial
  have hf : r.Fits n := Reader.fits_foldlM hm ht hstart hr
  rw [Reader.finish.eq_def] at h
  split at h
  next v =>
    cases h
    exact Nat.le_trans (Nat.le_add_left _ _) hf.1
  next => cases h

/-- What the standard parser reads is nested no deeper than its reader goes, and has no name
twice. -/
theorem of_read_standard_eq_ok {text : List Char} {v : Json}
    (h : Parser.standard.read text = .ok v) :
    v.nesting ≤ Parser.maxNesting ∧ v.all hasDistinctNames := by
  change ((ofTokens strict (tokens text)).map collapsed).mapError complaint = .ok v at h
  cases hu : ofTokens strict (tokens text) with
  | error e =>
    rw [hu] at h
    cases h
  | ok u =>
    rw [hu] at h
    cases h
    have hn := nesting_le_of_ofTokens (m := strict) rfl (allFlat_tokens text) hu
    exact ⟨Nat.le_trans (nesting_collapsed_le u) hn, all_hasDistinctNames_collapsed u⟩

/-- The standard parser is correct. -/
theorem Parser.isCorrect_standard : Parser.standard.IsCorrect where
  read_decimalText {i} hlow hhigh := by
    have hw := isNumber_decimalText i |>.isWord
    have hlex : tokens (decimalText i) = [.scalar (.int i)] := by
      have h := lex_word_append (s := []) hw.1 hw.2 trivial
      rwa [List.append_nil, wordToken_decimalText hlow hhigh] at h
    show ((ofTokens strict (tokens (decimalText i))).map collapsed).mapError complaint = _
    rw [hlex]
    rfl
  read_eq_ok {text v} ht hv := by
    show ((ofTokens strict (tokens text)).map collapsed).mapError complaint = _
    rw [tokens_eq_of_writes ht, ofTokens_toTokens hv]
    rfl
  read_eq_error {text v} ht hv := by
    refine ⟨complaint .depth, ?_, by decide⟩
    show ((ofTokens strict (tokens text)).map collapsed).mapError complaint = _
    rw [tokens_eq_of_writes ht, ofTokens_toTokens_eq_error hv]
    rfl
  of_read_eq_ok := of_read_standard_eq_ok

end ObjectModel.Json
