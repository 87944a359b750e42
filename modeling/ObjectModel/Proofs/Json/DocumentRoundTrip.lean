import ObjectModel.Proofs.Json.DocumentWriting
import ObjectModel.Proofs.Json.ObjectDecoding
import ObjectModel.Proofs.Json.RoundTrip
import ObjectModel.Proofs.Session
/-!
# The round trip of documents through objects

A document whose numbers are machine integers survives being read into objects and written again. It
is nested no deeper than the call and the parser allow, and no object in it has a name twice; so the
value that is made of it holds it, is written within the same nesting as a text of the document, and
this text is read as the same document, in which nothing collapses.
-/

namespace ObjectModel

namespace Json

/-- A value that holds a document is written as a text of the document. -/
theorem exists_encode_eq_ok {p : Parser} (hp : p.IsCorrect) {h : Heap} {document : Json} {v : Val}
    (hv : document.HeldBy h 0 v) (settings : Settings) {style : JsonStyle}
    (hforce : style.forceObject = false) {maxDepth : Nat} (hd : document.nesting ≤ maxDepth) :
    ∃ text, encode h settings style maxDepth v = .ok text ∧ p.Writes text document :=
  Writer.writesAs_of_heldBy hp hforce hv (Writer.allows_nil (Nat.lt_succ_self _) hd)

end Json

namespace Session

open Json

variable {p : Parser} {s s' : Session} {text : Bytes} {depth? : Option Nat} {document : Json}
  {v : Val}

/-- What reading a document into objects yields. -/
theorem of_jsonDecode (hp : p.IsCorrect) (hs : s.Reachable)
    (hr : p.parse text (s.jsonDepth depth?) = .ok document) (hn : document.all isExact)
    (hd : s.jsonDecode p text false depth? 0 = (s', .ok v)) :
    s'.settings = s.settings ∧ document.HeldBy s'.heap 0 v := by
  obtain ⟨-, hnames, -⟩ := hp.of_parse_eq_ok hr
  obtain ⟨c, hc, hopen⟩ := hs.exists_stdClass
  have hclass : ∀ c', (s.decoder false 0).objectClass? = some c' → c'.instanceProperties = ∅ := by
    intro c' hc'
    cases hc.symm.trans hc'
    exact hopen.instanceProperties_eq
  rw [jsonDecode, hr] at hd
  dsimp only at hd
  split at hd
  next w hw =>
    cases hd
    obtain ⟨-, hv⟩ := delivers (d := s.decoder false 0) rfl hclass hn hnames _ _ _ hw
    exact ⟨rfl, hv.of_keeps (.refl _ _) (Nat.zero_le _)⟩
  next => cases hd

/-- Reading a text into objects with a correct parser and writing the value again, with one bound on
the nesting and any flags but the one that writes arrays as objects, succeeds if the numbers of the
document are machine integers. It yields a text of the document that was read, which is parsed as
this document. If the text that was read is a text of a document, then it is this document with one
member for each name. -/
theorem jsonEncode_jsonDecode (hp : p.IsCorrect) (hs : s.Reachable)
    (hr : p.parse text (s.jsonDepth depth?) = .ok document) (hn : document.all isExact)
    (hd : s.jsonDecode p text false depth? 0 = (s', .ok v)) {flags : Int64}
    (hf : flags &&& 16 = 0) :
    (∃ out, (s'.jsonEncode v flags depth?).2 = .ok (Bytes.Utf8.encode out) ∧
      p.Writes out document ∧
      p.parse (Bytes.Utf8.encode out) (s'.jsonDepth depth?) = .ok document) ∧
    ∀ chars u, text = Bytes.Utf8.encode chars → p.Writes chars u → u.collapsed = document := by
  obtain ⟨hnesting, hnames, hunique⟩ := hp.of_parse_eq_ok hr
  obtain ⟨hsettings, hv⟩ := of_jsonDecode hp hs hr hn hd
  have hdepth : s'.jsonDepth depth? = s.jsonDepth depth? := by rw [jsonDepth, hsettings, jsonDepth]
  have hforce : (JsonStyle.ofFlags flags).forceObject = false := by
    show (flags &&& 16 != 0) = false
    rw [hf]
    rfl
  obtain ⟨out, hw, hspell⟩ := exists_encode_eq_ok hp hv s'.settings hforce
    (Nat.le_trans hnesting (Nat.min_le_left _ _))
  refine ⟨⟨out, ?_, hspell, ?_⟩, hunique⟩
  · rw [jsonEncode, hdepth, hw]
    rfl
  · rw [hdepth, hp.parse_eq_ok hspell hnesting, collapsed_eq_self hnames]

/-- An object with a list and a string, written again in lines. -/
theorem jsonEncode_jsonDecode_nested :
    let p := Parser.standard
    let s : Session := .start {}
    let text := Bytes.ofString "\x7b\"b\":[1,null],\"a\":\"\\/\"\x7d"
    let document : Json := .object [(['b'], .array [.int 1, .null]), (['a'], .string ['/'])]
    p.IsCorrect ∧ s.Reachable ∧ p.parse text (s.jsonDepth (some 2)) = .ok document ∧
      document.all isExact ∧
      ∃ s' v, s.jsonDecode p text false (some 2) 0 = (s', .ok v) ∧
        ∃ out, (s'.jsonEncode v 128 (some 2)).2 = .ok (Bytes.Utf8.encode out) ∧
          p.Writes out document ∧
          p.parse (Bytes.Utf8.encode out) (s'.jsonDepth (some 2)) = .ok document := by
  intro p s text document
  have hp : p.IsCorrect := Parser.isCorrect_standard
  -- the text is the one that an array of the same entries would have
  have hr : p.parse text (s.jsonDepth (some 2)) = .ok document := by
    let t : ValueTree :=
      .array [(.str [0x62], .array [(.int 0, .int 1), (.int 1, .null)]), (.str [0x61], .str [0x2F])]
    have hw : t.WellFormed := by
      simp only [t, ValueTree.WellFormed, ValueTree.WellFormedEntries, Key.IsNormal]
      decide
    exact ValueTree.parse_encode_text hp {} hw (by decide)
  have hs : s.Reachable := .start {}
  have hok : (s.jsonDecode p text false (some 2) 0).2.isOk = true := by
    rw [jsonDecode, hr]
    decide +kernel
  obtain ⟨s', v, hd⟩ : ∃ s' v, s.jsonDecode p text false (some 2) 0 = (s', .ok v) := by
    cases hres : s.jsonDecode p text false (some 2) 0 with
    | mk s' r =>
      rw [hres] at hok
      cases r with
      | ok v => exact ⟨s', v, rfl⟩
      | error e => cases hok
  exact ⟨hp, hs, hr, by decide, s', v, hd,
    (jsonEncode_jsonDecode hp hs hr (by decide) hd (by decide)).1⟩

end Session

end ObjectModel
