import ObjectModel.Bytes.Utf8
/-!
# Decoding and encoding UTF-8

`decode?_eq_some_iff`: a byte string decodes to a sequence of characters just if it is the encoding
of that sequence. The machine is followed along one character at a time, from its leading byte to
the last of its continuation bytes; the four lengths of an encoding are the four cases.
-/

namespace ObjectModel.Bytes.Utf8

private theorem toNat_ofNat_of_lt {n : Nat} (h : n < 256) : (UInt8.ofNat n).toNat = n := by
  rw [UInt8.toNat_ofNat', Nat.mod_eq_of_lt h]

private theorem eq_ofNat {b : UInt8} {n : Nat} (h : n = b.toNat) : UInt8.ofNat n = b := by
  rw [h, UInt8.ofNat_toNat]

theorem begin_one {b : UInt8} (h : b.toNat < 0x80) :
    begin b = ([some (Char.ofNat b.toNat)], .start) := by
  simp [begin, UInt8.lt_iff_toNat_lt, h]

theorem begin_two {b : UInt8} (h : 0xC2 ≤ b.toNat) (h' : b.toNat < 0xE0) :
    begin b = ([], .expect 0 (b.toNat - 0xC0) 0x80 0xBF) := by
  have h₁ : ¬ b.toNat < 0x80 := by omega
  have h₂ : ¬ b.toNat < 0xC2 := by omega
  simp [begin, UInt8.lt_iff_toNat_lt, h₁, h₂, h']

/-- Bytes that begin a character of three bytes bound the second one if they are the first or the
last of their kind before a gap. -/
theorem begin_three {b : UInt8} (h : 0xE0 ≤ b.toNat) (h' : b.toNat < 0xF0) :
    begin b = ([], .expect 1 (b.toNat - 0xE0) (if b.toNat = 0xE0 then 0xA0 else 0x80)
      (if b.toNat = 0xED then 0x9F else 0xBF)) := by
  have h₁ : ¬ b.toNat < 0x80 := by omega
  have h₂ : ¬ b.toNat < 0xC2 := by omega
  have h₃ : ¬ b.toNat < 0xE0 := by omega
  simp only [begin, UInt8.lt_iff_toNat_lt, ← UInt8.toNat_inj, UInt8.reduceToNat]
  rw [if_neg h₁, if_neg h₂, if_neg h₃]
  by_cases hE0 : b.toNat = 0xE0
  · rw [if_pos hE0, if_pos hE0, if_neg (by omega), hE0]
  · by_cases hED : b.toNat = 0xED
    · rw [if_neg hE0, if_pos hED, if_neg hE0, if_pos hED, hED]
    · rw [if_neg hE0, if_neg hED, if_pos h', if_neg hE0, if_neg hED]

theorem begin_four {b : UInt8} (h : 0xF0 ≤ b.toNat) (h' : b.toNat ≤ 0xF4) :
    begin b = ([], .expect 2 (b.toNat - 0xF0) (if b.toNat = 0xF0 then 0x90 else 0x80)
      (if b.toNat = 0xF4 then 0x8F else 0xBF)) := by
  have h₁ : ¬ b.toNat < 0x80 := by omega
  have h₂ : ¬ b.toNat < 0xC2 := by omega
  have h₃ : ¬ b.toNat < 0xE0 := by omega
  have h₄ : ¬ b.toNat < 0xF0 := by omega
  have hE0 : b.toNat ≠ 0xE0 := by omega
  have hED : b.toNat ≠ 0xED := by omega
  simp only [begin, UInt8.lt_iff_toNat_lt, ← UInt8.toNat_inj, UInt8.reduceToNat]
  rw [if_neg h₁, if_neg h₂, if_neg h₃, if_neg hE0, if_neg hED, if_neg h₄]
  by_cases hF0 : b.toNat = 0xF0
  · rw [if_pos hF0, if_pos hF0, if_neg (by omega), hF0]
  · by_cases hF4 : b.toNat = 0xF4
    · rw [if_neg hF0, if_neg (by omega), if_pos hF4, if_neg hF0, if_pos hF4, hF4]
    · rw [if_neg hF0, if_pos (by omega), if_neg hF0, if_neg hF4]

/-- All other bytes begin no character. -/
theorem begin_none {b : UInt8} (h : 0x80 ≤ b.toNat)
    (h' : b.toNat < 0xC2 ∨ 0xF4 < b.toNat) : begin b = ([none], .start) := by
  have h₁ : ¬ b.toNat < 0x80 := by omega
  simp only [begin, UInt8.lt_iff_toNat_lt, ← UInt8.toNat_inj, UInt8.reduceToNat]
  rw [if_neg h₁]
  obtain h' | h' := h'
  · rw [if_pos h']
  · rw [if_neg (by omega), if_neg (by omega), if_neg (by omega), if_neg (by omega),
      if_neg (by omega), if_neg (by omega), if_neg (by omega), if_neg (by omega)]

theorem scan_cons (state : State) (b : UInt8) (s : Bytes) :
    scan state (b :: s) = (step state b).1 ++ scan (step state b).2 s := by
  cases state <;> rfl

theorem step_expect {more code : Nat} {low high b : UInt8} (h : low.toNat ≤ b.toNat)
    (h' : b.toNat ≤ high.toNat) :
    step (.expect more code low high) b =
      match more with
      | 0 => ([some (Char.ofNat (code * 64 + (b.toNat - 0x80)))], .start)
      | more + 1 => ([], .expect more (code * 64 + (b.toNat - 0x80)) 0x80 0xBF) := by
  have hb : (low ≤ b && b ≤ high) = true := by
    simp only [UInt8.le_iff_toNat_le, h, h', decide_true, Bool.and_self]
  cases more <;> exact if_pos hb

/-- The last byte of a character completes it. -/
theorem scan_expect_zero {code : Nat} {low high b : UInt8} (h : low.toNat ≤ b.toNat)
    (h' : b.toNat ≤ high.toNat) (s : Bytes) :
    scan (.expect 0 code low high) (b :: s) =
      some (Char.ofNat (code * 64 + (b.toNat - 0x80))) :: scan .start s := by
  rw [scan_cons, step_expect h h']
  rfl

theorem scan_expect_succ {more code : Nat} {low high b : UInt8} (h : low.toNat ≤ b.toNat)
    (h' : b.toNat ≤ high.toNat) (s : Bytes) :
    scan (.expect (more + 1) code low high) (b :: s) =
      scan (.expect more (code * 64 + (b.toNat - 0x80)) 0x80 0xBF) s := by
  rw [scan_cons, step_expect h h']
  rfl

/-- A character under way that is not broken off goes on with a byte within the bounds. -/
theorem eq_cons_of_scan_expect {more code : Nat} {low high : UInt8} {s : Bytes} {c : Char}
    {l : List (Option Char)} (h : scan (.expect more code low high) s = some c :: l) :
    ∃ b t, s = b :: t ∧ low.toNat ≤ b.toNat ∧ b.toNat ≤ high.toNat := by
  cases s with
  | nil => cases h
  | cons b t =>
    refine ⟨b, t, rfl, ?_⟩
    apply Decidable.byContradiction
    intro hb
    have hb' : ¬ (decide (low ≤ b) && decide (b ≤ high)) = true := by
      simpa [UInt8.le_iff_toNat_le] using hb
    simp only [scan_cons, step, if_neg hb'] at h
    cases h

private theorem toNat_ofNat_valid {n : Nat} (h : n < 0xD800 ∨ 0xE000 ≤ n ∧ n < 0x110000) :
    (Char.ofNat n).toNat = n := by
  have hv : n.isValidChar := by
    obtain h | ⟨h, h'⟩ := h
    · exact .inl h
    · exact .inr ⟨by omega, h'⟩
  rw [Char.ofNat, dif_pos hv]
  rfl

/-- Characters leave out the surrogates. -/
theorem toNat_bounds (c : Char) :
    c.toNat < 0xD800 ∨ 0xE000 ≤ c.toNat ∧ c.toNat < 0x110000 := by
  obtain h | ⟨h, h'⟩ := c.valid
  · exact .inl h
  · exact .inr ⟨by change 0xE000 ≤ c.val.toNat; omega, h'⟩

private theorem encodeChar_eq (c : Char) :
    String.utf8EncodeChar c =
      if c.toNat < 0x80 then [.ofNat c.toNat]
      else if c.toNat < 0x800 then
        [.ofNat (c.toNat / 64 % 32 + 0xC0), .ofNat (c.toNat % 64 + 0x80)]
      else if c.toNat < 0x10000 then
        [.ofNat (c.toNat / 4096 % 16 + 0xE0), .ofNat (c.toNat / 64 % 64 + 0x80),
          .ofNat (c.toNat % 64 + 0x80)]
      else
        [.ofNat (c.toNat / 262144 % 8 + 0xF0), .ofNat (c.toNat / 4096 % 64 + 0x80),
          .ofNat (c.toNat / 64 % 64 + 0x80), .ofNat (c.toNat % 64 + 0x80)] := by
  have h₁ : (c.toNat < 0x80) = (c.val.toNat ≤ 0x7F) := propext Nat.lt_succ_iff
  have h₂ : (c.toNat < 0x800) = (c.val.toNat ≤ 0x7FF) := propext Nat.lt_succ_iff
  have h₃ : (c.toNat < 0x10000) = (c.val.toNat ≤ 0xFFFF) := propext Nat.lt_succ_iff
  simp only [h₁, h₂, h₃]
  rfl

private theorem apply_ite_toNat (p : Prop) [Decidable p] (a b : UInt8) :
    (if p then a else b).toNat = if p then a.toNat else b.toNat := apply_ite ..

/-- The machine reads the bytes of a character as this character. -/
theorem scan_encodeChar_append (c : Char) (s : Bytes) :
    scan .start (String.utf8EncodeChar c ++ s) = some c :: scan .start s := by
  have hc := toNat_bounds c
  have read {n : Nat} {l : List (Option Char)} (h : n = c.toNat) :
      some (Char.ofNat n) :: l = some c :: l := by rw [h, Char.ofNat_toNat]
  rw [encodeChar_eq]
  split
  next =>
    have hb := toNat_ofNat_of_lt (n := c.toNat) (by omega)
    rw [List.cons_append, scan_cons, step, begin_one (by omega)]
    exact read hb
  split
  next =>
    have hb := toNat_ofNat_of_lt (n := c.toNat / 64 % 32 + 0xC0) (by omega)
    have hb₁ := toNat_ofNat_of_lt (n := c.toNat % 64 + 0x80) (by omega)
    rw [List.cons_append, scan_cons, step, begin_two (by omega) (by omega), List.nil_append,
      List.cons_append, scan_expect_zero, hb, hb₁]
    · exact read (by omega)
    all_goals simp only [UInt8.reduceToNat, hb₁]; omega
  split
  next =>
    have hb := toNat_ofNat_of_lt (n := c.toNat / 4096 % 16 + 0xE0) (by omega)
    have hb₁ := toNat_ofNat_of_lt (n := c.toNat / 64 % 64 + 0x80) (by omega)
    have hb₂ := toNat_ofNat_of_lt (n := c.toNat % 64 + 0x80) (by omega)
    rw [List.cons_append, scan_cons, step, begin_three (by omega) (by omega), List.nil_append,
      List.cons_append, scan_expect_succ, List.cons_append, scan_expect_zero, hb, hb₁, hb₂]
    · exact read (by omega)
    all_goals
      simp only [apply_ite_toNat, UInt8.reduceToNat, hb, hb₁, hb₂]
      first | omega | split <;> omega
  next =>
    have hb := toNat_ofNat_of_lt (n := c.toNat / 262144 % 8 + 0xF0) (by omega)
    have hb₁ := toNat_ofNat_of_lt (n := c.toNat / 4096 % 64 + 0x80) (by omega)
    have hb₂ := toNat_ofNat_of_lt (n := c.toNat / 64 % 64 + 0x80) (by omega)
    have hb₃ := toNat_ofNat_of_lt (n := c.toNat % 64 + 0x80) (by omega)
    rw [List.cons_append, scan_cons, step, begin_four (by omega) (by omega), List.nil_append,
      List.cons_append, scan_expect_succ, List.cons_append, scan_expect_succ, List.cons_append,
      scan_expect_zero, hb, hb₁, hb₂, hb₃]
    · exact read (by omega)
    all_goals
      simp only [apply_ite_toNat, UInt8.reduceToNat, hb, hb₁, hb₂, hb₃]
      first | omega | split <;> omega

private theorem encodeChar_of_one {b : UInt8} {c : Char} (hb : b.toNat < 0x80)
    (hc : Char.ofNat b.toNat = c) : String.utf8EncodeChar c = [b] := by
  have hn := toNat_ofNat_valid (n := b.toNat) (by omega)
  rw [hc] at hn
  rw [encodeChar_eq, if_pos (by omega), eq_ofNat (b := b) (by omega)]

private theorem encodeChar_of_two {b b₁ : UInt8} {c : Char} (hb : 0xC2 ≤ b.toNat)
    (hb' : b.toNat < 0xE0) (hl₁ : 0x80 ≤ b₁.toNat) (hh₁ : b₁.toNat ≤ 0xBF)
    (hc : Char.ofNat ((b.toNat - 0xC0) * 64 + (b₁.toNat - 0x80)) = c) :
    String.utf8EncodeChar c = [b, b₁] := by
  have hn := toNat_ofNat_valid (n := (b.toNat - 0xC0) * 64 + (b₁.toNat - 0x80)) (by omega)
  rw [hc] at hn
  rw [encodeChar_eq, if_neg (by omega), if_pos (by omega), eq_ofNat (b := b) (by omega),
    eq_ofNat (b := b₁) (by omega)]

/-- The bounds of the second byte keep out short forms and surrogates. -/
private theorem encodeChar_of_three {b b₁ b₂ : UInt8} {c : Char} (hb : 0xE0 ≤ b.toNat)
    (hb' : b.toNat < 0xF0) (hl₁ : (if b.toNat = 0xE0 then 0xA0 else 0x80) ≤ b₁.toNat)
    (hh₁ : b₁.toNat ≤ if b.toNat = 0xED then 0x9F else 0xBF) (hl₂ : 0x80 ≤ b₂.toNat)
    (hh₂ : b₂.toNat ≤ 0xBF)
    (hc : Char.ofNat (((b.toNat - 0xE0) * 64 + (b₁.toNat - 0x80)) * 64 + (b₂.toNat - 0x80)) =
      c) : String.utf8EncodeChar c = [b, b₁, b₂] := by
  have hl₁' : 0x80 ≤ b₁.toNat := by split at hl₁ <;> omega
  have hh₁' : b₁.toNat ≤ 0xBF := by split at hh₁ <;> omega
  have hn := toNat_ofNat_valid
    (n := ((b.toNat - 0xE0) * 64 + (b₁.toNat - 0x80)) * 64 + (b₂.toNat - 0x80))
    (by split at hh₁ <;> omega)
  rw [hc] at hn
  have hsize : 0x800 ≤ c.toNat := by split at hl₁ <;> omega
  rw [encodeChar_eq, if_neg (by omega), if_neg (by omega), if_pos (by omega),
    eq_ofNat (b := b) (by omega), eq_ofNat (b := b₁) (by omega), eq_ofNat (b := b₂) (by omega)]

/-- The bounds of the second byte keep out short forms and numbers that are no code points. -/
private theorem encodeChar_of_four {b b₁ b₂ b₃ : UInt8} {c : Char} (hb : 0xF0 ≤ b.toNat)
    (hb' : b.toNat ≤ 0xF4) (hl₁ : (if b.toNat = 0xF0 then 0x90 else 0x80) ≤ b₁.toNat)
    (hh₁ : b₁.toNat ≤ if b.toNat = 0xF4 then 0x8F else 0xBF) (hl₂ : 0x80 ≤ b₂.toNat)
    (hh₂ : b₂.toNat ≤ 0xBF) (hl₃ : 0x80 ≤ b₃.toNat) (hh₃ : b₃.toNat ≤ 0xBF)
    (hc : Char.ofNat ((((b.toNat - 0xF0) * 64 + (b₁.toNat - 0x80)) * 64 + (b₂.toNat - 0x80)) * 64 +
      (b₃.toNat - 0x80)) = c) : String.utf8EncodeChar c = [b, b₁, b₂, b₃] := by
  have hl₁' : 0x80 ≤ b₁.toNat := by split at hl₁ <;> omega
  have hh₁' : b₁.toNat ≤ 0xBF := by split at hh₁ <;> omega
  have hsize : 0x10000 ≤ (((b.toNat - 0xF0) * 64 + (b₁.toNat - 0x80)) * 64 +
      (b₂.toNat - 0x80)) * 64 + (b₃.toNat - 0x80) := by split at hl₁ <;> omega
  have hn := toNat_ofNat_valid (n := (((b.toNat - 0xF0) * 64 + (b₁.toNat - 0x80)) * 64 +
      (b₂.toNat - 0x80)) * 64 + (b₃.toNat - 0x80)) (by split at hh₁ <;> omega)
  rw [hc] at hn
  rw [encodeChar_eq, if_neg (by omega), if_neg (by omega), if_neg (by omega),
    eq_ofNat (b := b) (by omega), eq_ofNat (b := b₁) (by omega), eq_ofNat (b := b₂) (by omega),
    eq_ofNat (b := b₃) (by omega)]

/-- Only the bytes of a character are read as this character. -/
theorem eq_encodeChar_append_of_scan {s : Bytes} {c : Char} {l : List (Option Char)}
    (h : scan .start s = some c :: l) :
    ∃ t, s = String.utf8EncodeChar c ++ t ∧ scan .start t = l := by
  cases s with
  | nil => cases h
  | cons b t =>
    rw [scan_cons, step] at h
    obtain h₁ | h₁ := Nat.lt_or_ge b.toNat 0x80
    · rw [begin_one h₁] at h
      obtain ⟨hc, hl⟩ := List.cons.inj h
      rw [encodeChar_of_one h₁ (Option.some.inj hc)]
      exact ⟨t, rfl, hl⟩
    obtain h₂ | h₂ := Nat.lt_or_ge b.toNat 0xC2
    · rw [begin_none h₁ (.inl h₂)] at h
      cases h
    obtain h₃ | h₃ := Nat.lt_or_ge b.toNat 0xE0
    · rw [begin_two h₂ h₃, List.nil_append] at h
      obtain ⟨b₁, t, rfl, hl₁, hh₁⟩ := eq_cons_of_scan_expect h
      rw [scan_expect_zero hl₁ hh₁] at h
      obtain ⟨hc, hl⟩ := List.cons.inj h
      rw [encodeChar_of_two h₂ h₃ hl₁ hh₁ (Option.some.inj hc)]
      exact ⟨t, rfl, hl⟩
    obtain h₄ | h₄ := Nat.lt_or_ge b.toNat 0xF0
    · rw [begin_three h₃ h₄, List.nil_append] at h
      obtain ⟨b₁, t, rfl, hl₁, hh₁⟩ := eq_cons_of_scan_expect h
      rw [scan_expect_succ hl₁ hh₁] at h
      obtain ⟨b₂, t, rfl, hl₂, hh₂⟩ := eq_cons_of_scan_expect h
      rw [scan_expect_zero hl₂ hh₂] at h
      obtain ⟨hc, hl⟩ := List.cons.inj h
      rw [apply_ite_toNat] at hl₁ hh₁
      rw [encodeChar_of_three h₃ h₄ hl₁ hh₁ hl₂ hh₂ (Option.some.inj hc)]
      exact ⟨t, rfl, hl⟩
    obtain h₅ | h₅ := Nat.lt_or_ge 0xF4 b.toNat
    · rw [begin_none h₁ (.inr h₅)] at h
      cases h
    · rw [begin_four h₄ h₅, List.nil_append] at h
      obtain ⟨b₁, t, rfl, hl₁, hh₁⟩ := eq_cons_of_scan_expect h
      rw [scan_expect_succ hl₁ hh₁] at h
      obtain ⟨b₂, t, rfl, hl₂, hh₂⟩ := eq_cons_of_scan_expect h
      rw [scan_expect_succ hl₂ hh₂] at h
      obtain ⟨b₃, t, rfl, hl₃, hh₃⟩ := eq_cons_of_scan_expect h
      rw [scan_expect_zero hl₃ hh₃] at h
      obtain ⟨hc, hl⟩ := List.cons.inj h
      rw [apply_ite_toNat] at hl₁ hh₁
      rw [encodeChar_of_four h₄ h₅ hl₁ hh₁ hl₂ hh₂ hl₃ hh₃ (Option.some.inj hc)]
      exact ⟨t, rfl, hl⟩

theorem encode_cons (c : Char) (cs : List Char) :
    encode (c :: cs) = String.utf8EncodeChar c ++ encode cs := rfl

private theorem scan_expect_ne_nil (s : Bytes) (more code : Nat) (low high : UInt8) :
    scan (.expect more code low high) s ≠ [] := by
  induction s generalizing more code low high with
  | nil => exact List.cons_ne_nil _ _
  | cons b t ih =>
    rw [scan_cons]
    by_cases h : (decide (low ≤ b) && decide (b ≤ high)) = true
    · cases more with
      | zero =>
        simp only [step, if_pos h]
        exact List.cons_ne_nil _ _
      | succ more =>
        simp only [step, if_pos h, List.nil_append]
        exact ih _ _ _ _
    · simp only [step, if_neg h]
      exact List.cons_ne_nil _ _

private theorem scan_start_cons_ne_nil (b : UInt8) (t : Bytes) : scan .start (b :: t) ≠ [] := by
  rw [scan_cons, step, begin]
  repeat' split
  all_goals first | exact List.cons_ne_nil _ _ | exact scan_expect_ne_nil _ _ _ _ _

theorem scan_eq_map_some_iff {s : Bytes} {cs : List Char} :
    scan .start s = cs.map some ↔ s = encode cs := by
  induction cs generalizing s with
  | nil =>
    constructor
    · intro h
      cases s with
      | nil => rfl
      | cons b t => exact absurd h (scan_start_cons_ne_nil b t)
    · rintro rfl
      rfl
  | cons c cs ih =>
    constructor
    · intro h
      obtain ⟨t, rfl, ht⟩ := eq_encodeChar_append_of_scan h
      rw [ih.1 ht, encode_cons]
    · rintro rfl
      rw [encode_cons, scan_encodeChar_append, ih.2 rfl, List.map_cons]

private theorem mapM_id_eq_some_iff {α : Type} {l : List (Option α)} {xs : List α} :
    l.mapM id = some xs ↔ l = xs.map some := by
  induction l generalizing xs with
  | nil => cases xs <;> simp
  | cons a l ih =>
    rw [List.mapM_cons]
    cases a with
    | none => cases xs <;> simp
    | some a =>
      cases xs with
      | nil => simp [Option.bind_eq_some_iff]
      | cons x xs =>
        simp only [id_eq, Option.bind_eq_bind, Option.bind_some, Option.bind_eq_some_iff, ih]
        constructor
        · rintro ⟨ys, rfl, h⟩
          cases h
          rfl
        · intro h
          obtain ⟨h, rfl⟩ := List.cons.inj h
          cases h
          exact ⟨xs, rfl, rfl⟩

/-- A byte string decodes to a sequence of characters just if it is its encoding. -/
theorem decode?_eq_some_iff {s : Bytes} {cs : List Char} :
    decode? s = some cs ↔ s = encode cs := by
  rw [decode?, mapM_id_eq_some_iff, scan_eq_map_some_iff]

@[simp] theorem decode?_encode (cs : List Char) : decode? (encode cs) = some cs :=
  decode?_eq_some_iff.2 rfl

/-- Different sequences of characters have different encodings. -/
theorem encode_inj {cs ds : List Char} : encode cs = encode ds ↔ cs = ds := by
  refine ⟨fun h => ?_, congrArg encode⟩
  rw [← Option.some_inj, ← decode?_encode cs, h, decode?_encode]

end ObjectModel.Bytes.Utf8
