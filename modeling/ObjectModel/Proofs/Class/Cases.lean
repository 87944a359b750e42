import ObjectModel.Class.Enum
import ObjectModel.Proofs.Except
/-!
# Cases of enumerations and their values

The values of a backed enumeration that passes its check are integers, or they are strings, and no
two of them are identical. Among such values loose equality is identity, `looselyEqual_eq`, although
a value of another type may be loosely equal to one of them. A lookup by the value of a case
therefore passes over all other cases. Any lookup finds the first case whose value is loosely equal.
-/

namespace ObjectModel

variable {h h₀ : Heap} {c : ClassDef} {v w : Val}

namespace Backing

variable {backing : Backing}

theorem exists_of_admits (hv : backing.admits v = true) :
    backing = int ∧ (∃ i, v = .int i) ∨ backing = string ∧ ∃ s, v = .str s := by
  cases backing with
  | none => cases hv
  | int => cases v <;> first | exact .inl ⟨rfl, _, rfl⟩ | cases hv
  | string => cases v <;> first | exact .inr ⟨rfl, _, rfl⟩ | cases hv

theorem deref_of_admits (h : Heap) (hv : backing.admits v = true) : h.deref v = v := by
  apply h.deref_eq_self
  obtain ⟨-, i, rfl⟩ | ⟨-, s, rfl⟩ := exists_of_admits hv <;> rfl

theorem identical_self_of_admits (hv : backing.admits v = true) : v.identical v = true := by
  obtain ⟨-, i, rfl⟩ | ⟨-, s, rfl⟩ := exists_of_admits hv
  · exact beq_self_eq_true (Val.int i)
  · exact beq_self_eq_true s.bytes

/-- Values of one backing type are loosely equal just if they are identical. -/
theorem looselyEqual_eq (hv : backing.admits v = true) (hw : backing.admits (h.deref w) = true) :
    h.looselyEqual v w = v.identical (h.deref w) := by
  rw [Heap.looselyEqual, deref_of_admits h hv]
  obtain ⟨rfl, i, rfl⟩ | ⟨rfl, s, rfl⟩ := exists_of_admits hv
  · obtain ⟨-, j, hj⟩ | ⟨hother, -⟩ := exists_of_admits hw
    · rw [hj]
      change (i == j) = (Val.int i == .int j)
      rw [Bool.eq_iff_iff]
      simp
    · cases hother
  · obtain ⟨hother, -⟩ | ⟨-, t, ht⟩ := exists_of_admits hw
    · cases hother
    · rw [ht]
      rfl

end Backing

namespace ClassDef

theorem exists_of_checkCaseValue (hb : c.backing ≠ .none) {case : String}
    {value? result : Option Val} (hc : c.checkCaseValue h case value? = .ok result) :
    ∃ v, value? = some v ∧ result = some v ∧ c.backing.admits v = true := by
  rw [checkCaseValue.eq_def] at hc
  cases hbacking : c.backing with
  | none => exact absurd hbacking hb
  | int | string =>
    rw [hbacking] at hc
    cases value? with
    | none => cases hc
    | some v =>
      dsimp only at hc
      split at hc
      next hv =>
        cases hc
        exact ⟨v, rfl, rfl, hv⟩
      next => cases hc

/-- Checking passes if every case has a value of the backing type that is identical to none of those
before it. -/
theorem of_checkCases (hb : c.backing ≠ .none) {seen : List (String × Val)}
    {cases : List (String × Option Val)} (hc : checkCases h c seen cases = .ok ()) :
    (∀ e ∈ cases, ∃ v, e.2 = some v ∧ c.backing.admits v = true ∧
      ∀ e' ∈ seen, h.identical e'.2 v = false) ∧
    cases.Pairwise fun e e' => ∀ v w, e.2 = some v → e'.2 = some w → h.identical v w = false := by
  induction cases generalizing seen with
  | nil => exact ⟨nofun, .nil⟩
  | cons e cases ih =>
    obtain ⟨case, value?⟩ := e
    rw [checkCases] at hc
    obtain ⟨result, hvalue, hc⟩ := exists_of_bind_eq_ok hc
    obtain ⟨v, rfl, rfl, hv⟩ := exists_of_checkCaseValue hb hvalue
    dsimp only at hc
    split at hc
    next => cases hc
    next hnone =>
      obtain ⟨hcases, hpairwise⟩ := ih hc
      have hseen : ∀ e' ∈ seen, h.identical e'.2 v = false := by
        simpa using List.find?_eq_none.1 hnone
      -- later cases were checked against all that was seen here, and against this one
      constructor
      · refine List.forall_mem_cons.2 ⟨⟨v, rfl, hv, hseen⟩, fun e he => ?_⟩
        obtain ⟨w, hw, hadmits, hlater⟩ := hcases e he
        exact ⟨w, hw, hadmits, fun e' he' => hlater e' (List.mem_append_left _ he')⟩
      · refine List.pairwise_cons.2 ⟨fun e he v' w hv' hw => ?_, hpairwise⟩
        obtain ⟨w', hw', -, hlater⟩ := hcases e he
        obtain rfl : v = v' := Option.some.inj hv'
        obtain rfl : w' = w := Option.some.inj (hw'.symm.trans hw)
        exact hlater (case, v) (List.mem_append_right _ (List.mem_singleton_self _))

/-- What the check of a backed enumeration asks for: that all cases have values of the backing type,
of which no two are identical. -/
theorem of_checkEnum (hc : c.checkEnum h = .ok ()) (hb : c.backing ≠ .none) :
    c.isEnum = true ∧
      (∀ e ∈ c.cases.entries, ∃ v, e.2 = some v ∧ c.backing.admits v = true) ∧
      c.cases.entries.Pairwise fun e e' =>
        ∀ v w, e.2 = some v → e'.2 = some w → h.identical v w = false := by
  rw [checkEnum] at hc
  obtain ⟨henum, hc⟩ := of_throwIf_eq_ok hc
  cases hparent : c.parentName? with
  | some parent =>
    rw [hparent] at hc
    cases hc
  | none =>
    rw [hparent] at hc
    cases hproperty : c.properties.values.find? (!·.isStatic) with
    | some p =>
      rw [hproperty] at hc
      cases hc
    | none =>
      rw [hproperty] at hc
      obtain ⟨hvalues, hdistinct⟩ := of_checkCases hb hc
      refine ⟨by simpa using henum, fun e he => ?_, hdistinct⟩
      obtain ⟨v, hv, hadmits, -⟩ := hvalues e he
      exact ⟨v, hv, hadmits⟩

theorem findCase?_eq (henum : c.isEnum = true) (hb : c.backing ≠ .none) (h : Heap) (v : Val)
    (lookup : String) : c.findCase? h v lookup =
      .ok ((c.cases.entries.find? fun e => e.2.any (h.looselyEqual · v)).map Prod.fst) := by
  rw [findCase?, if_neg (by simp [henum, hb])]

/-- A search for the value of a case, or for a reference to it, passes over all other cases. -/
theorem find?_of_deref_eq (hc : c.checkEnum h₀ = .ok ()) (hb : c.backing ≠ .none) {case : String}
    {b : Val} (hmem : (case, some b) ∈ c.cases.entries) (hv : h.deref v = h.deref b) :
    c.cases.entries.find? (fun e => e.2.any (h.looselyEqual · v)) = some (case, some b) := by
  obtain ⟨-, hvalues, hdistinct⟩ := of_checkEnum hc hb
  have hadmits {case' : String} {b' : Val} (hmem' : (case', some b') ∈ c.cases.entries) :
      c.backing.admits b' = true := by
    obtain ⟨w, hw, hadmits⟩ := hvalues _ hmem'
    cases hw
    exact hadmits
  have hderef : h.deref v = b := hv.trans (Backing.deref_of_admits h (hadmits hmem))
  have hequal {b' : Val} (hb' : c.backing.admits b' = true) :
      h.looselyEqual b' v = b'.identical b := by
    rw [Backing.looselyEqual_eq hb' (hderef ▸ hadmits hmem), hderef]
  obtain ⟨before, after, he⟩ := List.append_of_mem hmem
  refine List.find?_eq_some_iff_append.2 ⟨?_, before, after, he, fun e hebefore => ?_⟩
  · exact (hequal (hadmits hmem)).trans (Backing.identical_self_of_admits (hadmits hmem))
  · have hmem' : e ∈ c.cases.entries := he ▸ List.mem_append_left _ hebefore
    obtain ⟨b', hb', hadmits'⟩ := hvalues e hmem'
    have hother : h₀.identical b' b = false := by
      rw [he] at hdistinct
      exact (List.pairwise_append.1 hdistinct).2.2 e hebefore _ List.mem_cons_self b' b hb' rfl
    rw [Heap.identical, Backing.deref_of_admits h₀ hadmits',
      Backing.deref_of_admits h₀ (hadmits hmem)] at hother
    rw [hb', Option.any_some, hequal hadmits', hother]
    rfl

/-- Lookup in a backed enumeration that has passed its check. The value of a case, behind any number
of references, leads back to the case. A value that is loosely equal to that of no case is not
found, and any other value is found at the first case whose value is loosely equal to it. -/
theorem lookup_inverts_values (hc : c.checkEnum h₀ = .ok ()) (hb : c.backing ≠ .none) :
    (∀ case value?, (case, value?) ∈ c.cases.entries → ∃ b, value? = some b ∧
      ∀ (h : Heap) (v : Val), h.deref v = h.deref b →
        c.enumFrom h v = .ok case ∧ c.enumTryFrom h v = .ok (some case)) ∧
    ∀ (h : Heap) (v : Val),
      (c.enumTryFrom h v = .ok none ↔
        ∀ case b, (case, some b) ∈ c.cases.entries → h.looselyEqual b v = false) ∧
      (c.enumTryFrom h v = .ok none →
        c.enumFrom h v = .error (.enumNoMatch c.name (h.quoted v))) ∧
      (c.enumTryFrom h v ≠ .ok none → ∃ before case b after,
        c.cases.entries = before ++ (case, some b) :: after ∧ h.looselyEqual b v = true ∧
          (∀ case' b', (case', some b') ∈ before → h.looselyEqual b' v = false) ∧
          c.enumTryFrom h v = .ok (some case) ∧ c.enumFrom h v = .ok case) := by
  obtain ⟨henum, hvalues, -⟩ := of_checkEnum hc hb
  have htryFrom (h : Heap) (v : Val) : c.enumTryFrom h v =
      .ok ((c.cases.entries.find? fun e => e.2.any (h.looselyEqual · v)).map Prod.fst) :=
    findCase?_eq henum hb h v _
  have hfrom (h : Heap) (v : Val) : c.enumFrom h v =
      ((c.cases.entries.find? fun e => e.2.any (h.looselyEqual · v)).map Prod.fst).elim
        (.error (.enumNoMatch c.name (h.quoted v))) .ok := by
    rw [enumFrom, findCase?_eq henum hb]
    cases c.cases.entries.find? _ <;> rfl
  refine ⟨fun case value? hmem => ?_, fun h v => ?_⟩
  · obtain ⟨b, rfl, -⟩ := hvalues _ hmem
    refine ⟨b, rfl, fun h v hv => ?_⟩
    rw [htryFrom, hfrom, find?_of_deref_eq hc hb hmem hv]
    exact ⟨rfl, rfl⟩
  · rw [htryFrom, hfrom]
    cases hfind : c.cases.entries.find? fun e => e.2.any (h.looselyEqual · v) with
    | none =>
      refine ⟨⟨fun _ case b hmem => ?_, fun _ => rfl⟩, fun _ => rfl, fun hne => absurd rfl hne⟩
      simpa using List.find?_eq_none.1 hfind _ hmem
    | some e =>
      obtain ⟨case, value?⟩ := e
      obtain ⟨hequal, before, after, he, hbefore⟩ := List.find?_eq_some_iff_append.1 hfind
      have hmem : (case, value?) ∈ c.cases.entries := List.mem_of_find?_eq_some hfind
      obtain ⟨b, rfl, -⟩ := hvalues _ hmem
      refine ⟨⟨nofun, fun hnone => ?_⟩, nofun, fun _ => ?_⟩
      · exact absurd hequal (by simpa using hnone case b hmem)
      · refine ⟨before, case, b, after, he, hequal, fun case' b' hmem' => ?_, rfl, rfl⟩
        simpa using hbefore _ hmem'

/-- Two numerals of one number are different values. The later one is found behind two references,
although the number itself leads to the earlier. -/
theorem lookup_inverts_values_numerals :
    let c := ((enumeration "Level" .string).addCase "Low" (some (.str ⟨[0x31], 0⟩))).addCase "High"
      (some (.str ⟨[0x30, 0x31], 1⟩))
    let h : Heap := { cells := #[.reference ⟨1⟩, .str ⟨[0x30, 0x31], 2⟩] }
    c.checkEnum {} = .ok () ∧ c.backing ≠ .none ∧ c.enumFrom h (.reference ⟨0⟩) = .ok "High" ∧
      c.enumTryFrom h (.int 1) = .ok (some "Low") ∧
      c.enumFrom h (.int 2) = .error (.enumNoMatch "Level" "2") := by
  intro c h
  have hc : c.checkEnum {} = .ok () := rfl
  have hb : c.backing ≠ .none := nofun
  have hentries : c.cases.entries =
      [("Low", some (.str ⟨[0x31], 0⟩)), ("High", some (.str ⟨[0x30, 0x31], 1⟩))] := rfl
  obtain ⟨hvalues, hany⟩ := lookup_inverts_values hc hb
  obtain ⟨b, hb', hhigh⟩ := hvalues "High" _ (.tail _ (.head _))
  cases hb'
  have hnone : c.enumTryFrom h (.int 2) = .ok none := by
    refine (hany h (.int 2)).1.2 fun case b hmem => ?_
    rw [hentries] at hmem
    cases hmem with
    | head => rfl
    | tail _ hmem =>
      cases List.mem_singleton.1 hmem
      rfl
  exact ⟨hc, hb, (hhigh h _ rfl).1, rfl, (hany h _).2.1 hnone⟩

end ClassDef

end ObjectModel
