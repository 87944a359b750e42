import ObjectModel.Proofs.Resources.History
/-!
# The life of a resource

`Lifecycle` puts together what all runs of the resource registry have in common: numbers are never
used again, a destructor runs once if its resource is closed at all, and a number stands for its
resource until the first purge after the closing.

`Closings` says what one operation closes. A run closes what its operations close, each resource
once, since an operation closes only what is open.
-/

namespace ObjectModel

namespace Resources

variable {rs₀ rs : Resources} {id x : ResourceId} {r : Resource} {op : Operation}
variable (ops : List Operation)

/-- What one operation closes, in the order in which the destructors run. -/
structure Closings (rs : Resources) (op : Operation) (ids : List ResourceId) : Prop where
  nodup : ids.Nodup
  mem_iff : ∀ x, x ∈ ids ↔ op.Reaches rs x
  isClosed_iff : ∀ x, (rs.perform op).1.isClosed x ↔ rs.isClosed x ∨ x ∈ ids
  reports_eq : (rs.perform op).2.reports = ids.filterMap rs.label?

theorem Closings.isSome_open? {ids : List ResourceId} (h : rs.Closings op ids) (hx : x ∈ ids) :
    (rs.open? x).isSome :=
  let ⟨_, _, hopen, hreach⟩ := (h.mem_iff x).1 hx
  isSome_open?_of_reflTransGen hreach hopen

/-- An operation without a target closes nothing. -/
theorem closings_nil (hop : op.target? = none)
    (hclosed : ∀ x, (rs.perform op).1.isClosed x = rs.isClosed x)
    (hreports : (rs.perform op).2.reports = []) : rs.Closings op [] where
  nodup := List.nodup_nil
  mem_iff x := by
    constructor
    · nofun
    · rintro ⟨_, ht, -⟩
      cases hop.symm.trans ht
  isClosed_iff x := by simp [hclosed]
  reports_eq := hreports

theorem isClosed_register (rs : Resources) (hr : r.isClosed = false) (x : ResourceId) :
    (rs.register r).1.isClosed x = rs.isClosed x := by
  rw [isClosed, isClosed, find?_register]
  split
  next hx => rw [hx, find?_new, Option.any_some, hr, Option.any_none]
  next => rfl

theorem isClosed_purge (rs : Resources) (x : ResourceId) :
    rs.purge.1.isClosed x = rs.isClosed x := by
  rw [isClosed, isClosed, find?_purge]
  cases rs.find? x <;> rfl

theorem Closes.isClosed_iff {ids : List ResourceId} {rs' : Resources} (h : rs.Closes id ids rs') :
    rs'.isClosed x ↔ rs.isClosed x ∨ x ∈ ids := by
  rw [isClosed, h.find?_eq]
  split
  next hx =>
    obtain ⟨hfind, -⟩ := isSome_open?_iff.1 (h.isSome_open? hx)
    obtain ⟨r, hr⟩ := Option.isSome_iff_exists.1 hfind
    exact iff_of_true (by rw [hr]; rfl) (.inr hx)
  next hx => simp [hx, isClosed]

theorem Continues.exists_closings (h : rs₀.Continues rs) (op : Operation) :
    ∃ ids, rs.Closings op ids := by
  obtain ⟨r, hr⟩ | ⟨id, hid⟩ | rfl := op.registers_or_closes_or_purges
  · have hp : rs.perform op = _ := perform_of_resource? hr
    refine ⟨[], closings_nil (Operation.target?_of_resource? hr) (fun x => ?_) (by rw [hp]; rfl)⟩
    rw [hp]
    apply isClosed_register
    cases op <;> cases hr
    rfl
  · obtain ⟨ids, hc, he⟩ := exists_closes_of_close rs id
    have hp := h.perform_of_target? hid
    refine ⟨ids, hc.nodup, fun x => ?_, fun x => hp ▸ hc.isClosed_iff, ?_⟩
    · rw [hc.mem_iff]
      constructor
      · rintro ⟨hopen, hreach⟩
        exact ⟨id, hid, hopen, hreach⟩
      · rintro ⟨id', hid', hopen, hreach⟩
        cases hid.symm.trans hid'
        exact ⟨hopen, hreach⟩
    · rw [hp, he]
      rfl
  · exact ⟨[], closings_nil rfl (isClosed_purge rs) rfl⟩

theorem handles_eq :
    handles ops = (List.range' 1 (after ops).all.size).map ResourceId.mk := by
  induction ops using List.reverseRecOn with
  | nil => rfl
  | append_singleton ops op ih =>
    rw [handles_concat, after_concat, ih]
    obtain ⟨r, hr⟩ | ⟨id, hid⟩ | rfl := op.registers_or_closes_or_purges
    · rw [perform_of_resource? hr]
      simp only [register, Answer.handle?, Option.toList_some, Array.size_push,
        List.range'_1_concat, List.map_append, List.map_cons, List.map_nil, Nat.add_comm 1]
    · obtain ⟨ids, hc, -⟩ := exists_closes_of_close (after ops) id
      rw [(continues_after ops).perform_of_target? hid, hc.size_eq]
      exact List.append_nil _
    · simp only [perform, purge, Answer.handle?, Option.toList_none, List.append_nil,
        Array.size_map]

theorem mem_handles_iff : x ∈ handles ops ↔ ((after ops).find? x).isSome := by
  rw [handles_eq, isSome_find?_iff, List.mem_map]
  constructor
  · rintro ⟨n, hn, rfl⟩
    obtain ⟨hpos, hlt⟩ := List.mem_range'_1.1 hn
    exact ⟨hpos, Nat.lt_one_add_iff.1 hlt⟩
  · intro hx
    exact ⟨x.number, List.mem_range'_1.2 (by omega), rfl⟩

theorem find?_after_nil (x : ResourceId) : (after []).find? x = none := by
  rw [← Option.not_isSome_iff_eq_none, ← mem_handles_iff]
  exact List.not_mem_nil

theorem concat_prefix_concat_iff {pre : List Operation} {op op' : Operation} :
    pre ++ [op'] <+: ops ++ [op] ↔ pre = ops ∧ op' = op ∨ pre ++ [op'] <+: ops := by
  rw [List.prefix_concat_iff, List.append_singleton_inj]

/-- What is closed is what some operation of the run has closed. -/
theorem isClosed_after_iff :
    (after ops).isClosed x ↔ ∃ pre op, pre ++ [op] <+: ops ∧ op.Reaches (after pre) x := by
  induction ops using List.reverseRecOn with
  | nil =>
    rw [isClosed, find?_after_nil]
    refine iff_of_false Bool.false_ne_true ?_
    rintro ⟨pre, op, hpre, -⟩
    simp at hpre
  | append_singleton ops op ih =>
    obtain ⟨ids, hids⟩ := (continues_after ops).exists_closings op
    rw [after_concat, hids.isClosed_iff, hids.mem_iff, ih]
    simp only [concat_prefix_concat_iff]
    constructor
    · rintro (⟨pre, op', hpre, hreach⟩ | hreach)
      · exact ⟨pre, op', .inr hpre, hreach⟩
      · exact ⟨ops, op, .inl ⟨rfl, rfl⟩, hreach⟩
    · rintro ⟨pre, op', ⟨rfl, rfl⟩ | hpre, hreach⟩
      · exact .inr hreach
      · exact .inl ⟨pre, op', hpre, hreach⟩

/-- What is closed stays closed. -/
theorem isClosed_mono {pre : List Operation} (h : pre <+: ops) (hx : (after pre).isClosed x) :
    (after ops).isClosed x := by
  rw [isClosed_after_iff] at hx ⊢
  obtain ⟨pre', op, hpre', hreach⟩ := hx
  exact ⟨pre', op, hpre'.trans h, hreach⟩

theorem isSome_find?_of_isClosed (hx : rs.isClosed x) : (rs.find? x).isSome := by
  obtain ⟨h, -⟩ := (Option.any_eq_true_iff_get _ _).1 hx
  exact h

/-- What a run does not know has not been closed in the course of it. -/
theorem isClosed_eq_false_of_prefix {pre : List Operation} (h : pre <+: ops)
    (hx : (after ops).find? x = none) : (after pre).isClosed x = false := by
  rw [← Bool.not_eq_true]
  intro hclosed
  have hsome := isSome_find?_of_isClosed (isClosed_mono ops h hclosed)
  rw [hx] at hsome
  cases hsome

theorem Continues.isSome_find?_iff (h : rs₀.Continues rs) :
    (rs.find? x).isSome ↔ (rs₀.find? x).isSome := by
  rw [Resources.isSome_find?_iff, Resources.isSome_find?_iff, h.size_eq]

/-- Registering another resource leaves the old ones alone. -/
theorem find?_registrations_concat (op : Operation)
    (hx : ((registrations ops).find? x).isSome) :
    (registrations (ops ++ [op])).find? x = (registrations ops).find? x := by
  cases hr : op.resource? with
  | none => rw [registrations_concat_of_eq_none ops hr]
  | some r =>
    rw [registrations_concat ops hr, find?_register, if_neg]
    rintro rfl
    rw [find?_new] at hx
    cases hx

theorem find?_registrations_of_prefix {pre : List Operation} (h : pre <+: ops)
    (hr : (registrations pre).find? x = some r) : (registrations ops).find? x = some r := by
  induction ops using List.reverseRecOn with
  | nil =>
    obtain rfl := List.prefix_nil.1 h
    exact hr
  | append_singleton ops op ih =>
    obtain rfl | h := List.prefix_concat_iff.1 h
    · exact hr
    · have hr := ih h
      rw [find?_registrations_concat ops op (Option.isSome_of_mem hr), hr]

/-- The destructors that have run are those of the closed resources, one for each. -/
theorem exists_reports_eq :
    ∃ ids : List ResourceId, ids.Nodup ∧ (∀ x, x ∈ ids ↔ (after ops).isClosed x) ∧
      reports ops = ids.filterMap (registrations ops).label? := by
  induction ops using List.reverseRecOn with
  | nil =>
    refine ⟨[], List.nodup_nil, fun x => ?_, rfl⟩
    rw [isClosed, find?_after_nil]
    exact iff_of_false List.not_mem_nil Bool.false_ne_true
  | append_singleton ops op ih =>
    obtain ⟨ids, hnodup, hmem, hreports⟩ := ih
    have hcont := continues_after ops
    obtain ⟨new, hnew⟩ := hcont.exists_closings op
    have hlabel : ∀ {x}, ((after ops).find? x).isSome →
        (registrations (ops ++ [op])).label? x = (registrations ops).label? x := by
      intro x hx
      rw [label?, label?, find?_registrations_concat ops op (hcont.isSome_find?_iff.1 hx)]
    refine ⟨ids ++ new, List.nodup_append.2 ⟨hnodup, hnew.nodup, ?_⟩, ?_, ?_⟩
    · -- what is closed now was open, and what has been closed before was not
      rintro x hx _ hx' rfl
      have hopen := (isSome_open?_iff.1 (hnew.isSome_open? hx')).2
      rw [(hmem x).1 hx] at hopen
      cases hopen
    · intro x
      rw [List.mem_append, hmem, after_concat, hnew.isClosed_iff]
    · rw [reports_concat, List.filterMap_append, hreports, hnew.reports_eq]
      congr 1
      · refine List.filterMap_congr fun x hx => (hlabel ?_).symm
        exact isSome_find?_of_isClosed ((hmem x).1 hx)
      · refine List.filterMap_congr fun x hx => ?_
        have hopen := hnew.isSome_open? hx
        rw [hlabel (isSome_open?_iff.1 hopen).1, hcont.label?_eq hopen]

theorem registered?_eq_some_iff :
    rs.registered? x = some x ↔ (rs.find? x).any (·.isRegistered) := by
  rw [registered?]
  split
  next h => exact iff_of_true rfl h
  next h => exact iff_of_false (Option.some_ne_none x).symm h

theorem Closes.registered?_eq {ids : List ResourceId} {rs' : Resources} (h : rs.Closes id ids rs') :
    rs'.registered? x = rs.registered? x := by
  rw [registered?, registered?, h.find?_eq]
  split
  · cases rs.find? x <;> rfl
  · rfl

theorem registered?_purge_iff :
    rs.purge.1.registered? x = some x ↔ rs.registered? x = some x ∧ rs.isClosed x = false := by
  rw [registered?_eq_some_iff, registered?_eq_some_iff, find?_purge, isClosed]
  cases rs.find? x with
  | none => simp
  | some r => simp

/-- A number stands for its resource until the first purge after the closing. -/
theorem registered?_after_iff :
    (after ops).registered? x = some x ↔
      x ∈ handles ops ∧ ∀ pre, pre ++ [.purge] <+: ops → (after pre).isClosed x = false := by
  induction ops using List.reverseRecOn with
  | nil =>
    rw [registered?_eq_some_iff, find?_after_nil]
    exact iff_of_false Bool.false_ne_true fun h => List.not_mem_nil h.1
  | append_singleton ops op ih =>
    rw [mem_handles_iff] at ih ⊢
    rw [after_concat]
    simp only [concat_prefix_concat_iff]
    obtain ⟨r, hr⟩ | ⟨id, hid⟩ | rfl := op.registers_or_closes_or_purges
    · have hop : Operation.purge ≠ op := by
        rintro rfl
        cases hr
      simp only [hop, and_false, false_or]
      rw [perform_of_resource? hr]
      by_cases hx : x = ((after ops).register r).2
      · -- a new number has not been closed, so no purge can have met it
        rw [registered?_eq_some_iff, find?_register, if_pos hx]
        refine iff_of_true ?_ ⟨rfl, fun pre hpre => ?_⟩
        · cases op <;> cases hr
          rfl
        · have hpre := (List.prefix_append pre [.purge]).trans hpre
          exact isClosed_eq_false_of_prefix ops hpre (hx ▸ find?_new (after ops) r)
      · rw [registered?, find?_register, if_neg hx]
        exact ih
    · have hop : Operation.purge ≠ op := by
        rintro rfl
        cases hid
      obtain ⟨ids, hc, -⟩ := exists_closes_of_close (after ops) id
      simp only [hop, and_false, false_or]
      rw [(continues_after ops).perform_of_target? hid, hc.registered?_eq, ih]
      rw [isSome_find?_iff, isSome_find?_iff, hc.size_eq]
    · rw [perform, registered?_purge_iff, ih, find?_purge, Option.isSome_map, and_assoc]
      refine and_congr_right fun _ => ⟨?_, fun h => ⟨fun pre hpre => h pre (.inr hpre), ?_⟩⟩
      · rintro ⟨h, hops⟩ pre (⟨rfl, -⟩ | hpre)
        · exact hops
        · exact h pre hpre
      · exact h ops (.inl ⟨rfl, rfl⟩)

/-- The resources, found by their numbers. -/
theorem map_find?_range' (rs : Resources) :
    (List.range' 1 rs.all.size).map (fun n => rs.find? ⟨n⟩) = rs.all.toList.map some := by
  apply List.ext_getElem?
  intro i
  by_cases hi : i < rs.all.size
  · simp [find?_eq, hi]
  · simp [hi]

/-- A purge counts the numbers that were good before it and are not any more. -/
theorem purge_snd_eq :
    (after ops).purge.2 = (handles ops).countP fun id =>
      (after ops).registered? id = some id ∧ (after ops).purge.1.registered? id = none := by
  rw [handles_eq, List.countP_map]
  calc
    _ = (after ops).all.toList.countP fun r => r.isRegistered && r.isClosed :=
      Array.countP_toList.symm
    _ = ((after ops).all.toList.map some).countP
          fun r => r.any fun r => r.isRegistered && r.isClosed := by
      rw [List.countP_map]
      rfl
    _ = (List.range' 1 (after ops).all.size).countP fun n =>
          ((after ops).find? ⟨n⟩).any fun r => r.isRegistered && r.isClosed := by
      rw [← map_find?_range', List.countP_map]
      rfl
    _ = _ := by
      refine List.countP_congr fun n _ => ?_
      simp only [Function.comp_apply, registered?, find?_purge]
      cases (after ops).find? ⟨n⟩ <;> simp +contextual

/-- A registration is answered with the number that the resource has from then on. -/
theorem exists_handle_of_register {pre : List Operation} (hpre : pre ++ [op] <+: ops)
    (hop : op.resource? = some r) :
    ∃ id, ((after pre).perform op).2 = .handle id ∧ id ∈ handles ops ∧
      (registrations ops).find? id = some r := by
  have hid : ((after pre).register r).2 = ((registrations pre).register r).2 := by
    simp only [Resources.register, (continues_after pre).size_eq]
  have hfind : (registrations ops).find? ((after pre).register r).2 = some r := by
    apply find?_registrations_of_prefix ops hpre
    rw [registrations_concat pre hop, find?_register, if_pos hid]
  refine ⟨_, by rw [perform_of_resource? hop], ?_, hfind⟩
  rw [mem_handles_iff, (continues_after ops).isSome_find?_iff, hfind]
  rfl

/-- Closing tells whether the resource was open, and it is closed from then on. -/
theorem exists_closed_of_target? {pre : List Operation} (hpre : pre ++ [op] <+: ops)
    (hop : op.target? = some id) :
    ∃ wasOpen labels, ((after pre).perform op).2 = .closed wasOpen labels ∧
      (wasOpen = true ↔ id ∈ handles pre ∧ (after pre).isClosed id = false) ∧
      (id ∈ handles pre → (after ops).isClosed id) := by
  obtain ⟨_, -, he⟩ := exists_closes_of_close (after pre) id
  refine ⟨_, _, by rw [(continues_after pre).perform_of_target? hop], ?_, fun hid => ?_⟩
  · rw [he, isSome_open?_iff, mem_handles_iff]
  · cases hclosed : (after pre).isClosed id with
    | true => exact isClosed_mono ops ((List.prefix_append pre [op]).trans hpre) hclosed
    | false =>
      rw [mem_handles_iff] at hid
      have hreach : op.Reaches (after pre) id :=
        ⟨id, hop, isSome_open?_iff.2 ⟨hid, hclosed⟩, .refl⟩
      exact (isClosed_after_iff ops).2 ⟨pre, op, hpre, hreach⟩

/-- The numbers of the open resources of a kind grow. -/
theorem pairwise_openOfKind (rs : Resources) (kind : String) :
    (rs.openOfKind kind).Pairwise (· < ·) := by
  have hlt : rs.all.toList.zipIdx.Pairwise fun a b => a.2 < b.2 := by
    rw [← List.pairwise_map (R := (· < ·)), List.zipIdx_map_snd]
    exact List.pairwise_lt_range'
  apply hlt.filterMap
  intro a b hab m hm n hn
  simp only [Option.ite_none_right_eq_some, Option.some.injEq] at hm hn
  omega

theorem mem_openOfKind_iff {kind : String} {n : Nat} :
    n ∈ rs.openOfKind kind ↔
      ∃ r, rs.open? ⟨n⟩ = some r ∧ r.isRegistered ∧ r.kind = kind := by
  simp only [openOfKind, List.mem_filterMap, Prod.exists, List.mk_mem_zipIdx_iff_getElem?,
    Array.getElem?_toList, Option.ite_none_right_eq_some, Option.some.injEq, Bool.and_eq_true,
    Bool.not_eq_true', beq_iff_eq, open?_eq_some_iff, find?_eq]
  constructor
  · rintro ⟨r, i, hr, ⟨⟨hreg, ho⟩, hk⟩, rfl⟩
    exact ⟨r, ⟨hr, ho⟩, hreg, hk⟩
  · rintro ⟨r, ⟨hr, ho⟩, hreg, hk⟩
    split at hr
    · cases hr
    next hn => exact ⟨r, n - 1, hr, ⟨⟨hreg, ho⟩, hk⟩, Nat.succ_pred_eq_of_ne_zero hn⟩

/-- After a run those are listed that are open and were registered with the kind. -/
theorem mem_openOfKind_after_iff {kind : String} {n : Nat} :
    n ∈ (after ops).openOfKind kind ↔
      (after ops).isClosed ⟨n⟩ = false ∧
        ∃ r, (registrations ops).find? ⟨n⟩ = some r ∧ r.kind = kind := by
  have hcont := continues_after ops
  rw [mem_openOfKind_iff]
  constructor
  · rintro ⟨r, hr, -, hk⟩
    obtain ⟨hf, ho⟩ := open?_eq_some_iff.1 hr
    obtain ⟨r₀, hr₀, hc⟩ := hcont.exists_of_find? hf
    exact ⟨by rw [isClosed, hf, Option.any_some, ho], r₀, hr₀, hc.kind_eq ▸ hk⟩
  · rintro ⟨ho, r₀, hr₀, hk⟩
    have hsome := hcont.isSome_find?_iff.2 (Option.isSome_of_mem hr₀)
    obtain ⟨r, hr⟩ := Option.isSome_iff_exists.1 (isSome_open?_iff.2 ⟨hsome, ho⟩)
    obtain ⟨hf, ho⟩ := open?_eq_some_iff.1 hr
    obtain ⟨r₀', hr₀', hc⟩ := hcont.exists_of_find? hf
    cases hr₀.symm.trans hr₀'
    exact ⟨r, hr, hc.isRegistered ho, hc.kind_eq.trans hk⟩

/-- What holds of every run. -/
structure Lifecycle (ops : List Operation) : Prop where
  /-- Numbers grow, so none is used again. -/
  handles_pairwise : (handles ops).Pairwise (·.number < ·.number)
  /-- A registration is answered with the number of the resource. -/
  register : ∀ pre op r, pre ++ [op] <+: ops → op.resource? = some r →
    ∃ id, ((after pre).perform op).2 = .handle id ∧ id ∈ handles ops ∧
      (registrations ops).find? id = some r
  /-- Closed are the resources that some operation has closed. -/
  isClosed_iff : ∀ id, (after ops).isClosed id ↔
    ∃ pre op, pre ++ [op] <+: ops ∧ op.Reaches (after pre) id
  /-- A destructor has run once if its resource is closed, and otherwise it has not run. -/
  destructors : ∃ ids : List ResourceId, ids.Nodup ∧ (∀ id, id ∈ ids ↔ (after ops).isClosed id) ∧
    reports ops = ids.filterMap (registrations ops).label?
  /-- Closing tells whether the resource was open. After that it is not. -/
  close : ∀ pre op id, pre ++ [op] <+: ops → op.target? = some id →
    ∃ wasOpen labels, ((after pre).perform op).2 = .closed wasOpen labels ∧
      (wasOpen = true ↔ id ∈ handles pre ∧ (after pre).isClosed id = false) ∧
      (id ∈ handles pre → (after ops).isClosed id)
  /-- A number is good until the first purge after the closing. -/
  registered?_iff : ∀ id, (after ops).registered? id = some id ↔
    id ∈ handles ops ∧ ∀ pre, pre ++ [.purge] <+: ops → (after pre).isClosed id = false
  openOfKind_pairwise : ∀ kind, ((after ops).openOfKind kind).Pairwise (· < ·)
  /-- Listed are the open resources that were registered with the kind. -/
  mem_openOfKind_iff : ∀ kind n, n ∈ (after ops).openOfKind kind ↔
    (after ops).isClosed ⟨n⟩ = false ∧
      ∃ r, (registrations ops).find? ⟨n⟩ = some r ∧ r.kind = kind
  /-- A purge leaves open resources alone and counts the others that it takes out. -/
  purge : ∀ pre, pre ++ [.purge] <+: ops →
    (∀ id ∈ handles pre, (after pre).isClosed id = false →
      (after (pre ++ [.purge])).registered? id = some id) ∧
    ((after pre).perform .purge).2 = .purged ((handles pre).countP fun id =>
      (after pre).registered? id = some id ∧ (after (pre ++ [.purge])).registered? id = none)

/-- Every run keeps to the life of a resource. -/
theorem lifecycle : Lifecycle ops where
  handles_pairwise := by
    rw [handles_eq, List.pairwise_map]
    exact List.pairwise_lt_range'
  register _ _ _ hpre hop := exists_handle_of_register ops hpre hop
  isClosed_iff _ := isClosed_after_iff ops
  destructors := exists_reports_eq ops
  close _ _ _ hpre hop := exists_closed_of_target? ops hpre hop
  registered?_iff _ := registered?_after_iff ops
  openOfKind_pairwise := pairwise_openOfKind (after ops)
  mem_openOfKind_iff _ _ := mem_openOfKind_after_iff ops
  purge pre _ := by
    simp only [after_concat, perform, purge_snd_eq, and_true, registered?_purge_iff]
    intro id hid ho
    rw [mem_handles_iff] at hid
    exact ⟨(continues_after pre).registered?_eq (isSome_open?_iff.2 ⟨hid, ho⟩), ho⟩

end Resources

end ObjectModel
