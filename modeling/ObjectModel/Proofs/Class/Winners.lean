import ObjectModel.Proofs.Class.Aliases
/-!
# What a precedence rule brings about

A precedence rule prefers the method of one trait to those of others. All that comes of it is that
the others are excluded: the exclusions of all rules are gathered before any method is composed, and
what is composed is what they leave. So the method that a rule prefers is used unless another rule
excludes it. A rule does not exclude what it prefers itself (`exists_winner`), but two rules may
exclude what the other prefers, and then neither method is there.
-/

namespace ObjectModel

namespace ClassDef

variable {h : Heap} {traits : List ClassDef} {excluded : List (String × String)} {c d t : ClassDef}
  {m : MethodDef} {name key trait method : String} {insteadOf : List String}

theorem mem_of_usedTrait (hu : c.usedTrait traits trait = .ok t) : t ∈ traits := by
  rw [usedTrait] at hu
  split at hu
  next hf =>
    cases hu
    exact List.mem_of_find?_eq_some hf
  next => cases hu

/-- A trait that a rule excludes goes by another name than the one that it prefers. -/
theorem isNamed_of_excludedBy {pairs : List (String × String)}
    (hr : c.excludedBy traits (.precedence trait method insteadOf) = .ok pairs)
    (ht : c.usedTrait traits trait = .ok t) (hname : name ∈ insteadOf) :
    t.isNamed name = false := by
  obtain ⟨winner, hw, hr⟩ := exists_of_bind_eq_ok hr
  cases ht.symm.trans hw
  obtain ⟨-, hr⟩ := of_throwIf_eq_ok hr
  obtain ⟨pair, hp⟩ := exists_of_mapM_eq_ok hr name hname
  obtain ⟨loser, hl, hp⟩ := exists_of_bind_eq_ok hp
  obtain ⟨hother, -⟩ := of_throwIf_eq_ok hp
  rw [Bool.eq_false_iff]
  intro hsame
  apply hother
  have hback : Name.same name t.name = true := (Name.same_comm _ _).trans hsame
  exact Name.same_trans (isNamed_of_usedTrait hl) hback

/-- Where the rules make sense, the method that one of them prefers is there, and the rule does not
exclude it. -/
theorem exists_winner (hx : c.exclusions traits = .ok excluded)
    (hrule : .precedence trait method insteadOf ∈ c.traitRules) :
    ∃ t m, c.usedTrait traits trait = .ok t ∧ t.methods.get? (Name.foldCase method) = some m ∧
      ∀ key, (TraitRule.precedence trait method insteadOf).excludes t key = false := by
  obtain ⟨_, hp, -⟩ := exists_of_bind_eq_ok hx
  obtain ⟨pairs, hr⟩ := exists_of_mapM_eq_ok hp _ hrule
  obtain ⟨t, ht, hr'⟩ := exists_of_bind_eq_ok hr
  obtain ⟨hm, -⟩ := of_throwIf_eq_ok hr'
  obtain ⟨m, hm⟩ : ∃ m, t.methods.get? (Name.foldCase method) = some m := by
    rw [Bool.not_eq_true', Bool.not_eq_false] at hm
    exact Option.isSome_iff_exists.1 hm
  refine ⟨t, m, ht, hm, fun key => ?_⟩
  rw [TraitRule.excludes, Bool.and_eq_false_iff, List.any_eq_false]
  refine .inr fun name hname => ?_
  rw [isNamed_of_excludedBy hr ht hname]
  decide

theorem mem_providedMethods (ht : t ∈ traits) (hm : t.methods.get? key = some m)
    (hrules : ∀ rule ∈ c.traitRules, rule.excludes t key = false) :
    m ∈ c.providedMethods traits key := by
  refine List.mem_filterMap.2 ⟨t, List.mem_filter.2 ⟨ht, ?_⟩, hm⟩
  rw [Bool.not_eq_true', List.any_eq_false]
  intro rule hr
  rw [hrules rule hr]
  decide

/-- Methods of traits are composed by precedence if no rule adapts them. -/
theorem composesMethod_of_not_adapts (hu : c.useTraits h traits = .ok d)
    (hadapts : ¬ c.Adapts (Name.foldCase name)) :
    d.name = c.name ∧ ComposesMethod c traits d name := by
  obtain ⟨b, hname, hcomposes, -, hrules⟩ := exists_composed_of_useTraits hu
  refine ⟨(frame_of_applyAliases hrules).1.trans hname, (hcomposes name).of_eq ?_⟩
  apply get?_methods_of_applyAliases _ hrules
  intro rule hrule hkey
  exact hadapts ⟨rule, hrule, hkey⟩

/-- A precedence rule prefers a method that is there. The class uses its code, unless the class has
a method of the name itself, a rule adapts the name, or another rule excludes the method; and
whatever the class uses is a method that the rules leave. -/
theorem useTraits_winner (hu : c.useTraits h traits = .ok d)
    (hrule : .precedence trait method insteadOf ∈ c.traitRules)
    (hadapts : ¬ c.Adapts (Name.foldCase method)) (hown : c.ownMethod? method = none) :
    ∃ t m, c.usedTrait traits trait = .ok t ∧ t.methods.get? (Name.foldCase method) = some m ∧
      (m.isAbstract = false →
        (∀ rule ∈ c.traitRules, rule ≠ .precedence trait method insteadOf →
          rule.excludes t (Name.foldCase method) = false) →
        ∃ n, d.ownMethod? method = some n ∧ n.bodyId? = m.bodyId?) ∧
      ∀ n, d.ownMethod? method = some n →
        ∃ p ∈ c.providedMethods traits (Name.foldCase method),
          n = { p with declaringClass := c.name } := by
  obtain ⟨excluded, -, -, -, hx, -⟩ := exists_stages_of_useTraits hu
  obtain ⟨t, m, ht, hm, hself⟩ := exists_winner hx hrule
  obtain ⟨hname, hcomposes⟩ := composesMethod_of_not_adapts hu hadapts
  refine ⟨t, m, ht, hm, fun ha hothers => ?_, fun n => hcomposes.exists_of_ownMethod? hname hown⟩
  have hprovided : m ∈ c.providedMethods traits (Name.foldCase method) := by
    refine mem_providedMethods (mem_of_usedTrait ht) hm fun rule hr => ?_
    by_cases he : rule = .precedence trait method insteadOf
    · rw [he, hself]
    · exact hothers rule hr he
  have hcode : (!m.isAbstract) = true := by
    rw [ha]
    rfl
  exact hcomposes.exists_of_mem hname hown (List.mem_filter.2 ⟨hprovided, hcode⟩)

/-- Of two traits the greeting of one is used, as a rule says, whatever a rule about another name
says. -/
theorem useTraits_winner_of_greeters :
    ∃ d, ({ name := "C", traitRules := [.precedence "A" "Hello" ["b"],
        .precedence "B" "wave" ["a"]] } : ClassDef).useTraits {}
        [greeter "A" 1, (greeter "B" 2).addMethod { name := "wave" }] = .ok d ∧
      ∃ n, d.ownMethod? "hello" = some n ∧ n.bodyId? = some 1 := by
  obtain ⟨d, hd⟩ : ∃ d, ({ name := "C", traitRules := [.precedence "A" "Hello" ["b"],
      .precedence "B" "wave" ["a"]] } : ClassDef).useTraits {}
      [greeter "A" 1, (greeter "B" 2).addMethod { name := "wave" }] = .ok d := ⟨_, rfl⟩
  obtain ⟨t, m, ht, hm, hwinner, -⟩ := useTraits_winner hd List.mem_cons_self
    (by
      rintro ⟨rule, hr, hk⟩
      obtain rfl | hr := List.mem_cons.1 hr
      · cases hk
      · cases List.mem_singleton.1 hr
        cases hk)
    (by decide)
  cases ht
  cases hm
  obtain ⟨n, hn, hbody⟩ := hwinner rfl (by decide)
  exact ⟨d, hd, n, hn, hbody⟩

/-- Two rules prefer the greetings of two traits, each to the other, and no greeting is used. -/
theorem exists_winner_excluded :
    ∃ (c : ClassDef) (traits : List ClassDef) (d : ClassDef) (t : ClassDef) (m : MethodDef),
      c.useTraits {} traits = .ok d ∧ .precedence "A" "hello" ["B"] ∈ c.traitRules ∧
      (∀ key, ¬ c.Adapts key) ∧ c.ownMethod? "hello" = none ∧
      c.usedTrait traits "A" = .ok t ∧ t.methods.get? "hello" = some m ∧ m.isAbstract = false ∧
      d.findMethod? "hello" = none := by
  refine ⟨{ name := "C", traitRules := [.precedence "A" "hello" ["B"],
    .precedence "B" "hello" ["A"]] }, [greeter "A" 1, greeter "B" 2], _, greeter "A" 1,
    { name := "hello", body? := some ⟨1, "A"⟩, declaringClass := "A" }, rfl, List.mem_cons_self, ?_,
    rfl, rfl, rfl, rfl, rfl⟩
  rintro key ⟨rule, hr, hk⟩
  obtain rfl | hr := List.mem_cons.1 hr
  · cases hk
  · cases List.mem_singleton.1 hr
    cases hk

end ClassDef

end ObjectModel
