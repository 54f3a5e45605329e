import XmlWriter.Proofs.Tag.Start
import XmlWriter.Proofs.Writer.Places

/-!
# Which start tags are accepted

`Resolution.Way`, `Attribute.Written` and `OpenElement.Started` list what may happen when a tag is
written to the end. Here it is shown that all of it does happen (`OpenElement.ends_of_started`), so
that a tag is accepted exactly when it can be started. For the attributes this comes down to a
condition on each of them alone, in the state in which the attributes begin
(`Attribute.exists_writtenAll_iff`): what the attributes before it record makes no difference, since
a declaration is left out by what was collected from all of them, and a namespace that was given a
prefix on the way has been checked there. How far the counter goes is a matter of the namespaces
alone (`Attribute.WrittenAll.next_eq`).
-/

namespace XmlWriter

/-! ## All that may happen does happen -/

section
variable {enforce : Bool} {d : Declarations} {inherited : Option Text} {name : Name} {n t : Counter}
  {r : Resolution}

/-- An element is written in each of the six ways. -/
theorem Resolution.ends_of_way (h : Way enforce d inherited name n r t) :
    (of enforce d inherited name).Ends n [] r t := by
  have unwished : name.wish = none → enforce = true → name.wish ≠ some xmlnsPrefix := by
    intro hw _
    rw [hw]
    nofun
  unfold of
  cases h with
  | inPlace hi =>
    rw [if_pos hi]
    exact Emit.ends_pure.2 ⟨rfl, rfl, rfl⟩
  | recorded hi hx hc =>
    rw [if_neg hi]
    refine Emit.ends_demand_bind.2 ⟨vet_xmlnsElement.2 hx, ?_⟩
    simp [hc]
  | declared hi hx hc hw hb hv =>
    rw [if_neg hi]
    refine Emit.ends_demand_bind.2 ⟨vet_xmlnsElement.2 hx, ?_⟩
    rw [hw] at hc ⊢
    simp only [hc]
    refine Emit.ends_bind.2 ⟨[], _, _, [], ends_declared.2 ⟨rfl, .inr ⟨hb, rfl, rfl⟩⟩, ?_, rfl⟩
    exact Emit.ends_demand_bind.2 ⟨hv, Emit.ends_pure.2 ⟨rfl, rfl, rfl⟩⟩
  | generated hi hx hc hw hb hv =>
    rw [if_neg hi]
    refine Emit.ends_demand_bind.2 ⟨vet_xmlnsElement.2 hx, ?_⟩
    rw [hw] at hc ⊢
    simp only [hc]
    refine Emit.ends_bind.2 ⟨[], _, _, [], ends_declared.2 ⟨rfl, .inl ⟨hb, rfl, rfl⟩⟩, ?_, rfl⟩
    exact Emit.ends_demand_bind.2 ⟨hv, Emit.ends_pure.2 ⟨rfl, rfl, rfl⟩⟩
  | ownDefault hi hc hw hd =>
    rw [if_neg hi]
    refine Emit.ends_demand_bind.2 ⟨vet_xmlnsElement.2 (unwished hw), ?_⟩
    rw [hw] at hc ⊢
    simp only [hc, if_pos hd]
    exact Emit.ends_pure.2 ⟨rfl, rfl, rfl⟩
  | default hi hc hw hd hv =>
    rw [if_neg hi]
    refine Emit.ends_demand_bind.2 ⟨vet_xmlnsElement.2 (unwished hw), ?_⟩
    rw [hw] at hc ⊢
    simp only [hc, if_neg hd]
    exact Emit.ends_demand_bind.2 ⟨hv, Emit.ends_pure.2 ⟨rfl, rfl, rfl⟩⟩

end

namespace Attribute

section
variable {c : TagContext} {m m' : PrefixMap} {n n' : Counter} {a : Attribute} {as : List Attribute}
  {ps : List Piece} {seen : List (Option Text × Text)}

/-- An attribute is written in each of the ways listed. -/
theorem ends_of_written (h : a.Written c m n ps m' n') : (a.write c m).Ends n ps m' n' := by
  have done : ∀ {x : Emit Counter Unit} {n n' : Counter} {ps : List Piece} {m' : PrefixMap},
      x.Ends n ps () n' → (x >>= fun _ => pure m').Ends n ps m' n' :=
    fun hx => Emit.ends_bind.2 ⟨_, (), _, [], hx, Emit.ends_pure.2 ⟨rfl, rfl, rfl⟩, by simp⟩
  have written : ∀ {pre : Option Text} {n : Counter}, a.Passes c.enforce →
      (a.writeWith c.enforce pre).Ends n [a.piece pre] () n :=
    fun hc => ends_writeWith.2 ⟨hc, rfl, rfl⟩
  unfold write
  cases h with
  | leftOut hd hl =>
    simp only [isDeclaration_iff.1 hd, if_pos hd]
    refine done ?_
    rw [writeDeclaration, if_pos hl]
    exact Emit.ends_pure.2 ⟨rfl, rfl, rfl⟩
  | declaration hd hl hf hc =>
    simp only [isDeclaration_iff.1 hd, if_pos hd]
    refine done ?_
    rw [writeDeclaration, hl]
    exact Emit.ends_demand_bind.2 ⟨hf, written hc⟩
  | plain hs hc =>
    simp only [hs]
    exact done (written hc)
  | recorded hd hs hp hc =>
    simp only [hs, hd, hp, Bool.false_eq_true, if_false]
    exact done (written hc)
  | generated hd hs hp hv hc =>
    simp only [hs, hd, hp, Bool.false_eq_true, if_false]
    exact Emit.ends_bind.2 ⟨_, _, _, _, ends_declarePrefix.2 ⟨hv, rfl, rfl, rfl⟩,
      done (written hc), rfl⟩

/-- What the description says of a list of attributes happens when they are written. -/
theorem ends_of_writtenAll (h : WrittenAll c seen m n as ps m' n') :
    (writeAll c seen m as).Ends n ps m' n' := by
  induction h with
  | nil => exact Emit.ends_pure.2 ⟨rfl, rfl, rfl⟩
  | cons hk ha _ ih =>
    refine Emit.ends_demand_bind.2 ⟨hk, ?_⟩
    exact Emit.ends_bind.2 ⟨_, _, _, _, ends_of_written ha, ih, rfl⟩

end

/-! ## A condition on each attribute -/

/-- What is asked of an attribute when the attributes of its tag begin with the prefixes in `m`: a
declaration is left out, or it declares something and passes; any other attribute passes, and so
does the name of its namespace if there is no prefix for it. -/
inductive Admissible (c : TagContext) (m : PrefixMap) (a : Attribute) : Prop
  | leftOut (hd : a.isDeclaration = true) (hl : a.isLeftOut c m = true)
  | declaration (hd : a.isDeclaration = true) (hf : a.declarationFlaw? = none)
      (hc : a.Passes true)
  | ordinary (hd : a.isDeclaration = false) (hc : a.Passes true)
      (hv : ∀ s, a.name.space = some s → m.candidates (some s) = [] → AttValue.flaw? s = none)

/-- Whether a declaration is left out has been decided: recording more makes no difference. -/
def Decided (c : TagContext) (m : PrefixMap) (a : Attribute) : Prop :=
  a.isDeclaration = true → ∀ m₁ : PrefixMap, m.bindings ⊆ m₁.bindings →
    a.isLeftOut c m₁ = a.isLeftOut c m

section
variable {c c' : TagContext} {m m' : PrefixMap} {n n' : Counter} {a b : Attribute}
  {as : List Attribute} {ps : List Piece} {seen : List (Option Text × Text)} {s : Text}

/-- What is asked of an attribute in another state follows, if it leaves out at least as much and
each namespace without prefix was without one before, or has a name that passes. -/
theorem Admissible.transfer (h : a.Admissible c m)
    (hl : a.isDeclaration = true → a.isLeftOut c m = true → a.isLeftOut c' m' = true)
    (hn : ∀ s, s ≠ xmlnsNamespace → a.name.space = some s → m'.candidates (some s) = [] →
      m.candidates (some s) = [] ∨ AttValue.flaw? s = none) : a.Admissible c' m' := by
  cases h with
  | leftOut hd h => exact .leftOut hd (hl hd h)
  | declaration hd hf hc => exact .declaration hd hf hc
  | ordinary hd hc hv =>
    refine .ordinary hd hc fun s hs hm => ?_
    exact (hn s (ne_xmlnsNamespace hd hs) hs hm).elim (hv s hs) id

/-- The namespace that a prefix is generated for can be written as a value. -/
theorem Admissible.flaw?_eq_none (h : a.Admissible c m) (hx : s ≠ xmlnsNamespace)
    (hs : a.name.space = some s) (hm : m.candidates (some s) = []) : AttValue.flaw? s = none := by
  cases h with
  | leftOut hd | declaration hd => exact absurd (isDeclaration_eq_false hs hx) (by simp [hd])
  | ordinary _ _ hv => exact hv s hs hm

/-- Where the prefixes of all declarations have been collected, it has been decided which of them
are left out. -/
theorem decided_of_collect {m₀ : PrefixMap} (hc : c.declarations = Declarations.collect m₀ as)
    (hm : c.declarations.prefixes.bindings ⊆ m.bindings) (ha : a ∈ as) : a.Decided c m := by
  intro hd m₁ hm₁
  by_cases hv : a.value = xmlNamespace
  · simp [isLeftOut, hv]
  cases hw : a.name.wish with
  | none => simp [isLeftOut, hw]
  | some w =>
    -- what the declaration says has been recorded from it
    have hb : ⟨namespaceOf a.value, a.name.localPart⟩ ∈ c.declarations.prefixes.bindings :=
      hc ▸ Declarations.mem_bindings_collect_of_mem ha ⟨hd, by simp [hw]⟩ hv
    have held : ∀ {m₂ : PrefixMap}, c.declarations.prefixes.bindings ⊆ m₂.bindings →
        m₂.holds (namespaceOf a.value) a.name.localPart = true :=
      fun h => PrefixMap.holds_iff.2 (PrefixMap.mem_candidates_iff.2 (h hb))
    simp [isLeftOut, hw, held hm, held fun _ h => hm₁ (hm h)]

/-- A decided attribute stays decided when further prefixes are recorded. -/
theorem Decided.mono (h : a.Decided c m) (hm : m.bindings ⊆ m'.bindings) : a.Decided c m' := by
  intro hd m₁ hm₁
  rw [h hd m₁ fun _ hb => hm₁ (hm hb), h hd m' hm]

/-- An attribute that is written meets the condition. -/
theorem Written.admissible (h : a.Written c m n ps m' n') (he : c.enforce = true) :
    a.Admissible c m := by
  cases h with
  | leftOut hd hl => exact .leftOut hd hl
  | declaration hd _ hf hc =>
    rw [he] at hf hc
    exact .declaration hd (vet_true_eq_ok_iff.1 hf) hc
  | plain hs hc =>
    rw [he] at hc
    refine .ordinary (by simp [isDeclaration, hs]) hc fun s hs' => ?_
    rw [hs] at hs'
    cases hs'
  | recorded hd hs hp hc =>
    rw [he] at hc
    refine .ordinary hd hc fun s hs' hm => ?_
    have hmem := PrefixMap.mem_candidates_of_preferred? hp
    rw [← hs, hs', hm] at hmem
    cases hmem
  | generated hd hs _ hv hc =>
    rw [he] at hv hc
    refine .ordinary hd hc fun s hs' _ => ?_
    cases hs.symm.trans hs'
    exact vet_true_eq_ok_iff.1 hv

/-- An attribute that meets the condition is written. -/
theorem exists_written (h : a.Admissible c m) (he : c.enforce = true) (n : Counter) :
    ∃ ps m' n', a.Written c m n ps m' n' := by
  have passed : ∀ {flaw? : Option Flaw}, flaw? = none → vet c.enforce flaw? = .ok () := by
    rintro _ rfl
    exact vet_none _
  cases h with
  | leftOut hd hl => exact ⟨_, _, _, .leftOut hd hl⟩
  | declaration hd hf hc =>
    rw [← he] at hc
    cases hl : a.isLeftOut c m with
    | true => exact ⟨_, _, _, .leftOut hd hl⟩
    | false => exact ⟨_, _, _, .declaration hd hl (passed hf) hc⟩
  | ordinary hd hc hv =>
    rw [← he] at hc
    cases hs : a.name.space with
    | none => exact ⟨_, _, _, .plain hs hc⟩
    | some s =>
      cases hp : m.preferred? (some s) a.name.wish with
      | none =>
        have hf := hv s hs (PrefixMap.preferred?_eq_none_iff.1 hp)
        exact ⟨_, _, _, .generated hd hs hp (passed hf) hc⟩
      | some p => exact ⟨_, _, _, .recorded hd hs hp hc⟩

/-- After an attribute has been written the condition on another one is the same. -/
theorem Written.admissible_iff (h : a.Written c m n ps m' n') (he : c.enforce = true)
    (hs : b.Decided c m) : b.Admissible c m' ↔ b.Admissible c m := by
  have hl : b.isDeclaration = true → b.isLeftOut c m' = b.isLeftOut c m :=
    fun hd => hs hd m' h.bindings_subset
  constructor
  · refine fun hb => hb.transfer (fun hd hl' => hl hd ▸ hl') fun s hx _ hm => ?_
    by_cases ha : a.name.space = some s
    · -- the namespace has been given a prefix on the way, and been checked
      exact .inr ((h.admissible he).flaw?_eq_none hx ha hm)
    · exact .inl ((h.candidates_eq_nil_iff hx).2 ⟨hm, ha⟩)
  · refine fun hb => hb.transfer (fun hd hl' => (hl hd).trans hl') fun s hx _ hm => ?_
    exact .inl ((h.candidates_eq_nil_iff hx).1 hm).1

/-- Attributes that are written meet the condition, in the state in which they begin. -/
theorem WrittenAll.admissible (h : WrittenAll c seen m n as ps m' n') (he : c.enforce = true)
    (hs : ∀ a ∈ as, a.Decided c m) : ∀ a ∈ as, a.Admissible c m := by
  induction h with
  | nil => simp
  | cons _ ha _ ih =>
    rw [List.forall_mem_cons] at hs ⊢
    refine ⟨ha.admissible he, fun b hb => ?_⟩
    have hrest := ih fun b hb => (hs.2 b hb).mono ha.bindings_subset
    exact (ha.admissible_iff he (hs.2 b hb)).1 (hrest b hb)

/-- Attributes with different keys that meet the condition are written. -/
theorem exists_writtenAll (he : c.enforce = true) (hs : ∀ a ∈ as, a.Decided c m)
    (hk : (as.map key).Nodup) (hseen : ∀ a ∈ as, a.key ∉ seen) (ha : ∀ a ∈ as, a.Admissible c m)
    (n : Counter) : ∃ ps m' n', WrittenAll c seen m n as ps m' n' := by
  induction as generalizing seen m n with
  | nil => exact ⟨_, _, _, .nil⟩
  | cons a as ih =>
    rw [List.forall_mem_cons] at hs hseen ha
    obtain ⟨_, m₁, n₁, hw⟩ := exists_written ha.1 he n
    obtain ⟨hk₁, hk⟩ := List.nodup_cons.1 hk
    have hseen₁ : ∀ b ∈ as, b.key ∉ a.key :: seen := by
      intro b hb hm
      rcases List.mem_cons.1 hm with hm | hm
      · exact hk₁ (hm ▸ List.mem_map_of_mem hb)
      · exact hseen.2 b hb hm
    have ha₁ : ∀ b ∈ as, b.Admissible c m₁ :=
      fun b hb => (hw.admissible_iff he (hs.2 b hb)).2 (ha.2 b hb)
    have hs₁ : ∀ b ∈ as, b.Decided c m₁ := fun b hb => (hs.2 b hb).mono hw.bindings_subset
    obtain ⟨_, m₂, n₂, hall⟩ := ih hs₁ hk hseen₁ ha₁ n₁
    refine ⟨_, m₂, n₂, .cons ?_ hw hall⟩
    rw [duplicateFlaw?, if_neg hseen.1, vet_none]

/-- With checks enforced attributes are accepted exactly when their keys are different and each of
them meets a condition of its own. -/
theorem exists_writtenAll_iff (he : c.enforce = true) (hs : ∀ a ∈ as, a.Decided c m)
    (n : Counter) :
    (∃ ps m' n', WrittenAll c [] m n as ps m' n') ↔
      (as.map key).Nodup ∧ ∀ a ∈ as, a.Admissible c m := by
  constructor
  · rintro ⟨ps, m', n', h⟩
    exact ⟨(h.nodup_key he).1, h.admissible he hs⟩
  · rintro ⟨hk, ha⟩
    exact exists_writtenAll he hs hk (by simp) ha n

/-- The counter is taken for an attribute whose namespace, other than that of declarations, has no
prefix, and for no other one. -/
theorem Written.next_eq (h : a.Written c m n ps m' n') :
    n' = n ∧ (∀ s, s ≠ xmlnsNamespace → a.name.space = some s → m.candidates (some s) ≠ []) ∨
    n' = n.next ∧ ∃ s, s ≠ xmlnsNamespace ∧ a.name.space = some s ∧ m.candidates (some s) = [] := by
  cases h with
  | leftOut hd | declaration hd =>
    refine .inl ⟨rfl, fun s hx hs => ?_⟩
    rw [isDeclaration_eq_false hs hx] at hd
    cases hd
  | plain hs =>
    refine .inl ⟨rfl, fun s _ hs' => ?_⟩
    rw [hs] at hs'
    cases hs'
  | recorded _ hs hp =>
    refine .inl ⟨rfl, fun s _ hs' => ?_⟩
    rw [← hs', hs]
    exact List.ne_nil_of_mem (PrefixMap.mem_candidates_of_preferred? hp)
  | generated hd hs hp =>
    exact .inr ⟨rfl, _, ne_xmlnsNamespace hd hs, hs, PrefixMap.preferred?_eq_none_iff.1 hp⟩

/-- The counter is taken once for each namespace of the attributes, that of declarations apart, that
is without prefix when they begin. -/
theorem WrittenAll.next_eq (h : WrittenAll c seen m n as ps m' n') :
    ∃ spaces : List Text, spaces.Nodup ∧
      (∀ s, s ∈ spaces ↔ s ≠ xmlnsNamespace ∧ m.candidates (some s) = [] ∧
        ∃ a ∈ as, a.name.space = some s) ∧
      n' = Binary64.next^[spaces.length] n := by
  induction h with
  | nil => exact ⟨[], .nil, by simp, rfl⟩
  | @cons _ m m₁ _ n n₁ _ a as _ _ _ ha _ ih =>
    obtain ⟨spaces, hnd, hmem, rfl⟩ := ih
    have hrest : ∀ s, s ∈ spaces ↔ s ≠ xmlnsNamespace ∧
        (m.candidates (some s) = [] ∧ a.name.space ≠ some s) ∧ ∃ b ∈ as, b.name.space = some s :=
      fun s => (hmem s).trans
        (and_congr_right fun hx => and_congr_left' (ha.candidates_eq_nil_iff hx))
    rcases ha.next_eq with ⟨rfl, hn⟩ | ⟨rfl, s, hx, hs, hm⟩
    · refine ⟨spaces, hnd, fun s => (hrest s).trans (and_congr_right fun hx => ?_), rfl⟩
      rw [List.exists_mem_cons_iff]
      constructor
      · rintro ⟨⟨hm, -⟩, hb⟩
        exact ⟨hm, .inr hb⟩
      · rintro ⟨hm, hs | hb⟩
        · exact absurd hm (hn s hx hs)
        · exact ⟨⟨hm, fun hs => hn s hx hs hm⟩, hb⟩
    · -- the namespace of the attribute is the only one that is not left for those after it
      refine ⟨s :: spaces, List.nodup_cons.2 ⟨fun h => ((hrest s).1 h).2.1.2 hs, hnd⟩, fun s' => ?_,
        rfl⟩
      rw [List.mem_cons, hrest, List.exists_mem_cons_iff]
      by_cases he : s' = s
      · subst he
        simp [hx, hm, hs]
      · have hs' : a.name.space ≠ some s' := by
          rw [hs]
          exact fun h => he (Option.some.inj h).symm
        simp [he, hs']

end

end Attribute

/-- A start tag is written in each of the ways listed. -/
theorem OpenElement.ends_of_started {enforce : Bool} {scope : Scope} {name : Name}
    {attributes : List Attribute} {childless : Bool} {n n' : Counter} {ps : List Piece}
    {e : OpenElement} (h : Started enforce scope name attributes childless n ps e n') :
    (start enforce scope name attributes childless).Ends n ps e n' := by
  cases h with
  | @mk r m n₁ _ body hl hr ha =>
    have hs : Emit.Ends (do
        if childless then
          Emit.write (.slash (isVoidElement name.space name.localPart))
        return (⟨r.name, childless, ⟨m, r.inherited⟩⟩ : OpenElement))
        n' (slash name childless) ⟨r.name, childless, ⟨m, r.inherited⟩⟩ n' := by
      cases childless with
      | false => exact Emit.ends_pure.2 ⟨rfl, rfl, rfl⟩
      | true =>
        exact Emit.ends_bind.2 ⟨_, (), _, [], Emit.ends_write.2 ⟨rfl, rfl⟩,
          Emit.ends_pure.2 ⟨rfl, rfl, rfl⟩, rfl⟩
    refine Emit.ends_demand_bind.2 ⟨hl, ?_⟩
    refine Emit.ends_bind.2 ⟨[], r, n₁, _, Resolution.ends_of_way hr, ?_, rfl⟩
    refine Emit.ends_bind.2 ⟨_, (), n₁, _, Emit.ends_write.2 ⟨rfl, rfl⟩, ?_, rfl⟩
    exact Emit.ends_bind.2 ⟨body, m, n', _, Attribute.ends_of_writtenAll ha, hs, rfl⟩

end XmlWriter
