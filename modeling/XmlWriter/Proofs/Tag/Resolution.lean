import XmlWriter.Proofs.Ends
import XmlWriter.Proofs.Tag.Declarations
import XmlWriter.Tag.Resolution

/-!
# The ways in which an element is written

`Resolution.of` ends well in six ways. `Resolution.Way` lists them with everything that decides
between them, and `Resolution.way_of_ends` says that there are no others, so that a property of the
written name of an element is a case analysis on the way it was found. None of them hands on a
piece.
-/

namespace XmlWriter

/-- No name is in the namespace with the empty name. -/
theorem Name.space_ne_some_nil (n : Name) : n.space ≠ some [] := NamePart.value?_ne_some_nil _

namespace Counter

/-- Taking a prefix moves the counter on by one. -/
@[simp] theorem ends_take {n t : Counter} {ps : List Piece} {pre : Text} :
    take.Ends n ps pre t ↔ ps = [] ∧ pre = generated n ∧ t = n.next := by
  simp only [take, Emit.ends_bind, Emit.ends_get, Emit.ends_modify, Emit.ends_pure]
  constructor
  · rintro ⟨_, _, _, _, ⟨rfl, rfl, rfl⟩, ⟨_, _, _, _, ⟨rfl, rfl⟩, ⟨rfl, rfl, rfl⟩, rfl⟩, rfl⟩
    exact ⟨rfl, rfl, rfl⟩
  · rintro ⟨rfl, rfl, rfl⟩
    exact ⟨[], n, n, [], ⟨rfl, rfl, rfl⟩, ⟨[], (), _, [], ⟨rfl, rfl⟩, ⟨rfl, rfl, rfl⟩, rfl⟩, rfl⟩

end Counter

namespace Resolution

/-- How an element with the given declarations, inherited namespace and name is written when the
counter stands at `n`, and where the counter then stands. -/
inductive Way (enforce : Bool) (d : Declarations) (inherited : Option Text) (name : Name)
    (n : Counter) : Resolution → Counter → Prop
  | inPlace (h : inherited = name.space) :
      Way enforce d inherited name n (Resolution.inPlace d inherited name.localPart) n
  | recorded {pre : Text} (h : inherited ≠ name.space)
      (hx : enforce = true → name.wish ≠ some xmlnsPrefix)
      (hc : candidate? d name.space name.wish = some pre) :
      Way enforce d inherited name n (withRecorded d inherited pre name.localPart) n
  | declared {wish : Text} (h : inherited ≠ name.space)
      (hx : enforce = true → name.wish ≠ some xmlnsPrefix)
      (hc : candidate? d name.space name.wish = none) (hw : name.wish = some wish)
      (hb : d.binds wish = false)
      (hv : vet enforce (AttValue.flaw? (name.space.getD [])) = .ok ()) :
      Way enforce d inherited name n (withDeclared d inherited name.space wish name.localPart) n
  | generated {wish : Text} (h : inherited ≠ name.space)
      (hx : enforce = true → name.wish ≠ some xmlnsPrefix)
      (hc : candidate? d name.space name.wish = none) (hw : name.wish = some wish)
      (hb : d.binds wish = true) (hv : vet enforce (AttValue.flaw? (name.space.getD [])) = .ok ()) :
      Way enforce d inherited name n
        (withDeclared d inherited name.space (Counter.generated n) name.localPart) n.next
  | ownDefault (h : inherited ≠ name.space)
      (hc : candidate? d name.space name.wish = none) (hw : name.wish = none)
      (hd : d.default?.isSome ∧ d.default? = name.space) :
      Way enforce d inherited name n (withOwnDefault d name.space name.localPart) n
  | default (h : inherited ≠ name.space)
      (hc : candidate? d name.space name.wish = none) (hw : name.wish = none)
      (hd : ¬ (d.default?.isSome ∧ d.default? = name.space))
      (hv : vet enforce (AttValue.flaw? (name.space.getD [])) = .ok ()) :
      Way enforce d inherited name n (withDefault d name.space name.localPart) n

/-- The prefix that a tag declares is the one wished for, unless the attributes bind that. -/
theorem ends_declared {d : Declarations} {wish pre : Text} {n t : Counter} {ps : List Piece} :
    (declared d wish).Ends n ps pre t ↔
      ps = [] ∧ (d.binds wish = true ∧ pre = Counter.generated n ∧ t = n.next ∨
        d.binds wish = false ∧ pre = wish ∧ t = n) := by
  unfold declared
  by_cases hb : d.binds wish = true
  · simp [hb]
  · simp [hb]

/-- An enforced check for the prefix of declarations lets an element pass exactly when that prefix
is not wished for. -/
theorem vet_xmlnsElement {enforce : Bool} {name : Name} :
    vet enforce
        (if name.wish = some xmlnsPrefix then some (.xmlnsElement name.localPart) else none) =
      .ok () ↔ (enforce = true → name.wish ≠ some xmlnsPrefix) := by
  cases enforce
  · simp
  · by_cases h : name.wish = some xmlnsPrefix <;> simp [h]

/-- Finding how an element is written hands on nothing and ends well in one of the six ways. -/
theorem way_of_ends {enforce : Bool} {d : Declarations} {inherited : Option Text} {name : Name}
    {n t : Counter} {ps : List Piece} {r : Resolution}
    (h : (of enforce d inherited name).Ends n ps r t) :
    ps = [] ∧ Way enforce d inherited name n r t := by
  unfold of at h
  by_cases hi : inherited = name.space
  · rw [if_pos hi, Emit.ends_pure] at h
    obtain ⟨rfl, rfl, rfl⟩ := h
    exact ⟨rfl, .inPlace hi⟩
  rw [if_neg hi, Emit.ends_demand_bind, vet_xmlnsElement] at h
  obtain ⟨hx, h₂⟩ := h
  split at h₂
  next pre _ hc =>
    obtain ⟨rfl, rfl, rfl⟩ := Emit.ends_pure.1 h₂
    exact ⟨rfl, .recorded hi hx hc⟩
  next wish hc hw =>
    simp only [Emit.ends_bind, ends_declared, Emit.ends_demand, Emit.ends_pure] at h₂
    obtain ⟨_, _, _, _, ⟨rfl, hd⟩, ⟨_, _, _, _, ⟨hv, rfl, rfl⟩, ⟨rfl, rfl, rfl⟩, rfl⟩, rfl⟩ := h₂
    rcases hd with ⟨hb, rfl, rfl⟩ | ⟨hb, rfl, rfl⟩
    · exact ⟨rfl, .generated hi hx hc hw hb hv⟩
    · exact ⟨rfl, .declared hi hx hc hw hb hv⟩
  next hc hw =>
    by_cases hd : d.default?.isSome ∧ d.default? = name.space
    · rw [if_pos hd, Emit.ends_pure] at h₂
      obtain ⟨rfl, rfl, rfl⟩ := h₂
      exact ⟨rfl, .ownDefault hi hc hw hd⟩
    · rw [if_neg hd] at h₂
      rw [Emit.ends_demand_bind, Emit.ends_pure] at h₂
      obtain ⟨hv, rfl, rfl, rfl⟩ := h₂
      exact ⟨rfl, .default hi hc hw hd hv⟩

section
variable {enforce : Bool} {d : Declarations} {inherited : Option Text} {name : Name} {n t : Counter}
  {r : Resolution} {pre : Text} {b : Binding}

/-- The name is written with its own local part. -/
theorem Way.localPart (h : Way enforce d inherited name n r t) :
    r.name.localPart = name.localPart := by
  cases h <;> rfl

/-- What is recorded for the attributes and the content was found among the declarations, or the tag
adds a declaration for it. -/
theorem Way.mem_bindings (h : Way enforce d inherited name n r t) (hb : b ∈ r.prefixes.bindings) :
    b ∈ d.prefixes.bindings ∨
      r.own = some ⟨some b.pre, b.space.getD []⟩ ∧ b.space = name.space := by
  cases h with
  | inPlace | recorded | ownDefault | default => exact .inl hb
  | declared | generated =>
    rcases List.mem_append.1 hb with hb | hb
    · exact .inl hb
    · rw [List.mem_singleton] at hb
      subst hb
      exact .inr ⟨rfl, rfl⟩

/-- Resolving an element only adds to the recorded prefixes. -/
theorem Way.bindings_subset (h : Way enforce d inherited name n r t) :
    d.prefixes.bindings ⊆ r.prefixes.bindings := by
  cases h with
  | inPlace | recorded | ownDefault | default => exact fun _ hb => hb
  | declared | generated => exact fun _ hb => List.mem_append_left _ hb

/-- The writer adds a default declaration only in place of the one among the attributes. -/
theorem Way.dropsDefault (h : Way enforce d inherited name n r t) {v : Text}
    (ho : r.own = some ⟨none, v⟩) : r.dropsDefault = true := by
  cases h with
  | inPlace | recorded | ownDefault => cases ho
  | declared | generated => cases ho
  | default => rfl

/-- A prefix that is taken over is recorded for the namespace, if the one of declarations is not
insisted on. -/
theorem mem_bindings_of_candidate? {space wish : Option Text}
    (h : candidate? d space wish = some pre) (hw : wish ≠ some xmlnsPrefix) :
    ⟨space, pre⟩ ∈ d.prefixes.bindings := by
  rw [candidate?, if_neg hw] at h
  exact PrefixMap.mem_candidates_iff.1 (PrefixMap.mem_candidates_of_preferred? h)

/-- Where no prefix is taken over, none is recorded for the namespace. -/
theorem not_mem_bindings_of_candidate? {space wish : Option Text}
    (h : candidate? d space wish = none) (p : Text) : ⟨space, p⟩ ∉ d.prefixes.bindings := by
  intro hb
  rw [candidate?] at h
  split at h
  next hw =>
    rw [hw] at h
    cases h
  next =>
    have hp := PrefixMap.mem_candidates_iff.2 hb
    rw [PrefixMap.preferred?_eq_none_iff.1 h] at hp
    cases hp

/-- A name in the XML namespace always finds a prefix. -/
theorem space_ne_xmlNamespace (hx : ⟨some xmlNamespace, xmlPrefix⟩ ∈ d.prefixes.bindings)
    (hc : candidate? d name.space name.wish = none) : name.space ≠ some xmlNamespace :=
  fun hs => not_mem_bindings_of_candidate? hc xmlPrefix (hs ▸ hx)

/-- With checks enforced the prefix of an element is recorded for its namespace, except that `xml`
needs no record. -/
theorem Way.mem_bindings_of_pre (h : Way true d inherited name n r t) (hp : r.name.pre = some pre) :
    ⟨name.space, pre⟩ ∈ r.prefixes.bindings ∨
      pre = xmlPrefix ∧ name.space = some xmlNamespace := by
  cases h with
  | inPlace hi =>
    by_cases hx : inherited = some xmlNamespace
    · simp only [Resolution.inPlace, if_pos hx, Option.some.injEq] at hp
      exact .inr ⟨hp.symm, hi ▸ hx⟩
    · simp [Resolution.inPlace, hx] at hp
  | recorded _ hx hc =>
    cases hp
    exact .inl (mem_bindings_of_candidate? hc (hx rfl))
  | declared | generated =>
    cases hp
    exact .inl (PrefixMap.mem_bindings_add _ _ _)
  | ownDefault | default => cases hp

end

end Resolution

end XmlWriter
