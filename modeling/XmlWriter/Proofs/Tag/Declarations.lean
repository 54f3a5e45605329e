import Mathlib.Data.List.Nodup
import XmlWriter.Tag.Attributes

/-!
# Where the collected declarations come from

What `Declarations.collect` finds comes from the attributes: a new binding from a prefix declaration
(`Declarations.mem_bindings_collect`, `Declarations.mem_bound_collect`), the default namespace from
a default declaration (`Declarations.mem_of_default?`). Among attributes with different keys each
declaration has the last word on its prefix (`Declarations.valueOf?_of_mem_bound`), and there is at
most one default declaration (`Declarations.default?_of_mem`).
-/

namespace XmlWriter

/-- What is recorded is there. -/
theorem PrefixMap.mem_bindings_add (m : PrefixMap) (space : Option Text) (pre : Text) :
    ⟨space, pre⟩ ∈ (m.add space pre).bindings :=
  List.mem_append_right _ (.head _)

/-- Only `xml` is recorded from the beginning. -/
theorem PrefixMap.mem_standard_iff {space : Option Text} {pre : Text} :
    ⟨space, pre⟩ ∈ standard.bindings ↔ space = some xmlNamespace ∧ pre = xmlPrefix := by
  simp [standard, add, empty]

/-- The only prefix of a namespace is preferred whatever is wished for. -/
theorem PrefixMap.preferred?_add {m : PrefixMap} {space : Option Text}
    (h : m.candidates space = []) (pre : Text) (wish : Option Text) :
    (m.add space pre).preferred? space wish = some pre := by
  have hc : (m.add space pre).candidates space = [pre] := by simp [candidates_add, h]
  cases wish with
  | none => simp [preferred?, hc]
  | some w => by_cases hw : w = pre <;> simp [preferred?, holds, hc, hw]

namespace Attribute

/-- Whether an attribute declares the default namespace, going by what its writer means. -/
def IsDefaultDeclaration (a : Attribute) : Prop := a.isDeclaration = true ∧ a.name.wish = none

/-- Whether an attribute binds a prefix, going by what its writer means. -/
def IsPrefixDeclaration (a : Attribute) : Prop := a.isDeclaration = true ∧ a.name.wish ≠ none

/-- Whether an attribute that declares the default namespace has the name of such a declaration. -/
def DefaultNamed (a : Attribute) : Prop := a.IsDefaultDeclaration → a.name.localPart = xmlnsPrefix

instance (a : Attribute) : Decidable a.IsDefaultDeclaration :=
  inferInstanceAs (Decidable (_ ∧ _))

instance (a : Attribute) : Decidable a.IsPrefixDeclaration :=
  inferInstanceAs (Decidable (_ ∧ _))

instance (a : Attribute) : Decidable a.DefaultNamed := inferInstanceAs (Decidable (_ → _))

/-- Declarations are the attributes in their namespace. -/
theorem isDeclaration_iff {a : Attribute} :
    a.isDeclaration = true ↔ a.name.space = some xmlnsNamespace := by
  simp [isDeclaration]

/-- An attribute in another namespace is none. -/
theorem isDeclaration_eq_false {a : Attribute} {s : Text} (hs : a.name.space = some s)
    (hx : s ≠ xmlnsNamespace) : a.isDeclaration = false := by
  rw [isDeclaration, hs]
  simpa using hx

/-- An attribute that is none is in another namespace, if it is in one. -/
theorem ne_xmlnsNamespace {a : Attribute} {s : Text} (hd : a.isDeclaration = false)
    (hs : a.name.space = some s) : s ≠ xmlnsNamespace := by
  rintro rfl
  rw [isDeclaration_iff.2 hs] at hd
  cases hd

/-- Declarations of one local part have one key. -/
theorem key_of_isDeclaration {a : Attribute} (h : a.isDeclaration = true) :
    a.key = (some xmlnsNamespace, a.name.localPart) := by
  rw [key, isDeclaration_iff.1 h]

end Attribute

namespace Declarations

/-- The three things that collecting an attribute can do: note a default declaration, note a prefix
declaration that is new, or nothing. -/
theorem collectOne_cases (d : Declarations) (a : Attribute) :
    a.IsDefaultDeclaration ∧ d.collectOne a = { d with default? := some a.value } ∨
    a.IsPrefixDeclaration ∧ a.value ≠ xmlNamespace ∧
      d.collectOne a =
        { d with
          prefixes := d.prefixes.add (namespaceOf a.value) a.name.localPart
          bound := (a.name.localPart, a.value) :: d.bound } ∨
    ¬ a.IsDefaultDeclaration ∧ d.collectOne a = d := by
  unfold collectOne Attribute.IsDefaultDeclaration Attribute.IsPrefixDeclaration
  by_cases hd : a.isDeclaration = true
  · cases hw : a.name.wish with
    | none => simp [hd]
    | some w =>
      by_cases hx : a.value = xmlNamespace ∨
          d.prefixes.holds (namespaceOf a.value) a.name.localPart = true
      · simp [hd, hx]
      · rw [not_or] at hx
        simp [hd, hx.1, hx.2]
  · simp [hd]

section
variable {m : PrefixMap} {as : List Attribute} {a : Attribute} {pre v : Text}

/-- A prefix that the attributes bind anew is bound by a prefix declaration among them, and not to
the XML namespace. -/
theorem mem_bound_collect (h : (pre, v) ∈ (collect m as).bound) :
    ∃ a ∈ as, a.IsPrefixDeclaration ∧ a.value ≠ xmlNamespace ∧ a.name.localPart = pre ∧
      a.value = v := by
  suffices ∀ b ∈ (collect m as).bound, ∃ a ∈ as, a.IsPrefixDeclaration ∧
      a.value ≠ xmlNamespace ∧ a.name.localPart = b.1 ∧ a.value = b.2 from this _ h
  refine List.foldlRecOn
    (motive := fun d : Declarations => ∀ b ∈ d.bound, ∃ a ∈ as, a.IsPrefixDeclaration ∧
      a.value ≠ xmlNamespace ∧ a.name.localPart = b.1 ∧ a.value = b.2)
    as collectOne (by simp) ?_
  intro d ih a ha b hb
  rcases collectOne_cases d a with ⟨-, he⟩ | ⟨hp, hx, he⟩ | ⟨-, he⟩
  · rw [he] at hb
    exact ih b hb
  · rw [he] at hb
    rcases List.mem_cons.1 hb with rfl | hb
    · exact ⟨a, ha, hp, hx, rfl, rfl⟩
    · exact ih b hb
  · rw [he] at hb
    exact ih b hb

/-- Where the attributes bind a prefix anew, a prefix declaration among them does. -/
theorem exists_of_binds (h : (collect m as).binds pre = true) :
    ∃ a ∈ as, a.IsPrefixDeclaration ∧ a.value ≠ xmlNamespace ∧ a.name.localPart = pre := by
  obtain ⟨v, hv⟩ := Option.isSome_iff_exists.1 h
  obtain ⟨l₁, l₂, hb, -⟩ := List.lookup_eq_some_iff.1 hv
  have hm : (pre, v) ∈ (collect m as).bound := by simp [hb]
  obtain ⟨a, ha, hp, hx, hl, -⟩ := mem_bound_collect hm
  exact ⟨a, ha, hp, hx, hl⟩

/-- A recorded prefix was recorded before, or a prefix declaration among the attributes binds it
anew. -/
theorem mem_bindings_collect {b : Binding} (h : b ∈ (collect m as).prefixes.bindings) :
    b ∈ m.bindings ∨ ∃ a ∈ as, a.IsPrefixDeclaration ∧ a.value ≠ xmlNamespace ∧
      (a.name.localPart, a.value) ∈ (collect m as).bound ∧
      b = ⟨namespaceOf a.value, a.name.localPart⟩ := by
  refine List.foldlRecOn
    (motive := fun d : Declarations => ∀ b ∈ d.prefixes.bindings, b ∈ m.bindings ∨
      ∃ a ∈ as, a.IsPrefixDeclaration ∧ a.value ≠ xmlNamespace ∧
        (a.name.localPart, a.value) ∈ d.bound ∧ b = ⟨namespaceOf a.value, a.name.localPart⟩)
    as collectOne (fun _ hb => .inl hb) ?_ b h
  intro d ih a ha b hb
  rcases collectOne_cases d a with ⟨-, he⟩ | ⟨hp, hx, he⟩ | ⟨-, he⟩
  · rw [he] at hb ⊢
    exact ih b hb
  · rw [he] at hb ⊢
    rcases List.mem_append.1 hb with hb | hb
    · rcases ih b hb with hb | ⟨a', ha', hp', hx', hm, hb⟩
      · exact .inl hb
      · exact .inr ⟨a', ha', hp', hx', .tail _ hm, hb⟩
    · exact .inr ⟨a, ha, hp, hx, .head _, List.mem_singleton.1 hb⟩
  · rw [he] at hb ⊢
    exact ih b hb

/-- Collecting the declarations only adds to the recorded prefixes. -/
theorem bindings_subset_collect : m.bindings ⊆ (collect m as).prefixes.bindings :=
  fun _ hb => PrefixMap.mem_candidates_iff.1
    (candidates_subset_collect (PrefixMap.mem_candidates_iff.2 hb))

/-- After a prefix declaration the prefix is recorded for what it declares, except for the XML
namespace. -/
theorem mem_bindings_collect_of_mem (ha : a ∈ as) (hp : a.IsPrefixDeclaration)
    (hv : a.value ≠ xmlNamespace) :
    ⟨namespaceOf a.value, a.name.localPart⟩ ∈ (collect m as).prefixes.bindings := by
  obtain ⟨l₁, l₂, rfl⟩ := List.append_of_mem ha
  obtain ⟨w, hw⟩ := Option.ne_none_iff_exists'.1 hp.2
  rw [collect, List.foldl_append, List.foldl_cons]
  refine PrefixMap.mem_candidates_iff.1 (mem_candidates_foldl (PrefixMap.mem_candidates_iff.2 ?_))
  generalize l₁.foldl collectOne ⟨m, [], none⟩ = d
  by_cases hh : d.prefixes.holds (namespaceOf a.value) a.name.localPart = true
  · simpa [collectOne, hp.1, hw, hv, hh] using
      PrefixMap.mem_candidates_iff.1 (PrefixMap.holds_iff.1 hh)
  · simpa [collectOne, hp.1, hw, hv, hh] using PrefixMap.mem_bindings_add _ _ _

/-- Among attributes with different keys a binding made anew has the last word on its prefix. -/
theorem valueOf?_of_mem_bound (hk : (as.map Attribute.key).Nodup)
    (h : (pre, v) ∈ (collect m as).bound) : (collect m as).valueOf? pre = some v := by
  obtain ⟨a, ha, hp, -, rfl, rfl⟩ := mem_bound_collect h
  cases hl : (collect m as).bound.lookup a.name.localPart with
  | none =>
    have := List.lookup_eq_none_iff.1 hl _ h
    simp at this
  | some v' =>
    obtain ⟨l₁, l₂, hb, -⟩ := List.lookup_eq_some_iff.1 hl
    have hm : (a.name.localPart, v') ∈ (collect m as).bound := by simp [hb]
    obtain ⟨a', ha', hp', -, hn, rfl⟩ := mem_bound_collect hm
    have hkey : a.key = a'.key := by
      rw [Attribute.key_of_isDeclaration hp.1, Attribute.key_of_isDeclaration hp'.1, hn]
    cases List.inj_on_of_nodup_map hk ha ha' hkey
    exact hl

/-- A default namespace that was found is that of a default declaration among the attributes. -/
theorem mem_of_default? (h : (collect m as).default? = some v) :
    ∃ a ∈ as, a.IsDefaultDeclaration ∧ a.value = v := by
  refine List.foldlRecOn
    (motive := fun d : Declarations => ∀ v, d.default? = some v →
      ∃ a ∈ as, a.IsDefaultDeclaration ∧ a.value = v)
    as collectOne (by simp) ?_ v h
  intro d ih a ha v hv
  rcases collectOne_cases d a with ⟨hd, he⟩ | ⟨-, -, he⟩ | ⟨-, he⟩
  · rw [he] at hv
    exact ⟨a, ha, hd, Option.some.inj hv⟩
  · rw [he] at hv
    exact ih v hv
  · rw [he] at hv
    exact ih v hv

/-- A default declaration among the attributes does not go unnoticed. -/
theorem default?_ne_none (ha : a ∈ as) (hd : a.IsDefaultDeclaration) :
    (collect m as).default? ≠ none := by
  suffices ∀ d : Declarations, d.default? ≠ none ∨ a ∈ as →
      (as.foldl collectOne d).default? ≠ none from
    this _ (.inr ha)
  clear ha
  induction as with
  | nil => exact fun _ h => h.resolve_right (by simp)
  | cons b as ih =>
    intro d h
    refine ih _ ?_
    rcases collectOne_cases d b with ⟨-, he⟩ | ⟨hp, -, he⟩ | ⟨hn, he⟩
    · exact .inl (by rw [he]; simp)
    · rw [he]
      refine h.imp id fun h => (List.mem_cons.1 h).resolve_left ?_
      rintro rfl
      exact hp.2 hd.2
    · rw [he]
      refine h.imp id fun h => (List.mem_cons.1 h).resolve_left ?_
      rintro rfl
      exact hn hd

/-- Among attributes with different keys a default declaration is the only one, if they all have the
name of one. -/
theorem default?_of_mem (hk : (as.map Attribute.key).Nodup) (hn : ∀ a ∈ as, a.DefaultNamed)
    (ha : a ∈ as) (hd : a.IsDefaultDeclaration) : (collect m as).default? = some a.value := by
  obtain ⟨v, hv⟩ := Option.ne_none_iff_exists'.1 (default?_ne_none (m := m) ha hd)
  obtain ⟨b, hb, hbd, rfl⟩ := mem_of_default? hv
  have hkey : a.key = b.key := by
    rw [Attribute.key_of_isDeclaration hd.1, Attribute.key_of_isDeclaration hbd.1, hn a ha hd,
      hn b hb hbd]
  cases List.inj_on_of_nodup_map hk ha hb hkey
  exact hv

end

end Declarations

end XmlWriter
