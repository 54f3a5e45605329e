import XmlWriter.Proofs.Number.Generated
import XmlWriter.Proofs.Reading.Reader

/-!
# Declarations that give every prefix one namespace

Where the caller gives each prefix one meaning and leaves the numbered ones to the writer, no prefix
need ever be declared for a second namespace. `InForce.Settled` is what then holds of the
declarations in force, and `NsDecl.Fits` says which declarations may be added to them
(`InForce.Settled.cons`). No prefix is overridden (`InForce.Settled.not_overridden`), and no
declaration breaks a rule (`NsDecl.Fits.isLegal`).
-/

namespace XmlWriter

/-! ## Meanings of prefixes -/

/-- Whether a prefix is for the caller to use: an NCName that is not the one of declarations and
none of those that the writer makes up. -/
def IsFree (p : Text) : Prop := IsNCName p ∧ p ≠ xmlnsPrefix ∧ ∀ k : Int, p ≠ numbered k

/-- Whether a function may be what a caller means by the prefixes: `xml`, and no other prefix, means
the XML namespace, and none means no namespace or the one of declarations. -/
structure IsMeaning (f : Text → Text) : Prop where
  xml : f xmlPrefix = xmlNamespace
  eq_xmlPrefix : ∀ p, f p = xmlNamespace → p = xmlPrefix
  ne_nil : ∀ p, f p ≠ []
  ne_xmlns : ∀ p, f p ≠ xmlnsNamespace

/-! ## Declarations that settle what a prefix is for -/

/-- The prefixes that can have been declared before the one with number `k` is made up: those of the
caller and those with smaller numbers. -/
def IsKnown (k : Int) (p : Text) : Prop := IsFree p ∨ ∃ j, 1 ≤ j ∧ j < k ∧ p = numbered j

namespace IsKnown

variable {k k' : Int} {p : Text}

/-- What is known before a prefix is made up is known before a later one. -/
theorem mono (h : IsKnown k p) (hk : k ≤ k') : IsKnown k' p :=
  h.imp_right fun ⟨j, h1, hj, hp⟩ => ⟨j, h1, Int.lt_of_lt_of_le hj hk, hp⟩

/-- A known prefix is an NCName. -/
theorem isNCName (h : IsKnown k p) : IsNCName p := by
  rcases h with h | ⟨j, h1, -, rfl⟩
  · exact h.1
  · exact isNCName_numbered (by omega)

/-- The prefix of declarations is not known. -/
theorem ne_xmlnsPrefix (h : IsKnown k p) : p ≠ xmlnsPrefix := by
  rcases h with h | ⟨j, -, -, rfl⟩
  · exact h.2.1
  · exact numbered_ne_xmlnsPrefix j

end IsKnown

/-- The prefix `xml` may be used by the caller. -/
theorem isFree_xmlPrefix : IsFree xmlPrefix :=
  ⟨by decide, by decide, fun k => (numbered_ne_xmlPrefix k).symm⟩

/-- The declarations that agree with a meaning of the prefixes when the next prefix to be made up is
the one with number `k`, and the number after them. -/
inductive NsDecl.Fits (f : Text → Text) : Int → NsDecl → Int → Prop
  | default {k : Int} {v : Text} (hx : v ≠ xmlNamespace) (hd : v ≠ xmlnsNamespace) :
      Fits f k ⟨none, v⟩ k
  | meant {k : Int} {p : Text} (hp : IsFree p) (hx : p ≠ xmlPrefix) : Fits f k ⟨some p, f p⟩ k
  | made {k : Int} {v : Text} (h0 : v ≠ []) (hx : v ≠ xmlNamespace) (hd : v ≠ xmlnsNamespace) :
      Fits f k ⟨some (numbered k), v⟩ (k + 1)

/-- What is in force when every prefix has been declared for one namespace only: a prefix of the
caller for what it means, and of the others those with numbers up to `k`. -/
structure InForce.Settled (f : Text → Text) (k : Int) (s : InForce) : Prop where
  known : ∀ d ∈ s, ∀ p, d.pre = some p → IsKnown k p
  meant : ∀ d ∈ s, ∀ p, d.pre = some p → IsFree p → d.value = f p
  unique : ∀ d ∈ s, ∀ d' ∈ s, ∀ p, d.pre = some p → d'.pre = some p → d.value = d'.value

section
variable {f : Text → Text} {k k' : Int} {s : InForce} {d : NsDecl}

/-- No declaration sets the number of the next prefix back. -/
theorem NsDecl.Fits.le (h : d.Fits f k k') : k ≤ k' := by
  cases h with
  | default | meant => exact Int.le_refl k
  | made => omega

/-- A declaration that makes up no prefix is not for a numbered one. -/
theorem NsDecl.Fits.pre_ne_numbered (h : d.Fits f k k') (hk : k' = k) (j : Int) :
    d.pre ≠ some (numbered j) := by
  cases h with
  | default => exact nofun
  | meant hp => exact fun h => hp.2.2 j (Option.some.inj h)
  | made => omega

/-- A declaration that fits is allowed. -/
theorem NsDecl.Fits.isLegal (hf : IsMeaning f) (h : d.Fits f k k') : d.IsLegal := by
  cases h with
  | default hx hd => exact ⟨hd, hx⟩
  | @meant p hp hx =>
    exact ⟨hf.ne_xmlns p, hp.2.1, hf.ne_nil p, fun h => absurd h hx, fun h => hf.eq_xmlPrefix p h⟩
  | made h0 hx hd =>
    exact ⟨hd, numbered_ne_xmlnsPrefix k, h0, fun h => absurd h (numbered_ne_xmlPrefix k),
      fun h => absurd h hx⟩

/-- Without declarations in force everything is settled. -/
theorem InForce.settled_nil : InForce.Settled f k [] := ⟨nofun, nofun, nofun⟩

/-- What is in force around the outermost tag is settled. -/
theorem InForce.settled_root (hf : IsMeaning f) (context : Option Text) :
    (root context).Settled f 1 := by
  have key : ∀ d ∈ root context, ∀ p, d.pre = some p → p = xmlPrefix ∧ d.value = xmlNamespace := by
    intro d hd p hp
    simp only [root, List.mem_cons, List.not_mem_nil, or_false] at hd
    rcases hd with rfl | rfl
    · cases hp
    · exact ⟨(Option.some.inj hp).symm, rfl⟩
  refine ⟨fun d hd p hp => .inl ?_, fun d hd p hp _ => ?_, fun d hd d' hd' p hp hp' => ?_⟩
  · rw [(key d hd p hp).1]
    exact isFree_xmlPrefix
  · rw [(key d hd p hp).2, (key d hd p hp).1, hf.xml]
  · rw [(key d hd p hp).2, (key d' hd' p hp').2]

/-- What is settled stays so when more prefixes have been made up. -/
theorem InForce.Settled.mono (hs : s.Settled f k) (hk : k ≤ k') : s.Settled f k' :=
  ⟨fun d hd p hp => (hs.known d hd p hp).mono hk, hs.meant, hs.unique⟩

/-- A declaration that fits leaves things settled. -/
theorem InForce.Settled.cons (hs : s.Settled f k) (h1 : 1 ≤ k) (h : d.Fits f k k') :
    InForce.Settled f k' (d :: s) := by
  have hk := h.le
  have known : ∀ p, d.pre = some p → IsKnown k' p := by
    rintro p hp
    cases h with
    | default => cases hp
    | meant hp' => exact Option.some.inj hp ▸ .inl hp'
    | made => exact .inr ⟨k, h1, by omega, (Option.some.inj hp).symm⟩
  have meant : ∀ p, d.pre = some p → IsFree p → d.value = f p := by
    rintro p hp hfree
    cases h with
    | default => cases hp
    | meant => exact Option.some.inj hp ▸ rfl
    | made => exact absurd (Option.some.inj hp).symm (hfree.2.2 k)
  have unique : ∀ d' ∈ s, ∀ p, d.pre = some p → d'.pre = some p → d.value = d'.value := by
    rintro d' hd' p hp hp'
    rcases hs.known d' hd' p hp' with hfree | ⟨j, hj1, hj, rfl⟩
    · rw [meant p hp hfree, hs.meant d' hd' p hp' hfree]
    · -- the number is taken, so it is not made up now
      cases h with
      | default => cases hp
      | meant hfree => exact absurd (Option.some.inj hp) (hfree.2.2 j)
      | made =>
        have := numbered_inj (Option.some.inj hp)
        omega
  refine ⟨fun d' hd' p hp => ?_, fun d' hd' p hp hfree => ?_, fun d₁ h₁ d₂ h₂ p hp₁ hp₂ => ?_⟩
  · rcases List.mem_cons.1 hd' with rfl | hd'
    · exact known p hp
    · exact (hs.known d' hd' p hp).mono hk
  · rcases List.mem_cons.1 hd' with rfl | hd'
    · exact meant p hp hfree
    · exact hs.meant d' hd' p hp hfree
  · rcases List.mem_cons.1 h₁ with rfl | hm₁ <;> rcases List.mem_cons.1 h₂ with rfl | hm₂
    · rfl
    · exact unique d₂ hm₂ p hp₁ hp₂
    · exact (unique d₁ hm₁ p hp₂ hp₁).symm
    · exact hs.unique d₁ hm₁ d₂ hm₂ p hp₁ hp₂

/-- Where things are settled no prefix is overridden. -/
theorem InForce.Settled.not_overridden (hs : s.Settled f k) {p : Text} {space : Option Text}
    (h : space ≠ some []) : ¬ s.Overridden p space := by
  rintro ⟨later, v, earlier, rfl, -, hv, hm⟩
  have he : v = space.getD [] :=
    hs.unique ⟨some p, v⟩ (by simp) ⟨some p, space.getD []⟩
      (List.mem_append_right _ (.tail _ hm)) p rfl rfl
  exact hv (he ▸ namespaceOf_getD h)

end

end XmlWriter
