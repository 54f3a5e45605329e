import XmlWriter.Name.LocalPart

/-!
# Reading qualified names

An NCName is a name without a colon, and a qualified name is one NCName, or two with a colon between
them. `QName.read?` reads a text so, and `QName.read?_text` says that it undoes the writing of a
qualified name. A reader finds the end of a name because no unit of it delimits anything
(`QName.IsProper.not_mem`).
-/

namespace XmlWriter

/-- Whether a text is a name without a colon. -/
def IsNCName (t : Text) : Prop := Text.unit ':' ∉ t ∧ NameFault.find? t = none

instance (t : Text) : Decidable (IsNCName t) := inferInstanceAs (Decidable (_ ∧ _))

/-- A local part passes exactly when it is an NCName. -/
theorem isNCName_iff {role : NameRole} {t : Text} : LocalPart.flaw? role t = none ↔ IsNCName t :=
  LocalPart.flaw?_eq_none_iff

namespace QName

/-- Whether a qualified name is made of NCNames. -/
def IsProper (q : QName) : Prop := (∀ p, q.pre = some p → IsNCName p) ∧ IsNCName q.localPart

/-- Reads a qualified name. -/
def read? (t : Text) : Option QName :=
  if Text.unit ':' ∈ t then
    let p := t.takeWhile fun u => u ≠ Text.unit ':'
    let l := (t.dropWhile fun u => u ≠ Text.unit ':').tail
    if IsNCName p ∧ IsNCName l then some ⟨some p, l⟩ else none
  else if IsNCName t then some ⟨none, t⟩
  else none

/-- What stands before the first colon is read as the prefix. -/
theorem read?_of_not_mem {p l : Text} (hp : Text.unit ':' ∉ p) :
    read? (p ++ Text.unit ':' :: l) =
      if IsNCName p ∧ IsNCName l then some ⟨some p, l⟩ else none := by
  have hc : ∀ u ∈ p, (decide (u ≠ Text.unit ':')) = true := by
    intro u hu
    simpa using ne_of_mem_of_not_mem hu hp
  have ht : (p ++ Text.unit ':' :: l).takeWhile (fun u => u ≠ Text.unit ':') = p := by
    rw [List.takeWhile_append_of_pos hc]
    simp
  have hd : (p ++ Text.unit ':' :: l).dropWhile (fun u => u ≠ Text.unit ':') =
      Text.unit ':' :: l := by
    rw [List.dropWhile_append_of_pos hc]
    simp
  rw [read?, if_pos (by simp), ht, hd]
  rfl

/-- A qualified name is read back as it was written. -/
theorem read?_text {q : QName} (h : q.IsProper) : read? q.text = some q := by
  obtain ⟨hp, hl⟩ := h
  rcases q with ⟨_ | p, l⟩
  · rw [text_none, read?, if_neg hl.1, if_pos hl]
  · have hp := hp p rfl
    rw [text_some, read?_of_not_mem hp.1, if_pos ⟨hp, hl⟩]

end QName

/-- Whether a text is a qualified name: an NCName, or two with a colon between them. -/
def IsQName (t : Text) : Prop := ∃ q : QName, q.IsProper ∧ q.text = t

/-- An NCName is a qualified name without a prefix. -/
theorem IsNCName.isQName {t : Text} (h : IsNCName t) : IsQName t := ⟨⟨none, t⟩, ⟨nofun, h⟩, rfl⟩

/-- Two NCNames with a colon between them are a qualified name. -/
theorem isQName_of_isNCName {p l : Text} (hp : IsNCName p) (hl : IsNCName l) :
    IsQName (p ++ Text.unit ':' :: l) :=
  ⟨⟨some p, l⟩, ⟨fun _ hq => Option.some.inj hq ▸ hp, hl⟩, rfl⟩

/-- A text is a qualified name exactly if it can be read as one. -/
theorem isQName_iff_read? {t : Text} : IsQName t ↔ (QName.read? t).isSome = true := by
  constructor
  · rintro ⟨q, hq, rfl⟩
    rw [QName.read?_text hq]
    rfl
  · intro h
    by_cases hc : Text.unit ':' ∈ t
    · obtain ⟨p, l, rfl, hp⟩ := List.eq_append_cons_of_mem hc
      rw [QName.read?_of_not_mem hp] at h
      split at h
      next hn => exact isQName_of_isNCName hn.1 hn.2
      next => cases h
    · rw [QName.read?, if_neg hc] at h
      split at h
      next hn => exact hn.isQName
      next => cases h

instance (t : Text) : Decidable (IsQName t) := decidable_of_iff _ isQName_iff_read?.symm

/-- A name with a prefix is a qualified name exactly if both parts are NCNames. -/
theorem isQName_prefixed_iff {p l : Text} :
    IsQName (p ++ Text.unit ':' :: l) ↔ IsNCName p ∧ IsNCName l := by
  refine ⟨fun h => ?_, fun h => isQName_of_isNCName h.1 h.2⟩
  rw [isQName_iff_read?] at h
  by_cases hc : Text.unit ':' ∈ p
  · -- the part after the first colon has another one
    obtain ⟨a, b, rfl, ha⟩ := List.eq_append_cons_of_mem hc
    rw [List.append_assoc, List.cons_append, QName.read?_of_not_mem ha] at h
    split at h
    next hn => exact absurd (by simp) hn.2.1
    next => cases h
  · rw [QName.read?_of_not_mem hc] at h
    split at h
    next hn => exact hn
    next => cases h

/-! ## Where names end -/

namespace Text

/-- A unit that is no half of a surrogate pair is one of the code points. -/
theorem toNat_mem_codePoints {t : Text} {u : UInt16} (hu : u ∈ t) (hh : isHigh u = false)
    (hl : isLow u = false) : u.toNat ∈ t.codePoints := by
  fun_induction codePoints t with
  | case1 a b rest h ih =>
    rw [Bool.and_eq_true] at h
    rcases List.mem_cons.1 hu with rfl | hu
    · rw [h.1] at hh
      cases hh
    · rcases List.mem_cons.1 hu with rfl | hu
      · rw [h.2] at hl
        cases hl
      · exact .tail _ (ih hu)
  | case2 a b rest _ ih =>
    rcases List.mem_cons.1 hu with rfl | hu
    · exact .head _
    · exact .tail _ (ih hu)
  | case3 a =>
    rw [List.mem_singleton] at hu
    exact hu ▸ .head _
  | case4 => cases hu

end Text

/-- The units that delimit names in tags: white space, and the marks that a tag is made with. -/
def delimiters : List UInt16 :=
  [' ', '\t', '\n', '\r', '<', '>', '/', '=', '!', '"', '\'', '&'].map Text.unit

/-- A unit of an NCName may stand in a name, if it is no half of a surrogate pair. -/
theorem IsNCName.contains_of_mem {t : Text} (h : IsNCName t) {u : UInt16} (hu : u ∈ t)
    (hh : Text.isHigh u = false) (hl : Text.isLow u = false) :
    CharClass.name.contains u.toNat = true := by
  obtain ⟨first, rest, he, hs, hr⟩ := NameFault.among_eq_none_iff.1 h.2
  have hm : u.toNat ∈ first :: rest := he ▸ Text.toNat_mem_codePoints hu hh hl
  rcases List.mem_cons.1 hm with hm | hm
  · exact hm ▸ CharClass.contains_name_of_nameStart hs
  · exact hr _ hm

/-- No unit of an NCName delimits anything. -/
theorem IsNCName.not_mem {t : Text} (h : IsNCName t) {u : UInt16} (hd : u ∈ delimiters) :
    u ∉ t := by
  intro hu
  have hsep : (delimiters.all fun u =>
      !Text.isHigh u && (!Text.isLow u && !CharClass.name.contains u.toNat)) = true := by decide
  have hu' := List.all_eq_true.1 hsep u hd
  simp only [Bool.and_eq_true, Bool.not_eq_true'] at hu'
  obtain ⟨hh, hl, hc⟩ := hu'
  rw [h.contains_of_mem hu hh hl] at hc
  cases hc

/-- An NCName is not empty. -/
theorem IsNCName.ne_nil {t : Text} (h : IsNCName t) : t ≠ [] := by
  rintro rfl
  exact absurd h.2 (by decide)

namespace QName

/-- No unit of a qualified name delimits anything but its parts. -/
theorem IsProper.not_mem {q : QName} (h : q.IsProper) {u : UInt16} (hd : u ∈ delimiters) :
    u ∉ q.text := by
  rcases q with ⟨_ | p, l⟩
  · exact h.2.not_mem hd
  · rw [text_some, List.mem_append, List.mem_cons]
    rintro (hu | rfl | hu)
    · exact (h.1 p rfl).not_mem hd hu
    · revert hd
      decide
    · exact h.2.not_mem hd hu

/-- A proper name is written with at least one unit. -/
theorem IsProper.text_ne_nil {q : QName} (h : q.IsProper) : q.text ≠ [] := by
  rcases q with ⟨_ | p, l⟩
  · exact h.2.ne_nil
  · simp

end QName

end XmlWriter
