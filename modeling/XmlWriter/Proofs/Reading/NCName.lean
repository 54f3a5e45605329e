import XmlWriter.Proofs.Text.Decoding

/-!
# Which local parts pass

A local part passes if it is an NCName, that is, a `Name` of the grammar without a colon. Where a
text is no `Name`, the fault that is found is its first one (`NameFault.among_eq_some_iff`): what
stands before it is a `Name` or empty, and with the character at fault it is none. A character is a
whole code point, since a text that is cut between code points is read as its parts are
(`Text.IsReading.of_append`). Main statement: `LocalPart.flaw_of_reading`.
-/

open scoped Computability

namespace XmlWriter

/-! ## NCNames -/

namespace Production

variable {n : ℕ} {w : List ℕ}

/-- `NCName`: a `Name` without a colon. -/
def ncName : Language ℕ := name - (one char)∗ * literal ":" * (one char)∗

/-- What may stand in a name may stand in a document. -/
theorem mem_char_of_nameChar (h : n ∈ nameChar) : n ∈ char := by
  simp only [nameChar, nameStartChar, nameRestChar, char, Set.mem_union, Set.mem_Icc,
    Set.mem_insert_iff, Set.mem_singleton_iff] at h ⊢
  omega

/-- The code points of a name are characters that are allowed. -/
theorem mem_char_of_mem_name (h : w ∈ name) : ∀ n ∈ w, n ∈ char := by
  obtain ⟨_, ⟨first, hs, rfl⟩, rest, hr, rfl⟩ := Language.mem_mul.1 h
  rw [List.singleton_append, List.forall_mem_cons]
  exact ⟨mem_char_of_nameChar (.inl hs),
    fun n hn => mem_char_of_nameChar (mem_kstar_one_iff.1 hr n hn)⟩

/-- The NCNames are the names in which no colon stands. -/
theorem mem_ncName_iff : w ∈ ncName ↔ w ∈ name ∧ 0x3A ∉ w := by
  rw [ncName, Language.mem_sub]
  refine and_congr_right fun hw => not_congr ?_
  simp only [Language.mem_mul, mem_kstar_one_iff]
  constructor
  · rintro ⟨_, ⟨a, -, _, rfl, rfl⟩, b, -, rfl⟩
    exact List.mem_append_left _ (List.mem_append_right _ (.head _))
  · intro hc
    obtain ⟨a, b, rfl⟩ := List.append_of_mem hc
    have hchar := mem_char_of_mem_name hw
    rw [List.forall_mem_append, List.forall_mem_cons] at hchar
    exact ⟨_, ⟨a, hchar.1, [0x3A], rfl, rfl⟩, b, hchar.2.2, by simp⟩

end Production

/-! ## Texts cut between code points -/

namespace Text

section
variable {t : Text} {cs ds : List Nat} {n : Nat}

/-- A text that is read as some code points and then others is made of two texts that are read so
by themselves. -/
theorem IsReading.of_append (h : t.IsReading (cs ++ ds)) :
    ∃ u w, t = u ++ w ∧ u.IsReading cs ∧ w.IsReading ds := by
  obtain ⟨rfl, hle, hc⟩ := h
  rw [List.forall_mem_append] at hle
  rw [List.isChain_append] at hc
  exact ⟨_, _, List.flatMap_append, ⟨rfl, hle.1, hc.1⟩, ⟨rfl, hle.2, hc.2.1⟩⟩

/-- The text of one code point is what writes it. -/
theorem IsReading.eq_ofCodePoint (h : t.IsReading [n]) : t = ofCodePoint n := by
  rw [← h.flatMap_eq, List.flatMap_singleton]

/-- Only the empty text is read as no code points. -/
theorem IsReading.eq_nil_iff (h : t.IsReading cs) : t = [] ↔ cs = [] := by
  rw [← h.flatMap_eq, List.flatMap_eq_nil_iff]
  constructor
  · intro ht
    exact List.eq_nil_iff_forall_not_mem.2 fun n hn => ofCodePoint_ne_nil n (ht n hn)
  · rintro rfl
    simp

end

/-- A colon is a code point of its own. -/
theorem mem_codePoints_colon_iff {t : Text} : 0x3A ∈ t.codePoints ↔ unit ':' ∈ t := by
  constructor
  · intro h
    have hm := List.mem_flatMap.2 ⟨0x3A, h, show unit ':' ∈ ofCodePoint 0x3A by decide⟩
    rwa [flatMap_ofCodePoint_codePoints] at hm
  · intro h
    exact toNat_mem_codePoints h (by decide) (by decide)

end Text

/-- A text is an NCName exactly if its code points match the production. -/
theorem Production.mem_ncName_iff_isNCName {t : Text} : t.codePoints ∈ ncName ↔ IsNCName t := by
  rw [mem_ncName_iff, mem_name_iff, Text.mem_codePoints_colon_iff, and_comm]
  rfl

/-! ## The first fault -/

/-- The fault among code points is the first one: what stands before it is a `Name` or empty, and
with it that is no `Name`. -/
theorem NameFault.exists_of_among {cs : List Nat} {fault : NameFault} (hne : cs ≠ [])
    (h : among cs = some fault) :
    ∃ before n after, cs = before ++ n :: after ∧ fault = ⟨Text.ofCodePoint n, before.isEmpty⟩ ∧
      (before = [] ∨ before ∈ Production.name) ∧ before ++ [n] ∉ Production.name := by
  obtain ⟨first, rest, rfl⟩ := List.exists_cons_of_ne_nil hne
  simp only [Production.mem_name_iff_among, among_eq_none_iff]
  rw [among] at h
  split at h
  next hs =>
    obtain ⟨n, hf, rfl⟩ := Option.map_eq_some_iff.1 h
    obtain ⟨hn, between, after, rfl, hb⟩ := List.find?_eq_some_iff_append.1 hf
    refine ⟨first :: between, n, after, rfl, rfl, .inr ⟨first, between, rfl, hs, by simpa using hb⟩,
      ?_⟩
    rintro ⟨_, _, he, -, hr⟩
    obtain ⟨-, rfl⟩ := List.cons.inj he
    have hc := hr n (by simp)
    simp [hc] at hn
  next hs =>
    cases h
    refine ⟨[], first, rest, rfl, rfl, .inl rfl, ?_⟩
    rintro ⟨_, _, he, hc, -⟩
    obtain ⟨rfl, -⟩ := List.cons.inj he
    exact hs hc

/-! ## The check -/

namespace LocalPart

/-- A colon is looked for first, and whatever else is wrong with a local part is one kind of
flaw. -/
theorem map_kind_flaw? (role : NameRole) (t : Text) :
    (flaw? role t).map Flaw.kind =
      if Text.unit ':' ∈ t then some .colonInLocalName
      else if NameFault.find? t = none then none
      else some .invalidName := by
  simp only [flaw?, Text.contains_singleton]
  split
  · rfl
  · cases NameFault.find? t with
    | none => rfl
    | some fault =>
      rw [Option.map_some, Option.map_some, if_neg (Option.some_ne_none fault)]
      split
      · rfl
      · split <;> rfl

/-- Every text is read as one list of code points. No fault is found in it exactly if they match
`Name`. A fault of a text that is not empty stands between two other texts and is a whole code
point, no surrogate pair being cut in two; the text before it is empty, which is when the fault is a
leading one, or a `Name`, and with the character at fault it is no `Name`. A local part, of an
element or of an attribute, passes exactly if it is an NCName, and else it is refused for a colon
exactly if there is one in it. -/
theorem flaw_of_reading (role : NameRole) (t : Text) :
    ∃ cs, (∀ cs', t.IsReading cs' ↔ cs' = cs) ∧
      (NameFault.find? t = none ↔ cs ∈ Production.name) ∧
      (t ≠ [] → ∀ fault, NameFault.find? t = some fault →
        ∃ (u w : Text) (before : List Nat) (n : Nat) (after : List Nat),
          t = u ++ fault.char ++ w ∧ cs = before ++ n :: after ∧
          u.IsReading before ∧ fault.char.IsReading [n] ∧ w.IsReading after ∧
          (u = [] ∨ before ∈ Production.name) ∧
          (u ++ fault.char).IsReading (before ++ [n]) ∧ before ++ [n] ∉ Production.name ∧
          (fault.leading = true ↔ u = [])) ∧
      (flaw? role t = none ↔ cs ∈ Production.ncName) ∧
      ((flaw? role t).map Flaw.kind = some .colonInLocalName ↔ Text.unit ':' ∈ t) ∧
      ((flaw? role t).map Flaw.kind = some .invalidName ↔
        cs ∉ Production.ncName ∧ Text.unit ':' ∉ t) := by
  refine ⟨t.codePoints, fun _ => Text.isReading_iff, Production.mem_name_iff.symm, ?_,
    isNCName_iff.trans Production.mem_ncName_iff_isNCName.symm, ?_, ?_⟩
  · intro hne fault hf
    have ht := Text.isReading_codePoints t
    obtain ⟨before, n, after, he, rfl, hb, hn⟩ :=
      NameFault.exists_of_among (mt ht.eq_nil_iff.2 hne) hf
    rw [he, List.append_cons] at ht
    obtain ⟨s, w, rfl, hs, hw⟩ := ht.of_append
    obtain ⟨u, c, rfl, hu, hc⟩ := hs.of_append
    obtain rfl := hc.eq_ofCodePoint
    refine ⟨u, w, before, n, after, rfl, he, hu, hc, hw, hb.imp_left hu.eq_nil_iff.2, hs, hn, ?_⟩
    rw [List.isEmpty_iff, hu.eq_nil_iff]
  · rw [map_kind_flaw?]
    split_ifs with h <;> simp [h]
  · rw [map_kind_flaw?, Production.mem_ncName_iff_isNCName, IsNCName]
    split_ifs with h hf
    · simp [h]
    · simp [h, hf]
    · simp [h, hf]

/-- A surrogate pair counts as one character, and a lone surrogate after it is at fault. -/
theorem flaw_of_reading_loneSurrogate :
    let pair : Text := [0xD83D, 0xDE00]
    let t : Text := Text.unit 'a' :: pair ++ [0xD83D] ++ Text.ofString ":b"
    t ≠ [] ∧ NameFault.find? t = some ⟨[0xD83D], false⟩ ∧
      ∃ (u w : Text) (before : List Nat) (n : Nat) (after : List Nat),
        t = u ++ [0xD83D] ++ w ∧ u.IsReading before ∧ Text.IsReading [0xD83D] [n] ∧
          w.IsReading after ∧ before ∈ Production.name ∧ before ++ [n] ∉ Production.name := by
  intro pair t
  have hne : t ≠ [] := List.cons_ne_nil _ _
  have hf : NameFault.find? t = some ⟨[0xD83D], false⟩ := by decide
  obtain ⟨cs, -, -, hfault, -⟩ := flaw_of_reading .element t
  obtain ⟨u, w, before, n, after, ht, -, hu, hn, hw, hb, -, hbn, hl⟩ := hfault hne _ hf
  -- the fault is not at the beginning
  have hu' : u ≠ [] := fun h => Bool.false_ne_true (hl.2 h)
  exact ⟨hne, hf, u, w, before, n, after, ht, hu, hn, hw, hb.resolve_left hu', hbn⟩

end LocalPart

end XmlWriter
