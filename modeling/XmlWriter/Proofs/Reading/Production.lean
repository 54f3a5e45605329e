import Mathlib.Computability.Language
import XmlWriter.Proofs.Reading.QName
import XmlWriter.Proofs.Text.Mark

/-!
# Productions

The productions of XML 1.0 for comments, processing instructions and XML declarations, each as a
language over code points. They are put together as the grammar does it: `*` puts one after the
other, `+` is a choice, `-` leaves out and `∗` repeats. What the checks of the writer look at is
compared with them: a text is a `Name` if no fault is found in it (`Production.mem_name_iff`), and
the texts of comments are the characters without a double hyphen and without one at the end
(`Production.mem_commentText_iff`).
-/

open scoped Computability

namespace XmlWriter

namespace Production

/-! ## How productions are put together -/

/-- One code point of a set. -/
def one (s : Set ℕ) : Language ℕ := {w | ∃ n ∈ s, w = [n]}

/-- A string as it stands. -/
def literal (x : String) : Language ℕ := {(Text.ofString x).codePoints}

/-- A word of a language, or nothing. -/
def optional (l : Language ℕ) : Language ℕ := l + 1

/-- Words of a language, at least one. -/
def repeated (l : Language ℕ) : Language ℕ := l * l∗

variable {s : Set ℕ} {l m : Language ℕ} {n : ℕ} {v w : List ℕ}

/-- What follows a string is in a language exactly if both together are in the language with the
string in front. -/
theorem append_mem_literal_mul_iff {x : String} :
    (Text.ofString x).codePoints ++ w ∈ literal x * l ↔ w ∈ l := by
  rw [Language.mem_mul]
  constructor
  · rintro ⟨_, rfl, v, hv, he⟩
    exact List.append_cancel_left he ▸ hv
  · intro hw
    exact ⟨_, rfl, w, hw, rfl⟩

/-- So it is for what stands before a string. -/
theorem append_mem_mul_literal_iff {x : String} :
    w ++ (Text.ofString x).codePoints ∈ l * literal x ↔ w ∈ l := by
  rw [Language.mem_mul]
  constructor
  · rintro ⟨v, hv, _, rfl, he⟩
    exact List.append_cancel_right he ▸ hv
  · intro hw
    exact ⟨w, hw, _, rfl, rfl⟩

/-- A word of an optional part is one of the part or empty. -/
theorem mem_optional : w ∈ optional l ↔ w ∈ l ∨ w = [] := by
  rw [optional, Language.mem_add, Language.mem_one]

/-- An optional part may be left out. -/
theorem nil_mem_optional : [] ∈ optional l := mem_optional.2 (.inr rfl)

/-- A repetition is empty, or begins with one word and goes on. -/
theorem mem_kstar_iff : w ∈ l∗ ↔ w = [] ∨ ∃ a ∈ l, ∃ b ∈ l∗, a ++ b = w := by
  rw [← Language.mem_mul, ← Language.mem_one, ← Language.mem_add,
    Language.one_add_self_mul_kstar_eq_kstar]

/-- A word of a language in front of any number of them. -/
theorem append_mem_kstar (hv : v ∈ l) (hw : w ∈ l∗) : v ++ w ∈ l∗ :=
  mem_kstar_iff.2 (.inr ⟨v, hv, w, hw, rfl⟩)

/-- Code points of a set, any number of them. -/
theorem mem_kstar_one_iff : w ∈ (one s)∗ ↔ ∀ n ∈ w, n ∈ s := by
  induction w with
  | nil => simp [Language.nil_mem_kstar]
  | cons n w ih =>
    rw [List.forall_mem_cons, ← ih, mem_kstar_iff]
    constructor
    · rintro (h | ⟨_, ⟨m, hm, rfl⟩, b, hb, he⟩)
      · cases h
      · obtain ⟨rfl, rfl⟩ := List.cons.inj he
        exact ⟨hm, hb⟩
    · rintro ⟨hn, hw⟩
      exact .inr ⟨[n], ⟨n, hn, rfl⟩, w, hw, rfl⟩

/-- Code points of a set, at least one of them. -/
theorem mem_repeated_one_iff : w ∈ repeated (one s) ↔ w ≠ [] ∧ ∀ n ∈ w, n ∈ s := by
  rw [repeated, Language.mem_mul]
  constructor
  · rintro ⟨_, ⟨n, hn, rfl⟩, b, hb, rfl⟩
    rw [List.singleton_append, List.forall_mem_cons]
    exact ⟨List.cons_ne_nil _ _, hn, mem_kstar_one_iff.1 hb⟩
  · rintro ⟨hne, hw⟩
    obtain ⟨n, w, rfl⟩ := List.exists_cons_of_ne_nil hne
    rw [List.forall_mem_cons] at hw
    exact ⟨[n], ⟨n, hw.1, rfl⟩, w, mem_kstar_one_iff.2 hw.2, rfl⟩

/-- No word of a language has a certain code point. -/
def Avoids (n : ℕ) (l : Language ℕ) : Prop := ∀ w ∈ l, n ∉ w

namespace Avoids

/-- A code point outside a set is no word of one code point of the set. -/
theorem one (h : n ∉ s) : Avoids n (one s) := by
  rintro _ ⟨k, hk, rfl⟩ hn
  exact h (List.mem_singleton.1 hn ▸ hk)

/-- A literal has its own code points and no others. -/
theorem literal {x : String} (h : n ∉ (Text.ofString x).codePoints) : Avoids n (literal x) := by
  rintro _ rfl
  exact h

/-- What neither of two languages has in a word, their alternatives do not have. -/
theorem add (hl : Avoids n l) (hm : Avoids n m) : Avoids n (l + m) := fun w hw =>
  ((Language.mem_add _ _ _).1 hw).elim (hl w) (hm w)

/-- What neither of two languages has in a word is in no word of one with one of the other behind
it. -/
theorem mul (hl : Avoids n l) (hm : Avoids n m) : Avoids n (l * m) := by
  rintro _ ⟨a, ha, b, hb, rfl⟩ hn
  exact (List.mem_append.1 hn).elim (hl a ha) (hm b hb)

/-- What no word of a language has is in no sequence of them. -/
theorem kstar (hl : Avoids n l) : Avoids n l∗ := by
  intro w hw hn
  obtain ⟨parts, rfl, hp⟩ := Language.mem_kstar.1 hw
  obtain ⟨part, hpart, hn⟩ := List.mem_flatten.1 hn
  exact hl part (hp part hpart) hn

/-- An optional part adds the empty word, which has no code point. -/
theorem optional (hl : Avoids n l) : Avoids n (optional l) :=
  hl.add fun _ hw hn => List.not_mem_nil ((Language.mem_one _).1 hw ▸ hn)

/-- What no word of a language has is in no sequence of one or more. -/
theorem repeated (hl : Avoids n l) : Avoids n (repeated l) := hl.mul hl.kstar

/-- What is in no word of a language is no unit of a text that is one, halves of pairs apart. -/
theorem not_mem {u : UInt16} {t : Text} (hl : Avoids n l) (ht : t.codePoints ∈ l)
    (hu : u.toNat = n ∧ Text.isHigh u = false ∧ Text.isLow u = false) : u ∉ t := fun hm =>
  hl _ ht (hu.1 ▸ Text.toNat_mem_codePoints hm hu.2.1 hu.2.2)

end Avoids

/-! ## Characters and names -/

/-- `Char` (production 2). -/
def char : Set ℕ :=
  {0x9, 0xA, 0xD} ∪ Set.Icc 0x20 0xD7FF ∪ Set.Icc 0xE000 0xFFFD ∪ Set.Icc 0x10000 0x10FFFF

/-- The white space of `S`. -/
def spaceChar : Set ℕ := {0x20, 0x9, 0xD, 0xA}

/-- `S` (production 3). -/
def space : Language ℕ := repeated (one spaceChar)

/-- `NameStartChar` (production 4). -/
def nameStartChar : Set ℕ :=
  {0x3A, 0x5F} ∪ Set.Icc 0x41 0x5A ∪ Set.Icc 0x61 0x7A ∪ Set.Icc 0xC0 0xD6 ∪ Set.Icc 0xD8 0xF6 ∪
    Set.Icc 0xF8 0x2FF ∪ Set.Icc 0x370 0x37D ∪ Set.Icc 0x37F 0x1FFF ∪ Set.Icc 0x200C 0x200D ∪
    Set.Icc 0x2070 0x218F ∪ Set.Icc 0x2C00 0x2FEF ∪ Set.Icc 0x3001 0xD7FF ∪
    Set.Icc 0xF900 0xFDCF ∪ Set.Icc 0xFDF0 0xFFFD ∪ Set.Icc 0x10000 0xEFFFF

/-- What `NameChar` has beside `NameStartChar`. -/
def nameRestChar : Set ℕ :=
  {0x2D, 0x2E, 0xB7} ∪ Set.Icc 0x30 0x39 ∪ Set.Icc 0x300 0x36F ∪ Set.Icc 0x203F 0x2040

/-- `NameChar` (production 4a). -/
def nameChar : Set ℕ := nameStartChar ∪ nameRestChar

/-- `Name` (production 5). -/
def name : Language ℕ := one nameStartChar * (one nameChar)∗

/-- A single space is white space. -/
theorem singleton_mem_space : [0x20] ∈ space := mem_repeated_one_iff.2 (by simp [spaceChar])

/-- The production for characters is the class that checks go by. -/
theorem mem_char_iff : n ∈ char ↔ CharClass.char.contains n = true := by
  simp only [char, CharClass.contains, CharClass.char, List.any_cons, List.any_nil, Bool.or_eq_true,
    Bool.and_eq_true, decide_eq_true_eq, Bool.false_eq_true, or_false, Set.mem_union, Set.mem_Icc,
    Set.mem_insert_iff, Set.mem_singleton_iff]
  omega

/-- What the production lets a name begin with is the class that checks go by. -/
theorem mem_nameStartChar_iff : n ∈ nameStartChar ↔ CharClass.nameStart.contains n = true := by
  simp only [nameStartChar, CharClass.contains, CharClass.nameStart, List.any_cons, List.any_nil,
    Bool.or_eq_true, Bool.and_eq_true, decide_eq_true_eq, Bool.false_eq_true, or_false,
    Set.mem_union, Set.mem_Icc, Set.mem_insert_iff, Set.mem_singleton_iff]
  omega

/-- What the production lets a name go on with is the class that checks go by. -/
theorem mem_nameChar_iff : n ∈ nameChar ↔ CharClass.name.contains n = true := by
  have hrest : n ∈ nameRestChar ↔
      ([(0x2D, 0x2E), (0x30, 0x39), (0xB7, 0xB7), (0x300, 0x36F), (0x203F, 0x2040)].any fun r =>
        r.1 ≤ n && n ≤ r.2) = true := by
    simp only [nameRestChar, List.any_cons, List.any_nil, Bool.or_eq_true, Bool.and_eq_true,
      decide_eq_true_eq, Bool.false_eq_true, or_false, Set.mem_union, Set.mem_Icc,
      Set.mem_insert_iff, Set.mem_singleton_iff]
    omega
  rw [nameChar, Set.mem_union, mem_nameStartChar_iff, hrest, CharClass.contains, ← Bool.or_eq_true,
    ← List.any_append]
  rfl

/-- Code points are a `Name` exactly if there is no fault among them. -/
theorem mem_name_iff_among : w ∈ name ↔ NameFault.among w = none := by
  rw [NameFault.among_eq_none_iff, name, Language.mem_mul]
  constructor
  · rintro ⟨_, ⟨first, hs, rfl⟩, rest, hr, he⟩
    rw [mem_kstar_one_iff] at hr
    exact ⟨first, rest, he.symm, mem_nameStartChar_iff.1 hs,
      fun n hn => mem_nameChar_iff.1 (hr n hn)⟩
  · rintro ⟨first, rest, he, hs, hr⟩
    exact ⟨[first], ⟨first, mem_nameStartChar_iff.2 hs, rfl⟩, rest,
      mem_kstar_one_iff.2 fun n hn => mem_nameChar_iff.2 (hr n hn), he.symm⟩

/-- A text is a `Name` exactly if no fault is found in it. -/
theorem mem_name_iff {t : Text} : t.codePoints ∈ name ↔ NameFault.find? t = none :=
  mem_name_iff_among

/-- What may not stand in a name stands in none. -/
theorem avoids_name (h : CharClass.name.contains n = false) : Avoids n name := by
  have hn : n ∉ nameChar := by simpa [mem_nameChar_iff] using h
  exact .mul (.one fun hs => hn (.inl hs)) (.kstar (.one hn))

/-! ## Comments -/

/-- What the text of a comment is made of: a character that is no hyphen, by itself or after one. -/
def commentPart : Language ℕ := one (char \ {0x2D}) + literal "-" * one (char \ {0x2D})

/-- The text of a comment. -/
def commentText : Language ℕ := commentPart∗

/-- `Comment` (production 15). -/
def comment : Language ℕ := literal "<!--" * commentText * literal "-->"

/-- A part of a comment is a character other than a hyphen, with or without a hyphen before it. -/
theorem mem_commentPart_iff :
    w ∈ commentPart ↔ ∃ n ∈ char, n ≠ 0x2D ∧ (w = [n] ∨ w = [0x2D, n]) := by
  rw [commentPart, Language.mem_add, Language.mem_mul]
  constructor
  · rintro (⟨n, hn, rfl⟩ | ⟨_, rfl, _, ⟨n, hn, rfl⟩, rfl⟩)
    · exact ⟨n, hn.1, hn.2, .inl rfl⟩
    · exact ⟨n, hn.1, hn.2, .inr rfl⟩
  · rintro ⟨n, hn, hne, rfl | rfl⟩
    · exact .inl ⟨n, ⟨hn, hne⟩, rfl⟩
    · exact .inr ⟨_, rfl, _, ⟨n, ⟨hn, hne⟩, rfl⟩, rfl⟩

/-- A comment may be empty. -/
theorem nil_mem_commentText : [] ∈ commentText := Language.nil_mem_kstar _

/-- A character other than a hyphen may stand before the text of a comment. -/
theorem cons_mem_commentText (hn : n ∈ char) (hne : n ≠ 0x2D) (h : w ∈ commentText) :
    n :: w ∈ commentText :=
  append_mem_kstar (v := [n]) (mem_commentPart_iff.2 ⟨n, hn, hne, .inl rfl⟩) h

/-- A hyphen may stand before the text of a comment if another character is between them. -/
theorem hyphen_cons_mem_commentText (hn : n ∈ char) (hne : n ≠ 0x2D) (h : w ∈ commentText) :
    0x2D :: n :: w ∈ commentText :=
  append_mem_kstar (v := [0x2D, n]) (mem_commentPart_iff.2 ⟨n, hn, hne, .inr rfl⟩) h

/-- Any number of characters other than hyphens may stand before the text of a comment. -/
theorem append_mem_commentText (hv : ∀ n ∈ v, n ∈ char ∧ n ≠ 0x2D) (h : w ∈ commentText) :
    v ++ w ∈ commentText := by
  induction v with
  | nil => exact h
  | cons n v ih =>
    rw [List.forall_mem_cons] at hv
    exact cons_mem_commentText hv.1.1 hv.1.2 (ih hv.2)

/-- Texts of comments are built from the end, by a character that is no hyphen at a time or by one
with a hyphen before it. -/
theorem commentText_induction {P : List ℕ → Prop} (nil : P [])
    (plain : ∀ n w, n ∈ char → n ≠ 0x2D → P w → P (n :: w))
    (hyphen : ∀ n w, n ∈ char → n ≠ 0x2D → P w → P (0x2D :: n :: w)) (h : w ∈ commentText) :
    P w := by
  obtain ⟨parts, rfl, hp⟩ := Language.mem_kstar.1 h
  clear h
  induction parts with
  | nil => exact nil
  | cons part parts ih =>
    rw [List.forall_mem_cons] at hp
    obtain ⟨n, hn, hne, rfl | rfl⟩ := mem_commentPart_iff.1 hp.1
    · exact plain n _ hn hne (ih hp.2)
    · exact hyphen n _ hn hne (ih hp.2)

/-- A unit that is no hyphen is not part of a double hyphen. -/
theorem infix_cons_iff_of_ne (h : n ≠ 0x2D) :
    [0x2D, 0x2D] <:+: n :: w ↔ [0x2D, 0x2D] <:+: w := by
  rw [List.infix_cons_iff, or_iff_right fun hp => h (List.cons_prefix_cons.1 hp).1.symm]

/-- A unit that is no hyphen does not make a hyphen the last one. -/
theorem suffix_cons_iff_of_ne (h : n ≠ 0x2D) : [0x2D] <:+ n :: w ↔ [0x2D] <:+ w := by
  rw [List.suffix_cons_iff, or_iff_right fun he => h (List.cons.inj he).1.symm]

/-- The text of a comment has no double hyphen and does not end with one. -/
theorem of_mem_commentText (h : w ∈ commentText) :
    (∀ n ∈ w, n ∈ char) ∧ ¬ [0x2D, 0x2D] <:+: w ∧ ¬ [0x2D] <:+ w := by
  refine commentText_induction
    (P := fun w => (∀ n ∈ w, n ∈ char) ∧ ¬ [0x2D, 0x2D] <:+: w ∧ ¬ [0x2D] <:+ w) ?_ ?_ ?_ h
  · simp
  · rintro n w hn hne ⟨hc, hd, he⟩
    rw [List.forall_mem_cons, infix_cons_iff_of_ne hne, suffix_cons_iff_of_ne hne]
    exact ⟨⟨hn, hc⟩, hd, he⟩
  · rintro n w hn hne ⟨hc, hd, he⟩
    rw [List.forall_mem_cons, List.forall_mem_cons, List.infix_cons_iff, List.suffix_cons_iff,
      infix_cons_iff_of_ne hne, suffix_cons_iff_of_ne hne, not_or, not_or]
    exact ⟨⟨by simp [char], hn, hc⟩,
      ⟨fun hp => hne (List.cons_prefix_cons.1 (List.cons_prefix_cons.1 hp).2).1.symm, hd⟩,
      by simp, he⟩

/-- Characters without a double hyphen, and without a hyphen at the end, are the text of a comment.
-/
theorem mem_commentText_of : ∀ {w : List ℕ}, (∀ n ∈ w, n ∈ char) → ¬ [0x2D, 0x2D] <:+: w →
    ¬ [0x2D] <:+ w → w ∈ commentText
  | [], _, _, _ => nil_mem_commentText
  | n :: rest, hc, hd, he => by
    rw [List.forall_mem_cons] at hc
    by_cases hn : n = 0x2D
    · subst hn
      -- the hyphen is not the last character, and the next one is no hyphen
      cases rest with
      | nil => exact absurd (List.suffix_refl _) he
      | cons m rest =>
        rw [List.forall_mem_cons] at hc
        have hm : m ≠ 0x2D := by
          rintro rfl
          exact hd ⟨[], rest, rfl⟩
        rw [List.infix_cons_iff, infix_cons_iff_of_ne hm, not_or] at hd
        rw [List.suffix_cons_iff, suffix_cons_iff_of_ne hm, not_or] at he
        exact hyphen_cons_mem_commentText hc.2.1 hm (mem_commentText_of hc.2.2 hd.2 he.2)
    · rw [infix_cons_iff_of_ne hn] at hd
      rw [suffix_cons_iff_of_ne hn] at he
      exact cons_mem_commentText hc.1 hn (mem_commentText_of hc.2 hd he)

/-- The texts of comments are the characters without a double hyphen and without one at the end. -/
theorem mem_commentText_iff :
    w ∈ commentText ↔ (∀ n ∈ w, n ∈ char) ∧ ¬ [0x2D, 0x2D] <:+: w ∧ ¬ [0x2D] <:+ w :=
  ⟨of_mem_commentText, fun h => mem_commentText_of h.1 h.2.1 h.2.2⟩

/-! ## Processing instructions -/

/-- `xml` in any case, which no target may be. -/
def reserved : Language ℕ := one {0x58, 0x78} * one {0x4D, 0x6D} * one {0x4C, 0x6C}

/-- `PITarget` (production 17). -/
def target : Language ℕ := name - reserved

/-- Characters that do not end the instruction. -/
def instructionText : Language ℕ := (one char)∗ - (one char)∗ * literal "?>" * (one char)∗

/-- What stands after the target: white space and the data. -/
def instructionData : Language ℕ := space * instructionText

/-- What stands between the marks of an instruction that has its target in a language. -/
def instructionBody (targets : Language ℕ) : Language ℕ := targets * optional instructionData

/-- An instruction that has its target in a language. -/
def instructionOf (targets : Language ℕ) : Language ℕ :=
  literal "<?" * instructionBody targets * literal "?>"

/-- `PI` (production 16). -/
def instruction : Language ℕ := instructionOf target

/-- The text of an instruction is made of characters and does not hold the mark that ends one. -/
theorem mem_instructionText_iff :
    w ∈ instructionText ↔ (∀ n ∈ w, n ∈ char) ∧ ¬ [0x3F, 0x3E] <:+: w := by
  rw [instructionText, Language.mem_sub, mem_kstar_one_iff]
  refine and_congr_right fun hw => not_congr ?_
  simp only [Language.mem_mul, mem_kstar_one_iff]
  constructor
  · rintro ⟨_, ⟨a, ha, _, rfl, rfl⟩, b, hb, rfl⟩
    exact List.infix_append _ _ _
  · rintro ⟨a, b, rfl⟩
    simp only [List.forall_mem_append] at hw
    exact ⟨_, ⟨a, hw.1.1, _, rfl, rfl⟩, b, hw.2, rfl⟩

/-- A space is not part of the end mark, so that the text may be cut there. -/
theorem append_cons_mem_instructionText_iff :
    v ++ 0x20 :: w ∈ instructionText ↔ v ∈ instructionText ∧ w ∈ instructionText := by
  have hchar : 0x20 ∈ char := by simp [char]
  simp only [mem_instructionText_iff, List.forall_mem_append, List.forall_mem_cons, hchar, true_and,
    infix_append_cons_iff (show 0x20 ∉ [0x3F, 0x3E] by decide), not_or]
  exact and_and_and_comm

/-- What stands in front of a space and data, and makes data with them, is white space and data
itself, unless it is empty. -/
theorem append_cons_mem_instructionData_iff (hw : w ∈ instructionText) :
    v ++ 0x20 :: w ∈ instructionData ↔ v ∈ optional instructionData := by
  rw [mem_optional]
  simp only [instructionData, space, Language.mem_mul]
  constructor
  · rintro ⟨s, hs, d, hd, he⟩
    rcases List.append_eq_append_iff.1 he with ⟨z, rfl, rfl⟩ | ⟨z, rfl, -⟩
    · exact .inl ⟨s, hs, z, (append_cons_mem_instructionText_iff.1 hd).1, rfl⟩
    · by_cases hv : v = []
      · exact .inr hv
      · refine .inl ⟨v, ?_, [], mem_instructionText_iff.2 (by simp), List.append_nil v⟩
        rw [mem_repeated_one_iff, List.forall_mem_append] at hs
        exact mem_repeated_one_iff.2 ⟨hv, hs.2.1⟩
  · rintro (⟨s, hs, d, hd, rfl⟩ | rfl)
    · exact ⟨s, hs, _, append_cons_mem_instructionText_iff.2 ⟨hd, hw⟩,
        (List.append_assoc _ _ _).symm⟩
    · exact ⟨[0x20], singleton_mem_space, w, hw, rfl⟩

/-- If no target has a space, then a text with a space and data after it is the body of an
instruction exactly if it is one by itself. -/
theorem append_cons_mem_instructionBody_iff (hl : Avoids 0x20 l) (hw : w ∈ instructionText) :
    v ++ 0x20 :: w ∈ instructionBody l ↔ v ∈ instructionBody l := by
  simp only [instructionBody, Language.mem_mul]
  constructor
  · rintro ⟨a, ha, b, hb, he⟩
    obtain ⟨z, rfl, rfl⟩ := exists_of_append_cons_eq (hl a ha) he.symm
    rw [mem_optional, append_cons_mem_instructionData_iff hw, or_iff_left (by simp)] at hb
    exact ⟨a, ha, z, hb, rfl⟩
  · rintro ⟨a, ha, b, hb, rfl⟩
    exact ⟨a, ha, _, mem_optional.2 (.inl ((append_cons_mem_instructionData_iff hw).2 hb)),
      (List.append_assoc _ _ _).symm⟩

/-- Without white space there is only a target. -/
theorem mem_of_mem_instructionBody (h : w ∈ instructionBody l) (hw : ∀ n ∈ w, n ∉ spaceChar) :
    w ∈ l := by
  obtain ⟨a, ha, b, hb, rfl⟩ := Language.mem_mul.1 h
  rcases mem_optional.1 hb with ⟨s, hs, d, -, rfl⟩ | rfl
  · obtain ⟨hne, hs⟩ := mem_repeated_one_iff.1 hs
    obtain ⟨n, s, rfl⟩ := List.exists_cons_of_ne_nil hne
    exact absurd (hs n (.head _)) (hw n (by simp))
  · rwa [List.append_nil]

/-! ## Declarations -/

/-- `Eq` (production 25). -/
def equals : Language ℕ := optional space * literal "=" * optional space

/-- A word of a language in quotes, single or double. -/
def quoted (l : Language ℕ) : Language ℕ :=
  literal "'" * l * literal "'" + literal "\"" * l * literal "\""

/-- The name of a part of a declaration, up to its equals sign. -/
def partName (key : String) : Language ℕ := space * literal key * equals

/-- A part of a declaration: its name and its value. -/
def part (key : String) (l : Language ℕ) : Language ℕ := partName key * quoted l

/-- The digits of `[0-9]`. -/
def digit : Set ℕ := Set.Icc 0x30 0x39

/-- The letters of `[A-Za-z]`. -/
def letter : Set ℕ := Set.Icc 0x41 0x5A ∪ Set.Icc 0x61 0x7A

/-- `VersionNum` (production 26). -/
def versionNum : Language ℕ := literal "1." * repeated (one digit)

/-- `EncName` (production 81). -/
def encName : Language ℕ := one letter * (one (letter ∪ digit ∪ {0x2E, 0x5F, 0x2D}))∗

/-- The values of `SDDecl`. -/
def yesNo : Language ℕ := literal "yes" + literal "no"

/-- `XMLDecl` (production 23), with `VersionInfo` (production 24), `EncodingDecl` (production 80)
and `SDDecl` (production 32). -/
def xmlDecl : Language ℕ :=
  literal "<?xml" * part "version" versionNum * optional (part "encoding" encName) *
    optional (part "standalone" yesNo) * optional space * literal "?>"

end Production

end XmlWriter
