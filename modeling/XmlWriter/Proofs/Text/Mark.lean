import Mathlib.Data.List.Infix
import XmlWriter.Proofs.Text.Border

/-!
# Marks

A mark is a short text that opens or ends a piece of markup. It stands apart from what is around it
(`Text.IsMark`), so that it may be looked for among the units of a text or among its code points
(`Text.IsMark.infix_codePoints_iff`). A reader takes the first place where it stands, which is what
`List.dropInfix?` finds. A mark that was written after a text is the first one exactly if it stands
nowhere in that text and does not begin in it either (`Text.dropInfix?_append_iff`).
-/

namespace XmlWriter

section
variable {α : Type} {m a b x y : List α} {c : α} {ls : List (List α)}

/-- A mark does not reach over what is no part of it. -/
theorem infix_append_cons_iff (hc : c ∉ m) : m <:+: x ++ c :: y ↔ m <:+: x ∨ m <:+: y := by
  constructor
  · intro h
    have hcons : ∀ {l : List α}, l ⊆ m → l <+: c :: y → l = [] := by
      intro l hl hp
      rcases List.prefix_cons_iff.1 hp with rfl | ⟨l, rfl, -⟩
      · rfl
      · exact absurd (hl (.head _)) hc
    rcases List.infix_append_iff.1 h with h | h | ⟨a, b, rfl, ha, hb⟩
    · exact .inl h
    · rcases List.infix_cons_iff.1 h with h | h
      · rw [hcons (List.Subset.refl _) h]
        exact .inl List.nil_infix
      · exact .inr h
    · rw [hcons (List.subset_append_right _ _) hb, List.append_nil]
      exact .inl ha.isInfix
  · rintro (h | h)
    · exact h.trans (List.prefix_append _ _).isInfix
    · exact h.trans ((List.suffix_cons _ _).trans (List.suffix_append _ _)).isInfix

/-- What is no part of the first half of a split stands in the second half. -/
theorem exists_of_append_cons_eq (hc : c ∉ a) (h : x ++ c :: y = a ++ b) :
    ∃ z, x = a ++ z ∧ b = z ++ c :: y := by
  rcases List.append_eq_append_iff.1 h with ⟨z, ha, hb⟩ | h
  · cases z with
    | nil => exact ⟨[], by simpa using ha.symm, hb.symm⟩
    | cons d z =>
      obtain ⟨rfl, -⟩ := List.cons.inj hb
      exact absurd (by simp) (ha ▸ hc)
  · exact h

/-- A mark that a separator is no part of stands in one of what is separated. -/
theorem infix_intercalate_iff (hc : c ∉ m) (hls : ls ≠ []) :
    m <:+: [c].intercalate ls ↔ ∃ l ∈ ls, m <:+: l := by
  induction ls with
  | nil => exact absurd rfl hls
  | cons l ls ih =>
    cases ls with
    | nil => simp
    | cons l' ls =>
      rw [List.intercalate_cons_cons, List.append_assoc, List.singleton_append,
        infix_append_cons_iff hc, ih (List.cons_ne_nil _ _)]
      simp

/-- The pieces that a list is split into have the separator in none. -/
theorem not_mem_of_mem_splitOn [BEq α] [LawfulBEq α] : ∀ l ∈ x.splitOn c, c ∉ l := by
  induction x with
  | nil => simp
  | cons u x ih =>
    rw [List.splitOn_cons_eq_if_modifyHead]
    split
    next => simpa using ih
    next hu =>
      obtain ⟨l, ls, h⟩ := List.exists_cons_of_ne_nil (List.splitOn_ne_nil c x)
      rw [h, List.forall_mem_cons] at ih
      rw [h, List.modifyHead_cons, List.forall_mem_cons, List.mem_cons, not_or]
      exact ⟨⟨fun hc => hu (beq_iff_eq.2 hc.symm), ih.1⟩, ih.2⟩

/-- What is put together with a separator is split into the same pieces exactly if the separator is
in none of them. -/
theorem splitOn_intercalate_eq_iff [BEq α] [LawfulBEq α] (hls : ls ≠ []) :
    ([c].intercalate ls).splitOn c = ls ↔ ∀ l ∈ ls, c ∉ l :=
  ⟨fun h => h ▸ not_mem_of_mem_splitOn, fun h => List.splitOn_intercalate c h hls⟩

end

namespace Text

/-- Whether a text stands apart from whatever is around it: it is not empty, and neither of its ends
can be one half of a surrogate pair. -/
def IsMark (m : Text) : Prop := m ≠ [] ∧ m.beginsLow = false ∧ m.endsHigh = false

instance (m : Text) : Decidable (IsMark m) := inferInstanceAs (Decidable (_ ∧ _))

variable {m s t : Text}

/-- No pair is cut before a text that does not begin with a second half. -/
theorem not_cuts_of_beginsLow (h : t.beginsLow = false) : ¬ Cuts s t :=
  fun hc => Bool.eq_false_iff.1 h hc.2

/-- No pair is cut behind a text that does not end with a first half. -/
theorem not_cuts_of_endsHigh (h : s.endsHigh = false) : ¬ Cuts s t :=
  fun hc => Bool.eq_false_iff.1 h hc.1

namespace IsMark

/-- A mark is read apart from the text behind it. -/
theorem codePoints_append_left (h : m.IsMark) (t : Text) :
    codePoints (m ++ t) = codePoints m ++ codePoints t :=
  Text.codePoints_append (not_cuts_of_endsHigh h.2.2)

/-- A mark is read apart from the text before it. -/
theorem codePoints_append_right (h : m.IsMark) (s : Text) :
    codePoints (s ++ m) = codePoints s ++ codePoints m :=
  Text.codePoints_append (not_cuts_of_beginsLow h.2.1)

/-- A mark is read apart from what is around it. -/
theorem codePoints_append (h : m.IsMark) (s t : Text) :
    codePoints (s ++ m ++ t) = codePoints s ++ codePoints m ++ codePoints t := by
  have hs : (s ++ m).endsHigh = m.endsHigh := by
    rw [endsHigh, List.getLast?_append_of_ne_nil s h.1, endsHigh]
  rw [Text.codePoints_append (not_cuts_of_endsHigh (hs.trans h.2.2)), h.codePoints_append_right]

/-- A mark stands in a text exactly if its code points stand among those of the text. -/
theorem infix_codePoints_iff (h : m.IsMark) : codePoints m <:+: codePoints t ↔ m <:+: t := by
  constructor
  · rintro ⟨before, after, he⟩
    have ht := congrArg (List.flatMap ofCodePoint) he
    simp only [List.flatMap_append, flatMap_ofCodePoint_codePoints] at ht
    exact ⟨_, _, ht⟩
  · rintro ⟨before, after, rfl⟩
    rw [h.codePoints_append]
    exact List.infix_append _ _ _

/-- So it is at the end of the text. -/
theorem suffix_codePoints_iff (h : m.IsMark) : codePoints m <:+ codePoints t ↔ m <:+ t := by
  constructor
  · rintro ⟨before, he⟩
    have ht := congrArg (List.flatMap ofCodePoint) he
    simp only [List.flatMap_append, flatMap_ofCodePoint_codePoints] at ht
    exact ⟨_, ht⟩
  · rintro ⟨before, rfl⟩
    rw [h.codePoints_append_right]
    exact List.suffix_append _ _

/-- A text between two marks is read apart from them. -/
theorem codePoints_wrap {o c : Text} (ho : o.IsMark) (hc : c.IsMark) (t : Text) :
    codePoints (o ++ t ++ c) = codePoints o ++ codePoints t ++ codePoints c := by
  rw [hc.codePoints_append_right, ho.codePoints_append_left]

end IsMark

/-- A mark that was written after a text is the first one exactly if it stands nowhere in that text,
and would not stand there either with all but the last unit of the mark. -/
theorem dropInfix?_append_iff (hm : m ≠ []) :
    (s ++ m ++ t).dropInfix? m = some (s, t) ↔ ¬ m <:+: s ++ m.dropLast := by
  rw [List.dropInfix?_eq_some_iff]
  constructor
  · rintro ⟨-, hfirst⟩ ⟨before, after, he⟩
    have hwhole : s ++ m ++ t = before ++ m ++ (after ++ [m.getLast hm] ++ t) := by
      conv_lhs => rw [← List.dropLast_append_getLast hm, ← List.append_assoc, ← he]
      simp only [List.append_assoc]
    have hplace := hfirst before m _ hwhole BEq.rfl
    have hlen := congrArg List.length he
    have hpos := List.length_pos_iff.2 hm
    simp only [List.length_append, List.length_dropLast] at hlen
    omega
  · intro hn
    refine ⟨⟨m, rfl, BEq.rfl⟩, fun before m' after he hb => Nat.not_lt.1 fun hlt => hn ?_⟩
    rw [beq_iff_eq] at hb
    subst hb
    -- an earlier place ends within all but the last unit of the mark
    have hwhole : before ++ m' <+: s ++ m'.dropLast ++ ([m'.getLast hm] ++ t) := by
      rw [List.append_assoc s, ← List.append_assoc m'.dropLast, List.dropLast_append_getLast hm,
        ← List.append_assoc s, he]
      exact List.prefix_append _ _
    have hpart : before ++ m' <+: s ++ m'.dropLast :=
      List.prefix_of_prefix_length_le hwhole (List.prefix_append _ _) (by
        simp only [List.length_append, List.length_dropLast]
        omega)
    exact (List.suffix_append before m').isInfix.trans hpart.isInfix

/-- With nothing after it the mark is the first and the last one. -/
theorem dropInfix?_append_self_iff (hm : m ≠ []) :
    (s ++ m).dropInfix? m = some (s, []) ↔ ¬ m <:+: s ++ m.dropLast := by
  rw [← dropInfix?_append_iff hm, List.append_nil]

/-- Units that follow a text do not complete a mark in it, if the last unit of the mark is none of
them. -/
theorem infix_of_infix_append {u : UInt16} (hu : u ∉ t) (h : m ++ [u] <:+: s ++ t) :
    m ++ [u] <:+: s := by
  rcases List.infix_append_iff.1 h with h | h | ⟨a, b, he, ha, hb⟩
  · exact h
  · exact absurd (h.subset (by simp)) hu
  · cases b using List.reverseRecOn with
    | nil =>
      rw [List.append_nil] at he
      exact he ▸ ha.isInfix
    | append_singleton b v =>
      rw [← List.append_assoc] at he
      obtain ⟨-, hv⟩ := List.append_inj' he rfl
      cases hv
      exact absurd (hb.subset (by simp)) hu

end Text

end XmlWriter
