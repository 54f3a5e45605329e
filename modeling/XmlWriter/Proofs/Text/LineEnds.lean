import XmlWriter.Content.Legal
import XmlWriter.Proofs.Text.Border

/-!
# Line ends

Before it looks at anything else, a reader of a document makes every line end a line feed
(`Text.normalizeLineEnds`). It may do so in one part of the text and in the next as long as their
border is not inside a line end (`Text.normalizeLineEnds_append_of`); if it is, the carriage return
at the end of the first part is dropped (`Text.normalizeBefore`). Marks without line ends stand in
the normalized text where they stood before (`Text.infix_normalizeLineEnds_iff`), and legal
characters stay legal (`charFlaw?_normalizeLineEnds`).
-/

namespace XmlWriter

namespace Text

/-- A text with its line ends normalized: a carriage return is dropped before a line feed, and
becomes one anywhere else. -/
def normalizeLineEnds : Text → Text
  | [] => []
  | u :: rest =>
    if u = unit '\r' then
      if rest.head? = some (unit '\n') then normalizeLineEnds rest
      else unit '\n' :: normalizeLineEnds rest
    else u :: normalizeLineEnds rest

variable {s t m : Text} {u : UInt16}

@[simp] theorem normalizeLineEnds_nil : normalizeLineEnds [] = [] := rfl

/-- A unit other than a carriage return stays as it is. -/
theorem normalizeLineEnds_cons (hu : u ≠ unit '\r') (t : Text) :
    normalizeLineEnds (u :: t) = u :: normalizeLineEnds t := if_neg hu

/-- A carriage return before a line feed is no line end of its own. -/
theorem normalizeLineEnds_return_of_feed (h : t.head? = some (unit '\n')) :
    normalizeLineEnds (unit '\r' :: t) = normalizeLineEnds t := by
  rw [normalizeLineEnds, if_pos rfl, if_pos h]

/-- Any other carriage return is a line end. -/
theorem normalizeLineEnds_return (h : t.head? ≠ some (unit '\n')) :
    normalizeLineEnds (unit '\r' :: t) = unit '\n' :: normalizeLineEnds t := by
  rw [normalizeLineEnds, if_pos rfl, if_neg h]

/-! ## Parts of a text -/

/-- Two parts of a text have their line ends normalized each on its own, if no line end is cut in
two. -/
theorem normalizeLineEnds_append_of
    (h : s.getLast? = some (unit '\r') → t.head? ≠ some (unit '\n')) :
    normalizeLineEnds (s ++ t) = normalizeLineEnds s ++ normalizeLineEnds t := by
  induction s with
  | nil => rfl
  | cons u s ih =>
    have hrest : s.getLast? = some (unit '\r') → t.head? ≠ some (unit '\n') := fun hs =>
      h (by rw [List.getLast?_cons, hs]; rfl)
    by_cases hu : u = unit '\r'
    · subst hu
      have hhead : (s ++ t).head? = some (unit '\n') ↔ s.head? = some (unit '\n') := by
        cases s with
        | nil => exact iff_of_false (h rfl) nofun
        | cons v s => rfl
      rw [List.cons_append]
      by_cases hf : s.head? = some (unit '\n')
      · rw [normalizeLineEnds_return_of_feed hf, normalizeLineEnds_return_of_feed (hhead.2 hf),
          ih hrest]
      · rw [normalizeLineEnds_return hf, normalizeLineEnds_return (mt hhead.1 hf), ih hrest,
          List.cons_append]
    · rw [List.cons_append, normalizeLineEnds_cons hu, normalizeLineEnds_cons hu, ih hrest,
        List.cons_append]

/-- No carriage return is left. -/
theorem carriageReturn_not_mem_normalizeLineEnds (t : Text) :
    unit '\r' ∉ normalizeLineEnds t := by
  induction t with
  | nil => exact List.not_mem_nil
  | cons u t ih =>
    rw [normalizeLineEnds]
    by_cases hu : u = unit '\r'
    · rw [if_pos hu]
      split
      · exact ih
      · exact List.not_mem_cons_of_ne_of_not_mem (by decide) ih
    · rw [if_neg hu]
      exact List.not_mem_cons_of_ne_of_not_mem (Ne.symm hu) ih

/-- Only texts without carriage returns have their line ends normalized. -/
theorem normalizeLineEnds_eq_self_iff : normalizeLineEnds t = t ↔ unit '\r' ∉ t := by
  constructor
  · intro h
    exact h ▸ carriageReturn_not_mem_normalizeLineEnds t
  · intro h
    induction t with
    | nil => rfl
    | cons u t ih =>
      rw [List.mem_cons, not_or] at h
      rw [normalizeLineEnds_cons (Ne.symm h.1), ih h.2]

/-- Units before the first carriage return stay as they are. -/
theorem normalizeLineEnds_append (h : unit '\r' ∉ s) :
    normalizeLineEnds (s ++ t) = s ++ normalizeLineEnds t := by
  rw [normalizeLineEnds_append_of fun hs => absurd (List.mem_of_getLast? hs) h,
    normalizeLineEnds_eq_self_iff.2 h]

/-- A text with its line ends normalized where it stands before a line feed, or before something
else. -/
def normalizeBefore (feed : Bool) (t : Text) : Text :=
  normalizeLineEnds (if feed ∧ t.getLast? = some (unit '\r') then t.dropLast else t)

@[simp] theorem normalizeBefore_false (t : Text) :
    normalizeBefore false t = t.normalizeLineEnds := by
  simp [normalizeBefore]

/-- A text without carriage returns stays as it is, whatever follows. -/
theorem normalizeBefore_eq_self (feed : Bool) (h : unit '\r' ∉ t) : normalizeBefore feed t = t := by
  rw [normalizeBefore, if_neg fun hc => h (List.mem_of_getLast? hc.2),
    normalizeLineEnds_eq_self_iff.2 h]

/-- Wherever a text is cut in two, its line ends are normalized in both parts. -/
theorem normalizeLineEnds_append_eq {feed : Bool}
    (h : feed = true ↔ t.head? = some (unit '\n')) :
    normalizeLineEnds (s ++ t) = normalizeBefore feed s ++ normalizeLineEnds t := by
  unfold normalizeBefore
  split
  next hc =>
    obtain ⟨hf, hl⟩ := hc
    obtain ⟨s, rfl⟩ := List.getLast?_eq_some_iff.1 hl
    have hhead : (unit '\r' :: t).head? ≠ some (unit '\n') := by
      rw [List.head?_cons]
      decide
    rw [List.dropLast_concat, List.append_assoc, List.singleton_append,
      normalizeLineEnds_append_of fun _ => hhead, normalizeLineEnds_return_of_feed (h.1 hf)]
  next hc => exact normalizeLineEnds_append_of fun hl hh => hc ⟨h.2 hh, hl⟩

/-! ## What stays -/

/-- What a text begins with, if it has no line end in it, is what the normalized text begins with.
-/
theorem prefix_normalizeLineEnds_iff (hr : unit '\r' ∉ m) (hf : unit '\n' ∉ m) :
    m <+: normalizeLineEnds t ↔ m <+: t := by
  induction m generalizing t with
  | nil => exact iff_of_true List.nil_prefix List.nil_prefix
  | cons v m ih =>
    rw [List.mem_cons, not_or] at hr hf
    cases t with
    | nil => rfl
    | cons u t =>
      by_cases hu : u = unit '\r'
      · subst hu
        have hleft : ¬ v :: m <+: unit '\r' :: t := fun h => hr.1 (List.cons_prefix_cons.1 h).1.symm
        have hfeed : ∀ t, ¬ v :: m <+: unit '\n' :: t := fun t h =>
          hf.1 (List.cons_prefix_cons.1 h).1.symm
        refine iff_of_false ?_ hleft
        by_cases hh : t.head? = some (unit '\n')
        · obtain ⟨t, rfl⟩ := List.head?_eq_some_iff.1 hh
          rw [normalizeLineEnds_return_of_feed hh, normalizeLineEnds_cons (by decide)]
          exact hfeed _
        · rw [normalizeLineEnds_return hh]
          exact hfeed _
      · rw [normalizeLineEnds_cons hu, List.cons_prefix_cons, List.cons_prefix_cons, ih hr.2 hf.2]

/-- What stands in a text, if it has no line end in it, is what stands in the normalized text. -/
theorem infix_normalizeLineEnds_iff (hr : unit '\r' ∉ m) (hf : unit '\n' ∉ m) :
    m <:+: normalizeLineEnds t ↔ m <:+: t := by
  induction t with
  | nil => rfl
  | cons u t ih =>
    have hp := prefix_normalizeLineEnds_iff (t := u :: t) hr hf
    rw [List.infix_cons_iff, ← hp]
    by_cases hu : u = unit '\r'
    · subst hu
      by_cases hh : t.head? = some (unit '\n')
      · rw [normalizeLineEnds_return_of_feed hh, ih]
        exact ⟨.inr, fun h => h.elim (fun h => ih.1 h.isInfix) id⟩
      · rw [normalizeLineEnds_return hh, List.infix_cons_iff, ih]
    · rw [normalizeLineEnds_cons hu, List.infix_cons_iff, ih]

/-- The unit that a text ends with, if it is no line end, is the one that the normalized text ends
with. -/
theorem suffix_normalizeLineEnds_iff (hr : u ≠ unit '\r') (hf : u ≠ unit '\n') :
    [u] <:+ normalizeLineEnds t ↔ [u] <:+ t := by
  rcases List.eq_nil_or_concat t with rfl | ⟨s, v, rfl⟩
  · rfl
  · have hv : normalizeLineEnds [v] = [if v = unit '\r' then unit '\n' else v] := by
      by_cases h : v = unit '\r' <;> simp [normalizeLineEnds, h]
    have hfeed : decide (v = unit '\n') = true ↔ List.head? [v] = some (unit '\n') := by simp
    rw [List.concat_eq_append, normalizeLineEnds_append_eq hfeed, hv,
      List.singleton_suffix_append_singleton_iff, List.singleton_suffix_append_singleton_iff]
    split
    next h => exact iff_of_false hf (h ▸ hr)
    next => rfl

/-- A line end is half of no surrogate pair. -/
theorem beginsLow_normalizeLineEnds (t : Text) : (normalizeLineEnds t).beginsLow = t.beginsLow := by
  cases t with
  | nil => rfl
  | cons u t =>
    by_cases hu : u = unit '\r'
    · subst hu
      by_cases hh : t.head? = some (unit '\n')
      · obtain ⟨t, rfl⟩ := List.head?_eq_some_iff.1 hh
        rw [normalizeLineEnds_return_of_feed hh, normalizeLineEnds_cons (by decide)]
        rfl
      · rw [normalizeLineEnds_return hh]
        rfl
    · rw [normalizeLineEnds_cons hu]
      rfl

/-- One unit more adds its code point or that of a line feed, unless it begins a pair. -/
theorem mem_codePoints_normalizeLineEnds_cons {n : Nat} (hc : ¬ Cuts [u] t)
    (ih : n ∈ (normalizeLineEnds t).codePoints → n = 0xA ∨ n ∈ t.codePoints)
    (h : n ∈ (normalizeLineEnds (u :: t)).codePoints) : n = 0xA ∨ n ∈ codePoints (u :: t) := by
  have hut : codePoints (u :: t) = u.toNat :: t.codePoints := codePoints_append hc
  rw [hut, List.mem_cons]
  by_cases hu : u = unit '\r'
  · subst hu
    by_cases hh : t.head? = some (unit '\n')
    · rw [normalizeLineEnds_return_of_feed hh] at h
      exact (ih h).imp_right .inr
    · rw [normalizeLineEnds_return hh, codePoints_cons_of_not_isHigh (by decide),
        List.mem_cons] at h
      exact h.elim .inl fun h => (ih h).imp_right .inr
  · have hc' : ¬ Cuts [u] (normalizeLineEnds t) := by
      rwa [Cuts, beginsLow_normalizeLineEnds]
    have hnut : codePoints (u :: normalizeLineEnds t) =
        u.toNat :: (normalizeLineEnds t).codePoints :=
      codePoints_append hc'
    rw [normalizeLineEnds_cons hu, hnut, List.mem_cons] at h
    exact h.elim (fun h => .inr (.inl h)) fun h => (ih h).imp_right .inr

/-- The code points of a normalized text are line feeds and code points of the text. -/
theorem mem_codePoints_normalizeLineEnds {n : Nat} (h : n ∈ (normalizeLineEnds t).codePoints) :
    n = 0xA ∨ n ∈ t.codePoints := by
  fun_induction codePoints t with
  | case1 u v rest hp ih =>
    rw [Bool.and_eq_true] at hp
    have hu : u ≠ unit '\r' := by
      rintro rfl
      exact absurd hp.1 (by decide)
    have hv : v ≠ unit '\r' := by
      rintro rfl
      exact absurd hp.2 (by decide)
    rw [normalizeLineEnds_cons hu, normalizeLineEnds_cons hv,
      codePoints_cons_of_pair hp.1 hp.2, List.mem_cons] at h
    rw [List.mem_cons]
    exact h.elim (fun h => .inr (.inl h)) fun h => (ih h).imp_right .inr
  | case2 u v rest hp ih =>
    have hc : ¬ Cuts [u] (v :: rest) := by simpa [Cuts, endsHigh, beginsLow] using hp
    have hcons := mem_codePoints_normalizeLineEnds_cons hc ih h
    rwa [codePoints, if_neg hp] at hcons
  | case3 u =>
    have hc : ¬ Cuts [u] [] := fun hc => absurd hc.2 (by decide)
    exact mem_codePoints_normalizeLineEnds_cons hc .inr h
  | case4 => exact absurd h List.not_mem_nil

end Text

/-- Legal characters stay legal. -/
theorem charFlaw?_normalizeBefore {context t : Text} (feed : Bool)
    (h : charFlaw? context t = none) : charFlaw? context (t.normalizeBefore feed) = none := by
  rw [charFlaw?_eq_none_iff] at h ⊢
  have key : ∀ t : Text, (∀ n ∈ t.codePoints, CharClass.char.contains n = true) →
      ∀ n ∈ t.normalizeLineEnds.codePoints, CharClass.char.contains n = true := by
    intro t h n hn
    rcases Text.mem_codePoints_normalizeLineEnds hn with rfl | hn
    · decide
    · exact h n hn
  unfold Text.normalizeBefore
  split
  next hc =>
    -- without the carriage return at the end, all code points but that one
    obtain ⟨s, rfl⟩ := List.getLast?_eq_some_iff.1 hc.2
    have hcut : ¬ Text.Cuts s [Text.unit '\r'] := fun hcut => absurd hcut.2 (by decide)
    rw [List.dropLast_concat]
    refine key s fun n hn => h n ?_
    rw [Text.codePoints_append hcut]
    exact List.mem_append_left _ hn
  next => exact key t h

end XmlWriter
