import Mathlib.Data.List.Chain
import XmlWriter.Text.Utf8

/-!
# Borders between encoded texts

UTF-8 encodes code points, and a code point beyond the basic plane is written in two units. Where a
border between two texts falls between these units, each of them is encoded as a lone surrogate
(`Text.length_utf8_append`), and everywhere else the bytes of the two are those of both together
(`Text.utf8_append`). Empty texts make no border. Main statement: texts that are encoded one by one
give the bytes of their concatenation exactly if no pair is cut in two
(`Text.flatMap_utf8_eq_iff`).
-/

namespace XmlWriter

namespace Text

/-- Whether a text ends with the first half of a surrogate pair. -/
def endsHigh (t : Text) : Bool := t.getLast?.any isHigh

/-- Whether a text begins with the second half of a surrogate pair. -/
def beginsLow (t : Text) : Bool := t.head?.any isLow

/-- The border between two texts cuts a surrogate pair in two. -/
def Cuts (s t : Text) : Prop := s.endsHigh = true ∧ t.beginsLow = true

instance (s t : Text) : Decidable (Cuts s t) := inferInstanceAs (Decidable (_ ∧ _))

/-- No surrogate pair is cut in two between texts that follow each other, the empty ones apart. -/
def Uncut (ts : List Text) : Prop := (ts.filter (· ≠ [])).IsChain fun s t => ¬ Cuts s t

instance (ts : List Text) : Decidable (Uncut ts) := inferInstanceAs (Decidable (List.IsChain _ _))

section
variable {s t : Text} {u v : UInt16}

/-- The first half of a pair is not a second half. -/
theorem isLow_of_isHigh (h : isHigh u = true) : isLow u = false := by
  simp only [isHigh, isLow, Bool.and_eq_true, Bool.and_eq_false_iff, decide_eq_true_eq,
    decide_eq_false_iff_not] at h ⊢
  omega

/-- The second half of a pair is not a first half. -/
theorem isHigh_of_isLow (h : isLow u = true) : isHigh u = false :=
  Bool.eq_false_iff.2 fun hu => Bool.eq_false_iff.1 (isLow_of_isHigh hu) h

/-! ## Two texts -/

/-- What stands before the last unit makes no difference to a border. -/
theorem Cuts.cons (h : Cuts s t) (u : UInt16) : Cuts (u :: s) t := by
  refine ⟨?_, h.2⟩
  cases s with
  | nil => exact absurd h.1 (by simp [endsHigh])
  | cons v s =>
    rw [endsHigh, List.getLast?_cons_cons]
    exact h.1

/-- The border of two texts that cuts a pair is one between a high and a low surrogate. -/
theorem Cuts.exists_units (h : Cuts s t) :
    ∃ s' u v t', s = s' ++ [u] ∧ t = v :: t' ∧ isHigh u = true ∧ isLow v = true := by
  obtain ⟨u, hu, hh⟩ := (Option.any_eq_true _ _).1 h.1
  obtain ⟨v, hv, hl⟩ := (Option.any_eq_true _ _).1 h.2
  obtain ⟨s', rfl⟩ := List.getLast?_eq_some_iff.1 hu
  obtain ⟨t', rfl⟩ := List.head?_eq_some_iff.1 hv
  exact ⟨s', u, v, t', rfl, rfl, hh, hl⟩

/-- Where no pair is cut in two, the code points of two texts are those of both together. -/
theorem codePoints_append (h : ¬ Cuts s t) :
    codePoints (s ++ t) = codePoints s ++ codePoints t := by
  fun_induction codePoints s with
  | case1 u v rest hp ih =>
    rw [Bool.and_eq_true] at hp
    have ih := ih fun hc => h ((hc.cons v).cons u)
    rw [List.cons_append, List.cons_append, codePoints_cons_of_pair hp.1 hp.2, ih, List.cons_append]
  | case2 u v rest hp ih =>
    have ih := ih fun hc => h (hc.cons u)
    rw [List.cons_append] at ih ⊢
    rw [List.cons_append, codePoints, if_neg hp, ih, List.cons_append]
  | case3 u =>
    cases t with
    | nil => rfl
    | cons v t =>
      have hp : ¬ (isHigh u && isLow v) = true := by simpa [Cuts, endsHigh, beginsLow] using h
      rw [List.singleton_append, codePoints, if_neg hp, List.singleton_append]
  | case4 => rfl

/-- Where no pair is cut in two, the bytes of two texts are those of both together. -/
theorem utf8_append (h : ¬ Cuts s t) : utf8 (s ++ t) = utf8 s ++ utf8 t := by
  rw [utf8, codePoints_append h, List.flatMap_append, utf8, utf8]

/-- A lone surrogate takes three bytes. -/
theorem length_utf8_of_isSurrogate (h : isHigh u = true ∨ isLow u = true) :
    (utf8OfCodePoint (if isSurrogate u.toNat then replacement else u.toNat)).length = 3 := by
  have hs : isSurrogate u.toNat = true := by
    simp only [isHigh, isLow, isSurrogate, Bool.and_eq_true, decide_eq_true_eq] at h ⊢
    omega
  rw [if_pos hs]
  rfl

/-- A code point beyond the basic plane, which is no surrogate, takes four bytes. -/
theorem length_utf8_of_le {n : Nat} (h : 0x10000 ≤ n) :
    (utf8OfCodePoint (if isSurrogate n then replacement else n)).length = 4 := by
  have hs : isSurrogate n = false := by
    rw [isSurrogate, Bool.and_eq_false_iff, decide_eq_false_iff_not, decide_eq_false_iff_not]
    omega
  have h1 : ¬ n < 0x80 := by omega
  have h2 : ¬ n < 0x800 := by omega
  have h3 : ¬ n < 0x10000 := by omega
  simp [hs, utf8OfCodePoint, h1, h2, h3]

/-- A pair stands for a code point beyond the basic plane. -/
theorem le_joined (u v : UInt16) : 0x10000 ≤ joined u v := by
  unfold joined
  omega

/-- Two texts take two bytes more than both together if a pair is cut in two. -/
theorem length_utf8_append (s t : Text) :
    (utf8 s).length + (utf8 t).length =
      (utf8 (s ++ t)).length + if Cuts s t then 2 else 0 := by
  by_cases h : Cuts s t
  · obtain ⟨s, u, v, t, rfl, rfl, hu, hv⟩ := h.exists_units
    have hn : ∀ t, ¬ Cuts s (u :: t) := fun t hc => by
      have := hc.2
      simp [beginsLow, isLow_of_isHigh hu] at this
    have hs : codePoints (s ++ [u]) = codePoints s ++ [u.toNat] := codePoints_append (hn [])
    have ht : codePoints (v :: t) = v.toNat :: codePoints t :=
      codePoints_cons_of_not_isHigh (isHigh_of_isLow hv) t
    have hst : codePoints (s ++ [u] ++ v :: t) = codePoints s ++ joined u v :: codePoints t := by
      rw [List.append_assoc, List.singleton_append, codePoints_append (hn _),
        codePoints_cons_of_pair hu hv]
    rw [if_pos h, utf8, utf8, utf8, hs, ht, hst]
    simp only [List.flatMap_append, List.flatMap_cons, List.flatMap_nil, List.length_append,
      List.length_nil, length_utf8_of_isSurrogate (.inl hu), length_utf8_of_isSurrogate (.inr hv),
      length_utf8_of_le (le_joined u v)]
    omega
  · rw [if_neg h, utf8_append h, List.length_append, Nat.add_zero]

end

/-! ## Any number of texts -/

/-- Encoding texts one by one takes no fewer bytes than encoding them together. -/
theorem length_utf8_flatten_le (ts : List Text) :
    (utf8 ts.flatten).length ≤ (ts.flatMap utf8).length := by
  induction ts with
  | nil => exact Nat.le_refl 0
  | cons t ts ih =>
    have h := length_utf8_append t ts.flatten
    rw [List.flatten_cons, List.flatMap_cons, List.length_append]
    omega

/-- Texts of which none is empty give the bytes of their concatenation exactly if no pair is cut in
two between a text and the next. -/
theorem flatMap_utf8_eq_iff_isChain {ts : List Text} (hne : ∀ t ∈ ts, t ≠ []) :
    ts.flatMap utf8 = utf8 ts.flatten ↔ ts.IsChain fun s t => ¬ Cuts s t := by
  induction ts with
  | nil => simp
  | cons s ts ih =>
    have ih := ih fun t ht => hne t (.tail _ ht)
    -- the text after `s` begins with the next one, which is not empty
    have hcut : Cuts s ts.flatten ↔ ∃ t ∈ ts.head?, Cuts s t := by
      cases ts with
      | nil => simp [Cuts, beginsLow]
      | cons t ts =>
        obtain ⟨v, t, rfl⟩ := List.exists_cons_of_ne_nil (hne t (.tail _ (.head _)))
        simp [Cuts, beginsLow]
    have hlen := length_utf8_append s ts.flatten
    have hle := length_utf8_flatten_le ts
    rw [List.isChain_cons, List.flatMap_cons, List.flatten_cons]
    by_cases hc : Cuts s ts.flatten
    · obtain ⟨t, ht, htc⟩ := hcut.1 hc
      rw [if_pos hc] at hlen
      refine iff_of_false (fun he => ?_) fun h => h.1 t ht htc
      have := congrArg List.length he
      rw [List.length_append] at this
      omega
    · rw [utf8_append hc, List.append_cancel_left_eq, ih]
      exact (and_iff_right fun t ht htc => hc (hcut.2 ⟨t, ht, htc⟩)).symm

/-- Texts that are encoded one by one give the bytes of their concatenation exactly if no surrogate
pair is cut in two between them. -/
theorem flatMap_utf8_eq_iff (ts : List Text) : ts.flatMap utf8 = utf8 ts.flatten ↔ Uncut ts := by
  have hbytes : (ts.filter (· ≠ [])).flatMap utf8 = ts.flatMap utf8 := by
    induction ts with
    | nil => rfl
    | cons t ts ih => cases t <;> simpa using ih
  have hflat : (ts.filter (· ≠ [])).flatten = ts.flatten := List.flatten_filter_ne_nil
  rw [← hbytes, ← hflat]
  exact flatMap_utf8_eq_iff_isChain fun t ht => by simpa using (List.mem_filter.1 ht).2

/-- A pair that is cut in two is encoded as two lone surrogates, also with nothing in between. -/
example : utf8 [0xD83D] ++ utf8 [] ++ utf8 [0xDE00] = [0xEF, 0xBF, 0xBD, 0xEF, 0xBF, 0xBD] ∧
    utf8 [0xD83D, 0xDE00] = [0xF0, 0x9F, 0x98, 0x80] := by decide

end Text

end XmlWriter
