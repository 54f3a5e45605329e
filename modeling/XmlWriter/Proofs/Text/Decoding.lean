import Mathlib.Data.Nat.Digits.Defs
import XmlWriter.Content.Legal
import XmlWriter.Proofs.Reading.Production
import XmlWriter.Proofs.Text.Border

/-!
# The code points of a text and the first illegal one

The code points of a text are told from the text alone: written one after the other they give the
text, and no surrogate pair is cut in two between neighbours (`Text.IsReading`). There is one such
list for every text, and it is the one that the checks look at (`Text.isReading_iff`). Main
statement: the check for illegal characters agrees with the class of `Char`, which is that of the
grammar, on the code points of every text, and its message names the first one outside
(`CharClass.first_illegal_of_reading`).
-/

namespace XmlWriter

namespace Text

/-! ## Code points -/

/-- The code points that a text is made of: written one after the other they give the text, and
between neighbours no surrogate pair is cut in two. -/
structure IsReading (t : Text) (cs : List Nat) : Prop where
  flatMap_eq : cs.flatMap ofCodePoint = t
  le : ∀ n ∈ cs, n ≤ 0x10FFFF
  isChain : cs.IsChain fun m n => ¬ Cuts (ofCodePoint m) (ofCodePoint n)

section
variable {t : Text} {cs : List Nat} {m n : Nat} {u v : UInt16}

/-- Every code point takes at least one unit. -/
theorem ofCodePoint_ne_nil (n : Nat) : ofCodePoint n ≠ [] := by
  unfold ofCodePoint
  split <;> exact List.cons_ne_nil _ _

/-- A code point is read back from the units that write it. -/
theorem codePoints_ofCodePoint (h : n ≤ 0x10FFFF) : codePoints (ofCodePoint n) = [n] := by
  have hsize : UInt16.size = 0x10000 := rfl
  rw [ofCodePoint]
  split
  next hb =>
    have hn : (UInt16.ofNat n).toNat = n := UInt16.toNat_ofNat_of_lt' (by omega)
    rw [codePoints, hn]
  next hb =>
    have hhi : (UInt16.ofNat (0xD800 + (n - 0x10000) / 0x400)).toNat =
        0xD800 + (n - 0x10000) / 0x400 := UInt16.toNat_ofNat_of_lt' (by omega)
    have hlo : (UInt16.ofNat (0xDC00 + (n - 0x10000) % 0x400)).toNat =
        0xDC00 + (n - 0x10000) % 0x400 := UInt16.toNat_ofNat_of_lt' (by omega)
    rw [codePoints_cons_of_pair, codePoints, List.cons.injEq, and_iff_left rfl]
    · unfold joined
      omega
    · simp only [isHigh, hhi, Bool.and_eq_true, decide_eq_true_eq]
      omega
    · simp only [isLow, hlo, Bool.and_eq_true, decide_eq_true_eq]
      omega

/-- A pair stands for a code point of Unicode. -/
theorem joined_le (hu : isHigh u = true) (hv : isLow v = true) : joined u v ≤ 0x10FFFF := by
  simp only [isHigh, isLow, Bool.and_eq_true, decide_eq_true_eq] at hu hv
  unfold joined
  omega

/-- A unit that stands for itself ends in the first half of a pair if it is one. -/
theorem endsHigh_ofCodePoint_toNat (u : UInt16) :
    endsHigh (ofCodePoint u.toNat) = isHigh u := by
  rw [ofCodePoint_toNat]
  rfl

/-- What follows the units of the first code point does not matter to a border before them. -/
theorem beginsLow_append (h : t ≠ []) (s : Text) : beginsLow (t ++ s) = beginsLow t := by
  obtain ⟨u, t, rfl⟩ := List.exists_cons_of_ne_nil h
  rfl

/-- The code points of a text begin with the second half of a pair if the text does. -/
theorem beginsLow_of_mem_head? (h : n ∈ t.codePoints.head?) :
    beginsLow (ofCodePoint n) = beginsLow t := by
  obtain ⟨cs, hcs⟩ := List.head?_eq_some_iff.1 h
  have ht := flatMap_ofCodePoint_codePoints t
  rw [hcs, List.flatMap_cons] at ht
  rw [← ht, beginsLow_append (ofCodePoint_ne_nil n)]

/-- Neighbours among the code points of a text are not the halves of a pair. -/
theorem isChain_codePoints (t : Text) :
    t.codePoints.IsChain fun m n => ¬ Cuts (ofCodePoint m) (ofCodePoint n) := by
  fun_induction codePoints t with
  | case1 u v rest hp ih =>
    rw [Bool.and_eq_true] at hp
    refine List.isChain_cons.2 ⟨fun n _ hc => ?_, ih⟩
    have hh := hc.1
    rw [ofCodePoint_joined hp.1 hp.2] at hh
    exact Bool.false_ne_true ((isHigh_of_isLow hp.2).symm.trans hh)
  | case2 u v rest hp ih =>
    refine List.isChain_cons.2 ⟨fun n hn hc => hp ?_, ih⟩
    have hl : isLow v = true := (beginsLow_of_mem_head? hn).symm.trans hc.2
    rw [Bool.and_eq_true]
    exact ⟨(endsHigh_ofCodePoint_toNat u).symm.trans hc.1, hl⟩
  | case3 u => exact .singleton _
  | case4 => exact .nil

/-- The code points of a text are those that it is read as. -/
theorem isReading_codePoints (t : Text) : t.IsReading t.codePoints where
  flatMap_eq := flatMap_ofCodePoint_codePoints t
  le := by
    fun_induction codePoints t with
    | case1 u v rest hp ih =>
      rw [Bool.and_eq_true] at hp
      exact List.forall_mem_cons.2 ⟨joined_le hp.1 hp.2, ih⟩
    | case2 u v rest hp ih =>
      have := u.toNat_lt
      exact List.forall_mem_cons.2 ⟨by omega, ih⟩
    | case3 u =>
      have := u.toNat_lt
      exact List.forall_mem_singleton.2 (by omega)
    | case4 => simp
  isChain := isChain_codePoints t

/-- There is no other way to read a text. -/
theorem IsReading.eq_codePoints (h : t.IsReading cs) : cs = t.codePoints := by
  obtain ⟨rfl, hle, hc⟩ := h
  induction cs with
  | nil => rfl
  | cons n cs ih =>
    rw [List.forall_mem_cons] at hle
    rw [List.isChain_cons] at hc
    have hcut : ¬ Cuts (ofCodePoint n) (cs.flatMap ofCodePoint) := by
      intro hcut
      cases cs with
      | nil => exact Bool.false_ne_true hcut.2
      | cons m cs =>
        refine hc.1 m rfl ⟨hcut.1, ?_⟩
        have hl := hcut.2
        rwa [List.flatMap_cons, beginsLow_append (ofCodePoint_ne_nil m)] at hl
    rw [List.flatMap_cons, codePoints_append hcut, codePoints_ofCodePoint hle.1, ← ih hle.2 hc.2]
    rfl

/-- A text has one reading, its code points. -/
theorem isReading_iff : t.IsReading cs ↔ cs = t.codePoints :=
  ⟨IsReading.eq_codePoints, fun h => h ▸ isReading_codePoints t⟩

end

end Text

/-! ## How a code point is shown -/

namespace Flaw

/-- The upper-case hexadecimal digit of a number below sixteen. -/
def hexDigit (d : Nat) : Char := "0123456789ABCDEF".toList.getD d '0'

/-- A hexadecimal digit put in upper case is the digit that messages show. -/
theorem toUpper_digitChar {d : Nat} (h : d < 16) : d.digitChar.toUpper = hexDigit d := by
  revert d
  decide

/-- The digits that are shown of a positive number are its digits in base sixteen. -/
theorem map_toUpper_toDigits {n : Nat} (h : 0 < n) :
    (Nat.toDigits 16 n).map Char.toUpper = (Nat.digits 16 n).reverse.map hexDigit := by
  induction n using Nat.strongRecOn with
  | ind n ih =>
    have hm : (n % 16).digitChar.toUpper = hexDigit (n % 16) :=
      toUpper_digitChar (Nat.mod_lt n (by decide))
    rw [Nat.digits_def' (by decide) h, List.reverse_cons, List.map_append]
    by_cases hn : n < 16
    · have hd : n / 16 = 0 := Nat.div_eq_of_lt hn
      rw [Nat.mod_eq_of_lt hn] at hm ⊢
      simp [Nat.toDigits_of_lt_base hn, hd, hm]
    · have hd : 0 < n / 16 := by omega
      rw [Nat.toDigits_of_base_le (by decide) (by omega), List.map_append,
        ih (n / 16) (by omega) hd, List.map_singleton, List.map_singleton, hm]

/-- A code point is shown as `U+` and its digits in base sixteen, filled up with zeros to four. -/
theorem codePointText_eq (n : Nat) :
    codePointText n = Text.ofString "U+" ++
      Text.ofChars (((Nat.digits 16 n).reverse.map hexDigit).leftpad 4 '0') := by
  rcases Nat.eq_zero_or_pos n with rfl | h
  · decide
  · rw [codePointText, map_toUpper_toDigits h]
    rfl

end Flaw

/-! ## The check -/

namespace CharClass

variable {n : Nat}

/-- An integer is in the class `Char` exactly if it is a character of the grammar. -/
theorem containsInt_char_iff {k : Int} :
    char.containsInt k = true ↔ ∃ n ∈ Production.char, (n : Int) = k := by
  cases k with
  | ofNat n =>
    rw [containsInt, ← Production.mem_char_iff]
    exact ⟨fun h => ⟨n, h, rfl⟩, fun ⟨_, h, he⟩ => Int.ofNat.inj he ▸ h⟩
  | negSucc n => exact iff_of_false Bool.false_ne_true fun ⟨_, _, he⟩ => by cases he

/-- What a text has outside a class first is a code point that has only code points of the class
before it. -/
theorem firstOutside?_eq_some_iff {c : CharClass} {t : Text} :
    c.firstOutside? t = some n ↔ ∃ before after, t.codePoints = before ++ n :: after ∧
      (∀ k ∈ before, c.contains k = true) ∧ c.contains n = false := by
  simp only [firstOutside?, List.find?_eq_some_iff_append, Bool.not_eq_true', Bool.not_not]
  constructor
  · rintro ⟨hn, before, after, he, hb⟩
    exact ⟨before, after, he, hb, hn⟩
  · rintro ⟨before, after, he, hb, hn⟩
    exact ⟨hn, before, after, he, hb⟩

/-- Every text is read as one list of code points. An enforced check for illegal characters, which
goes by a list of its own, refuses the text exactly if one of them is outside the class `Char`,
which is that of the grammar, and then the message has the digits of the first such code point and
the part that the text plays. -/
theorem first_illegal_of_reading (context t : Text) :
    (∀ k : Int, char.containsInt k = true ↔ ∃ n ∈ Production.char, (n : Int) = k) ∧
    ∃ cs, (∀ cs', t.IsReading cs' ↔ cs' = cs) ∧
      ((∃ flaw, vet true (charFlaw? context t) = .error flaw) ↔
        ∃ n ∈ cs, char.containsInt n = false) ∧
      ∀ flaw, vet true (charFlaw? context t) = .error flaw →
        ∃ (before : List Nat) (n : Nat) (after : List Nat), cs = before ++ n :: after ∧
          (∀ k ∈ before, char.containsInt k = true) ∧ char.containsInt n = false ∧
          flaw.kind = .invalidCharacter ∧
          flaw.message = Text.ofString "Invalid character U+" ++
            Text.ofChars (((Nat.digits 16 n).reverse.map Flaw.hexDigit).leftpad 4 '0') ++
            Text.ofString " in " ++ context := by
  have hrefused : ∀ flaw, vet true (charFlaw? context t) = .error flaw ↔
      ∃ n, char.firstOutside? t = some n ∧ Flaw.illegalChar n context = flaw := by
    intro flaw
    rw [← charFlaw?_eq_some_iff]
    cases charFlaw? context t <;> simp
  refine ⟨fun k => containsInt_char_iff, t.codePoints, fun cs' => Text.isReading_iff, ?_, ?_⟩
  · constructor
    · rintro ⟨flaw, hf⟩
      obtain ⟨n, hn, -⟩ := (hrefused flaw).1 hf
      obtain ⟨before, after, he, -, hc⟩ := firstOutside?_eq_some_iff.1 hn
      exact ⟨n, he ▸ List.mem_append_right _ (.head _), hc⟩
    · rintro ⟨n, hn, hc⟩
      obtain ⟨m, hm⟩ : ∃ m, char.firstOutside? t = some m := by
        refine Option.ne_none_iff_exists'.1 fun h => ?_
        exact Bool.false_ne_true (hc.symm.trans (firstOutside?_eq_none_iff.1 h n hn))
      exact ⟨_, (hrefused _).2 ⟨m, hm, rfl⟩⟩
  · intro flaw hf
    obtain ⟨n, hn, rfl⟩ := (hrefused flaw).1 hf
    obtain ⟨before, after, he, hb, hc⟩ := firstOutside?_eq_some_iff.1 hn
    refine ⟨before, n, after, he, hb, hc, rfl, ?_⟩
    have hU : Text.ofString "Invalid character U+" =
        Text.ofString "Invalid character " ++ Text.ofString "U+" := rfl
    rw [hU, Flaw.message, Flaw.codePointText_eq]
    simp only [List.append_assoc]

/-- A pair of surrogates is one code point and is legal, and a lone one after it is not. -/
example : vet true (charFlaw? (Text.ofString "text") [0xD83D, 0xDE00, 0xD83D, 0x41, 0xB]) =
    .error (.illegalChar 0xD83D (Text.ofString "text")) ∧
    Flaw.codePointText 0xB = Text.ofString "U+000B" := by decide

end CharClass

end XmlWriter
