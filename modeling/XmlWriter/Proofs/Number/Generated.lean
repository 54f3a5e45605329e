import XmlWriter.Number.Counter
import XmlWriter.Proofs.Reading.QName

/-!
# Prefixes that the writer makes up

As long as a counter counts exactly, the prefixes that it stands for are `ns1`, `ns2` and so on
(`Counter.generated_ofInt`). No two of them are the same (`numbered_inj`), and each is an NCName
(`isNCName_numbered`). Of a counter of any other size the prefix is an NCName unless it is so large
that an exponent with a plus sign is written (`Counter.isNCName_generated_iff`).
-/

namespace XmlWriter

/-- The prefix with a number. -/
def numbered (k : Int) : Text := Text.ofString "ns" ++ Layout.intText k

/-- Within the limit of exact counting a counter stands for the prefix with its number. -/
theorem Counter.generated_ofInt {k : Int} (h : k.natAbs ≤ Binary64.exactLimit) :
    generated (Binary64.ofInt k) = numbered k := by
  rw [generated, text_ofInt h, numbered]

/-- Whatever follows, what begins with `ns` is no text that begins otherwise. -/
theorem ns_append_ne {t p : Text} (h : p.head? ≠ some (Text.unit 'n')) :
    Text.ofString "ns" ++ t ≠ p := by
  rintro rfl
  exact h rfl

/-- The prefix of the `xml` namespace is never generated. -/
theorem Counter.generated_ne_xmlPrefix (n : Counter) : generated n ≠ xmlPrefix :=
  ns_append_ne (by decide)

/-- The prefix of declarations is never generated. -/
theorem Counter.generated_ne_xmlnsPrefix (n : Counter) : generated n ≠ xmlnsPrefix :=
  ns_append_ne (by decide)

namespace Text

/-- Characters of the basic plane are one unit each. -/
theorem ofChars_eq_map {cs : List Char} (h : ∀ c ∈ cs, c.toNat < 0x10000) :
    ofChars cs = cs.map unit := by
  induction cs with
  | nil => rfl
  | cons c cs ih =>
    have hc := h c (.head _)
    rw [List.map_cons, ← ih fun d hd => h d (.tail _ hd)]
    simp [ofChars, ofCodePoint, hc, unit]

/-- A text without surrogates has its units for code points. -/
theorem codePoints_eq_map {t : Text} (h : ∀ u ∈ t, isHigh u = false) :
    t.codePoints = t.map UInt16.toNat := by
  induction t with
  | nil => rfl
  | cons u t ih =>
    rw [codePoints_cons_of_not_isHigh (h u (.head _)), ih fun v hv => h v (.tail _ hv),
      List.map_cons]

end Text

/-- The units of a digit. -/
theorem toNat_unit_of_isDigit {c : Char} (h : c.isDigit = true) :
    (Text.unit c).toNat = c.toNat ∧ 0x30 ≤ c.toNat ∧ c.toNat ≤ 0x39 := by
  have hc : 0x30 ≤ c.toNat ∧ c.toNat ≤ 0x39 := Char.isDigit_iff_toNat.1 h
  refine ⟨?_, hc⟩
  rw [Text.unit, UInt16.toNat_ofNat_of_lt']
  have : UInt16.size = 65536 := rfl
  omega

/-- The units of the decimal digits of a number. -/
theorem toNat_unit_of_mem_toDigits {n : Nat} {c : Char} (h : c ∈ Nat.toDigits 10 n) :
    (Text.unit c).toNat = c.toNat ∧ 0x30 ≤ c.toNat ∧ c.toNat ≤ 0x39 :=
  toNat_unit_of_isDigit (Nat.isDigit_of_mem_toDigits (Nat.le_of_ble_eq_true rfl)
    (Nat.le_of_ble_eq_true rfl) h)

/-- The decimal digits of a number, as units. -/
theorem digitText_eq_map (n : Nat) : Layout.digitText n = (Nat.toDigits 10 n).map Text.unit := by
  refine Text.ofChars_eq_map fun c hc => ?_
  have := (toNat_unit_of_mem_toDigits hc).2
  omega

/-- The units of the decimal digits of a number lie between those of zero and nine. -/
theorem toNat_of_mem_digitText {n : Nat} {u : UInt16} (h : u ∈ Layout.digitText n) :
    0x30 ≤ u.toNat ∧ u.toNat ≤ 0x39 := by
  rw [digitText_eq_map] at h
  obtain ⟨c, hc, rfl⟩ := List.mem_map.1 h
  obtain ⟨he, hb⟩ := toNat_unit_of_mem_toDigits hc
  rwa [he]

/-- Different numbers have different digits. -/
theorem digitText_inj {a b : Nat} (h : Layout.digitText a = Layout.digitText b) : a = b := by
  have key : ∀ n, (Layout.digitText n).map (fun u => Char.ofNat u.toNat) = Nat.toDigits 10 n := by
    intro n
    rw [digitText_eq_map, List.map_map, List.map_congr_left (g := id), List.map_id]
    intro c hc
    rw [Function.comp_apply, (toNat_unit_of_mem_toDigits hc).1, Char.ofNat_toNat]
    rfl
  rw [← Nat.ofDigitChars_ten_toDigits (n := a), ← Nat.ofDigitChars_ten_toDigits (n := b), ← key a,
    ← key b, h]

/-- A number that is not negative is written with its digits alone. -/
theorem numbered_of_nonneg {k : Int} (h : 0 ≤ k) :
    numbered k = Text.unit 'n' :: Text.unit 's' :: Layout.digitText k.natAbs := by
  rw [numbered, Layout.intText, if_neg (Int.not_lt.2 h)]
  rfl

/-- A numbered prefix begins as they all do. -/
theorem numbered_ne {k : Int} {p : Text} (h : p.head? ≠ some (Text.unit 'n')) : numbered k ≠ p :=
  ns_append_ne h

/-- No numbered prefix is that of the `xml` namespace. -/
theorem numbered_ne_xmlPrefix (k : Int) : numbered k ≠ xmlPrefix := numbered_ne (by decide)

/-- No numbered prefix is that of declarations. -/
theorem numbered_ne_xmlnsPrefix (k : Int) : numbered k ≠ xmlnsPrefix := numbered_ne (by decide)

/-- Different whole numbers have different texts. -/
theorem intText_inj {j k : Int} (h : Layout.intText j = Layout.intText k) : j = k := by
  -- the sign is no digit
  have sign : ∀ (t : Text) (n : Nat), Text.unit '-' :: t ≠ Layout.digitText n := by
    intro t n ht
    have hm : Text.unit '-' ∈ Layout.digitText n := ht ▸ List.mem_cons_self
    exact absurd (toNat_of_mem_digitText hm).1 (by decide)
  unfold Layout.intText at h
  split at h <;> split at h
  · have := digitText_inj (List.cons.inj h).2
    omega
  · exact absurd h (sign _ _)
  · exact absurd h.symm (sign _ _)
  · have := digitText_inj h
    omega

/-- No two prefixes have the same number. -/
theorem numbered_inj {j k : Int} (h : numbered j = numbered k) : j = k :=
  intText_inj (List.append_cancel_left h)

/-- A text of the basic plane is an NCName if its first unit may begin a name and no unit is a colon
or something else that a name may not contain. -/
theorem isNCName_cons {u : UInt16} {t : Text} (hu : CharClass.nameStart.contains u.toNat = true)
    (h : ∀ v ∈ u :: t, v ≠ Text.unit ':' ∧ Text.isHigh v = false ∧
      CharClass.name.contains v.toNat = true) : IsNCName (u :: t) := by
  refine ⟨fun hm => (h _ hm).1 rfl, NameFault.among_eq_none_iff.2
    ⟨_, _, Text.codePoints_eq_map fun v hv => (h v hv).2.1, hu, fun n hn => ?_⟩⟩
  obtain ⟨v, hv, rfl⟩ := List.mem_map.1 hn
  exact (h v (.tail _ hv)).2.2

/-- A digit may stand in an NCName. -/
theorem isNameUnit_of_digit {u : UInt16} (h : 0x30 ≤ u.toNat ∧ u.toNat ≤ 0x39) :
    u ≠ Text.unit ':' ∧ Text.isHigh u = false ∧ CharClass.name.contains u.toNat = true := by
  obtain ⟨h0, h9⟩ := h
  refine ⟨?_, ?_, ?_⟩
  · rintro rfl
    revert h9
    decide
  · simp only [Text.isHigh, Bool.and_eq_false_iff, decide_eq_false_iff_not]
    omega
  · exact List.any_eq_true.2 ⟨(0x30, 0x39), by decide, by simp [h0, h9]⟩

/-- A numbered prefix is an NCName. -/
theorem isNCName_numbered {k : Int} (h : 0 ≤ k) : IsNCName (numbered k) := by
  rw [numbered_of_nonneg h]
  refine isNCName_cons (by decide) fun v hv => ?_
  rcases List.mem_cons.1 hv with rfl | hv
  · decide
  rcases List.mem_cons.1 hv with rfl | hv
  · decide
  exact isNameUnit_of_digit (toNat_of_mem_digitText hv)

/-! ## Counters of any size -/

/-- Whether numbers are written with a unit: it is a digit, or one of those that signs, the point,
exponents, infinities and the undefined number need. -/
def IsOfNumber (u : UInt16) : Prop :=
  (0x30 ≤ u.toNat ∧ u.toNat ≤ 0x39) ∨ u ∈ Text.ofString "+-.eInfinityNa"

instance : DecidablePred IsOfNumber := fun _ => inferInstanceAs (Decidable (_ ∨ _))

/-- Whether a text has only what numbers are written with. -/
def IsNumeral (t : Text) : Prop := ∀ u ∈ t, IsOfNumber u

-- the search for an instance may run over all units instead of those of the text
instance : DecidablePred IsNumeral := fun t => List.decidableBAll IsOfNumber t

namespace IsNumeral

variable {u : UInt16} {t t' : Text}

theorem cons (hu : IsOfNumber u) (h : IsNumeral t) : IsNumeral (u :: t) :=
  List.forall_mem_cons.2 ⟨hu, h⟩

/-- Two numerals written one after the other use no other characters. -/
theorem append (h : IsNumeral t) (h' : IsNumeral t') : IsNumeral (t ++ t') :=
  List.forall_mem_append.2 ⟨h, h'⟩

end IsNumeral

namespace Layout

/-- The digits of a number are characters of numerals. -/
theorem isNumeral_digitText (n : Nat) : IsNumeral (digitText n) := fun _ hu =>
  .inl (toNat_of_mem_digitText hu)

/-- A whole number with its sign is made of characters of numerals. -/
theorem isNumeral_intText (k : Int) : IsNumeral (intText k) := by
  unfold intText
  split
  · exact .cons (by decide) (isNumeral_digitText _)
  · exact isNumeral_digitText _

/-- Padding zeros are characters of numerals. -/
theorem isNumeral_zeros (n : Nat) : IsNumeral (zeros n) := fun _ hu =>
  List.eq_of_mem_replicate hu ▸ by decide

/-- An exponent with its sign is made of characters of numerals. -/
theorem isNumeral_exponentText (e : Int) : IsNumeral (exponentText e) := by
  unfold exponentText
  refine .append ?_ (isNumeral_digitText _)
  split <;> decide

/-- However a decimal is laid out, it is written with what numbers are written with. -/
theorem isNumeral_decimalText (layout : Layout) (d : Decimal) :
    IsNumeral (layout.decimalText d) := by
  have hd := isNumeral_digitText d.digits
  have hz := isNumeral_zeros
  unfold decimalText
  generalize digitText d.digits = digits at hd ⊢
  dsimp only
  split
  · split
    · exact hd.append (hz _)
    · refine .append (.append ?_ (by decide)) ?_
      · exact fun u hu => hd u (List.mem_of_mem_take hu)
      · exact fun u hu => hd u (List.mem_of_mem_drop hu)
  · split
    · exact .append (.append (by decide) (hz _)) hd
    · have he := isNumeral_exponentText
      split
      next first second rest =>
        obtain ⟨h1, h2⟩ := List.forall_mem_cons.1 hd
        exact .append (.cons h1 (.cons (by decide) h2)) (he _)
      next => exact hd.append (he _)

end Layout

namespace Counter

/-- Every number that the counter may stand at is written with characters of numerals. -/
theorem isNumeral_text (n : Counter) : IsNumeral (text n) := by
  unfold text Binary64.text
  cases n with
  | undefined => decide
  | infinite negative => cases negative <;> decide
  | finite num scale _ =>
    have hd := layout.isNumeral_decimalText (Decimal.shortest num.natAbs scale)
    dsimp only
    split
    · exact Layout.isNumeral_intText num
    · split
      · exact .cons (by decide) hd
      · exact hd

/-- A generated prefix is an NCName exactly if no plus sign is in it, as there is before the
exponent of a number that is too large to be written out. -/
theorem isNCName_generated_iff {n : Counter} :
    IsNCName (generated n) ↔ Text.unit '+' ∉ generated n := by
  constructor
  · intro h hm
    exact absurd (h.contains_of_mem hm (by decide) (by decide)) (by decide)
  · intro h
    have hg : generated n = Text.unit 'n' :: Text.unit 's' :: text n := rfl
    rw [hg] at h ⊢
    refine isNCName_cons (by decide) fun v hv => ?_
    have hplus : v ≠ Text.unit '+' := ne_of_mem_of_not_mem hv h
    rcases List.mem_cons.1 hv with rfl | hv
    · decide
    rcases List.mem_cons.1 hv with rfl | hv
    · decide
    rcases isNumeral_text n v hv with hv | hv
    · exact isNameUnit_of_digit hv
    · have hs : ((Text.ofString "+-.eInfinityNa").all fun u => decide (u = Text.unit '+' ∨
          u ≠ Text.unit ':' ∧ Text.isHigh u = false ∧
            CharClass.name.contains u.toNat = true)) = true := by decide
      exact (of_decide_eq_true (List.all_eq_true.1 hs v hv)).resolve_left hplus

end Counter

end XmlWriter
