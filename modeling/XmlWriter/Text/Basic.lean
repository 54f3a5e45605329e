/-!
# Texts as sequences of UTF-16 code units

Every string the writer takes or produces is a `Text`: any sequence of 16-bit code units, so lone
surrogates are texts too. `Text.codePoints` reads a text as code points: a high surrogate that is
followed by a low one stands for one code point beyond the basic plane, and every other unit,
a lone surrogate included, stands for itself. Main statement: no unit is lost in that reading, that
is, writing the code points of a text again gives the text (`Text.flatMap_ofCodePoint_codePoints`).
-/

namespace XmlWriter

/-- A sequence of UTF-16 code units. Nothing is demanded of the surrogates among them. -/
abbrev Text := List UInt16

namespace Text

/-- The code unit of a character of the basic plane. -/
def unit (c : Char) : UInt16 := UInt16.ofNat c.toNat

/-- Whether a unit is a high surrogate, the first half of a pair. -/
def isHigh (u : UInt16) : Bool := 0xD800 ≤ u.toNat && u.toNat ≤ 0xDBFF

/-- Whether a unit is a low surrogate, the second half of a pair. -/
def isLow (u : UInt16) : Bool := 0xDC00 ≤ u.toNat && u.toNat ≤ 0xDFFF

/-- The code point that a high and a low surrogate stand for together. -/
def joined (high low : UInt16) : Nat :=
  0x10000 + (high.toNat - 0xD800) * 0x400 + (low.toNat - 0xDC00)

/-- The units that write a code point: one below U+10000, else a surrogate pair. -/
def ofCodePoint (n : Nat) : Text :=
  if n < 0x10000 then [UInt16.ofNat n]
  else [UInt16.ofNat (0xD800 + (n - 0x10000) / 0x400), UInt16.ofNat (0xDC00 + (n - 0x10000) % 0x400)]

/-- The units of a sequence of characters. -/
def ofChars (cs : List Char) : Text := cs.flatMap fun c => ofCodePoint c.toNat

/-- The units of a string. -/
def ofString (s : String) : Text := ofChars s.toList

/-- The code points of a text, a surrogate pair counting as one and a lone surrogate as itself. -/
def codePoints : Text → List Nat
  | u :: v :: rest =>
    if isHigh u && isLow v then joined u v :: codePoints rest
    else u.toNat :: codePoints (v :: rest)
  | [u] => [u.toNat]
  | [] => []

/-- Whether a code point is a surrogate, which only a lone surrogate unit gives. -/
def isSurrogate (n : Nat) : Bool := 0xD800 ≤ n && n ≤ 0xDFFF

/-- The character at a code point; a surrogate has none. -/
def char? (n : Nat) : Option Char :=
  if h : n.isValidChar then some (Char.ofNatAux n h) else none

/-- The string with the same code points, if the text has no lone surrogate. -/
def toString? (t : Text) : Option String := (t.codePoints.mapM char?).map String.ofList

/-- Whether `part` occurs in the text as a run of consecutive units. -/
def contains (part : Text) : Text → Bool
  | [] => part.isEmpty
  | u :: rest => part.isPrefixOf (u :: rest) || contains part rest

@[simp] theorem contains_nil (part : Text) : contains part [] = part.isEmpty := rfl

/-- The test for an occurrence decides whether the part is a contiguous sublist. -/
theorem contains_iff {part t : Text} : contains part t = true ↔ part <:+: t := by
  induction t with
  | nil => simp [contains]
  | cons u rest ih => simp [contains, ih, List.infix_cons_iff]

/-- A unit occurs as a text of its own exactly when it is one of the units. -/
theorem contains_singleton {u : UInt16} {t : Text} : contains [u] t = true ↔ u ∈ t := by
  induction t with
  | nil => simp
  | cons v rest ih => simp [contains, ih]

/-- A surrogate pair is read as one code point. -/
theorem codePoints_cons_of_pair {u v : UInt16} (hu : isHigh u = true) (hv : isLow v = true)
    (rest : Text) : codePoints (u :: v :: rest) = joined u v :: codePoints rest := by
  simp [codePoints, hu, hv]

/-- A unit that does not begin a pair stands for itself. -/
theorem codePoints_cons_of_not_isHigh {u : UInt16} (hu : isHigh u = false) (rest : Text) :
    codePoints (u :: rest) = u.toNat :: codePoints rest := by
  cases rest <;> simp [codePoints, hu]

/-- A unit taken as a code point is written with itself. -/
theorem ofCodePoint_toNat (u : UInt16) : ofCodePoint u.toNat = [u] := by
  have h : u.toNat < 0x10000 := u.toNat_lt
  simp [ofCodePoint, h]

/-- A surrogate pair is what writes the code point it stands for. -/
theorem ofCodePoint_joined {u v : UInt16} (hu : isHigh u = true) (hv : isLow v = true) :
    ofCodePoint (joined u v) = [u, v] := by
  simp only [isHigh, isLow, Bool.and_eq_true, decide_eq_true_eq] at hu hv
  have hge : ¬ joined u v < 0x10000 := by unfold joined; omega
  have hhi : 0xD800 + (joined u v - 0x10000) / 0x400 = u.toNat := by unfold joined; omega
  have hlo : 0xDC00 + (joined u v - 0x10000) % 0x400 = v.toNat := by unfold joined; omega
  simp only [ofCodePoint, if_neg hge, hhi, hlo, UInt16.ofNat_toNat]

/-- Writing the code points of a text again gives the text. -/
@[simp] theorem flatMap_ofCodePoint_codePoints (t : Text) :
    t.codePoints.flatMap ofCodePoint = t := by
  fun_induction codePoints t with
  | case1 u v rest h ih =>
    rw [Bool.and_eq_true] at h
    simp [ofCodePoint_joined h.1 h.2, ih]
  | case2 u v rest _ ih => simp [ofCodePoint_toNat, ih]
  | case3 u => simp [ofCodePoint_toNat]
  | case4 => rfl

end Text

end XmlWriter
