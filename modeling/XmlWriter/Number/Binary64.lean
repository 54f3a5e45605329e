/-!
# Numbers of double precision

The counter of generated prefixes is a number of the binary interchange format with 53 significant
bits, as data formats commonly write numbers. `Binary64.round` gives the number nearest to a
fraction and `Binary64.next` the number nearest to a number plus one. A finite number is kept
exactly, as a whole number over a power of two, together with the proof that it is one of the format
(`Binary64.IsFinite`); that rounding gives such numbers is shown along with the definition. The two
zeros count and are written alike, and are not told apart.

Main statement: whole numbers of magnitude up to 2^53 are counted exactly (`Binary64.next_ofInt`).
From there on neighbouring numbers are two apart, and adding one may change nothing
(`Binary64.next_limit`).
-/

namespace XmlWriter

namespace Binary64

/-- The largest magnitude below which every whole number is a number: 2^53. -/
def exactLimit : Nat := 9007199254740992

/-- The magnitude from which on a number is infinite: 2^1024. -/
def overflow : Nat := 1 <<< 1024

/-- Whether `num / 2^scale` is a finite number, in lowest terms. -/
structure IsFinite (num : Int) (scale : Nat) : Prop where
  lowest : scale = 0 ∨ num.natAbs % 2 = 1
  /-- There are 53 significant bits. -/
  significant : ∃ m e, m ≤ exactLimit ∧ num.natAbs = m <<< e
  small : num.natAbs < overflow
  fine : scale ≤ 1074

end Binary64

/-- A number of double precision: a fraction, an infinity of either sign, or undefined, which is
what an operation gives that has no result. -/
inductive Binary64 where
  | finite (num : Int) (scale : Nat) (h : Binary64.IsFinite num scale)
  | infinite (negative : Bool)
  | undefined
  deriving DecidableEq, Repr

namespace Binary64

/-! ## The steps of rounding -/

/-- The whole number nearest to `n / d`, of two equally near ones the even one. -/
def nearestToEven (n d : Nat) : Nat :=
  let q := n / d
  let r := n % d
  if 2 * r < d then q else if d < 2 * r then q + 1 else if q % 2 = 0 then q else q + 1

/-- The numerator and denominator of `n / d` divided by `2^e`. -/
def shifted (n d : Nat) : Int → Nat × Nat
  | .ofNat e => (n, d <<< e)
  | .negSucc e => (n <<< (e + 1), d)

/-- The greatest `e` with `2^e ≤ n / d`, for a positive fraction. -/
def floorLog2 (n d : Nat) : Int :=
  let e : Int := (n.log2 : Int) - (d.log2 : Int)
  let (n', d') := shifted n d e
  if d' ≤ n' then e else e - 1

/-- The exponent of the last bit that a fraction keeps: there are 53 significant bits, and the last
of them counts no less than `2^-1074`. -/
def lastPlace (n d : Nat) : Int := max (floorLog2 n d - 52) (-1074)

/-- The bits that a fraction keeps, as a whole number. -/
def significand (n d : Nat) : Nat :=
  let f := shifted n d (lastPlace n d)
  nearestToEven f.1 f.2

/-- Lowest terms of `n / 2^scale`. -/
def reduced (n : Nat) : Nat → Nat × Nat
  | 0 => (n, 0)
  | scale + 1 => if n % 2 = 0 then reduced (n / 2) scale else (n, scale + 1)

/-- A magnitude with a sign. -/
def signed (negative : Bool) (n : Nat) : Int := if negative then -(n : Int) else (n : Int)

/-! ## Rounding keeps 53 bits -/

section
variable {n d k : Nat} {e : Int}

/-- Rounding to a whole number does not pass one from above. -/
theorem nearestToEven_le (hd : 0 < d) (h : n ≤ k * d) : nearestToEven n d ≤ k := by
  have hq : n / d ≤ k := Nat.div_le_of_le_mul (by rwa [Nat.mul_comm])
  have hr : n / d = k → n % d = 0 := by
    rintro rfl
    have := Nat.div_add_mod n d
    rw [Nat.mul_comm] at this
    omega
  simp only [nearestToEven]
  split
  · exact hq
  · rcases Nat.lt_or_eq_of_le hq with hlt | heq
    · split
      · exact hlt
      · split
        · exact hq
        · exact hlt
    · have := hr heq
      omega

/-- Dividing by a power of two shifts the numerator or the denominator. -/
theorem shifted_eq (n d : Nat) (e : Int) :
    shifted n d e = (n <<< (-e).toNat, d <<< e.toNat) := by
  cases e with
  | ofNat e => simp [shifted, Int.toNat_neg_natCast]
  | negSucc e => simp [shifted, Int.neg_negSucc]

/-- The shifted denominator is positive. -/
theorem shifted_pos (n : Nat) (hd : 0 < d) (e : Int) : 0 < (shifted n d e).2 := by
  simp only [shifted_eq, Nat.shiftLeft_eq]
  exact Nat.mul_pos hd (Nat.two_pow_pos _)

/-- Whether a fraction is less than `2^e`. -/
def IsBelow (n d : Nat) (e : Int) : Prop := n <<< (-e).toNat < d <<< e.toNat

/-- A fraction is below a power of two if it is below one when shifted by it. -/
theorem isBelow_iff : IsBelow n d e ↔ (shifted n d e).1 < (shifted n d e).2 := by
  rw [shifted_eq]
  exact .rfl

/-- A fraction below a power of two is below the higher ones. -/
theorem IsBelow.mono {e' : Int} (h : IsBelow n d e) (he : e ≤ e') : IsBelow n d e' := by
  rw [IsBelow, Nat.shiftLeft_eq, Nat.shiftLeft_eq] at h ⊢
  calc n * 2 ^ (-e').toNat
      ≤ n * 2 ^ (-e).toNat := Nat.mul_le_mul_left n (Nat.pow_le_pow_right Nat.two_pos (by omega))
    _ < d * 2 ^ e.toNat := h
    _ ≤ d * 2 ^ e'.toNat := Nat.mul_le_mul_left d (Nat.pow_le_pow_right Nat.two_pos (by omega))

/-- A fraction is below the power of two after the one with its exponent. -/
theorem isBelow_floorLog2 (n : Nat) (hd : 0 < d) : IsBelow n d (floorLog2 n d + 1) := by
  unfold floorLog2
  dsimp only
  split
  · -- between the powers of two next to the numerator and to the denominator
    generalize he : (n.log2 : Int) - d.log2 + 1 = e
    rw [IsBelow, Nat.shiftLeft_eq, Nat.shiftLeft_eq]
    calc n * 2 ^ (-e).toNat
        < 2 ^ (n.log2 + 1) * 2 ^ (-e).toNat :=
          Nat.mul_lt_mul_of_pos_right Nat.lt_log2_self (Nat.two_pow_pos _)
      _ = 2 ^ d.log2 * 2 ^ e.toNat := by
          rw [← Nat.pow_add, ← Nat.pow_add]
          congr 1
          omega
      _ ≤ d * 2 ^ e.toNat := Nat.mul_le_mul_right _ (Nat.log2_self_le (Nat.ne_of_gt hd))
  next h =>
    rw [Int.sub_add_cancel, isBelow_iff]
    exact Nat.lt_of_not_le h

/-- Divided by `2^e`, a fraction below `2^(e+k)` is below `2^k`. -/
theorem IsBelow.shiftLeft_lt (h : IsBelow n d (e + k)) :
    n <<< (-e).toNat < d <<< (e.toNat + k) := by
  rw [IsBelow, Nat.shiftLeft_eq, Nat.shiftLeft_eq] at h
  rw [Nat.shiftLeft_eq, Nat.shiftLeft_eq]
  have hle : (-(e + k)).toNat ≤ (-e).toNat := by omega
  obtain ⟨j, hj⟩ := Nat.exists_eq_add_of_le hle
  calc n * 2 ^ (-e).toNat
      = n * 2 ^ (-(e + k)).toNat * 2 ^ j := by rw [Nat.mul_assoc, ← Nat.pow_add, ← hj]
    _ < d * 2 ^ (e + k).toNat * 2 ^ j := Nat.mul_lt_mul_of_pos_right h (Nat.two_pow_pos _)
    _ = d * 2 ^ (e.toNat + k) := by
        rw [Nat.mul_assoc, ← Nat.pow_add]
        congr 2
        omega

/-- A fraction keeps 53 bits. -/
theorem significand_le (n d : Nat) : significand n d ≤ exactLimit := by
  simp only [significand]
  generalize he : lastPlace n d = e
  rcases Nat.eq_zero_or_pos d with rfl | hd
  · -- dividing by zero gives zero, which is rounded to zero or one
    simp only [shifted_eq, nearestToEven, Nat.zero_shiftLeft, Nat.div_zero, Nat.not_lt_zero,
      if_false]
    split <;> decide
  · have hfloor : floorLog2 n d + 1 ≤ e + 53 := by
      unfold lastPlace at he
      omega
    have h := ((isBelow_floorLog2 n hd).mono hfloor).shiftLeft_lt
    refine nearestToEven_le (shifted_pos n hd e) (Nat.le_of_lt ?_)
    rw [shifted_eq]
    rwa [Nat.shiftLeft_add, Nat.shiftLeft_eq _ 53, Nat.mul_comm] at h

/-- No number has a last place finer than the finest. -/
theorem neg_1074_le_lastPlace (n d : Nat) : -1074 ≤ lastPlace n d := Int.le_max_right _ _

/-- Lowest terms are lowest, and neither of the two is greater than before. -/
theorem reduced_spec (n scale : Nat) :
    ((reduced n scale).2 = 0 ∨ (reduced n scale).1 % 2 = 1) ∧ (reduced n scale).1 ≤ n ∧
      (reduced n scale).2 ≤ scale := by
  fun_induction reduced n scale with
  | case1 n => exact ⟨.inl rfl, Nat.le_refl n, Nat.le_refl 0⟩
  | case2 n scale h ih =>
    obtain ⟨hl, hn, hs⟩ := ih
    exact ⟨hl, Nat.le_trans hn (Nat.div_le_self n 2), Nat.le_succ_of_le hs⟩
  | case3 n scale h => exact ⟨.inr (by omega), Nat.le_refl n, Nat.le_refl _⟩

@[simp] theorem natAbs_signed (negative : Bool) (n : Nat) : (signed negative n).natAbs = n := by
  cases negative <;> simp [signed]

/-- Whole numbers that count exactly are finite. -/
theorem exactLimit_lt_overflow : exactLimit < overflow := by decide +kernel

/-- A whole number within the limit is a number. -/
theorem IsFinite.of_le {num : Int} (h : num.natAbs ≤ exactLimit) : IsFinite num 0 where
  lowest := .inl rfl
  significant := ⟨num.natAbs, 0, h, rfl⟩
  small := Nat.lt_of_le_of_lt h exactLimit_lt_overflow
  fine := Nat.zero_le _

/-- A number with 53 bits and zeros behind them, as long as it is not too large. -/
theorem IsFinite.shiftLeft {m e : Nat} (negative : Bool) (hm : m ≤ exactLimit)
    (h : m <<< e < overflow) : IsFinite (signed negative (m <<< e)) 0 where
  lowest := .inl rfl
  significant := ⟨m, e, hm, natAbs_signed negative _⟩
  small := by rwa [natAbs_signed]
  fine := Nat.zero_le _

/-- A number with 53 bits of which some stand behind the point. -/
theorem IsFinite.reduced {m scale : Nat} (negative : Bool) (hm : m ≤ exactLimit)
    (h : scale ≤ 1074) :
    IsFinite (signed negative (reduced m scale).1) (Binary64.reduced m scale).2 where
  lowest := by
    rw [natAbs_signed]
    exact (reduced_spec m scale).1
  significant :=
    ⟨_, 0, Nat.le_trans (reduced_spec m scale).2.1 hm, natAbs_signed negative _⟩
  small := by
    rw [natAbs_signed]
    exact Nat.lt_of_le_of_lt (Nat.le_trans (reduced_spec m scale).2.1 hm) exactLimit_lt_overflow
  fine := Nat.le_trans (reduced_spec m scale).2.2 h

end

/-! ## Rounding -/

/-- The number `± m · 2^e`, infinite from the overflow on. -/
def ofSignificand (negative : Bool) (m : Nat) (e : Int) (hm : m ≤ exactLimit) (he : -1074 ≤ e) :
    Binary64 :=
  if 0 ≤ e then
    if h : m <<< e.toNat < overflow then
      finite (signed negative (m <<< e.toNat)) 0 (.shiftLeft negative hm h)
    else infinite negative
  else
    finite (signed negative (reduced m (-e).toNat).1) (reduced m (-e).toNat).2
      (.reduced negative hm (by omega))

/-- The number nearest to the fraction `num / den`, of two equally near ones the one whose last bit
is zero. -/
def round (num : Int) (den : Nat) : Binary64 :=
  if h : den = 1 ∧ num.natAbs ≤ exactLimit then finite num 0 (.of_le h.2)
  else
    ofSignificand (num < 0) (significand num.natAbs den) (lastPlace num.natAbs den)
      (significand_le num.natAbs den) (neg_1074_le_lastPlace num.natAbs den)

/-- The number nearest to a whole number. -/
def ofInt (k : Int) : Binary64 := round k 1

/-- The number nearest to the decimal `m · 10^-places`. -/
def ofDecimal (m : Int) (places : Nat) : Binary64 := round m (Nat.pow 10 places)

/-- The number nearest to a number plus one. -/
def next : Binary64 → Binary64
  | finite num scale _ => round (num + (1 <<< scale : Nat)) (1 <<< scale)
  | infinite negative => infinite negative
  | undefined => undefined

/-- Whether a number is the fraction `num / 2^scale`, in lowest terms. -/
def isFraction (num : Int) (scale : Nat) : Binary64 → Bool
  | finite n s _ => n = num ∧ s = scale
  | _ => false

/-- A whole number within the limit is a number as it stands. -/
theorem ofInt_eq {k : Int} (h : k.natAbs ≤ exactLimit) : ofInt k = finite k 0 (.of_le h) := by
  simp [ofInt, round, h]

/-- Within the limit, counting is exact. -/
theorem next_ofInt {k : Int} (h : k.natAbs ≤ exactLimit) (h' : (k + 1).natAbs ≤ exactLimit) :
    next (ofInt k) = ofInt (k + 1) := by
  rw [ofInt_eq h, ofInt_eq h']
  simp [next, round, h']

/-- At the limit, adding one lands halfway to the next number and falls back. -/
theorem next_limit : next (ofInt 9007199254740992) = ofInt 9007199254740992 := by
  decide +kernel

end Binary64

end XmlWriter
