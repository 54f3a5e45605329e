import Mathlib.Algebra.Order.Field.Power
import Mathlib.Data.Rat.Cast.Order
import Mathlib.Data.Sum.Order
import Mathlib.Order.WithBot
import Mathlib.Tactic.FieldSimp
import Mathlib.Tactic.Linarith
import Mathlib.Tactic.NormNum
import Mathlib.Tactic.Positivity
import Mathlib.Tactic.Ring
import XmlWriter.Number.Binary64

/-!
# Rounding and the order of numbers

A fraction is rounded to a number with the same sign whose magnitude is the nearest one on the grid
of its size. `Binary64.round_spec` says what of this matters for the order: no magnitude that a
number can have lies strictly between the fraction and what it is rounded to. So rounding does not
pass a number (`Binary64.le_round`), and counting up never leads down (`Binary64.le_next`), although
it may lead nowhere.
-/

namespace XmlWriter

namespace Binary64

/-! ## The order of numbers -/

/-- The value of a number. The infinities lie at the ends, and the undefined number lies apart. -/
def value : Binary64 → WithBot (WithTop ℚ) ⊕ Unit
  | finite num scale _ => .inl ((num / 2 ^ scale : ℚ) : WithTop ℚ)
  | infinite true => .inl ⊥
  | infinite false => .inl (⊤ : WithTop ℚ)
  | undefined => .inr ()

/-- A fraction in lowest terms is the only one of its value. -/
theorem IsFinite.eq_of_div_eq {m n : Int} {s t : Nat} (hm : IsFinite m s) (hn : IsFinite n t)
    (h : (m / 2 ^ s : ℚ) = n / 2 ^ t) : m = n ∧ s = t := by
  have key : m * 2 ^ t = n * 2 ^ s := by
    rw [div_eq_div_iff (by positivity) (by positivity)] at h
    exact_mod_cast h
  -- the fraction with the greater denominator could be cut down
  have even : ∀ {m n : Int} {s t : Nat}, IsFinite n t → m * 2 ^ t = n * 2 ^ s → ¬ s < t := by
    rintro m n s t hn key hlt
    obtain ⟨k, rfl⟩ := Nat.exists_eq_add_of_lt hlt
    have hn' : n = m * 2 ^ k * 2 := by
      have h0 : (2 : Int) ^ s ≠ 0 := by positivity
      refine (mul_right_cancel₀ h0 ?_).symm
      rw [← key]
      ring
    have hodd := hn.lowest.resolve_left (Nat.succ_ne_zero _)
    omega
  obtain rfl : s = t := le_antisymm (not_lt.1 (even hm key.symm)) (not_lt.1 (even hn key))
  exact ⟨mul_right_cancel₀ (by positivity) key, rfl⟩

/-- Numbers of the same value are the same. -/
theorem value_injective : Function.Injective value := by
  rintro (⟨m, s, hm⟩ | ⟨_ | _⟩ | _) (⟨n, t, hn⟩ | ⟨_ | _⟩ | _) h
  · have hv : (m / 2 ^ s : ℚ) = n / 2 ^ t :=
      WithTop.coe_inj.1 (WithBot.coe_inj.1 (Sum.inl.inj h))
    obtain ⟨rfl, rfl⟩ := hm.eq_of_div_eq hn hv
    rfl
  all_goals simp [value] at h ⊢

instance : PartialOrder Binary64 :=
  -- the order of `Unit` is named, as there is more than one way to it
  @PartialOrder.lift _ _ (@Sum.instPartialOrder _ _ _ PUnit.instLinearOrder.toPartialOrder) value
    value_injective

/-- Finite values are ordered as the fractions they stand for. -/
theorem finite_le_finite_iff {m n : Int} {s t : Nat} {hm : IsFinite m s} {hn : IsFinite n t} :
    finite m s hm ≤ finite n t hn ↔ (m / 2 ^ s : ℚ) ≤ n / 2 ^ t := by
  show value (finite m s hm) ≤ value (finite n t hn) ↔ _
  rw [value, value, Sum.inl_le_inl_iff, WithBot.coe_le_coe, WithTop.coe_le_coe]

/-- Every finite value is below the infinite one. -/
theorem finite_le_infinite {m : Int} {s : Nat} (h : IsFinite m s) :
    finite m s h ≤ infinite false :=
  Sum.inl_le_inl_iff.2 le_top

/-- Whether a magnitude has a place among the finite numbers, however large: it has 53 significant
bits, and the last of them counts no less than `2^-1074`. -/
def IsSignificant (b : ℚ) : Prop :=
  ∃ (m : Nat) (e : Int), m ≤ exactLimit ∧ -1074 ≤ e ∧ b = m * 2 ^ e

theorem IsSignificant.nonneg {b : ℚ} (h : IsSignificant b) : 0 ≤ b := by
  obtain ⟨m, e, -, -, rfl⟩ := h
  positivity

/-- A shift to the left multiplies by a power of two. -/
theorem cast_shiftLeft (n k : Nat) : ((n <<< k : Nat) : ℚ) = n * 2 ^ k := by
  simp [Nat.shiftLeft_eq]

/-- A finite number has a place, and is not too large. -/
theorem IsFinite.isSignificant {num : Int} {scale : Nat} (h : IsFinite num scale) :
    IsSignificant (num.natAbs / 2 ^ scale) ∧ (num.natAbs / 2 ^ scale : ℚ) < overflow := by
  constructor
  · obtain ⟨m, e, hm, he⟩ := h.significant
    rcases h.lowest with rfl | hodd
    · exact ⟨m, e, hm, by omega, by simp [he, cast_shiftLeft]⟩
    · -- an odd number has no zeros behind its bits
      obtain rfl : e = 0 := by
        by_contra h0
        obtain ⟨e, rfl⟩ := Nat.exists_eq_succ_of_ne_zero h0
        rw [he, Nat.shiftLeft_succ] at hodd
        omega
      have := h.fine
      exact ⟨m, -scale, hm, by omega, by simp [he, div_eq_mul_inv]⟩
  · refine (div_le_self (Nat.cast_nonneg _) (one_le_pow₀ one_le_two)).trans_lt ?_
    exact_mod_cast h.small

/-! ## The steps of rounding -/

section
variable {k n d : Nat} {e : Int} {b : ℚ}

/-- Rounding to a whole number does not pass one from below. -/
theorem le_nearestToEven (hd : 0 < d) (h : k * d ≤ n) : k ≤ nearestToEven n d := by
  have hk := (Nat.le_div_iff_mul_le hd).2 h
  simp only [nearestToEven]
  split_ifs <;> omega

/-- A power of two as a fraction of two natural powers, one of which is 1. -/
theorem two_zpow_eq (e : Int) : (2 : ℚ) ^ e = 2 ^ e.toNat / 2 ^ (-e).toNat := by
  obtain ⟨n, rfl | rfl⟩ := e.eq_nat_or_neg <;> simp

/-- How many times a power of two goes into a fraction can be told from whole numbers. -/
theorem mul_zpow_le_iff (hd : 0 < d) :
    (k * 2 ^ e : ℚ) ≤ n / d ↔ k * (shifted n d e).2 ≤ (shifted n d e).1 := by
  rw [shifted_eq, two_zpow_eq, mul_div_assoc', div_le_div_iff₀ (by positivity) (by positivity),
    ← Nat.cast_le (α := ℚ), Nat.cast_mul, cast_shiftLeft, cast_shiftLeft]
  ring_nf

/-- A fraction compared with a multiple of a power of two, in natural numbers. -/
theorem le_mul_zpow_iff (hd : 0 < d) :
    (n / d : ℚ) ≤ k * 2 ^ e ↔ (shifted n d e).1 ≤ k * (shifted n d e).2 := by
  rw [shifted_eq, two_zpow_eq, mul_div_assoc', div_le_div_iff₀ (by positivity) (by positivity),
    ← Nat.cast_le (α := ℚ), Nat.cast_mul, cast_shiftLeft, cast_shiftLeft]
  ring_nf

/-- `IsBelow` compares the fraction itself with the power of two. -/
theorem isBelow_iff_div_lt (hd : 0 < d) : IsBelow n d e ↔ (n / d : ℚ) < 2 ^ e := by
  rw [isBelow_iff, ← not_le, ← not_le, ← one_mul ((2 : ℚ) ^ e), ← one_mul (shifted n d e).2]
  exact_mod_cast (not_congr (mul_zpow_le_iff hd)).symm

/-- A positive fraction reaches the power of two with its exponent. -/
theorem not_isBelow_floorLog2 (hn : 0 < n) (d : Nat) : ¬ IsBelow n d (floorLog2 n d) := by
  unfold floorLog2
  dsimp only
  split
  next h =>
    rw [isBelow_iff]
    exact not_lt.2 h
  next =>
    generalize he : (n.log2 : Int) - d.log2 - 1 = e
    rw [IsBelow, Nat.shiftLeft_eq, Nat.shiftLeft_eq, not_lt]
    calc d * 2 ^ e.toNat
        ≤ 2 ^ (d.log2 + 1) * 2 ^ e.toNat := Nat.mul_le_mul_right _ Nat.lt_log2_self.le
      _ = 2 ^ n.log2 * 2 ^ (-e).toNat := by
          rw [← pow_add, ← pow_add]
          congr 1
          omega
      _ ≤ n * 2 ^ (-e).toNat := Nat.mul_le_mul_right _ (Nat.log2_self_le hn.ne')

/-- The magnitude that a fraction is rounded to. -/
def magnitude (n d : Nat) : ℚ := significand n d * 2 ^ lastPlace n d

/-- A magnitude that has a place is on the grid of a fraction, or else a point of the grid lies
between it and the fraction. -/
theorem IsSignificant.on_grid (h : IsSignificant b) (hn : 0 < n) (hd : 0 < d) :
    ∃ k : Nat, b ≤ k * 2 ^ lastPlace n d ∧
      (b = k * 2 ^ lastPlace n d ∨ (k * 2 ^ lastPlace n d : ℚ) ≤ n / d) := by
  obtain ⟨m, e, hm, he, rfl⟩ := h
  have h2 : (2 : ℚ) ≠ 0 := two_ne_zero
  rcases le_or_gt (lastPlace n d) e with hle | hlt
  · obtain ⟨j, hj⟩ := Int.le.dest hle
    have heq : (m * 2 ^ e : ℚ) = (m * 2 ^ j : Nat) * 2 ^ lastPlace n d := by
      rw [← hj, zpow_add₀ h2, zpow_natCast]
      push_cast
      ring
    exact ⟨m * 2 ^ j, heq.le, .inl heq⟩
  · -- the magnitude has its last bit below the grid, so it is less than what the grid begins with
    have hp : lastPlace n d = floorLog2 n d - 52 := by
      unfold lastPlace at hlt ⊢
      omega
    refine ⟨2 ^ 52, ?_, .inr ?_⟩
    · calc (m : ℚ) * 2 ^ e ≤ 2 ^ 53 * 2 ^ (lastPlace n d - 1) := by
            have hm' : (m : ℚ) ≤ 2 ^ 53 := by exact_mod_cast hm
            have he' : (2 : ℚ) ^ e ≤ 2 ^ (lastPlace n d - 1) :=
              zpow_le_zpow_right₀ one_le_two (by omega)
            gcongr
        _ = (2 ^ 52 : Nat) * 2 ^ lastPlace n d := by
            rw [zpow_sub_one₀ h2]
            push_cast
            ring
    · calc ((2 ^ 52 : Nat) : ℚ) * 2 ^ lastPlace n d = 2 ^ floorLog2 n d := by
            rw [hp, Nat.cast_pow, Nat.cast_ofNat, ← zpow_natCast, ← zpow_add₀ h2]
            congr 1
            push_cast
            ring
        _ ≤ n / d := not_lt.1 (mt (isBelow_iff_div_lt hd).2 (not_isBelow_floorLog2 hn d))

/-- A multiple of the last place up to a fraction is a multiple up to its rounding. -/
theorem mul_le_magnitude (hd : 0 < d) (h : (k * 2 ^ lastPlace n d : ℚ) ≤ n / d) :
    (k * 2 ^ lastPlace n d : ℚ) ≤ magnitude n d := by
  have hk : k ≤ significand n d := le_nearestToEven (shifted_pos n hd _) ((mul_zpow_le_iff hd).1 h)
  unfold magnitude
  gcongr

/-- A multiple of the last place that is not below a fraction is not below its rounding. -/
theorem magnitude_le_mul (hd : 0 < d) (h : (n / d : ℚ) ≤ k * 2 ^ lastPlace n d) :
    magnitude n d ≤ k * 2 ^ lastPlace n d := by
  have hk : significand n d ≤ k := nearestToEven_le (shifted_pos n hd _) ((le_mul_zpow_iff hd).1 h)
  unfold magnitude
  gcongr

/-- Rounding does not pass a magnitude from above. -/
theorem IsSignificant.le_magnitude (h : IsSignificant b) (hd : 0 < d) (hb : b ≤ n / d) :
    b ≤ magnitude n d := by
  rcases Nat.eq_zero_or_pos n with rfl | hn
  · have h0 : b ≤ 0 := by simpa using hb
    refine h0.trans ?_
    unfold magnitude
    positivity
  · obtain ⟨k, hk, rfl | hge⟩ := h.on_grid hn hd
    · exact mul_le_magnitude hd hb
    · exact hk.trans (mul_le_magnitude hd hge)

/-- Rounding does not pass a magnitude from below. -/
theorem IsSignificant.magnitude_le (h : IsSignificant b) (hn : 0 < n) (hd : 0 < d)
    (hb : (n / d : ℚ) ≤ b) : magnitude n d ≤ b := by
  obtain ⟨k, hk, hge⟩ := h.on_grid hn hd
  have heq : b = k * 2 ^ lastPlace n d := hge.elim id fun hge => le_antisymm hk (hge.trans hb)
  rw [heq] at hb ⊢
  exact magnitude_le_mul hd hb

/-- The magnitude that a fraction is rounded to has a place. -/
theorem isSignificant_magnitude (n d : Nat) : IsSignificant (magnitude n d) :=
  ⟨_, lastPlace n d, significand_le n d, neg_1074_le_lastPlace n d, rfl⟩

end

/-! ## What a fraction is rounded to -/

/-- Reducing a fraction leaves its value as it is. -/
theorem reduced_div (n scale : Nat) :
    ((reduced n scale).1 / 2 ^ (reduced n scale).2 : ℚ) = n / 2 ^ scale := by
  fun_induction reduced n scale with
  | case1 n => rfl
  | case2 n scale h ih =>
    obtain ⟨k, rfl⟩ := Nat.dvd_of_mod_eq_zero h
    rw [ih, Nat.mul_div_cancel_left k two_pos, pow_succ]
    push_cast
    field_simp
  | case3 n scale h => rfl

/-- The sign put on a magnitude is the sign of its value. -/
theorem cast_signed (negative : Bool) (n : Nat) :
    ((signed negative n : Int) : ℚ) = if negative then -(n : ℚ) else n := by
  cases negative <;> simp [signed]

/-- The number with a sign and a magnitude of 53 bits. -/
theorem ofSignificand_spec (negative : Bool) {m : Nat} {e : Int} (hm : m ≤ exactLimit)
    (he : -1074 ≤ e) :
    ofSignificand negative m e hm he = infinite negative ∧ (overflow : ℚ) ≤ m * 2 ^ e ∨
    ∃ num scale h, ofSignificand negative m e hm he = finite num scale h ∧
      (num / 2 ^ scale : ℚ) = if negative then -(m * 2 ^ e : ℚ) else m * 2 ^ e := by
  unfold ofSignificand
  split
  next h0 =>
    have hc : ((m <<< e.toNat : Nat) : ℚ) = m * 2 ^ e := by
      rw [cast_shiftLeft, ← zpow_natCast, Int.toNat_of_nonneg h0]
    split
    next h =>
      refine .inr ⟨_, _, .shiftLeft negative hm h, rfl, ?_⟩
      rw [cast_signed, hc, pow_zero, div_one]
    next h =>
      refine .inl ⟨rfl, ?_⟩
      rw [← hc]
      exact_mod_cast not_lt.1 h
  next h0 =>
    refine .inr ⟨_, _, .reduced negative hm (by omega), rfl, ?_⟩
    have hc : (m / 2 ^ (-e).toNat : ℚ) = m * 2 ^ e := by
      rw [two_zpow_eq, Int.toNat_of_nonpos (not_le.1 h0).le, pow_zero, one_div, div_eq_mul_inv]
    rw [cast_signed, ← hc, ← reduced_div]
    cases negative
    · rfl
    · exact neg_div _ _

/-- A fraction is rounded to a number with its sign and with a magnitude that has a place, and no
other magnitude that has one lies between them. From `2^1024` on the number is infinite. -/
theorem round_spec (num : Int) {den : Nat} (hd : 0 < den) :
    ∃ b : ℚ, IsSignificant b ∧
      (∀ c, IsSignificant c → c ≤ num.natAbs / den → c ≤ b) ∧
      (∀ c, IsSignificant c → num < 0 → num.natAbs / den ≤ c → b ≤ c) ∧
      (round num den = infinite (num < 0) ∧ overflow ≤ b ∨
        ∃ n scale h, round num den = finite n scale h ∧
          (n / 2 ^ scale : ℚ) = if num < 0 then -b else b) := by
  unfold round
  split
  next hf =>
    -- a whole number within the limit stays as it is
    obtain ⟨rfl, hl⟩ := hf
    refine ⟨num.natAbs, ⟨num.natAbs, 0, hl, by norm_num, by simp⟩, fun c _ hc => by simpa using hc,
      fun c _ _ hc => by simpa using hc, .inr ⟨num, 0, .of_le hl, rfl, ?_⟩⟩
    rw [Nat.cast_natAbs, pow_zero, div_one]
    split_ifs with h
    · rw [abs_of_neg h]
      push_cast
      ring
    · rw [abs_of_nonneg (not_lt.1 h)]
  next =>
    refine ⟨magnitude num.natAbs den, isSignificant_magnitude _ _,
      fun c hc h => hc.le_magnitude hd h, fun c hc h0 h => hc.magnitude_le (by omega) hd h, ?_⟩
    refine (ofSignificand_spec (num < 0) (significand_le num.natAbs den)
      (neg_1074_le_lastPlace num.natAbs den)).imp_right ?_
    rintro ⟨n, scale, h, hr, hv⟩
    exact ⟨n, scale, h, hr, hv.trans (by simp only [decide_eq_true_eq]; rfl)⟩

/-- The magnitude of a numerator is that of the fraction. -/
theorem natAbs_div_two_pow (n : Int) (scale : Nat) :
    (n.natAbs / 2 ^ scale : ℚ) = |(n / 2 ^ scale : ℚ)| := by
  rw [abs_div, Nat.cast_natAbs, abs_of_pos (by positivity : (0 : ℚ) < 2 ^ scale)]
  push_cast
  rfl

/-- Rounding does not pass a number from above. -/
theorem le_round {n num : Int} {scale den : Nat} (hx : IsFinite n scale) (hd : 0 < den)
    (h : (n / 2 ^ scale : ℚ) ≤ num / den) : finite n scale hx ≤ round num den := by
  obtain ⟨hs, hlt⟩ := hx.isSignificant
  rw [natAbs_div_two_pow] at hs hlt
  obtain ⟨b, hb, hle, hge, hr⟩ := round_spec num hd
  have hd' : (0 : ℚ) < den := by exact_mod_cast hd
  by_cases h0 : num < 0
  · -- among negative numbers the magnitudes are in the opposite order
    have habs : (num.natAbs / den : ℚ) = -(num / den) := by
      rw [Nat.cast_natAbs, abs_of_neg h0]
      push_cast
      ring
    have hneg : (num / den : ℚ) < 0 := div_neg_of_neg_of_pos (by exact_mod_cast h0) hd'
    have hq : |(n / 2 ^ scale : ℚ)| = -(n / 2 ^ scale) := abs_of_neg (h.trans_lt hneg)
    have hbq : b ≤ -(n / 2 ^ scale : ℚ) := by
      rw [← hq]
      exact hge _ hs h0 (by rw [habs, hq]; linarith)
    rcases hr with ⟨-, hinf⟩ | ⟨m, t, hm, hr, hv⟩
    · exact absurd (hinf.trans (hbq.trans_eq hq.symm)) hlt.not_ge
    · rw [hr, finite_le_finite_iff, hv, if_pos h0]
      linarith
  · rcases hr with ⟨hr, -⟩ | ⟨m, t, hm, hr, hv⟩
    · rw [hr, decide_eq_false h0]
      exact finite_le_infinite hx
    · rw [hr, finite_le_finite_iff, hv, if_neg h0]
      rcases le_or_gt (n / 2 ^ scale : ℚ) 0 with hn | hn
      · exact hn.trans hb.nonneg
      · rw [abs_of_pos hn] at hs
        refine hle _ hs (h.trans ?_)
        rw [Nat.cast_natAbs, abs_of_nonneg (not_lt.1 h0)]

/-! ## Counting up -/

/-- Adding one to a number never leads below it. -/
theorem le_next (x : Binary64) : x ≤ x.next := by
  cases x with
  | finite num scale h =>
    refine le_round h (by simp [Nat.shiftLeft_eq]) ?_
    calc (num / 2 ^ scale : ℚ) ≤ num / 2 ^ scale + 1 := le_add_of_nonneg_right zero_le_one
      _ = (num + (1 <<< scale : Nat) : Int) / (1 <<< scale : Nat) := by
        rw [Int.cast_add, Int.cast_natCast, cast_shiftLeft, Nat.cast_one, one_mul, add_div,
          div_self (by positivity)]
  | infinite negative => exact le_rfl
  | undefined => exact le_rfl

/-- Counting up any number of times leads to a number that is not below the first one. -/
theorem le_iterate_next (x : Binary64) (k : Nat) : x ≤ Binary64.next^[k] x := by
  induction k with
  | zero => exact le_rfl
  | succ k ih =>
    rw [Function.iterate_succ_apply']
    exact ih.trans (le_next _)

end Binary64

end XmlWriter
