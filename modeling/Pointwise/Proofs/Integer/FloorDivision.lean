import Mathlib.Data.Rat.Floor
import Pointwise.Integer.Division

/-!
# Floor division is exact

`Int.fdiv` is the quotient rounded down and `Int.fmod` what remains. The truncated quotient
`Int.tdiv` is the same, or one too high where the truncated remainder and the divisor have different
signs; the correction of the division never leaves the width.

* `fdiv_eq_floor`, `sign_fmod`, `abs_fmod_lt`   the floored quotient and its remainder;
* `corrected_bounds`   the corrected quotient and remainder fit;
* `toNat_divmodUnsigned`, `toInt_divmodSigned`   the division of words.
-/

namespace Pointwise

namespace Integer

/-! ### the floored quotient and its remainder -/

theorem fdiv_eq_floor (a b : ℤ) : a.fdiv b = ⌊(a : ℚ) / b⌋ := by
  obtain ⟨n, rfl | rfl⟩ := b.eq_nat_or_neg
  · rw [Int.fdiv_eq_ediv_of_nonneg a (Int.natCast_nonneg n), Int.cast_natCast,
      Rat.floor_intCast_div_natCast]
  · have h : (a : ℚ) / ((-(n : ℤ) : ℤ) : ℚ) = ((-a : ℤ) : ℚ) / (n : ℚ) := by
      push_cast
      rw [div_neg, neg_div]
    rw [h, Rat.floor_intCast_div_natCast, ← Int.fdiv_eq_ediv_of_nonneg (-a) (Int.natCast_nonneg n),
      ← Int.neg_fdiv_neg (-a), neg_neg]

theorem fmod_bounds (a : ℤ) {b : ℤ} (hb : b ≠ 0) :
    0 ≤ a.fmod b ∧ a.fmod b < b ∨ b < a.fmod b ∧ a.fmod b ≤ 0 := by
  rcases lt_or_gt_of_ne hb with hb | hb
  · exact .inr ((Int.fdiv_fmod_unique' hb).mp ⟨rfl, rfl⟩).2
  · exact .inl ⟨Int.fmod_nonneg_of_pos a hb, Int.fmod_lt_of_pos a hb⟩

theorem sign_fmod (a : ℤ) {b : ℤ} (hb : b ≠ 0) :
    a.fmod b = 0 ∨ (a.fmod b).sign = b.sign := by
  by_cases h0 : a.fmod b = 0
  · exact .inl h0
  · right
    rcases fmod_bounds a hb with ⟨h1, h2⟩ | ⟨h1, h2⟩
    · rw [Int.sign_eq_one_of_pos (by omega), Int.sign_eq_one_of_pos (by omega)]
    · rw [Int.sign_eq_neg_one_of_neg (by omega), Int.sign_eq_neg_one_of_neg (by omega)]

theorem abs_fmod_lt (a : ℤ) {b : ℤ} (hb : b ≠ 0) : |a.fmod b| < |b| := by
  rw [Int.abs_eq_natAbs, Int.abs_eq_natAbs]
  have h := fmod_bounds a hb
  omega

/-! ### the correction of the truncated quotient -/

section
variable {a b : ℤ}

theorem natAbs_tmod_lt (hb : b ≠ 0) : (a.tmod b).natAbs < b.natAbs := by
  rw [Int.natAbs_tmod]
  exact Nat.mod_lt _ (Int.natAbs_pos.mpr hb)

theorem corrected_eq (hb : b ≠ 0) (h0 : a.tmod b ≠ 0) (hs : a.tmod b < 0 ↔ ¬ b < 0) :
    a.fdiv b = a.tdiv b - 1 ∧ a.fmod b = a.tmod b + b := by
  have hlt := natAbs_tmod_lt (a := a) hb
  have heq : a.tmod b + b + b * (a.tdiv b - 1) = a := by
    rw [Int.mul_sub, Int.mul_one]
    have := Int.mul_tdiv_add_tmod a b
    omega
  rcases lt_or_gt_of_ne hb with hb | hb
  · exact (Int.fdiv_fmod_unique' hb).mpr ⟨heq, by omega, by omega⟩
  · exact (Int.fdiv_fmod_unique hb).mpr ⟨heq, by omega, by omega⟩

theorem truncated_eq (hb : b ≠ 0) (h : a.tmod b = 0 ∨ (a.tmod b < 0 ↔ b < 0)) :
    a.fdiv b = a.tdiv b ∧ a.fmod b = a.tmod b := by
  have hlt := natAbs_tmod_lt (a := a) hb
  have heq : a.tmod b + b * a.tdiv b = a := by
    have := Int.mul_tdiv_add_tmod a b
    omega
  rcases lt_or_gt_of_ne hb with hb | hb
  · exact (Int.fdiv_fmod_unique' hb).mpr ⟨heq, by omega, by omega⟩
  · exact (Int.fdiv_fmod_unique hb).mpr ⟨heq, by omega, by omega⟩

/-- What is corrected is the quotient of two numbers of different signs. -/
theorem corrected_nonpos (h0 : a.tmod b ≠ 0) (hs : a.tmod b < 0 ↔ ¬ b < 0) : a.tdiv b ≤ 0 := by
  rcases Int.le_total 0 a with nonneg | nonpos
  · have := Int.tmod_nonneg b nonneg
    exact Int.tdiv_nonpos_of_nonneg_of_nonpos nonneg (by omega)
  · obtain ⟨c, rfl⟩ : ∃ c, a = -c := ⟨-a, (Int.neg_neg a).symm⟩
    have := Int.tmod_nonneg (a := c) b (by omega)
    rw [Int.neg_tmod] at h0 hs
    rw [Int.neg_tdiv, Int.neg_nonpos_iff]
    exact Int.tdiv_nonneg (by omega) (by omega)

/-- The divisor goes into the dividend a whole number of times, with a rest if there is a remainder. -/
theorem natAbs_tdiv_bounds (hb : b ≠ 0) : (a.tdiv b).natAbs * b.natAbs ≤ a.natAbs ∧
    a.natAbs < ((a.tdiv b).natAbs + 1) * b.natAbs ∧
    (a.tmod b ≠ 0 → (a.tdiv b).natAbs * b.natAbs < a.natAbs) := by
  have split := Nat.div_add_mod a.natAbs b.natAbs
  have less := Nat.mod_lt a.natAbs (Int.natAbs_pos.mpr hb)
  have rest := Int.natAbs_tmod a b
  have whole : (a.tdiv b).natAbs = a.natAbs / b.natAbs := Int.natAbs_tdiv a b
  rw [whole, Nat.succ_mul, Nat.mul_comm _ b.natAbs]
  omega

/-- A remainder takes a divisor of at least two, and then the quotient is at most half of the
dividend. -/
theorem corrected_bounds {m : ℤ} (hm : 2 ≤ m) (ha : -m ≤ a ∧ a < m) (hb : -m ≤ b ∧ b < m)
    (hb0 : b ≠ 0) (h0 : a.tmod b ≠ 0) (hs : a.tmod b < 0 ↔ ¬ b < 0) :
    (-m ≤ a.tdiv b - 1 ∧ a.tdiv b - 1 < m) ∧ -m ≤ a.tmod b + b ∧ a.tmod b + b < m := by
  have hlt := natAbs_tmod_lt (a := a) hb0
  have half : (a.tdiv b).natAbs ≤ a.natAbs / 2 := by
    rw [Int.natAbs_tdiv]
    exact Nat.div_le_div_left (by omega) (by decide)
  omega

end

/-! ### words -/

variable {w : Nat} {a b : BitVec w}

theorem toInt_eq_zero_iff : b.toInt = 0 ↔ b = 0 := by
  rw [← BitVec.toInt_inj]
  exact Iff.of_eq (congrArg (b.toInt = ·) BitVec.toInt_zero.symm)

theorem toInt_one (hw : 1 < w) : (1 : BitVec w).toInt = 1 := BitVec.toInt_one hw

theorem natCast_toNat_eq_zero_iff : (b.toNat : ℤ) = 0 ↔ b = 0 := by
  rw [Int.natCast_eq_zero, ← BitVec.toNat_inj]
  rfl

/-- The quotient of words is corrected where the truncated remainder and the divisor have different
signs. -/
theorem corrected_iff : a.srem b ≠ 0 ∧ (a.srem b).msb ≠ b.msb ↔
    a.toInt.tmod b.toInt ≠ 0 ∧ (a.toInt.tmod b.toInt < 0 ↔ ¬ b.toInt < 0) := by
  rw [← BitVec.toInt_srem, ne_eq, ne_eq, ne_eq, toInt_eq_zero_iff, BitVec.msb_eq_toInt,
    BitVec.msb_eq_toInt, decide_eq_decide, not_iff]
  exact and_congr_right fun _ => by omega

/-- What is corrected stays within the width. -/
theorem corrected_fits (hw : 1 < w) (hb : b ≠ 0)
    (hc : a.srem b ≠ 0 ∧ (a.srem b).msb ≠ b.msb) :
    (-2 ^ (w - 1) ≤ a.toInt.tdiv b.toInt - 1 ∧ a.toInt.tdiv b.toInt - 1 < 2 ^ (w - 1)) ∧
      -2 ^ (w - 1) ≤ a.toInt.tmod b.toInt + b.toInt ∧
      a.toInt.tmod b.toInt + b.toInt < 2 ^ (w - 1) := by
  have hm : (2 : ℤ) ≤ 2 ^ (w - 1) := le_self_pow₀ (by decide) (by omega)
  obtain ⟨h0, hs⟩ := corrected_iff.mp hc
  exact corrected_bounds hm ⟨BitVec.le_toInt a, BitVec.toInt_lt⟩
    ⟨BitVec.le_toInt b, BitVec.toInt_lt⟩ (mt toInt_eq_zero_iff.mp hb) h0 hs

/-- The least number over minus one, the one pair that is not divided. -/
theorem overflowsWith_wrapping (a b : BitVec w) :
    (overflowsWith .wrappingSigned a b).run = decide (a = BitVec.intMin w ∧ b = -1) := by
  unfold overflowsWith
  by_cases ha : a = BitVec.intMin w
  · rw [if_pos ha]
    exact decide_eq_decide.mpr (and_iff_right ha).symm
  · rw [if_neg ha]
    exact (decide_eq_false fun h => ha h.1).symm

theorem divmodUnsigned_eq (a b : BitVec w) :
    divmodUnsigned a b = if b = 0 then (0, 0) else (a / b, a % b) := rfl

theorem divmodSigned_eq (a b : BitVec w) :
    divmodSigned a b =
      if b = 0 then (0, 0)
      else if a = BitVec.intMin w ∧ b = -1 then (BitVec.intMin w, 0)
      else if a.srem b ≠ 0 ∧ (a.srem b).msb ≠ b.msb then (a.sdiv b - 1, a.srem b + b)
      else (a.sdiv b, a.srem b) := by
  show (if b = 0 then (0, 0) else if (overflowsWith .wrappingSigned a b).run = true then _ else _)
    = _
  simp only [overflowsWith_wrapping, decide_eq_true_eq]
  rfl

theorem toNat_divmodUnsigned (hb : b ≠ 0) :
    ((divmodUnsigned a b).1.toNat : ℤ) = (a.toNat : ℤ).fdiv b.toNat ∧
      ((divmodUnsigned a b).2.toNat : ℤ) = (a.toNat : ℤ).fmod b.toNat := by
  rw [divmodUnsigned_eq, if_neg hb]
  constructor
  · rw [BitVec.toNat_udiv, Int.natCast_ediv, Int.fdiv_eq_ediv_of_nonneg _ (Int.natCast_nonneg _)]
  · rw [BitVec.toNat_umod, Int.natCast_emod, Int.fmod_eq_emod_of_nonneg _ (Int.natCast_nonneg _)]

theorem toInt_divmodSigned (hw : 1 < w) (hb : b ≠ 0) (h : ¬ (a = BitVec.intMin w ∧ b = -1)) :
    (divmodSigned a b).1.toInt = a.toInt.fdiv b.toInt ∧
      (divmodSigned a b).2.toInt = a.toInt.fmod b.toInt := by
  have hb0 : b.toInt ≠ 0 := mt toInt_eq_zero_iff.mp hb
  have hquot : (a.sdiv b).toInt = a.toInt.tdiv b.toInt :=
    BitVec.toInt_sdiv_of_ne_or_ne a b (not_and_or.mp h)
  have hrem : (a.srem b).toInt = a.toInt.tmod b.toInt := BitVec.toInt_srem a b
  rw [divmodSigned_eq, if_neg hb, if_neg h]
  by_cases hc : a.srem b ≠ 0 ∧ (a.srem b).msb ≠ b.msb
  · rw [if_pos hc]
    obtain ⟨hq, hr⟩ := corrected_fits hw hb hc
    obtain ⟨h0, hs⟩ := corrected_iff.mp hc
    obtain ⟨eq, er⟩ := corrected_eq hb0 h0 hs
    have hsub : ¬ (a.sdiv b).ssubOverflow 1 = true := by
      rw [BitVec.ssubOverflow, hquot, toInt_one hw, Bool.or_eq_true, decide_eq_true_eq, decide_eq_true_eq]
      omega
    have hadd : ¬ (a.srem b).saddOverflow b = true := by
      rw [BitVec.saddOverflow, hrem, Bool.or_eq_true, decide_eq_true_eq, decide_eq_true_eq]
      omega
    constructor
    · rw [BitVec.toInt_sub_of_not_ssubOverflow hsub, hquot, toInt_one hw, eq]
    · rw [BitVec.toInt_add_of_not_saddOverflow hadd, hrem, er]
  · rw [if_neg hc]
    have hs : a.toInt.tmod b.toInt = 0 ∨ (a.toInt.tmod b.toInt < 0 ↔ b.toInt < 0) := by
      rw [corrected_iff, not_and_or, not_not] at hc
      exact hc.imp_right fun h => by omega
    obtain ⟨eq, er⟩ := truncated_eq hb0 hs
    exact ⟨hquot.trans eq.symm, hrem.trans er.symm⟩

end Integer

end Pointwise
