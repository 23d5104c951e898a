import Pointwise.Proofs.Binary.Remainder

/-!
# Bringing a number to an integer

The floor of a number is exact: below a significand of ones the integers are all there, and above it
there is nothing but integers.  The step from the floor to the integer above is taken by a rounded
comparison, which is certain only at some distance from the half.

* `exists_floor`   the floor in quanta;
* `exists_snap`   the integer is the floor or the one above, and the nearest one where that is no
  more than a quarter away.
-/

namespace Pointwise

namespace Format
variable (f : Format)

/-- Above all integers of one significand, magnitudes are even integers. -/
theorem two_unit_dvd_quanta {k : Nat} (h : 2 * f.binade * f.unit ≤ f.quanta k) :
    2 * f.unit ∣ f.quanta k := by
  obtain ⟨m, t, hm, value⟩ := f.exists_significand k
  have less : f.scale < t := by
    by_contra le
    have bound : m * 2 ^ t ≤ m * f.unit := by
      rw [unit_eq]
      exact Nat.mul_le_mul_left _ (Nat.pow_le_pow_right (by decide) (Nat.le_of_not_lt le))
    have strict : m * f.unit < 2 * f.binade * f.unit := Nat.mul_lt_mul_of_pos_right hm f.unit_pos
    omega
  rw [value, unit_eq, ← Nat.pow_succ']
  exact (Nat.pow_dvd_pow 2 less).mul_left m

/-- Quarters of at most one significand are magnitudes. -/
theorem exists_quarter {m : Nat} (hm : m < 2 * f.binade) : ∃ k, 4 * f.quanta k = m * f.unit := by
  have he := f.exponent_wide
  have hp := f.fraction_pos
  have hs : f.scale - 2 + 2 = f.scale := by
    unfold scale
    omega
  obtain ⟨k, hk⟩ := f.exists_quanta hm (f.scale - 2)
  refine ⟨k, ?_⟩
  rw [hk, unit_eq, ← hs, Nat.pow_add, Nat.add_sub_cancel]
  ring

/-- Where quarters give way to halves the significand is even. -/
theorem exists_even_quarter : ∃ k, Even k ∧ 2 * f.quanta k = f.binade * f.unit ∧
    2 * f.quanta (k + 1) = (f.binade + 1) * f.unit := by
  have he := f.exponent_wide
  have hp := f.fraction_pos
  have hb := f.binade_pos
  have hs : f.scale - 2 + 2 = f.scale := by
    unfold scale
    omega
  have unit : f.unit = 4 * 2 ^ (f.scale - 2) := by
    rw [unit_eq, ← hs, Nat.pow_add, Nat.add_sub_cancel]
    ring
  have next : (f.scale - 2) * f.binade + 2 * f.binade + 1
      = (f.scale - 2 + 1) * f.binade + (f.binade + 1) := by ring
  refine ⟨(f.scale - 2) * f.binade + 2 * f.binade, ?_, ?_, ?_⟩
  · exact (f.even_binade.mul_left _).add (f.even_binade.mul_left _)
  · rw [f.quanta_place_of_le (Nat.le_refl _) (.inr (by omega)), unit]
    ring
  · rw [next, f.quanta_place_of_le (by omega) (.inr (by omega)), unit, Nat.pow_succ]
    ring

theorem two_le_binade : 2 ≤ f.binade := by
  have h : 2 ^ 1 ≤ 2 ^ f.fractionBits := Nat.pow_le_pow_right (by decide) f.fraction_pos
  rw [binade_eq]
  exact h

end Format

namespace Binary
variable {f : Format} {x y : Binary f}

theorem lt_iff_quanta (hx : x.isFinite = true) (hy : y.isFinite = true) :
    x.lt y = true ↔ x.quanta < y.quanta := by
  obtain ⟨s, j, hj, rfl⟩ := exists_finite hx
  obtain ⟨t, k, hk, rfl⟩ := exists_finite hy
  rw [quanta_finite, quanta_finite, ← Int.not_le, signed_quanta_le_iff, Int.not_le]
  exact decide_eq_true_iff

theorem quanta_ofInt {i : ℤ} (h : i.natAbs ≤ 2 * f.binade) :
    (ofInt i : Binary f).quanta = i * f.unit := by
  obtain ⟨l, hl, e⟩ := f.exists_rank_of_le h
  rw [ofInt_eq_finite hl e, quanta_finite, ← e, signed_mul, signed_natAbs]

theorem quanta_one : (one : Binary f).quanta = f.unit := by
  have hb := f.binade_pos
  have value := quanta_ofInt (f := f) (i := 1) (by omega)
  rwa [Int.one_mul] at value

theorem quanta_half : (half : Binary f).isFinite = true ∧ 2 * (half : Binary f).quanta = f.unit := by
  have hb := f.two_le_binade
  obtain ⟨k, hk⟩ := f.exists_quarter (m := 2) (by omega)
  have hu := f.unit_pos
  have one := quanta_one (f := f)
  obtain ⟨l, hl, natAbs⟩ := exists_natAbs_quanta (isFinite_one (f := f))
  rw [one, Int.natAbs_natCast] at natAbs
  have lt : k < f.top := by
    refine Nat.lt_trans ?_ hl
    rw [← f.quanta_strictMono.lt_iff_lt, ← natAbs]
    omega
  have value : (half : Binary f) = finite false k lt := by
    have twice : f.unit = f.quanta k * 2 := by omega
    unfold half
    rw [twice, round_quanta false lt (by decide)]
  rw [value, quanta_finite, signed_false]
  exact ⟨rfl, by omega⟩

/-- An integer of at most one significand is a sum without rounding. -/
theorem exists_ofQuanta_unit {i : ℤ} (h : i.natAbs ≤ 2 * f.binade) (s : Bool) :
    (ofQuanta s (i * f.unit) 1 : Binary f).isFinite = true ∧
      (ofQuanta s (i * f.unit) 1 : Binary f).quanta = i * f.unit := by
  obtain ⟨l, hl, e⟩ := f.exists_rank_of_le h
  have natAbs : (i * (f.unit : ℤ)).natAbs = f.quanta l := by
    rw [Int.natAbs_mul, Int.natAbs_natCast, e]
  obtain ⟨t, value, sign⟩ := exists_ofQuanta natAbs hl s
  rw [value]
  exact ⟨rfl, sign⟩

/-- A finite number of quanta comes back as it is. -/
theorem exists_ofQuanta_quanta (hx : x.isFinite = true) (s : Bool) :
    (ofQuanta s x.quanta 1 : Binary f).isFinite = true ∧
      (ofQuanta s x.quanta 1 : Binary f).quanta = x.quanta := by
  obtain ⟨l, hl, natAbs⟩ := exists_natAbs_quanta hx
  obtain ⟨t, value, sign⟩ := exists_ofQuanta natAbs hl s
  rw [value]
  exact ⟨rfl, sign⟩

/-- Rounding does not go below a magnitude that the exact number is above. -/
theorem le_quanta_ofQuanta {k : Nat} {z : ℤ} {s : Bool} (h : f.quanta k ≤ z)
    (finite : (ofQuanta s z 1 : Binary f).isFinite = true) :
    f.quanta k ≤ (ofQuanta s z 1 : Binary f).quanta := by
  unfold ofQuanta at finite ⊢
  by_cases h0 : z = 0
  · rw [if_pos h0, round_zero, quanta_zero, ← h0]
    exact h
  · rw [if_neg h0, decide_eq_false (by omega)] at finite ⊢
    have le := Format.le_nearest (f := f) (n := z.natAbs) (m := k) Nat.one_pos (by omega)
    unfold round ofRank at finite ⊢
    by_cases room : f.nearest z.natAbs 1 < f.top
    · rw [dif_pos room]
      exact Int.ofNat_le.mpr (f.quanta_strictMono.monotone le)
    · rw [dif_neg room] at finite
      cases finite

/-! ### the floor -/

section
variable (z : ℤ) (f : Format)

/-- The whole part of a number of quanta and what is left above it. -/
theorem fdiv_unit : z.fdiv f.unit * f.unit + z.fmod f.unit = z ∧ 0 ≤ z.fmod f.unit ∧
    z.fmod f.unit < f.unit := by
  have hu : (0 : ℤ) < f.unit := Int.natCast_pos.mpr f.unit_pos
  refine ⟨?_, Int.fmod_nonneg_of_pos z hu, Int.fmod_lt_of_pos z hu⟩
  rw [Int.mul_comm]
  exact Int.mul_fdiv_add_fmod z f.unit

variable {z f}

theorem fdiv_unit_bounds {m : Nat} (h : z.natAbs ≤ m * f.unit) :
    -(m : ℤ) ≤ z.fdiv f.unit ∧ z.fdiv f.unit ≤ m ∧ (z < m * f.unit → z.fdiv f.unit < m) := by
  have hu : (0 : ℤ) < f.unit := Int.natCast_pos.mpr f.unit_pos
  obtain ⟨split, nonneg, less⟩ := fdiv_unit z f
  have bound : |z| ≤ m * f.unit := by
    rw [Int.abs_eq_natAbs]
    exact_mod_cast h
  obtain ⟨least, most⟩ := abs_le.mp bound
  refine ⟨?_, ?_, fun strict => ?_⟩
  · refine Int.le_of_lt_add_one (Int.lt_of_mul_lt_mul_right (a := (f.unit : ℤ)) ?_ hu.le)
    rw [Int.add_mul, Int.neg_mul]
    omega
  · refine Int.le_of_mul_le_mul_right (a := (f.unit : ℤ)) ?_ hu
    omega
  · refine Int.lt_of_mul_lt_mul_right (a := (f.unit : ℤ)) ?_ hu.le
    omega

/-- Two integers are the same if one number lies within a quarter of the one and three quarters of
the other. -/
theorem eq_of_near {z u n m : ℤ} (hu : 0 < u) (hn : 4 * |z - n * u| < 3 * u)
    (hm : 4 * |z - m * u| ≤ u) : n = m := by
  have apart : |(n - m) * u| < 1 * u := by
    have triangle := abs_sub_le (n * u) z (m * u)
    rw [abs_sub_comm (n * u) z] at triangle
    rw [Int.sub_mul]
    omega
  rw [abs_mul, abs_of_pos hu] at apart
  exact Int.sub_eq_zero.mp (Int.abs_lt_one_iff.mp (Int.lt_of_mul_lt_mul_right apart hu.le))

end

section
variable (hx : x.isFinite = true)
include hx

/-- Nothing is left above the floor of a number that is no integer of one significand. -/
theorem unit_dvd_of_large (large : ¬ x.quanta.natAbs < 2 * f.binade * f.unit) :
    (f.unit : ℤ) ∣ x.quanta := by
  obtain ⟨k, hk, natAbs⟩ := exists_natAbs_quanta hx
  rw [Int.natCast_dvd, natAbs]
  exact (Nat.dvd_mul_left _ 2).trans (f.two_unit_dvd_quanta (by omega))

theorem exists_floor :
    x.floor.isFinite = true ∧ x.floor.quanta = x.quanta.fdiv f.unit * f.unit := by
  have floor : x.floor = ofQuanta x.isNegative (x.quanta.fdiv f.unit * f.unit) 1 := by
    obtain ⟨s, k, hk, rfl⟩ := exists_finite hx
    rfl
  rw [floor]
  by_cases small : x.quanta.natAbs < 2 * f.binade * f.unit
  · obtain ⟨least, most, -⟩ := fdiv_unit_bounds (Nat.le_of_lt small)
    exact exists_ofQuanta_unit (by omega) _
  · rw [Int.fdiv_mul_cancel (unit_dvd_of_large hx small)]
    exact exists_ofQuanta_quanta hx _

/-! ### the integer -/

/-- What is left above the floor is compared with a half after it is rounded. -/
theorem fraction_bounds :
    (2 * x.quanta.fmod f.unit ≤ f.unit → half.lt (x.sub x.floor) = false) ∧
      (3 * f.unit ≤ 4 * x.quanta.fmod f.unit → half.lt (x.sub x.floor) = true) := by
  obtain ⟨isHalf, half⟩ := quanta_half (f := f)
  obtain ⟨split, nonneg, less⟩ := fdiv_unit x.quanta f
  have one := quanta_one (f := f)
  obtain ⟨floorFinite, value⟩ := exists_floor hx
  have fraction : x.quanta - x.floor.quanta = x.quanta.fmod f.unit := by omega
  rw [sub_eq_ofQuanta hx floorFinite, fraction]
  generalize x.quanta.fmod f.unit = r at nonneg less
  obtain ⟨finite, -⟩ := ofQuanta_of_le isFinite_one (z := r) (by omega)
    (x.isNegative && !x.floor.isNegative)
  refine ⟨fun small => ?_, fun large => ?_⟩
  · obtain ⟨-, le⟩ := ofQuanta_of_le isHalf (z := r) (by omega)
      (x.isNegative && !x.floor.isNegative)
    rw [abs_le_abs_iff finite isHalf] at le
    rw [← Bool.not_eq_true, lt_iff_quanta isHalf finite]
    omega
  · have hb := f.two_le_binade
    obtain ⟨k, hk⟩ := f.exists_quarter (m := 3) (by omega)
    have above := le_quanta_ofQuanta (k := k) (z := r) (by omega) finite
    rw [lt_iff_quanta isHalf finite]
    omega

/-- The integer above the floor is not rounded, where anything is left above the floor. -/
theorem exists_ceiling (h : x.quanta.fmod f.unit ≠ 0) : (x.floor.add one).isFinite = true ∧
    (x.floor.add one).quanta = (x.quanta.fdiv f.unit + 1) * f.unit := by
  have small : x.quanta.natAbs < 2 * f.binade * f.unit := by
    by_contra large
    exact h (Int.fmod_eq_zero_of_dvd (unit_dvd_of_large hx large))
  obtain ⟨least, -, most⟩ := fdiv_unit_bounds (Nat.le_of_lt small)
  have strict := most (by omega)
  obtain ⟨finite, value⟩ := exists_floor hx
  have sum : (x.quanta.fdiv f.unit + 1) * f.unit = x.floor.quanta + (one : Binary f).quanta := by
    rw [value, quanta_one, Int.add_mul, Int.one_mul]
  rw [add_eq_ofQuanta finite isFinite_one, ← sum]
  exact exists_ofQuanta_unit (by omega) _

/-- **A number is brought to one of the two integers beside it**, and to the nearer one if that is
no more than a quarter away. -/
theorem exists_snap : (snap x).isFinite = true ∧ ∃ n : ℤ, (snap x).quanta = n * f.unit ∧
    |x.quanta - n * f.unit| < f.unit ∧
    ∀ m : ℤ, 4 * |x.quanta - m * f.unit| ≤ f.unit → n = m := by
  have hu : (0 : ℤ) < f.unit := Int.natCast_pos.mpr f.unit_pos
  obtain ⟨split, nonneg, less⟩ := fdiv_unit x.quanta f
  obtain ⟨small, large⟩ := fraction_bounds hx
  obtain ⟨floorFinite, floor⟩ := exists_floor hx
  have equation : snap x = if half.lt (x.sub x.floor) then x.floor.add one else x.floor := rfl
  by_cases above : half.lt (x.sub x.floor) = true
  · have rest : f.unit < 2 * x.quanta.fmod f.unit := by
      by_contra le
      rw [small (by omega)] at above
      cases above
    obtain ⟨finite, value⟩ := exists_ceiling hx (by omega)
    rw [equation, if_pos above]
    refine ⟨finite, _, value, ?_, fun m near => ?_⟩
    · rw [Int.add_mul, abs_lt]
      omega
    · refine eq_of_near hu ?_ near
      rw [Int.add_mul, abs_of_nonpos (by omega)]
      omega
  · rw [equation, if_neg above]
    refine ⟨floorFinite, _, floor, ?_, fun m near => ?_⟩
    · rw [abs_lt]
      omega
    · refine eq_of_near hu ?_ near
      rw [abs_of_nonneg (by omega)]
      by_contra far
      exact above (large (by omega))

end

end Binary

end Pointwise
