import Mathlib.Data.Rat.Defs
import Mathlib.Data.Set.Defs
import Mathlib.Tactic.Linarith
import Pointwise.Proofs.Binary.Number

/-!
# The finite values of a format

A finite value is an integral significand of limited size times a power of two of limited exponent
(`Format.values`).  These are the numbers that the finite elements of the format stand for.

* `mem_values_iff_significand`   the same with significands of the smallest exponent on upwards;
* `mem_values_iff`   a value is what a finite number of the format stands for;
* `intCast_mem_values`, `gap_not_mem_values`   the integers up to the first that is left out.
-/

namespace Pointwise

namespace Format
variable (f : Format)

def maxExponent : ℤ := 2 ^ (f.exponentBits - 1) - 1

/-- The finite values: significands of one bit more than the fraction has, scaled by a power of two
whose exponent lies between the smallest and the largest. -/
def values : Set ℚ :=
  {v | ∃ m e : ℤ, |m| < 2 ^ (f.fractionBits + 1) ∧ 1 - f.maxExponent ≤ e ∧ e ≤ f.maxExponent ∧
    v = m * 2 ^ (e - f.fractionBits)}

theorem maxExponent_eq : 2 * (f.maxExponent + 1) = (1 <<< f.exponentBits : Nat) := by
  rw [f.one_shiftLeft_exponentBits, Nat.one_shiftLeft]
  unfold maxExponent
  push_cast
  ring

theorem scale_eq : (f.scale : ℤ) = f.maxExponent - 1 + f.fractionBits := by
  have he := f.exponent_wide
  have hp : ((1 <<< (f.exponentBits - 1) : Nat) : ℤ) = 2 ^ (f.exponentBits - 1) := by
    rw [Nat.one_shiftLeft]
    push_cast
    rfl
  unfold scale maxExponent
  omega

theorem two_zpow_eq {e : ℤ} {t : Nat} (h : e = t + (1 - f.maxExponent)) :
    (2 : ℚ) ^ (e - f.fractionBits) = 2 ^ t / f.unit := by
  have hs := f.scale_eq
  have he : e - f.fractionBits = t - f.scale := by omega
  rw [he, zpow_sub₀ (two_ne_zero' ℚ), zpow_natCast, zpow_natCast, unit_eq]
  push_cast
  rfl

variable {f} {v : ℚ}

/-- Every exponent is a number of steps up from the smallest. -/
theorem mem_values_iff_significand :
    v ∈ f.values ↔ ∃ (m : ℤ) (t : Nat), m.natAbs < 2 * f.binade ∧ t + 3 ≤ 1 <<< f.exponentBits ∧
      v = m * 2 ^ t / f.unit := by
  have hm := f.maxExponent_eq
  have hb : (2 : ℤ) ^ (f.fractionBits + 1) = (2 * f.binade : Nat) := by
    rw [binade_eq, ← Nat.pow_succ']
    push_cast
    rfl
  constructor
  · rintro ⟨m, e, small, low, high, rfl⟩
    refine ⟨m, (e - (1 - f.maxExponent)).toNat, ?_, ?_, ?_⟩
    · rw [hb, Int.abs_eq_natAbs] at small
      exact_mod_cast small
    · omega
    · rw [f.two_zpow_eq (t := (e - (1 - f.maxExponent)).toNat) (by omega), mul_div_assoc]
  · rintro ⟨m, t, small, high, rfl⟩
    refine ⟨m, t + (1 - f.maxExponent), ?_, by omega, by omega, ?_⟩
    · rw [hb, Int.abs_eq_natAbs]
      exact_mod_cast small
    · rw [f.two_zpow_eq rfl, mul_div_assoc]

/-! ### values and ranks -/

theorem exists_significand_of_lt_top {k : Nat} (hk : k < f.top) :
    ∃ m t, m < 2 * f.binade ∧ t + 3 ≤ 1 <<< f.exponentBits ∧ f.quanta k = m * 2 ^ t := by
  have hw := f.exponent_wide
  have he := f.one_shiftLeft_exponentBits
  have hp := f.fraction_pos
  rcases Nat.lt_or_ge k f.binade with small | large
  · refine ⟨k, 0, by omega, by omega, ?_⟩
    rw [f.quanta_of_lt small, Nat.pow_zero, Nat.mul_one]
  · obtain ⟨t, j, hj, rfl⟩ := f.exists_place large
    refine ⟨f.binade + j, t, by omega, ?_, f.quanta_binade t hj⟩
    have hlt : (t + 1) * f.binade < (1 <<< f.exponentBits - 1) * f.binade :=
      Nat.lt_of_le_of_lt (Nat.le_add_right _ j) hk
    have := Nat.lt_of_mul_lt_mul_right hlt
    omega

theorem exists_rank_of_significand {m t : Nat} (hm : m < 2 * f.binade)
    (ht : t + 3 ≤ 1 <<< f.exponentBits) : ∃ k < f.top, f.quanta k = m * 2 ^ t := by
  obtain ⟨k, hk⟩ := f.exists_quanta hm t
  refine ⟨k, ?_, hk⟩
  apply f.quanta_strictMono.lt_iff_lt.mp
  rw [hk, quanta_top]
  have steps : f.fractionBits + (1 <<< f.exponentBits - 2) = (f.fractionBits + 1)
      + (1 <<< f.exponentBits - 3) := by omega
  have less : m * 2 ^ t < 2 * f.binade * 2 ^ t :=
    Nat.mul_lt_mul_of_pos_right hm (Nat.two_pow_pos t)
  rw [steps, Nat.pow_add, Nat.pow_succ', ← binade_eq]
  exact Nat.lt_of_lt_of_le less
    (Nat.mul_le_mul_left _ (Nat.pow_le_pow_right (by decide) (by omega)))

end Format

namespace Binary
variable {f : Format} {v : ℚ}

theorem exists_of_number {x : Binary f} {s : Bool} (h : x.number = .finite s v) :
    ∃ k < f.top, v = ((signed s (f.quanta k) : ℤ) : ℚ) / f.unit := by
  cases x with
  | nan t => cases h
  | infinite t => cases h
  | finite t k hk =>
    obtain ⟨rfl, rfl⟩ := Number.finite.inj h
    exact ⟨k, hk, rfl⟩

/-- The values of a format are what its finite numbers stand for. -/
theorem mem_values_iff : v ∈ f.values ↔ ∃ (x : Binary f) (s : Bool), x.number = .finite s v := by
  rw [Format.mem_values_iff_significand]
  constructor
  · rintro ⟨m, t, hm, ht, rfl⟩
    obtain ⟨k, hk, e⟩ := Format.exists_rank_of_significand hm ht
    refine ⟨finite (decide (m < 0)) k hk, decide (m < 0), ?_⟩
    show Number.finite _ _ = Number.finite _ _
    congr 2
    rw [e, signed_mul, signed_natAbs]
    push_cast
    rfl
  · rintro ⟨x, s, hx⟩
    obtain ⟨k, hk, rfl⟩ := exists_of_number hx
    obtain ⟨m, t, hm, ht, e⟩ := Format.exists_significand_of_lt_top hk
    refine ⟨signed s m, t, ?_, ht, ?_⟩
    · cases s <;> simp only [signed_true, signed_false] <;> omega
    · rw [e, signed_mul]
      push_cast
      rfl

end Binary

/-! ### integers among the values -/

namespace Format
variable (f : Format)

theorem intCast_mem_values {i : ℤ} (hi : i.natAbs ≤ 2 * f.binade) : (i : ℚ) ∈ f.values :=
  Binary.mem_values_iff.mpr ⟨Binary.ofInt i, _, Binary.number_ofInt hi⟩

theorem half_mem_values : (1 / 2 : ℚ) ∈ f.values := by
  have hw := f.exponent_wide
  have he := f.one_shiftLeft_exponentBits
  have hp := f.fraction_pos
  have hs : f.scale - 1 + 1 = f.scale := by
    unfold scale
    omega
  have hb := f.binade_pos
  refine mem_values_iff_significand.mpr ⟨1, f.scale - 1, by omega, ?_, ?_⟩
  · unfold scale
    omega
  · have hne : (2 : ℚ) ^ (f.scale - 1) ≠ 0 := pow_ne_zero _ two_ne_zero
    rw [unit_eq, Nat.cast_pow, Nat.cast_ofNat, ← hs, pow_succ, Nat.add_sub_cancel]
    field_simp
    norm_num

/-- The first positive integer that a format leaves out. -/
def gap : ℤ := 2 ^ (f.fractionBits + 1) + 1

/-- An odd integer takes as many bits of significand as it has itself. -/
theorem gap_not_mem_values : (f.gap : ℚ) ∉ f.values := by
  rw [mem_values_iff_significand]
  rintro ⟨m, t, hm, -, h⟩
  rw [eq_div_iff (Binary.unit_ne_zero f), unit_eq, Nat.cast_pow, Nat.cast_ofNat] at h
  have equation : f.gap * 2 ^ f.scale = m * 2 ^ t := by exact_mod_cast h
  have hb : (2 : ℤ) ^ (f.fractionBits + 1) = 2 * f.binade := by
    rw [binade_eq, pow_succ']
    push_cast
    rfl
  have hgap : f.gap = 2 * f.binade + 1 := by
    unfold gap
    rw [hb]
  rcases Nat.le_total t f.scale with le | le
  · -- the significand would be no less than the integer itself
    have split : (2 : ℤ) ^ f.scale = 2 ^ (f.scale - t) * 2 ^ t := by
      rw [← pow_add, Nat.sub_add_cancel le]
    rw [split, ← mul_assoc] at equation
    have hm' := mul_right_cancel₀ (pow_ne_zero t two_ne_zero) equation
    have one : (1 : ℤ) ≤ 2 ^ (f.scale - t) := one_le_pow₀ (by decide)
    have : f.gap ≤ m := by
      rw [← hm']
      nlinarith
    omega
  · -- the integer would be even
    obtain ⟨d, rfl⟩ := Nat.exists_eq_add_of_le le
    rw [pow_add, mul_comm (2 ^ f.scale), ← mul_assoc] at equation
    have hgap' := mul_right_cancel₀ (pow_ne_zero f.scale two_ne_zero) equation
    cases d with
    | zero =>
      rw [pow_zero, mul_one] at hgap'
      omega
    | succ d =>
      rw [pow_succ, ← mul_assoc] at hgap'
      omega

end Format

end Pointwise
