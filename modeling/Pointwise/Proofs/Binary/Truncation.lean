import Mathlib.Data.Rat.Floor
import Pointwise.Proofs.Binary.Correct
import Pointwise.Proofs.Binary.Snap

/-!
# Truncation to an integer

The integral part of a finite number is that of its value, cut off towards zero and then at the two
bounds.  Larger numbers have no smaller integral parts.  An integer that is rounded to a number of a
format is rounded to an integer.

* `wholePart`   a rational cut off towards zero;
* `truncate_of_number`   truncation by what a number stands for;
* `truncate_mono`   it is monotone;
* `exists_hasValue_ofInt`   what an integer is rounded to is an integer.
-/

namespace Pointwise

/-! ### rationals -/

/-- The integer next to a rational on the side of zero. -/
def wholePart (v : ℚ) : ℤ := if 0 ≤ v then ⌊v⌋ else ⌈v⌉

theorem wholePart_intCast (i : ℤ) : wholePart i = i := by
  unfold wholePart
  rw [Int.floor_intCast, Int.ceil_intCast, ite_self]

theorem wholePart_mono {a b : ℚ} (h : a ≤ b) : wholePart a ≤ wholePart b := by
  unfold wholePart
  by_cases ha : 0 ≤ a
  · rw [if_pos ha, if_pos (ha.trans h)]
    exact Int.floor_le_floor h
  · rw [if_neg ha]
    have nonpos : ⌈a⌉ ≤ 0 := Int.ceil_le.mpr (by exact_mod_cast (not_le.mp ha).le)
    by_cases hb : 0 ≤ b
    · rw [if_pos hb]
      exact nonpos.trans (Int.floor_nonneg.mpr hb)
    · rw [if_neg hb]
      exact Int.ceil_le_ceil h

theorem wholePart_signed (s : Bool) (n d : Nat) :
    wholePart ((signed s n : ℤ) / (d : ℚ)) = signed s (n / d) := by
  have quotient : (0 : ℚ) ≤ (n : ℚ) / d := div_nonneg n.cast_nonneg d.cast_nonneg
  have floor : ⌊(n : ℚ) / d⌋ = (n / d : Nat) := Rat.floor_natCast_div_natCast n d
  unfold wholePart
  cases s with
  | false =>
    rw [signed_false, signed_false, Int.cast_natCast, if_pos quotient]
    exact floor
  | true =>
    rw [signed_true, signed_true, Int.cast_neg, Int.cast_natCast, neg_div]
    by_cases none : 0 ≤ -((n : ℚ) / d)
    · -- only zero is not negative
      have zero : (n : ℚ) / d = 0 := le_antisymm (neg_nonneg.mp none) quotient
      rw [zero, Int.floor_zero] at floor
      rw [if_pos none, zero, neg_zero, Int.floor_zero, ← floor, neg_zero]
    · rw [if_neg none, Int.ceil_neg, floor]

namespace Binary
variable {f : Format} {x y : Binary f} {low high : ℤ}

/-! ### truncation -/

/-- The integral part by what a number stands for. -/
theorem truncate_of_number :
    (x.number = .nan → x.truncate low high = 0) ∧
    (∀ s, x.number = .infinite s → x.truncate low high = if s then low else high) ∧
    ∀ s v, x.number = .finite s v → x.truncate low high = max low (min high (wholePart v)) := by
  cases x with
  | nan s => exact ⟨fun _ => rfl, nofun, nofun⟩
  | infinite s =>
    refine ⟨nofun, fun t h => ?_, nofun⟩
    obtain rfl := Number.infinite.inj h
    rfl
  | finite s k hk =>
    refine ⟨nofun, nofun, fun t v h => ?_⟩
    obtain ⟨-, rfl⟩ := Number.finite.inj h
    rw [wholePart_signed]
    rfl

theorem truncate_bounds (h : low ≤ high) (hx : x.isNaN = false) :
    low ≤ x.truncate low high ∧ x.truncate low high ≤ high := by
  cases x with
  | nan s => cases hx
  | infinite s =>
    cases s with
    | false => exact ⟨h, le_refl high⟩
    | true => exact ⟨le_refl low, h⟩
  | finite s k hk => exact ⟨le_max_left _ _, max_le h (min_le_left _ _)⟩

theorem le_iff_quanta (hx : x.isFinite = true) (hy : y.isFinite = true) :
    x.le y = true ↔ x.quanta ≤ y.quanta := by
  obtain ⟨s, j, hj, rfl⟩ := exists_finite hx
  obtain ⟨t, k, hk, rfl⟩ := exists_finite hy
  rw [quanta_finite, quanta_finite, signed_quanta_le_iff]
  exact decide_eq_true_iff

theorem isNaN_of_le (le : x.le y = true) : x.isNaN = false ∧ y.isNaN = false := by
  cases x with
  | nan s => cases le
  | infinite s => cases y <;> first | exact ⟨rfl, rfl⟩ | cases le
  | finite s k hk => cases y <;> first | exact ⟨rfl, rfl⟩ | cases le

/-- Larger numbers have no smaller integral parts. -/
theorem truncate_mono (h : low ≤ high) (le : x.le y = true) :
    x.truncate low high ≤ y.truncate low high := by
  obtain ⟨hx, hy⟩ := isNaN_of_le le
  obtain ⟨least, most⟩ := truncate_bounds h hx
  obtain ⟨least', most'⟩ := truncate_bounds h hy
  cases x with
  | nan s => cases hx
  | infinite s =>
    cases s with
    | true => exact least'
    | false =>
      -- nothing but itself is as large
      cases y with
      | nan t => cases hy
      | infinite t =>
        cases t with
        | false => exact le_refl high
        | true =>
          have order := of_decide_eq_true le
          have top := f.top_pos
          rw [signed_false, signed_true] at order
          omega
      | finite t k hk =>
        have order := of_decide_eq_true le
        have below := (abs_signed_lt t hk).2
        rw [signed_false] at order
        omega
  | finite s j hj =>
    cases y with
    | nan t => cases hy
    | infinite t =>
      cases t with
      | false => exact most
      | true =>
        have order := of_decide_eq_true le
        have above := (abs_signed_lt s hj).1
        rw [signed_true] at order
        omega
    | finite t k hk =>
      have hu : (0 : ℚ) < f.unit := Nat.cast_pos.mpr f.unit_pos
      have quanta := (le_iff_quanta rfl rfl).mp le
      have value : ((finite s j hj : Binary f).quanta : ℚ) / f.unit
          ≤ (finite t k hk : Binary f).quanta / f.unit :=
        div_le_div_of_nonneg_right (Int.cast_le.mpr quanta) hu.le
      rw [truncate_of_number.2.2 _ _ (number_eq_finite rfl),
        truncate_of_number.2.2 _ _ (number_eq_finite rfl)]
      exact max_le_max_left _ (min_le_min_left _ (wholePart_mono value))

/-! ### integers -/

theorem natAbs_quanta_ofQuanta {s : Bool} {z : ℤ}
    (finite : (ofQuanta s z 1 : Binary f).isFinite = true) :
    (ofQuanta s z 1 : Binary f).quanta.natAbs = f.quanta (f.nearest z.natAbs 1) := by
  unfold ofQuanta at finite ⊢
  by_cases h0 : z = 0
  · subst h0
    rw [if_pos rfl, round_zero, quanta_zero, Int.natAbs_zero, f.nearest_zero, f.quanta_zero]
  · rw [if_neg h0] at finite ⊢
    unfold round ofRank at finite ⊢
    by_cases room : f.nearest z.natAbs 1 < f.top
    · rw [dif_pos room, quanta_finite, natAbs_signed]
    · rw [dif_neg room] at finite
      cases finite

/-- An integer is rounded to an integer. -/
theorem exists_hasValue_ofInt {i : ℤ} (finite : (ofInt i : Binary f).isFinite = true) :
    ∃ n : ℤ, (ofInt i : Binary f).HasValue n := by
  by_cases small : i.natAbs ≤ 2 * f.binade
  · exact ⟨i, hasValue_ofInt small⟩
  · -- from the first integer that is left out on, there is nothing but integers
    obtain ⟨l, -, integer⟩ := f.exists_rank_of_le (Nat.le_refl (2 * f.binade))
    have above : f.quanta l * 1 ≤ (i * (f.unit : ℤ)).natAbs := by
      rw [Nat.mul_one, ← integer, Int.natAbs_mul, Int.natAbs_natCast]
      exact Nat.mul_le_mul_right _ (Nat.le_of_lt (Nat.lt_of_not_le small))
    have large := f.quanta_strictMono.monotone (Format.le_nearest Nat.one_pos above)
    rw [← integer, ← natAbs_quanta_ofQuanta finite] at large
    obtain ⟨n, hn⟩ := unit_dvd_of_large finite (Nat.not_lt.mpr large)
    rw [Int.mul_comm] at hn
    exact ⟨n, hasValue_intCast finite hn⟩

end Binary

end Pointwise
