import Pointwise.Proofs.Binary.Quanta
import Pointwise.Proofs.Element.Commutative

/-!
# Operands that are not finite

What is not finite stays so in sums and products, and in a quotient as the dividend.  A product with
infinity is infinite or undefined, one with zero is zero or undefined.

* `isFinite_add_left`, `isFinite_mul_left`, `isFinite_div_left` and their like;
* `infinite_add`   a finite term does not count beside infinity;
* `isInfinite_infinite_mul`, `eq_zero_zero_mul`   products with infinity and with zero;
* `finite_div_infinite`   a finite number over infinity is zero.
-/

namespace Pointwise

namespace Binary
variable {f : Format} {x y : Binary f}

/-! ### not a number -/

theorem nan_add (s : Bool) (x : Binary f) : (nan s).add x = nan false := rfl
theorem nan_div (s : Bool) (x : Binary f) : (nan s).div x = nan false := rfl
theorem nan_sub (s : Bool) (x : Binary f) : (nan s).sub x = nan false := rfl

theorem add_nan (x : Binary f) (s : Bool) : x.add (nan s) = nan false := by cases x <;> rfl
theorem div_nan (x : Binary f) (s : Bool) : x.div (nan s) = nan false := by cases x <;> rfl
theorem mul_nan (x : Binary f) (s : Bool) : x.mul (nan s) = nan false := by cases x <;> rfl
theorem sub_nan (x : Binary f) (s : Bool) : x.sub (nan s) = nan false := add_nan x _

theorem exists_nan (h : x.isNaN = true) : ∃ s, x = nan s := by
  cases x with
  | nan s => exact ⟨s, rfl⟩
  | infinite s => cases h
  | finite s k hk => cases h

theorem exists_infinite (h : x.isInfinite = true) : ∃ s, x = infinite s := by
  cases x with
  | nan s => cases h
  | infinite s => exact ⟨s, rfl⟩
  | finite s k hk => cases h

/-- What is not finite is infinite or not a number. -/
theorem isInfinite_of_isFinite_false (hx : x.isFinite = false) : x.isInfinite = !x.isNaN := by
  cases x with
  | nan s => rfl
  | infinite s => rfl
  | finite s k hk => cases hx

theorem isFinite_of_isNaN_false (hx : x.isNaN = false) : x.isFinite = !x.isInfinite := by
  cases x with
  | nan s => cases hx
  | infinite s => rfl
  | finite s k hk => rfl

theorem isFinite_of_isInfinite (h : x.isInfinite = true) : x.isFinite = false := by
  obtain ⟨s, rfl⟩ := exists_infinite h
  rfl

theorem isNaN_of_isFinite (h : x.isFinite = true) : x.isNaN = false := by
  obtain ⟨s, k, hk, rfl⟩ := exists_finite h
  rfl

theorem isInfinite_of_isFinite (h : x.isFinite = true) : x.isInfinite = false := by
  obtain ⟨s, k, hk, rfl⟩ := exists_finite h
  rfl

/-! ### not finite -/

theorem isFinite_add_left (hx : x.isFinite = false) (y : Binary f) :
    (x.add y).isFinite = false := by
  cases x with
  | nan s => rfl
  | infinite s =>
    cases y with
    | nan t => rfl
    | infinite t =>
      show (if s = t then infinite s else nan false : Binary f).isFinite = false
      split <;> rfl
    | finite t k hk => rfl
  | finite s k hk => cases hx

theorem isFinite_add_right (x : Binary f) (hy : y.isFinite = false) :
    (x.add y).isFinite = false := by
  rw [Binary.add_comm]
  exact isFinite_add_left hy x

theorem isFinite_neg_iff (x : Binary f) : x.neg.isFinite = x.isFinite := by
  cases x <;> rfl

theorem isFinite_sub_left (hx : x.isFinite = false) (y : Binary f) :
    (x.sub y).isFinite = false := isFinite_add_left hx _

theorem isFinite_sub_right (x : Binary f) (hy : y.isFinite = false) :
    (x.sub y).isFinite = false := by
  rw [← isFinite_neg_iff] at hy
  exact isFinite_add_right x hy

theorem isFinite_mul_left (hx : x.isFinite = false) (y : Binary f) :
    (x.mul y).isFinite = false := by
  cases x with
  | nan s => rfl
  | infinite s =>
    cases y with
    | nan t => rfl
    | infinite t => rfl
    | finite t k hk =>
      show (if k = 0 then nan false else infinite _ : Binary f).isFinite = false
      split <;> rfl
  | finite s k hk => cases hx

theorem isFinite_div_left (hx : x.isFinite = false) (y : Binary f) :
    (x.div y).isFinite = false := by
  cases x with
  | nan s => rfl
  | infinite s => cases y <;> rfl
  | finite s k hk => cases hx

/-! ### infinity and zero -/

theorem infinite_add (s : Bool) (hx : x.isFinite = true) : (infinite s).add x = infinite s := by
  obtain ⟨t, k, hk, rfl⟩ := exists_finite hx
  rfl

theorem eq_zero_infinite (s : Bool) : (infinite s : Binary f).eq (zero false) = false := by
  have nonzero := eq_zero_ofRank (f := f) s f.top_pos
  unfold ofRank at nonzero
  rwa [dif_neg (Nat.lt_irrefl _)] at nonzero

theorem isFinite_of_eq_zero (h : x.eq (zero false) = true) : x.isFinite = true := by
  cases x with
  | nan s => cases h
  | infinite s =>
    rw [eq_zero_infinite] at h
    cases h
  | finite s k hk => rfl

def Nonzero (x : Binary f) : Prop := x.isNaN = false ∧ x.eq (zero false) = false

theorem nonzero_of_isInfinite (h : x.isInfinite = true) : x.Nonzero := by
  obtain ⟨s, rfl⟩ := exists_infinite h
  exact ⟨rfl, eq_zero_infinite s⟩

/-- A product with infinity is infinite, but for a factor of zero or one that is undefined. -/
theorem isInfinite_infinite_mul (s : Bool) : ((infinite s).mul x).isInfinite = true ↔ x.Nonzero := by
  cases x with
  | nan t => exact iff_of_false Bool.false_ne_true fun h => Bool.false_ne_true h.1.symm
  | infinite t => exact iff_of_true rfl (nonzero_of_isInfinite rfl)
  | finite t k hk =>
    unfold Nonzero
    rw [eq_zero, decide_eq_false_iff_not]
    show (if k = 0 then nan false else infinite _ : Binary f).isInfinite = true ↔ _
    by_cases h0 : k = 0
    · rw [if_pos h0]
      exact iff_of_false Bool.false_ne_true fun h => h.2 h0
    · rw [if_neg h0]
      exact iff_of_true rfl ⟨rfl, h0⟩

theorem zero_mul_finite (s : Bool) (hx : x.isFinite = true) : ∃ t, (zero s).mul x = zero t := by
  obtain ⟨t, k, hk, rfl⟩ := exists_finite hx
  refine ⟨s ^^ t, ?_⟩
  show round (s ^^ t) (f.quanta 0 * f.quanta k) f.unit = _
  rw [f.quanta_zero, Nat.zero_mul, round_zero]

theorem finite_mul_zero (hx : x.isFinite = true) (s : Bool) : ∃ t, x.mul (zero s) = zero t := by
  rw [Binary.mul_comm]
  exact zero_mul_finite s hx

theorem isFinite_add_zero (hx : x.isFinite = true) (s : Bool) : (x.add (zero s)).isFinite = true := by
  obtain ⟨k, hk, natAbs⟩ := exists_natAbs_quanta hx
  refine isFinite_add hx rfl (k := k) ?_ hk
  rw [quanta_zero, Int.add_zero, natAbs]

theorem isFinite_sub_zero (hx : x.isFinite = true) (s : Bool) : (x.sub (zero s)).isFinite = true :=
  isFinite_add_zero hx _

theorem isFinite_zero_add (s : Bool) (hx : x.isFinite = true) : ((zero s).add x).isFinite = true := by
  rw [Binary.add_comm]
  exact isFinite_add_zero hx s

theorem isFinite_zero_sub (s : Bool) (hx : x.isFinite = true) : ((zero s).sub x).isFinite = true :=
  isFinite_zero_add s (isFinite_neg hx)

/-- A product with zero is zero, but for a factor that is not finite. -/
theorem eq_zero_zero_mul (s : Bool) (x : Binary f) :
    ((zero s).mul x).eq (zero false) = x.isFinite := by
  cases x with
  | nan t => rfl
  | infinite t => rfl
  | finite t k hk =>
    obtain ⟨u, value⟩ := zero_mul_finite (x := finite t k hk) s rfl
    rw [value, zero, eq_zero]
    rfl

theorem isNaN_zero_mul (s : Bool) (x : Binary f) :
    ((zero s).mul x).isNaN = !x.isFinite := by
  cases x with
  | nan t => rfl
  | infinite t => rfl
  | finite t k hk =>
    obtain ⟨u, value⟩ := zero_mul_finite (x := finite t k hk) s rfl
    rw [value]
    rfl

theorem finite_div_infinite (s : Bool) (hx : x.isFinite = true) :
    ∃ t, x.div (infinite s) = zero t := by
  obtain ⟨t, k, hk, rfl⟩ := exists_finite hx
  exact ⟨t ^^ s, rfl⟩

end Binary

end Pointwise
