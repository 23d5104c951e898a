import Mathlib.Tactic.LinearCombination
import Pointwise.Proofs.Binary.Limit
import Pointwise.Proofs.Complex.Division

/-!
# Complex quotients with an infinite operand

An infinite dividend leaves both parts of the scaled quotient infinite or undefined, and where both
are undefined the recovered quotient has an infinite part.  So infinity over a finite number is
infinite, and anything over zero is so unless nothing in it is more than zero.

A finite number over an infinite one is zero, part by part, with one exception: where both parts of
the divisor are infinite, the quotient is recovered from the sum and the difference of the parts of
the dividend, and one of these can overflow.

* `direction`, `quanta_mul_boxed`   infinite parts as ones with a sign, zero in place of the others;
* `exists_nonzero_mulConjugate`   what is recovered for an infinite dividend is not zero;
* `infinite_quotient`   infinite dividends, and divisors of zero;
* `ZeroUnlessOverflow`, `quotient_by_infinite`   finite dividends and infinite divisors;
* `exists_nonzero_quotient_by_infinite`   the exception happens.
-/

namespace Pointwise

namespace Binary
variable {f : Format} {x y : Binary f}

/-- The sign of an infinite number as an integer; zero of any other. -/
def direction (x : Binary f) : ℤ := if x.isInfinite then signed x.isNegative 1 else 0

theorem direction_infinite (s : Bool) : (infinite s : Binary f).direction = signed s 1 := rfl

theorem direction_of_isInfinite_false (h : x.isInfinite = false) : x.direction = 0 := by
  unfold direction
  rw [h]
  rfl

theorem natAbs_direction_mul (x : Binary f) (z : ℤ) : (x.direction * z).natAbs ≤ z.natAbs := by
  unfold direction
  split
  · rw [Int.natAbs_mul, natAbs_signed, Nat.one_mul]
  · rw [Int.zero_mul]
    exact Nat.zero_le _

end Binary

namespace Complex
variable {f : Format}

open Binary (direction)

/-! ## signs in place of infinities -/

theorem boxed_infinite (s : Bool) : ∃ l, ∃ hl : l < f.top,
    boxed (.infinite s : Binary f) = .finite s l hl ∧ f.quanta l = f.unit := by
  have hb := f.binade_pos
  obtain ⟨l, hl, e⟩ := f.exists_rank_of_le (n := 1) (by omega)
  have one : (Binary.one : Binary f) = .finite false l hl := Binary.ofInt_eq_finite hl e
  refine ⟨l, hl, ?_, by rw [← e, Nat.one_mul]⟩
  unfold boxed
  rw [one]
  rfl

theorem boxed_of_isInfinite_false {x : Binary f} (h : x.isInfinite = false) :
    boxed x = .zero x.isNegative := by
  unfold boxed
  rw [h]
  rfl

/-- A product with one for infinity, and zero for the others, is exact. -/
theorem quanta_mul_boxed (x : Binary f) {y : Binary f} (hy : y.isFinite = true) :
    (y.mul (boxed x)).isFinite = true ∧
      (y.mul (boxed x)).isNegative = (y.isNegative ^^ x.isNegative) ∧
      (y.mul (boxed x)).quanta = x.direction * y.quanta := by
  obtain ⟨t, k, hk, rfl⟩ := Binary.exists_finite hy
  cases hx : x.isInfinite with
  | true =>
    obtain ⟨s, rfl⟩ := Binary.exists_infinite hx
    obtain ⟨l, hl, value, unit⟩ := boxed_infinite (f := f) s
    have product : (Binary.finite t k hk).mul (.finite s l hl) = .finite (t ^^ s) k hk := by
      show Binary.round (t ^^ s) (f.quanta k * f.quanta l) f.unit = _
      rw [unit, Binary.round_quanta _ hk f.unit_pos]
    rw [value, product]
    refine ⟨rfl, rfl, ?_⟩
    rw [Binary.direction_infinite, Binary.quanta_finite, Binary.quanta_finite]
    cases s <;> cases t <;> simp only [signed_true, signed_false, Bool.xor_true, Bool.xor_false,
      Bool.not_true, Bool.not_false] <;> omega
  | false =>
    have product : (Binary.finite t k hk).mul (.zero x.isNegative) = .zero (t ^^ x.isNegative) := by
      show Binary.round _ (f.quanta k * f.quanta 0) f.unit = _
      rw [f.quanta_zero, Nat.mul_zero, Binary.round_zero]
    rw [boxed_of_isInfinite_false hx, product, Binary.quanta_zero,
      Binary.direction_of_isInfinite_false hx, Int.zero_mul]
    exact ⟨rfl, rfl, rfl⟩

/-! ## the cases of recovery -/

section
variable {n d : Complex f}

theorem isInfinite_iff : n.isInfinite = true ↔ n.re.isInfinite = true ∨ n.im.isInfinite = true := by
  unfold isInfinite
  rw [Bool.or_eq_true]

theorem recover?_of_isZero (hd : d.isZero = true) (hn : (!n.re.isNaN || !n.im.isNaN) = true) :
    recover? n d = some (scale (.infinite d.re.isNegative) n) := by
  unfold recover?
  rw [if_pos (by rw [hd, hn]; rfl)]

theorem recover?_of_isInfinite (hn : n.isInfinite = true) (h0 : d.isZero = false)
    (hd : d.isFinite = true) : recover? n d
      = some (scale (.infinite false) (mulConjugate ⟨boxed n.re, boxed n.im⟩ d)) := by
  unfold recover?
  rw [h0, Bool.false_and, if_neg Bool.false_ne_true, if_pos (by rw [hn, hd]; rfl)]

theorem not_isInfinite_of_isFinite (hn : n.isFinite = true) : n.isInfinite = false := by
  obtain ⟨hre, him⟩ := isFinite_iff.mp hn
  unfold isInfinite
  rw [Binary.isInfinite_of_isFinite hre, Binary.isInfinite_of_isFinite him]
  rfl

theorem isFinite_of_isZero (hd : d.isZero = true) : d.isFinite = true := by
  obtain ⟨hre, him⟩ := Bool.and_eq_true_iff.mp hd
  exact isFinite_iff.mpr ⟨Binary.isFinite_of_eq_zero hre, Binary.isFinite_of_eq_zero him⟩

theorem recover?_of_divisor (hn : n.isFinite = true) (hd : d.isInfinite = true) : recover? n d
    = some (scale (.zero false) (mulConjugate n ⟨boxed d.re, boxed d.im⟩)) := by
  have h0 : d.isZero = false := by
    by_contra h
    have finite := isFinite_of_isZero (Bool.eq_true_of_not_eq_false h)
    rw [not_isInfinite_of_isFinite finite] at hd
    cases hd
  unfold recover?
  rw [h0, Bool.false_and, if_neg Bool.false_ne_true, not_isInfinite_of_isFinite hn,
    Bool.false_and, if_neg Bool.false_ne_true, if_pos (by rw [hn, hd]; rfl)]

/-- Where the parts of the divisor have no ratio, all of the quotient is left to recovery. -/
theorem div_of_no_ratio (hre : d.im.div d.re = .nan false) (him : d.re.div d.im = .nan false) :
    div n d = (recover? n d).getD ⟨.nan false, .nan false⟩ := by
  have scaled : scaledQuotient n d = ⟨.nan false, .nan false⟩ := by
    unfold scaledQuotient
    rw [hre, him]
    simp only [Binary.mul_nan, Binary.add_nan, Binary.sub_nan, Binary.nan_add, Binary.nan_sub,
      Binary.nan_div, ite_self]
  unfold div
  rw [scaled]
  rfl

/-! ## infinite dividends -/

/-- Both parts of the scaled quotient depend on both parts of the dividend. -/
theorem scaledQuotient_of_isInfinite (hn : n.isInfinite = true) (d : Complex f) :
    (scaledQuotient n d).re.isFinite = false ∧ (scaledQuotient n d).im.isFinite = false := by
  open Binary in
  unfold scaledQuotient
  rcases isInfinite_iff.mp hn with infinite | infinite
  · have hre := isFinite_of_isInfinite infinite
    have product (r : Binary f) := isFinite_mul_left hre r
    split
    · exact ⟨isFinite_div_left (isFinite_add_left hre _) _,
        isFinite_div_left (isFinite_sub_right _ (product _)) _⟩
    · exact ⟨isFinite_div_left (isFinite_add_left (product _) _) _,
        isFinite_div_left (isFinite_sub_right _ hre) _⟩
  · have him := isFinite_of_isInfinite infinite
    have product (r : Binary f) := isFinite_mul_left him r
    split
    · exact ⟨isFinite_div_left (isFinite_add_right _ (product _)) _,
        isFinite_div_left (isFinite_sub_left him _) _⟩
    · exact ⟨isFinite_div_left (isFinite_add_right _ him) _,
        isFinite_div_left (isFinite_sub_left (product _) _) _⟩

theorem isInfinite_scale {s : Bool} : (scale (.infinite s) n).isInfinite = true ↔
    n.re.Nonzero ∨ n.im.Nonzero := by
  rw [isInfinite_iff]
  exact or_congr (Binary.isInfinite_infinite_mul s) (Binary.isInfinite_infinite_mul s)

theorem sq_direction_add_pos (hn : n.isInfinite = true) :
    n.re.direction * n.re.direction + n.im.direction * n.im.direction ≠ 0 := by
  have one (s : Bool) : signed s 1 * signed s 1 = 1 := by cases s <;> rfl
  have square := mul_self_nonneg n.re.direction
  have square' := mul_self_nonneg n.im.direction
  rcases isInfinite_iff.mp hn with infinite | infinite
  · obtain ⟨s, hs⟩ := Binary.exists_infinite infinite
    rw [hs, Binary.direction_infinite, one]
    omega
  · obtain ⟨s, hs⟩ := Binary.exists_infinite infinite
    rw [hs, Binary.direction_infinite, one]
    omega

/-- The product of two numbers other than zero has a part other than zero, and so it is with the
signs of the one in place of its parts. -/
theorem exists_nonzero_mulConjugate (hn : n.isInfinite = true) (h0 : d.isZero = false)
    (hd : d.isFinite = true) :
    (mulConjugate ⟨boxed n.re, boxed n.im⟩ d).re.Nonzero ∨
      (mulConjugate ⟨boxed n.re, boxed n.im⟩ d).im.Nonzero := by
  obtain ⟨hre, him⟩ := isFinite_iff.mp hd
  -- the four products, with the factors in the order of the lemma
  have ac := quanta_mul_boxed n.re hre
  have be := quanta_mul_boxed n.im him
  have bc := quanta_mul_boxed n.im hre
  have ae := quanta_mul_boxed n.re him
  rw [Binary.mul_comm] at ac be bc ae
  by_contra none
  obtain ⟨re, im⟩ := not_or.mp none
  unfold mulConjugate at re im
  have sum : n.re.direction * d.re.quanta + n.im.direction * d.im.quanta = 0 := by
    rw [← ac.2.2, ← be.2.2, ← Binary.eq_zero_ofQuanta (f := f), ← Binary.add_eq_ofQuanta ac.1 be.1]
    by_contra h
    exact re ⟨Binary.isNaN_add ac.1 be.1, Bool.eq_false_of_not_eq_true h⟩
  have difference : n.im.direction * d.re.quanta - n.re.direction * d.im.quanta = 0 := by
    rw [← bc.2.2, ← ae.2.2, ← Binary.eq_zero_ofQuanta (f := f), ← Binary.sub_eq_ofQuanta bc.1 ae.1]
    by_contra h
    exact im ⟨Binary.isNaN_add bc.1 (Binary.isFinite_neg ae.1), Bool.eq_false_of_not_eq_true h⟩
  have positive := sq_direction_add_pos hn
  have c : d.re.quanta = 0 := by
    refine (mul_eq_zero.mp ?_).resolve_left positive
    linear_combination n.re.direction * sum + n.im.direction * difference
  have e : d.im.quanta = 0 := by
    refine (mul_eq_zero.mp ?_).resolve_left positive
    linear_combination n.im.direction * sum - n.re.direction * difference
  unfold isZero at h0
  rw [(Binary.eq_zero_iff hre).mpr c, (Binary.eq_zero_iff him).mpr e] at h0
  cases h0

theorem isInfinite_div_of_isInfinite (hn : n.isInfinite = true) (hd : d.isFinite = true) :
    (div n d).isInfinite = true := by
  obtain ⟨re, im⟩ := scaledQuotient_of_isInfinite hn d
  unfold div
  by_cases undefined : ((scaledQuotient n d).re.isNaN && (scaledQuotient n d).im.isNaN) = true
  · rw [if_pos undefined]
    cases h0 : d.isZero with
    | true =>
      have part : n.re.Nonzero ∨ n.im.Nonzero :=
        (isInfinite_iff.mp hn).imp Binary.nonzero_of_isInfinite
        Binary.nonzero_of_isInfinite
      have defined : (!n.re.isNaN || !n.im.isNaN) = true := by
        rw [Bool.or_eq_true, Bool.not_eq_true', Bool.not_eq_true']
        exact part.imp And.left And.left
      rw [recover?_of_isZero h0 defined]
      exact isInfinite_scale.mpr part
    | false =>
      rw [recover?_of_isInfinite hn h0 hd]
      exact isInfinite_scale.mpr (exists_nonzero_mulConjugate hn h0 hd)
  · rw [if_neg undefined, isInfinite_iff, Binary.isInfinite_of_isFinite_false re,
      Binary.isInfinite_of_isFinite_false im, ← Bool.or_eq_true, ← Bool.not_and,
      Bool.eq_false_of_not_eq_true undefined]
    rfl

/-! ## divisors of zero -/

theorem div_of_isZero (hd : d.isZero = true) :
    div n d = (recover? n d).getD ⟨.nan false, .nan false⟩ := by
  have undefined {x y : Binary f} (hx : x.eq (.zero false) = true) (hy : y.eq (.zero false) = true) :
      x.div y = .nan false := by
    obtain ⟨s, j, hj, rfl⟩ := Binary.exists_finite (Binary.isFinite_of_eq_zero hx)
    obtain ⟨t, k, hk, rfl⟩ := Binary.exists_finite (Binary.isFinite_of_eq_zero hy)
    rw [Binary.eq_zero, decide_eq_true_iff] at hx hy
    subst hx hy
    rfl
  obtain ⟨re, im⟩ := Bool.and_eq_true_iff.mp hd
  exact div_of_no_ratio (undefined im re) (undefined re im)

theorem isInfinite_div_zero (hd : d.isZero = true) :
    (div n d).isInfinite = true ↔ n.re.Nonzero ∨ n.im.Nonzero := by
  rw [div_of_isZero hd]
  by_cases defined : (!n.re.isNaN || !n.im.isNaN) = true
  · rw [recover?_of_isZero hd defined]
    exact isInfinite_scale
  · obtain ⟨re, im⟩ : n.re.isNaN = true ∧ n.im.isNaN = true := by
      rw [Bool.or_eq_true, Bool.not_eq_true', Bool.not_eq_true'] at defined
      obtain ⟨re, im⟩ := not_or.mp defined
      exact ⟨Bool.eq_true_of_not_eq_false re, Bool.eq_true_of_not_eq_false im⟩
    have none : recover? n d = none := by
      obtain ⟨s, hs⟩ := Binary.exists_nan re
      obtain ⟨t, ht⟩ := Binary.exists_nan im
      unfold recover? isInfinite isFinite
      rw [hs, ht]
      simp only [Binary.isNaN, Binary.isInfinite, Binary.isFinite, Bool.not_true, Bool.or_self,
        Bool.and_false, Bool.false_and, Bool.false_eq_true, if_false]
    rw [none]
    refine iff_of_false Bool.false_ne_true ?_
    rintro (⟨h, -⟩ | ⟨h, -⟩)
    · exact Bool.false_ne_true (h.symm.trans re)
    · exact Bool.false_ne_true (h.symm.trans im)

end

/-- **Infinity over a finite number is infinite**, and a number over zero is so iff one of its parts
is neither zero nor undefined. -/
theorem infinite_quotient (n d : Complex f) :
    (n.isInfinite = true → d.isFinite = true → (div n d).isInfinite = true) ∧
      (d.isZero = true → ((div n d).isInfinite = true ↔ n.re.Nonzero ∨ n.im.Nonzero)) :=
  ⟨isInfinite_div_of_isInfinite, isInfinite_div_zero⟩

/-- The divisor of the largest parts overflows when it is scaled, so that the first of these is
recovered, as is the second, the smallest number over zero. -/
theorem infinite_over_largest :
    (div ⟨.infinite true, .nan false⟩ (largest .double)).isInfinite = true ∧
      (div ⟨.nan true, .finite true 1 (by decide)⟩
        (⟨.zero true, .zero false⟩ : Complex .double)).isInfinite = true :=
  ⟨(infinite_quotient _ _).1 rfl (by decide), ((infinite_quotient _ _).2 rfl).mpr (.inr ⟨rfl, rfl⟩)⟩

/-! ## infinite divisors -/

/-- The dividend times the conjugate of the signs of an infinite divisor. -/
def alongSigns (n d : Complex f) : Complex f := mulConjugate n ⟨boxed d.re, boxed d.im⟩

/-- A quotient is zero, but for a part where the product with signs overflows: that is undefined.
Both parts of the divisor are infinite then, the other part of the quotient is zero all the same, and
a part of the dividend cannot be doubled. -/
structure ZeroUnlessOverflow (n d : Complex f) : Prop where
  one_infinite : (d.re.isInfinite && d.im.isInfinite) = false → (div n d).isZero = true
  re_zero : (div n d).re.eq (.zero false) = !(n.alongSigns d).re.isInfinite
  im_zero : (div n d).im.eq (.zero false) = !(n.alongSigns d).im.isInfinite
  re_undefined : (div n d).re.isNaN = (n.alongSigns d).re.isInfinite
  im_undefined : (div n d).im.isNaN = (n.alongSigns d).im.isInfinite
  one_overflow : ((n.alongSigns d).re.isInfinite && (n.alongSigns d).im.isInfinite) = false
  doubled : (n.re.add n.re).isFinite = true → (n.im.add n.im).isFinite = true →
    (div n d).isZero = true

section
variable {n d : Complex f} (hn : n.isFinite = true)
include hn

theorem alongSigns_defined : (n.alongSigns d).re.isNaN = false ∧ (n.alongSigns d).im.isNaN = false ∧
    ((n.alongSigns d).re.isInfinite && (n.alongSigns d).im.isInfinite) = false := by
  obtain ⟨hre, him⟩ := isFinite_iff.mp hn
  obtain ⟨ac, sac, -⟩ := quanta_mul_boxed d.re hre
  obtain ⟨be, sbe, -⟩ := quanta_mul_boxed d.im him
  obtain ⟨bc, sbc, -⟩ := quanta_mul_boxed d.re him
  obtain ⟨ae, sae, -⟩ := quanta_mul_boxed d.im hre
  refine Binary.sums_of_signs ac be bc (Binary.isFinite_neg ae) ?_
  have signs : ∀ a b c e : Bool, ((a ^^ c) ^^ (b ^^ e)) = !((b ^^ c) ^^ !(a ^^ e)) := by decide
  rw [Binary.isNegative_neg, sac, sbe, sbc, sae]
  exact signs _ _ _ _

/-- The parts are sums of the parts of the dividend with signs. -/
theorem isFinite_alongSigns {k : Nat} (hk : k < f.top)
    (h : (d.re.direction * n.re.quanta + d.im.direction * n.im.quanta).natAbs ≤ f.quanta k)
    (h' : (d.re.direction * n.im.quanta - d.im.direction * n.re.quanta).natAbs ≤ f.quanta k) :
    (n.alongSigns d).isFinite = true := by
  obtain ⟨hre, him⟩ := isFinite_iff.mp hn
  obtain ⟨ac, -, qac⟩ := quanta_mul_boxed d.re hre
  obtain ⟨be, -, qbe⟩ := quanta_mul_boxed d.im him
  obtain ⟨bc, -, qbc⟩ := quanta_mul_boxed d.re him
  obtain ⟨ae, -, qae⟩ := quanta_mul_boxed d.im hre
  refine isFinite_iff.mpr ⟨Binary.isFinite_add ac be ?_ hk,
    Binary.isFinite_add bc (Binary.isFinite_neg ae) ?_ hk⟩
  · rwa [qac, qbe]
  · rwa [Binary.quanta_neg ae, qbc, qae, ← Int.sub_eq_add_neg]

/-- One direction alone leaves one term in each sum. -/
theorem isFinite_alongSigns_of_one (single : ¬ (d.re.isInfinite = true ∧ d.im.isInfinite = true)) :
    (n.alongSigns d).isFinite = true := by
  obtain ⟨hre, him⟩ := isFinite_iff.mp hn
  obtain ⟨j, hj, qre⟩ := Binary.exists_natAbs_quanta hre
  obtain ⟨k, hk, qim⟩ := Binary.exists_natAbs_quanta him
  have most := f.quanta_strictMono.monotone (Nat.le_max_left j k)
  have most' := f.quanta_strictMono.monotone (Nat.le_max_right j k)
  have c := Binary.natAbs_direction_mul d.re n.re.quanta
  have c' := Binary.natAbs_direction_mul d.re n.im.quanta
  have e := Binary.natAbs_direction_mul d.im n.im.quanta
  have e' := Binary.natAbs_direction_mul d.im n.re.quanta
  rcases not_and_or.mp single with one | one <;>
  · have none := Binary.direction_of_isInfinite_false (Bool.eq_false_of_not_eq_true one)
    refine isFinite_alongSigns hn (Nat.max_lt.mpr ⟨hj, hk⟩) ?_ ?_
    · rw [none, Int.zero_mul]
      omega
    · rw [none, Int.zero_mul]
      omega

theorem isFinite_alongSigns_of_doubled (hc : (n.re.add n.re).isFinite = true)
    (he : (n.im.add n.im).isFinite = true) : (n.alongSigns d).isFinite = true := by
  obtain ⟨hre, him⟩ := isFinite_iff.mp hn
  obtain ⟨j, hj, qre⟩ := Binary.exists_double hre hc
  obtain ⟨k, hk, qim⟩ := Binary.exists_double him he
  have most := f.quanta_strictMono.monotone (Nat.le_max_left j k)
  have most' := f.quanta_strictMono.monotone (Nat.le_max_right j k)
  have ac := Binary.natAbs_direction_mul d.re n.re.quanta
  have be := Binary.natAbs_direction_mul d.im n.im.quanta
  have bc := Binary.natAbs_direction_mul d.re n.im.quanta
  have ae := Binary.natAbs_direction_mul d.im n.re.quanta
  exact isFinite_alongSigns hn (Nat.max_lt.mpr ⟨hj, hk⟩) (by omega) (by omega)

/-! ### by the classes of the divisor -/

/-- An infinite part of the divisor makes the ratio zero, and nothing but the divisor infinite. -/
theorem exists_zero_scaledQuotient_of_re (hc : d.re.isInfinite = true)
    (he : d.im.isFinite = true) : ∃ s t, scaledQuotient n d = ⟨.zero s, .zero t⟩ := by
  obtain ⟨nre, nim⟩ := isFinite_iff.mp hn
  obtain ⟨c, e⟩ := d
  obtain ⟨s, rfl⟩ := Binary.exists_infinite hc
  have order : e.abs.le (.abs (.infinite s)) = true := by
    obtain ⟨t, k, hk, rfl⟩ := Binary.exists_finite he
    exact decide_eq_true (Int.ofNat_le.mpr (Nat.le_of_lt hk))
  obtain ⟨u, ratio⟩ := Binary.finite_div_infinite s he
  obtain ⟨v, hv⟩ := Binary.finite_mul_zero he u
  obtain ⟨x, hx⟩ := Binary.finite_mul_zero nre u
  obtain ⟨y, hy⟩ := Binary.finite_mul_zero nim u
  have den : (Binary.infinite s).add (.zero v : Binary f) = .infinite s := rfl
  obtain ⟨i, re⟩ := Binary.finite_div_infinite s (Binary.isFinite_add_zero nre y)
  obtain ⟨j, im⟩ := Binary.finite_div_infinite s (Binary.isFinite_sub_zero nim x)
  refine ⟨i, j, ?_⟩
  unfold scaledQuotient
  rw [if_pos order]
  simp only [ratio, hv, hx, hy, den, re, im]

theorem exists_zero_scaledQuotient_of_im (hc : d.re.isFinite = true)
    (he : d.im.isInfinite = true) : ∃ s t, scaledQuotient n d = ⟨.zero s, .zero t⟩ := by
  obtain ⟨nre, nim⟩ := isFinite_iff.mp hn
  obtain ⟨c, e⟩ := d
  obtain ⟨s, rfl⟩ := Binary.exists_infinite he
  have order : ¬ (Binary.infinite s).abs.le c.abs = true := by
    obtain ⟨t, k, hk, rfl⟩ := Binary.exists_finite hc
    refine Bool.eq_false_iff.mp (decide_eq_false ?_)
    exact fun le => Nat.not_le_of_lt hk (Int.ofNat_le.mp le)
  obtain ⟨u, ratio⟩ := Binary.finite_div_infinite s hc
  obtain ⟨v, hv⟩ := Binary.finite_mul_zero hc u
  obtain ⟨x, hx⟩ := Binary.finite_mul_zero nre u
  obtain ⟨y, hy⟩ := Binary.finite_mul_zero nim u
  have den : (Binary.zero v).add (.infinite s : Binary f) = .infinite s := rfl
  obtain ⟨i, re⟩ := Binary.finite_div_infinite s (Binary.isFinite_zero_add x nim)
  obtain ⟨j, im⟩ := Binary.finite_div_infinite s (Binary.isFinite_zero_sub y nre)
  refine ⟨i, j, ?_⟩
  unfold scaledQuotient
  rw [if_neg order]
  simp only [ratio, hv, hx, hy, den, re, im]

/-- The other part is infinite too, or undefined, and then there is no ratio. -/
theorem div_of_isInfinite (hd : d.isInfinite = true) :
    (n.alongSigns d).isFinite = true ∧ (∃ s t, div n d = ⟨.zero s, .zero t⟩) ∨
      div n d = scale (.zero false) (n.alongSigns d) := by
  have limit (h : d.re.isInfinite = true ∧ d.im.isFinite = true ∨
      d.re.isFinite = true ∧ d.im.isInfinite = true) :
      (n.alongSigns d).isFinite = true ∧ ∃ s t, div n d = ⟨.zero s, .zero t⟩ := by
    obtain ⟨s, t, zeros⟩ := h.elim (fun h => exists_zero_scaledQuotient_of_re hn h.1 h.2)
      fun h => exists_zero_scaledQuotient_of_im hn h.1 h.2
    refine ⟨isFinite_alongSigns_of_one hn ?_, s, t, ?_⟩
    · rintro ⟨re, im⟩
      rcases h with ⟨-, finite⟩ | ⟨finite, -⟩
      · exact Bool.false_ne_true ((Binary.isInfinite_of_isFinite finite).symm.trans im)
      · exact Bool.false_ne_true ((Binary.isInfinite_of_isFinite finite).symm.trans re)
    · unfold div
      rw [zeros]
      rfl
  have recovered (hre : d.im.div d.re = .nan false) (him : d.re.div d.im = .nan false) :
      div n d = scale (.zero false) (n.alongSigns d) := by
    rw [div_of_no_ratio hre him, recover?_of_divisor hn hd]
    rfl
  obtain ⟨c, e⟩ := d
  cases c with
  | nan s => exact .inr (recovered (Binary.div_nan e s) rfl)
  | infinite s =>
    cases e with
    | nan t => exact .inr (recovered rfl rfl)
    | infinite t => exact .inr (recovered rfl rfl)
    | finite t k hk => exact .inl (limit (.inl ⟨rfl, rfl⟩))
  | finite s k hk =>
    cases e with
    | nan t => cases hd
    | infinite t => exact .inl (limit (.inr ⟨rfl, rfl⟩))
    | finite t l hl => cases hd

/-- Either way a part is undefined where the product with signs overflows, and zero elsewhere. -/
theorem parts_of_isInfinite (hd : d.isInfinite = true) :
    (div n d).re.eq (.zero false) = (n.alongSigns d).re.isFinite ∧
      (div n d).im.eq (.zero false) = (n.alongSigns d).im.isFinite ∧
      (div n d).re.isNaN = (!(n.alongSigns d).re.isFinite) ∧
      (div n d).im.isNaN = !(n.alongSigns d).im.isFinite := by
  rcases div_of_isInfinite hn hd with ⟨finite, s, t, zeros⟩ | recovered
  · obtain ⟨re, im⟩ := isFinite_iff.mp finite
    rw [zeros, re, im]
    exact ⟨Binary.eq_zero, Binary.eq_zero, rfl, rfl⟩
  · rw [recovered]
    exact ⟨Binary.eq_zero_zero_mul _ _, Binary.eq_zero_zero_mul _ _, Binary.isNaN_zero_mul _ _,
      Binary.isNaN_zero_mul _ _⟩

end

/-- **A finite number over an infinite one is zero** unless both parts of the divisor are infinite,
and then it is zero but for overflow. -/
theorem quotient_by_infinite {n d : Complex f} (hn : n.isFinite = true) (hd : d.isInfinite = true) :
    n.ZeroUnlessOverflow d := by
  obtain ⟨hre, him, one⟩ := alongSigns_defined hn (d := d)
  obtain ⟨reZero, imZero, reNaN, imNaN⟩ := parts_of_isInfinite hn hd
  have zero (finite : (n.alongSigns d).isFinite = true) : (div n d).isZero = true := by
    obtain ⟨re, im⟩ := isFinite_iff.mp finite
    unfold isZero
    rw [reZero, imZero, re, im]
    rfl
  rw [Binary.isFinite_of_isNaN_false hre] at reZero reNaN
  rw [Binary.isFinite_of_isNaN_false him] at imZero imNaN
  rw [Bool.not_not] at reNaN imNaN
  constructor
  case one_infinite =>
    intro single
    refine zero (isFinite_alongSigns_of_one hn ?_)
    rw [← Bool.and_eq_true, single]
    exact Bool.false_ne_true
  case re_zero => exact reZero
  case im_zero => exact imZero
  case re_undefined => exact reNaN
  case im_undefined => exact imNaN
  case one_overflow => exact one
  case doubled => exact fun hc he => zero (isFinite_alongSigns_of_doubled hn hc he)

def unbounded (f : Format) : Complex f := ⟨.infinite false, .infinite false⟩

/-- The largest number over infinity is zero, but the real part comes out undefined. -/
theorem largest_over_infinite : (largest .double).ZeroUnlessOverflow (unbounded .double) ∧
    div (largest .double) (unbounded .double) = ⟨.nan false, .zero false⟩ :=
  ⟨quotient_by_infinite (by decide) rfl, by decide +kernel⟩

/-- Finite numbers of either format have quotients by infinite ones that are not zero. -/
theorem exists_nonzero_quotient_by_infinite :
    (∃ n d : Complex .single, n.isFinite = true ∧ d.isInfinite = true ∧
      (div n d).isZero = false) ∧
    ∃ n d : Complex .double, n.isFinite = true ∧ d.isInfinite = true ∧
      (div n d).isZero = false :=
  ⟨⟨largest _, unbounded _, by decide, rfl, by decide +kernel⟩,
    largest _, unbounded _, by decide, rfl, by decide +kernel⟩

end Complex

end Pointwise
