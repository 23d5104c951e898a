import Pointwise.Complex
import Pointwise.Proofs.Binary.Quanta
import Pointwise.Proofs.Element.Commutative

/-!
# What is undefined in a complex quotient

The quotient is that of a scaled dividend by a scaled divisor, part by part.  Scaling keeps the
products from overflowing, but not the sums.  So where the operands are finite and the divisor is not
zero, a part of the quotient can still be undefined: when both the divisor and that part of the
dividend overflow.  The two parts of the dividend never overflow together, so it does not come to
the cases that are recovered.

* `Binary.Below`   the smaller part of a divisor beside the larger;
* `scaledDivisor`, `scaledDividend`, `scaledQuotient_eq`   the quotient part by part;
* `UndefinedByOverflow`, `undefinedByOverflow_of_finite`   which parts are undefined;
* `isNaN_re_div_self`   where a number has no quotient with itself;
* `finite_quotient`, `exists_undefined_quotient`   both together, and that it happens.
-/

namespace Pointwise

namespace Binary
variable {f : Format}

def AtMostOne (r : Binary f) : Prop :=
  ∃ s k, ∃ hk : k < f.top, r = finite s k hk ∧ f.quanta k ≤ f.unit

/-- Finite numbers, the second other than zero and no smaller in magnitude. -/
structure Below (q p : Binary f) : Prop where
  left : q.isFinite = true
  right : p.isFinite = true
  le : q.abs.le p.abs = true
  ne : p.eq (zero false) = false

theorem AtMostOne.mul {x r : Binary f} (h : r.AtMostOne) (hx : x.isFinite = true) :
    (x.mul r).isFinite = true ∧ (x.mul r).isNegative = (x.isNegative ^^ r.isNegative) := by
  obtain ⟨t, k, hk, rfl, le⟩ := h
  obtain ⟨s, j, hj, rfl⟩ := exists_finite hx
  obtain ⟨l, hl, value, -⟩ := exists_mul_of_le_unit (s := s) (t := t) hj hk le
  rw [value]
  exact ⟨rfl, rfl⟩

/-- Of two sums, the one with equal signs and the other with different ones, one at most overflows. -/
theorem sums_of_signs {x u y v : Binary f} (hx : x.isFinite = true) (hu : u.isFinite = true)
    (hy : y.isFinite = true) (hv : v.isFinite = true)
    (signs : (x.isNegative ^^ u.isNegative) = !(y.isNegative ^^ v.isNegative)) :
    (x.add u).isNaN = false ∧ (y.add v).isNaN = false ∧
      ((x.add u).isInfinite && (y.add v).isInfinite) = false := by
  refine ⟨isNaN_add hx hu, isNaN_add hy hv, ?_⟩
  by_contra both
  obtain ⟨first, second⟩ := Bool.and_eq_true_iff.mp (Bool.eq_true_of_not_eq_false both)
  rw [sign_of_isInfinite_add hx hu first, sign_of_isInfinite_add hy hv second, Bool.xor_self,
    Bool.xor_self] at signs
  cases signs

namespace Below
variable {q p : Binary f} (h : q.Below p)
include h

theorem exists_ranks : ∃ s t j k, ∃ (hj : j < f.top) (hk : k < f.top),
    q = finite s j hj ∧ p = finite t k hk ∧ j ≤ k ∧ 0 < k := by
  obtain ⟨s, j, hj, rfl⟩ := exists_finite h.left
  obtain ⟨t, k, hk, rfl⟩ := exists_finite h.right
  have le := h.le
  have ne := h.ne
  rw [Binary.abs_le_abs, decide_eq_true_iff] at le
  rw [eq_zero, decide_eq_false_iff_not] at ne
  exact ⟨s, t, j, k, hj, hk, rfl, rfl, le, Nat.pos_of_ne_zero ne⟩

theorem atMostOne : (q.div p).AtMostOne := by
  obtain ⟨s, t, j, k, hj, hk, rfl, rfl, le, pos⟩ := h.exists_ranks
  obtain ⟨l, hl, value, small⟩ := exists_div_of_le (s := s) (t := t) hj hk pos le
  exact ⟨s ^^ t, l, hl, value, small⟩

/-- The divisor has the sign of its larger part, and is not zero. -/
theorem exists_divisor : ∃ s m, 0 < m ∧ p.add (q.mul (q.div p)) = ofRank s m ∧
    ((p.add p).isFinite = true → m < f.top) := by
  obtain ⟨s, t, j, k, hj, hk, rfl, rfl, le, pos⟩ := h.exists_ranks
  obtain ⟨r, hr, ratio, small⟩ := exists_div_of_le (s := s) (t := t) hj hk pos le
  obtain ⟨l, hl, product, less⟩ := exists_mul_of_le_unit (s := s) (t := s ^^ t) hj hr small
  have sum : (finite t k hk).add ((finite s j hj).mul ((finite s j hj).div (finite t k hk)))
      = round t (f.quanta k + f.quanta l) 1 := by
    rw [ratio, product]
    rw [show (s ^^ (s ^^ t)) = t by cases s <;> cases t <;> rfl]
    exact add_of_sign_eq hk hl
  have quantum : 0 < f.quanta k := by
    rw [← f.quanta_zero]
    exact f.quanta_strictMono pos
  refine ⟨t, f.nearest (f.quanta k + f.quanta l) 1, ?_, sum, fun doubled => ?_⟩
  · exact f.nearest_pos Nat.one_pos (by omega)
  · exact nearest_lt_top_of_doubled hk (less.trans le) doubled

end Below

end Binary

namespace Complex
variable {f : Format}

/-! ## the quotient part by part -/

def scaledDivisor (d : Complex f) : Binary f :=
  if d.im.abs.le d.re.abs then d.re.add (d.im.mul (d.im.div d.re))
  else (d.re.mul (d.re.div d.im)).add d.im

def scaledDividend (n d : Complex f) : Complex f :=
  if d.im.abs.le d.re.abs then
    let ratio := d.im.div d.re
    ⟨n.re.add (n.im.mul ratio), n.im.sub (n.re.mul ratio)⟩
  else
    let ratio := d.re.div d.im
    ⟨(n.re.mul ratio).add n.im, (n.im.mul ratio).sub n.re⟩

theorem scaledQuotient_eq (n d : Complex f) : scaledQuotient n d
    = ⟨(n.scaledDividend d).re.div d.scaledDivisor, (n.scaledDividend d).im.div d.scaledDivisor⟩ := by
  unfold scaledQuotient scaledDividend scaledDivisor
  split <;> rfl

/-- The same sums make up the divisor and the dividend, where they are one number. -/
theorem re_scaledDividend_self (d : Complex f) : (d.scaledDividend d).re = d.scaledDivisor := by
  unfold scaledDividend scaledDivisor
  split <;> rfl

/-! ## finite operands -/

section
variable {n d : Complex f} (hn : n.isFinite = true) (hd : d.isFinite = true)
  (h0 : d.isZero = false)

theorem isFinite_iff : n.isFinite = true ↔ n.re.isFinite = true ∧ n.im.isFinite = true := by
  unfold isFinite
  rw [Bool.and_eq_true]

include hd h0

/-- The larger part of the divisor is not zero. -/
theorem below_or_below : (d.im.abs.le d.re.abs = true ∧ d.im.Below d.re) ∨
    (d.im.abs.le d.re.abs = false ∧ d.re.Below d.im) := by
  obtain ⟨hre, him⟩ := isFinite_iff.mp hd
  obtain ⟨s, j, hj, ere⟩ := Binary.exists_finite hre
  obtain ⟨t, k, hk, eim⟩ := Binary.exists_finite him
  have nonzero : ¬ (j = 0 ∧ k = 0) := by
    rintro ⟨rfl, rfl⟩
    unfold isZero at h0
    rw [ere, eim, Binary.eq_zero, Binary.eq_zero] at h0
    cases h0
  cases hle : d.im.abs.le d.re.abs with
  | true =>
    refine .inl ⟨rfl, him, hre, hle, ?_⟩
    rw [eim, ere, Binary.abs_le_abs, decide_eq_true_iff] at hle
    rw [ere, Binary.eq_zero, decide_eq_false_iff_not]
    omega
  | false =>
    rw [eim, ere, Binary.abs_le_abs, decide_eq_false_iff_not] at hle
    refine .inr ⟨rfl, hre, him, ?_, ?_⟩
    · rw [eim, ere, Binary.abs_le_abs, decide_eq_true_iff]
      omega
    · rw [eim, Binary.eq_zero, decide_eq_false_iff_not]
      omega

/-- The divisor is not zero, and overflows only if its larger part cannot be doubled. -/
theorem exists_scaledDivisor : ∃ s m, 0 < m ∧ d.scaledDivisor = .ofRank s m ∧
    ((d.re.add d.re).isFinite = true → (d.im.add d.im).isFinite = true → m < f.top) := by
  unfold scaledDivisor
  rcases below_or_below hd h0 with ⟨hle, below⟩ | ⟨hle, below⟩
  · obtain ⟨s, m, pos, value, room⟩ := below.exists_divisor
    refine ⟨s, m, pos, ?_, fun doubled _ => room doubled⟩
    rw [if_pos hle, value]
  · obtain ⟨s, m, pos, value, room⟩ := below.exists_divisor
    refine ⟨s, m, pos, ?_, fun _ doubled => room doubled⟩
    rw [hle, if_neg Bool.false_ne_true, Binary.add_comm, value]

include hn

/-- The dividend is made of sums that are not undefined, and that do not overflow together. -/
theorem scaledDividend_parts : (n.scaledDividend d).re.isNaN = false ∧
    (n.scaledDividend d).im.isNaN = false ∧
    ((n.scaledDividend d).re.isInfinite && (n.scaledDividend d).im.isInfinite) = false := by
  obtain ⟨hre, him⟩ := isFinite_iff.mp hn
  unfold scaledDividend
  rcases below_or_below hd h0 with ⟨hle, below⟩ | ⟨hle, below⟩
  · obtain ⟨fre, sre⟩ := below.atMostOne.mul hre
    obtain ⟨fim, sim⟩ := below.atMostOne.mul him
    rw [if_pos hle]
    refine Binary.sums_of_signs hre fim him (Binary.isFinite_neg fre) ?_
    have signs : ∀ x y r : Bool, (x ^^ (y ^^ r)) = !(y ^^ !(x ^^ r)) := by decide
    rw [Binary.isNegative_neg, sre, sim]
    exact signs _ _ _
  · obtain ⟨fre, sre⟩ := below.atMostOne.mul hre
    obtain ⟨fim, sim⟩ := below.atMostOne.mul him
    rw [hle, if_neg Bool.false_ne_true]
    refine Binary.sums_of_signs fre him fim (Binary.isFinite_neg hre) ?_
    have signs : ∀ x y r : Bool, ((x ^^ r) ^^ y) = !((y ^^ r) ^^ !x) := by decide
    rw [Binary.isNegative_neg, sre, sim]
    exact signs _ _ _

end

/-- Nothing is recovered in a quotient, and it is undefined in a part iff the dividend overflows in
that part and the divisor overflows: in one part at most, and in none if both parts of the divisor
can be doubled. -/
structure UndefinedByOverflow (n d : Complex f) : Prop where
  scaled : div n d = scaledQuotient n d
  re : (div n d).re.isNaN = ((n.scaledDividend d).re.isInfinite && d.scaledDivisor.isInfinite)
  im : (div n d).im.isNaN = ((n.scaledDividend d).im.isInfinite && d.scaledDivisor.isInfinite)
  one : ((div n d).re.isNaN && (div n d).im.isNaN) = false
  doubled : (d.re.add d.re).isFinite = true → (d.im.add d.im).isFinite = true →
    (div n d).hasNaN = false

section
variable {n d : Complex f} (hn : n.isFinite = true) (hd : d.isFinite = true)
  (h0 : d.isZero = false)
include hd h0

include hn in
theorem undefinedByOverflow_of_finite : n.UndefinedByOverflow d := by
  obtain ⟨s, m, pos, divisor, room⟩ := exists_scaledDivisor hd h0
  obtain ⟨hre, him, one⟩ := scaledDividend_parts hn hd h0
  have re : (scaledQuotient n d).re.isNaN
      = ((n.scaledDividend d).re.isInfinite && d.scaledDivisor.isInfinite) := by
    rw [scaledQuotient_eq, divisor]
    exact Binary.isNaN_div hre s pos
  have im : (scaledQuotient n d).im.isNaN
      = ((n.scaledDividend d).im.isInfinite && d.scaledDivisor.isInfinite) := by
    rw [scaledQuotient_eq, divisor]
    exact Binary.isNaN_div him s pos
  have notBoth : ((scaledQuotient n d).re.isNaN && (scaledQuotient n d).im.isNaN) = false := by
    rw [re, im]
    cases d.scaledDivisor.isInfinite with
    | false => rw [Bool.and_false, Bool.false_and]
    | true => rw [Bool.and_true, Bool.and_true, one]
  have scaled : div n d = scaledQuotient n d :=
    if_neg (Bool.eq_false_iff.mp notBoth)
  refine ⟨scaled, ?_, ?_, ?_, fun hc he => ?_⟩
  · rw [scaled, re]
  · rw [scaled, im]
  · rw [scaled, notBoth]
  · have defined : d.scaledDivisor.isInfinite = false := by
      rw [divisor]
      unfold Binary.ofRank
      rw [dif_pos (room hc he)]
      rfl
    unfold hasNaN
    rw [scaled, re, im, defined, Bool.and_false, Bool.and_false, Bool.or_false]

/-- A number whose scaled divisor overflows has no quotient with itself. -/
theorem isNaN_re_div_self : (div d d).re.isNaN = d.scaledDivisor.isInfinite := by
  rw [(undefinedByOverflow_of_finite hd hd h0).re, re_scaledDividend_self, Bool.and_self]

end

/-- **The quotient of two finite numbers**, the divisor not zero, is undefined by overflow only.  A
number whose scaled divisor overflows has no quotient with itself. -/
theorem finite_quotient {n d : Complex f} (hn : n.isFinite = true) (hd : d.isFinite = true)
    (h0 : d.isZero = false) :
    n.UndefinedByOverflow d ∧ (div d d).re.isNaN = d.scaledDivisor.isInfinite :=
  ⟨undefinedByOverflow_of_finite hn hd h0, isNaN_re_div_self hd h0⟩

def largest (f : Format) : Complex f :=
  let x := .finite false (f.top - 1) (Nat.sub_lt f.top_pos Nat.one_pos)
  ⟨x, x⟩

/-- The largest number over itself is one, but the real part comes out undefined. -/
theorem largest_over_largest : (largest .double).UndefinedByOverflow (largest .double) ∧
    div (largest .double) (largest .double) = ⟨.nan false, .zero false⟩ :=
  ⟨(finite_quotient (by decide) (by decide) (by decide)).1, by decide +kernel⟩

/-- Finite numbers of either format have quotients that are undefined. -/
theorem exists_undefined_quotient :
    (∃ n d : Complex .single, n.isFinite = true ∧ d.isFinite = true ∧ d.isZero = false ∧
      (div n d).hasNaN = true) ∧
    ∃ n d : Complex .double, n.isFinite = true ∧ d.isFinite = true ∧ d.isZero = false ∧
      (div n d).hasNaN = true :=
  ⟨⟨largest _, largest _, by decide, by decide, by decide, by decide +kernel⟩,
    largest _, largest _, by decide, by decide, by decide, by decide +kernel⟩

end Complex

end Pointwise
