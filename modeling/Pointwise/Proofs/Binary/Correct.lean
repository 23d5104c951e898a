import Pointwise.Proofs.Binary.Nearest
import Pointwise.Proofs.Binary.Values

/-!
# Operations round the exact result once

A rational is rounded to one number, the sign of a zero apart, and larger ones to no smaller number.
Sums, differences, products and quotients of finite numbers are what the exact result is rounded to.

* `Format.Nearest.le_of_le`, `Format.Nearest.unique`   the nearest rank, as a function of what is
  rounded;
* `Binary.HasValue`   a finite number by its value; `eq_cases`   numbers that are equal in value;
* `RoundsTo.le`, `RoundsTo.hasValue`   rounding is monotone, and leaves the values of the format;
* `roundsTo_add`, `roundsTo_sub`, `roundsTo_mul`, `roundsTo_div`   the four operations;
* `roundsTo_ofInt`, `hasValue_ofInt`   integers as numbers of a format.
-/

namespace Pointwise

/-! ### the nearest rank -/

namespace Format.Nearest
variable {f : Format} {q r : ℚ} {k l : Nat}

/-- What is rounded up is no larger than what is rounded down only if both are the same tie. -/
theorem le_of_le (h : f.Nearest q k) (h' : f.Nearest r l) (le : q ≤ r) : k ≤ l := by
  by_contra past
  have less : l < k := Nat.lt_of_not_le past
  have above : (f.quanta l : ℚ) + f.quanta k ≤ 2 * q := by
    by_contra mid
    exact Nat.lt_irrefl k (h.lt_of_lt_mid less (not_le.mp mid))
  have below : 2 * r ≤ (f.quanta l : ℚ) + f.quanta k := by
    by_contra mid
    exact Nat.lt_irrefl l (h'.gt_of_mid_lt less (not_le.mp mid))
  have order : (f.quanta l : ℚ) < f.quanta k := Nat.cast_lt.mpr (f.quanta_strictMono less)
  rcases Nat.lt_or_eq_of_le less with between | next
  · -- the rank in between is nearer
    have step : (f.quanta l : ℚ) < f.quanta (l + 1) := Nat.cast_lt.mpr (f.quanta_lt_succ l)
    exact Nat.lt_irrefl k (h.lt_of_lt_mid between (by linarith))
  · -- neighbouring ranks are not both even
    subst next
    have left : |r - f.quanta l| = r - f.quanta l := abs_of_nonneg (by linarith)
    have right : |r - f.quanta (l + 1)| = f.quanta (l + 1) - r := by
      rw [abs_of_nonpos (by linarith)]
      ring
    have even : Even l := by
      rcases h'.even (l + 1) (by rw [left, right]; linarith) with same | even
      · omega
      · exact even
    exact past (h.le_of_le_mid even (by linarith))

theorem unique (h : f.Nearest q k) (h' : f.Nearest q l) : k = l :=
  Nat.le_antisymm (h.le_of_le h' le_rfl) (h'.le_of_le h le_rfl)

theorem eq_zero (h : f.Nearest 0 k) : k = 0 := by
  have zero := f.nearest_spec (n := 0) Nat.one_pos
  rw [f.nearest_zero, Nat.cast_zero, zero_div] at zero
  exact h.unique zero

end Format.Nearest

namespace Binary
variable {f : Format} {x y : Binary f} {a b q r v : ℚ}

/-! ### equality in value -/

/-- A finite number with the given value, a zero of either sign. -/
def HasValue (x : Binary f) (v : ℚ) : Prop := ∃ s, x.number = .finite s v

theorem HasValue.isFinite (h : x.HasValue v) : x.isFinite = true := by
  obtain ⟨s, hs⟩ := h
  exact (quanta_of_number hs).1

theorem HasValue.eq_quanta (h : x.HasValue v) : v = (x.quanta : ℚ) / f.unit := by
  obtain ⟨s, hs⟩ := h
  exact (quanta_of_number hs).2

theorem HasValue.unique (h : x.HasValue q) (h' : x.HasValue r) : q = r :=
  h.eq_quanta.trans h'.eq_quanta.symm

theorem hasValue_quanta (hx : x.isFinite = true) : x.HasValue ((x.quanta : ℚ) / f.unit) :=
  ⟨x.isNegative, number_eq_finite hx⟩

theorem value_zero (s : Bool) : ((zero s : Binary f).quanta : ℚ) / f.unit = 0 := by
  rw [quanta_zero]
  simp

theorem hasValue_zero (s : Bool) : (zero s : Binary f).HasValue 0 := by
  have value := hasValue_quanta (x := (zero s : Binary f)) rfl
  rwa [value_zero] at value

theorem eq_of_signed_eq {s t : Bool} {m n : Nat} (h : signed s m = signed t n) :
    m = n ∧ (m = 0 ∨ s = t) := by
  have size := congrArg Int.natAbs h
  rw [natAbs_signed, natAbs_signed] at size
  subst size
  refine ⟨rfl, ?_⟩
  cases s <;> cases t <;> simp [signed] at h ⊢ <;> omega

/-- Numbers of one value are the same, or two zeros. -/
theorem eq_cases (h : x.eq y = true) : x = y ∨ ∃ s t, x = zero s ∧ y = zero t := by
  have top := f.top_pos
  cases x with
  | nan s => cases h
  | infinite s =>
    cases y with
    | nan t => cases h
    | infinite t =>
      obtain ⟨-, none | rfl⟩ := eq_of_signed_eq (of_decide_eq_true h)
      · omega
      · exact .inl rfl
    | finite t k hk =>
      obtain ⟨size, -⟩ := eq_of_signed_eq (of_decide_eq_true h)
      omega
  | finite s j hj =>
    cases y with
    | nan t => cases h
    | infinite t =>
      obtain ⟨size, -⟩ := eq_of_signed_eq (of_decide_eq_true h)
      omega
    | finite t k hk =>
      obtain ⟨rfl, rfl | rfl⟩ := eq_of_signed_eq (of_decide_eq_true h)
      · exact .inr ⟨s, t, rfl, rfl⟩
      · exact .inl rfl

theorem HasValue.of_eq (hy : y.HasValue v) (h : x.eq y = true) : x.HasValue v := by
  rcases eq_cases h with same | ⟨s, t, hs, ht⟩
  · rwa [same]
  · rw [hy.eq_quanta, ht, value_zero, hs]
    exact hasValue_zero s

theorem eq_of_le_of_le (h : x.le y = true) (h' : y.le x = true) : x.eq y = true := by
  unfold le related at h h'
  unfold eq related
  cases hx : x.order? with
  | none =>
    rw [hx] at h
    cases h
  | some i =>
    cases hy : y.order? with
    | none =>
      rw [hx, hy] at h
      cases h
    | some j =>
      rw [hx, hy] at h h'
      exact decide_eq_true (Int.le_antisymm (of_decide_eq_true h) (of_decide_eq_true h'))

/-! ### rounding is monotone -/

theorem order?_ofRank (s : Bool) (k : Nat) :
    (ofRank s k : Binary f).order? = some (signed s (min k f.top)) := by
  unfold ofRank
  split
  · next below => rw [Nat.min_eq_left below.le]; rfl
  · next above => rw [Nat.min_eq_right (Nat.le_of_not_lt above)]; rfl

theorem ofRank_le_ofRank (s t : Bool) (k l : Nat) :
    (ofRank s k : Binary f).le (ofRank t l)
      = decide (signed s (min k f.top) ≤ signed t (min l f.top)) := by
  unfold le related
  rw [order?_ofRank, order?_ofRank]

/-- **Rounding is monotone.** -/
theorem RoundsTo.le (hx : x.RoundsTo q) (hy : y.RoundsTo r) (h : q ≤ r) : x.le y = true := by
  obtain ⟨s, k, rfl, near, sign⟩ := hx
  obtain ⟨t, l, rfl, near', sign'⟩ := hy
  have hu : (0 : ℚ) < f.unit := Nat.cast_pos.mpr f.unit_pos
  rw [ofRank_le_ofRank, decide_eq_true_iff]
  cases s with
  | false =>
    have nonneg : 0 ≤ q := by simpa [signed_false] using sign
    cases t with
    | false =>
      rw [abs_of_nonneg nonneg] at near
      rw [abs_of_nonneg (nonneg.trans h)] at near'
      have ranks := near.le_of_le near' (mul_le_mul_of_nonneg_right h hu.le)
      rw [signed_false, signed_false]
      omega
    | true =>
      -- a negative zero is no less than a positive one
      have nonpos : r ≤ 0 := by simpa [signed_true] using sign'
      obtain rfl : q = 0 := le_antisymm (h.trans nonpos) nonneg
      obtain rfl : r = 0 := le_antisymm nonpos h
      rw [abs_zero, zero_mul] at near near'
      rw [near.eq_zero, near'.eq_zero, Nat.zero_min, signed_zero, signed_zero]
  | true =>
    have nonpos : q ≤ 0 := by simpa [signed_true] using sign
    cases t with
    | false =>
      rw [signed_true, signed_false]
      omega
    | true =>
      have nonpos' : r ≤ 0 := by simpa [signed_true] using sign'
      rw [abs_of_nonpos nonpos] at near
      rw [abs_of_nonpos nonpos'] at near'
      have ranks := near'.le_of_le near (mul_le_mul_of_nonneg_right (neg_le_neg h) hu.le)
      rw [signed_true, signed_true]
      omega

theorem RoundsTo.isNaN (hx : x.RoundsTo q) : x.isNaN = false := by
  obtain ⟨s, k, rfl, -, -⟩ := hx
  exact isNaN_ofRank s k

/-- Two numbers that one rational is rounded to are equal in value. -/
theorem RoundsTo.eq (hx : x.RoundsTo q) (hy : y.RoundsTo q) : x.eq y = true :=
  eq_of_le_of_le (hx.le hy le_rfl) (hy.le hx le_rfl)

theorem HasValue.roundsTo (h : x.HasValue v) : x.RoundsTo v := by
  rw [h.eq_quanta]
  exact roundsTo_of_isFinite h.isFinite

/-- A value of the format is not rounded. -/
theorem RoundsTo.hasValue (h : x.RoundsTo v) (hv : v ∈ f.values) : x.HasValue v := by
  obtain ⟨y, s, hy⟩ := mem_values_iff.mp hv
  have value : y.HasValue v := ⟨s, hy⟩
  exact value.of_eq (h.eq value.roundsTo)

/-! ### the four operations -/

theorem signed_mul_signed (s t : Bool) (m n : Nat) :
    signed s m * signed t n = signed (s ^^ t) (m * n) := by
  cases s <;> cases t <;> simp [signed]

section
variable (hx : x.HasValue a) (hy : y.HasValue b)
include hx hy

theorem roundsTo_add : (x.add y).RoundsTo (a + b) := by
  rw [hx.eq_quanta, hy.eq_quanta, ← add_div, ← Int.cast_add,
    add_eq_ofQuanta hx.isFinite hy.isFinite]
  exact roundsTo_ofQuanta _ _

theorem roundsTo_sub : (x.sub y).RoundsTo (a - b) := by
  rw [hx.eq_quanta, hy.eq_quanta, ← sub_div, ← Int.cast_sub,
    sub_eq_ofQuanta hx.isFinite hy.isFinite]
  exact roundsTo_ofQuanta _ _

theorem roundsTo_mul : (x.mul y).RoundsTo (a * b) := by
  obtain ⟨s, j, hj, rfl⟩ := exists_finite hx.isFinite
  obtain ⟨t, k, hk, rfl⟩ := exists_finite hy.isFinite
  have product : a * b
      = (signed (s ^^ t) (f.quanta j * f.quanta k) : ℤ) / (f.unit : ℚ) / f.unit := by
    rw [hx.eq_quanta, hy.eq_quanta, quanta_finite, quanta_finite, ← signed_mul_signed, Int.cast_mul,
      div_mul_div_comm, div_div]
  rw [product]
  exact roundsTo_round (s ^^ t) (f.quanta j * f.quanta k) f.unit_pos

theorem roundsTo_div (h0 : b ≠ 0) : (x.div y).RoundsTo (a / b) := by
  obtain ⟨s, j, hj, rfl⟩ := exists_finite hx.isFinite
  obtain ⟨t, k, hk, rfl⟩ := exists_finite hy.isFinite
  have hu := unit_ne_zero f
  have divisor : f.quanta k ≠ 0 := by
    intro none
    apply h0
    rw [hy.eq_quanta, quanta_finite, none, signed_zero]
    simp
  have quotient : a / b
      = (signed (s ^^ t) (f.quanta j * f.unit) : ℤ) / (f.quanta k : ℚ) / f.unit := by
    rw [hx.eq_quanta, hy.eq_quanta, quanta_finite, quanta_finite, signed_mul, Int.cast_mul,
      Int.cast_natCast, div_div_div_cancel_right₀ hu, div_right_comm, mul_div_cancel_right₀ _ hu]
    cases s <;> cases t <;> simp [signed, neg_div, div_neg]
  have rank : k ≠ 0 := fun none => divisor (Format.quanta_eq_zero_iff.mpr none)
  have value : (finite s j hj).div (finite t k hk)
      = round (s ^^ t) (f.quanta j * f.unit) (f.quanta k) := if_neg rank
  rw [quotient, value]
  exact roundsTo_round _ _ (Nat.pos_of_ne_zero divisor)

end

/-! ### integers -/

section
variable {i : ℤ}

theorem HasValue.quanta_intCast (h : x.HasValue i) : x.quanta = i * f.unit := by
  have value := h.eq_quanta
  rw [eq_div_iff (unit_ne_zero f)] at value
  exact_mod_cast value.symm

theorem HasValue.quanta_ne_zero (h : x.HasValue i) (h0 : i ≠ 0) : x.quanta ≠ 0 := by
  rw [h.quanta_intCast]
  exact mul_ne_zero h0 (Int.natCast_pos.mpr f.unit_pos).ne'

theorem hasValue_intCast (hx : x.isFinite = true) (h : x.quanta = i * f.unit) : x.HasValue i := by
  have value := hasValue_quanta hx
  rwa [h, Int.cast_mul, Int.cast_natCast, mul_div_cancel_right₀ _ (unit_ne_zero f)] at value

theorem hasValue_ofInt (h : i.natAbs ≤ 2 * f.binade) : (ofInt i : Binary f).HasValue i :=
  ⟨_, number_ofInt h⟩

theorem roundsTo_ofInt (i : ℤ) : (ofInt i : Binary f).RoundsTo i := by
  have rounds := roundsTo_ofQuanta (f := f) false (i * f.unit)
  rwa [Int.cast_mul, Int.cast_natCast, mul_div_cancel_right₀ _ (unit_ne_zero f)] at rounds

/-- Integers of at most one significand, in the words of the format. -/
theorem natAbs_le_of_abs_le (h : |i| ≤ 2 ^ (f.fractionBits + 1)) : i.natAbs ≤ 2 * f.binade := by
  rw [f.binade_eq, ← Nat.pow_succ']
  rw [Int.abs_eq_natAbs] at h
  exact_mod_cast h

end

end Binary

end Pointwise
