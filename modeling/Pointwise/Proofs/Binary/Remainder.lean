import Pointwise.Binary.Arithmetic
import Pointwise.Proofs.Binary.Limit
import Pointwise.Proofs.Binary.Nearest
import Pointwise.Proofs.Integer.FloorDivision

/-!
# The remainder of floating-point floor division

In quanta the dividend and the divisor are integers, and the truncated remainder is that of the
integers, without rounding.  It is corrected as for integers, so that what is returned is the floored
remainder rounded once.

* `Format.exists_quanta_mod`   remainders of magnitudes are magnitudes;
* `exists_rem`   the truncated remainder is exact;
* `estimate`, `divmod_eq`   quotient and remainder before the quotient is brought to an integer;
* `Remains`, `divmod_defined`   where the division is undefined, and the remainder elsewhere.
-/

namespace Pointwise

/-- A remainder takes no more significant bits than the finer of the two numbers has. -/
theorem Format.exists_quanta_mod (f : Format) (j k : Nat) :
    ∃ l, f.quanta l = f.quanta j % f.quanta k := by
  obtain ⟨m, s, hm, hj⟩ := f.exists_significand j
  obtain ⟨n, t, hn, hk⟩ := f.exists_significand k
  rw [hj, hk]
  rcases Nat.le_total s t with le | le
  · obtain ⟨e, rfl⟩ := Nat.exists_eq_add_of_le le
    have common : n * 2 ^ (s + e) = n * 2 ^ e * 2 ^ s := by ring
    rw [common, Nat.mul_mod_mul_right]
    exact f.exists_quanta (Nat.lt_of_le_of_lt (Nat.mod_le _ _) hm) s
  · obtain ⟨e, rfl⟩ := Nat.exists_eq_add_of_le le
    have common : m * 2 ^ (t + e) = m * 2 ^ e * 2 ^ t := by ring
    rw [common, Nat.mul_mod_mul_right]
    rcases Nat.eq_zero_or_pos n with rfl | pos
    · rw [Nat.mod_zero, Nat.mul_assoc, ← Nat.pow_add]
      exact f.exists_quanta hm (e + t)
    · exact f.exists_quanta ((Nat.mod_lt _ pos).trans hn) t

theorem signed_tmod (s t : Bool) (a b : Nat) :
    (signed s a).tmod (signed t b) = signed s (a % b) := by
  cases s <;> cases t <;>
    simp only [signed_true, signed_false, Int.neg_tmod, Int.tmod_neg, Int.ofNat_tmod]

namespace Binary
variable {f : Format} {v w x y : Binary f}

/-! ## signs and sizes -/

theorem lt_zero (hx : x.Nonzero) : x.lt (zero false) = x.isNegative := by
  cases x with
  | nan s => cases hx.1
  | infinite s =>
    have top := f.top_pos
    show decide (signed s f.top < signed false 0) = s
    cases s with
    | false => exact decide_eq_false (by rw [signed_false, signed_false]; omega)
    | true => exact decide_eq_true (by rw [signed_true, signed_false]; omega)
  | finite s k hk =>
    have pos : k ≠ 0 := by
      have h := hx.2
      rwa [eq_zero, decide_eq_false_iff_not] at h
    show decide (signed s k < signed false 0) = s
    cases s with
    | false => exact decide_eq_false (by rw [signed_false, signed_false]; omega)
    | true => exact decide_eq_true (by rw [signed_true, signed_false]; omega)

theorem lt_nan (x : Binary f) (s : Bool) : x.lt (nan s) = false := by
  unfold lt related
  cases x.order? <;> rfl

theorem nonzero_iff (hx : x.isFinite = true) : x.Nonzero ↔ x.quanta ≠ 0 := by
  unfold Nonzero
  rw [and_iff_right (isNaN_of_isFinite hx), ← Bool.not_eq_true, eq_zero_iff hx]

theorem isNegative_iff (hx : x.isFinite = true) (h0 : x.quanta ≠ 0) :
    x.isNegative = true ↔ x.quanta < 0 := by
  obtain ⟨s, k, hk, rfl⟩ := exists_finite hx
  rw [quanta_finite] at h0 ⊢
  cases s with
  | false =>
    rw [signed_false] at h0 ⊢
    exact iff_of_false Bool.false_ne_true (by omega)
  | true =>
    rw [signed_true] at h0 ⊢
    exact iff_of_true rfl (by omega)

theorem abs_le_abs_iff (hx : x.isFinite = true) (hy : y.isFinite = true) :
    x.abs.le y.abs = true ↔ x.quanta.natAbs ≤ y.quanta.natAbs := by
  obtain ⟨s, j, hj, rfl⟩ := exists_finite hx
  obtain ⟨t, k, hk, rfl⟩ := exists_finite hy
  rw [Binary.abs_le_abs, decide_eq_true_iff, quanta_finite, quanta_finite, natAbs_signed, natAbs_signed,
    f.quanta_strictMono.le_iff_le]

/-- An integer no larger than a finite number is rounded to a finite number no larger. -/
theorem ofQuanta_of_le (hy : y.isFinite = true) {z : ℤ} (h : z.natAbs ≤ y.quanta.natAbs) (s : Bool) :
    (ofQuanta s z 1 : Binary f).isFinite = true ∧ (ofQuanta s z 1 : Binary f).abs.le y.abs = true := by
  obtain ⟨t, k, hk, rfl⟩ := exists_finite hy
  rw [quanta_finite, natAbs_signed] at h
  unfold ofQuanta
  by_cases h0 : z = 0
  · rw [if_pos h0, round_zero, zero, Binary.abs_le_abs]
    exact ⟨rfl, decide_eq_true (Nat.zero_le k)⟩
  · rw [← Nat.mul_one (f.quanta k)] at h
    obtain ⟨l, hl, value, le⟩ := exists_round_of_le (decide (z < 0)) h hk
    rw [if_neg h0, value, Binary.abs_le_abs]
    exact ⟨rfl, decide_eq_true le⟩

theorem isNegative_ofQuanta (s : Bool) {z : ℤ} (h0 : z ≠ 0) :
    (ofQuanta s z 1 : Binary f).isNegative = decide (z < 0) := by
  unfold ofQuanta round ofRank
  rw [if_neg h0]
  split <;> rfl

/-! ## the truncated remainder -/

theorem exists_rem (hv : v.isFinite = true) (hw : w.isFinite = true) (h0 : w.quanta ≠ 0) :
    (rem v w).isFinite = true ∧ (rem v w).isNegative = v.isNegative ∧
      (rem v w).quanta = v.quanta.tmod w.quanta := by
  obtain ⟨s, j, hj, rfl⟩ := exists_finite hv
  obtain ⟨t, k, hk, rfl⟩ := exists_finite hw
  have pos : k ≠ 0 := by
    rintro rfl
    exact h0 (quanta_zero t)
  obtain ⟨l, hl⟩ := f.exists_quanta_mod j k
  have less : l < f.top := by
    refine Nat.lt_of_le_of_lt ?_ hj
    rw [← f.quanta_strictMono.le_iff_le, hl]
    exact Nat.mod_le _ _
  have value : rem (finite s j hj) (finite t k hk) = finite s l less := by
    show (if k = 0 then nan false else round s (f.quanta j % f.quanta k) 1) = _
    rw [if_neg pos, ← hl, ← round_quanta s less Nat.one_pos, Nat.mul_one]
  rw [value]
  refine ⟨rfl, rfl, ?_⟩
  rw [quanta_finite, quanta_finite, quanta_finite, signed_tmod, hl]

theorem rem_infinite (hv : v.isFinite = true) (hw : w.isInfinite = true) : rem v w = v := by
  obtain ⟨s, j, hj, rfl⟩ := exists_finite hv
  obtain ⟨t, rfl⟩ := exists_infinite hw
  rfl

theorem rem_undefined (h : v.isFinite = false ∨ ¬ w.Nonzero) : rem v w = nan false := by
  cases v with
  | nan s => rfl
  | infinite s => cases w <;> rfl
  | finite s j hj =>
    have zero := h.resolve_left fun h => Bool.noConfusion h
    cases w with
    | nan t => rfl
    | infinite t => exact absurd (nonzero_of_isInfinite rfl) zero
    | finite t k hk =>
      have none : k = 0 := by
        rw [nonzero_iff rfl, not_not, quanta_finite, ← Int.natAbs_eq_zero, natAbs_signed] at zero
        exact Format.quanta_eq_zero_iff.mp zero
      exact if_pos none

/-! ## quotient and remainder before the last step -/

/-- The quotient before it is brought to an integer, and the remainder. -/
def estimate (v w : Binary f) : Binary f × Binary f :=
  let truncated := rem v w
  let quotient := div (sub v truncated) w
  if eq truncated (zero false) then (quotient, copySign (zero false) w)
  else if lt w (zero false) != lt truncated (zero false) then
    (sub quotient one, add truncated w)
  else (quotient, truncated)

theorem divmod_eq (v w : Binary f) :
    divmod v w = (if eq (estimate v w).1 (zero false) then copySign (zero false) (div v w)
      else snap (estimate v w).1, (estimate v w).2) := rfl

theorem estimate_of_zero (h : (rem v w).eq (zero false) = true) :
    estimate v w = (div (sub v (rem v w)) w, zero w.isNegative) := if_pos h

section
variable (h : (rem v w).Nonzero) (hw : w.Nonzero)
include h hw

theorem estimate_of_sign_ne (hs : w.isNegative ≠ (rem v w).isNegative) :
    estimate v w = (sub (div (sub v (rem v w)) w) one, add (rem v w) w) := by
  have ne : (w.lt (zero false) != (rem v w).lt (zero false)) = true := by
    rw [lt_zero h, lt_zero hw, bne_iff_ne]
    exact hs
  exact (if_neg (Bool.eq_false_iff.mp h.2)).trans (if_pos ne)

theorem estimate_of_sign_eq (hs : w.isNegative = (rem v w).isNegative) :
    estimate v w = (div (sub v (rem v w)) w, rem v w) := by
  have eq : ¬ (w.lt (zero false) != (rem v w).lt (zero false)) = true := by
    rw [lt_zero h, lt_zero hw, bne_iff_ne, not_not]
    exact hs
  exact (if_neg (Bool.eq_false_iff.mp h.2)).trans (if_neg eq)

end

structure Remains (v w r : Binary f) : Prop where
  defined : r.isNaN = false
  sign : r.isNegative = w.isNegative
  small : r.abs.le w.abs = true
  /-- the floored remainder, rounded once -/
  rounded (s t : Bool) (x y : ℚ) : v.number = .finite s x → w.number = .finite t y →
    r.RoundsTo (x - y * ⌊x / y⌋)

theorem remains_infinite (hv : v.isFinite = true) (hw : w.isInfinite = true) :
    v.Remains w (estimate v w).2 := by
  have truncated := rem_infinite hv hw
  have nonzero := nonzero_of_isInfinite hw
  obtain ⟨t, rfl⟩ := exists_infinite hw
  have rounded (r : Binary f) (s' t' : Bool) (x y : ℚ) (hx : v.number = .finite s' x)
      (hy : (infinite t : Binary f).number = .finite t' y) : r.RoundsTo (x - y * ⌊x / y⌋) := by
    cases hy
  have below {x : Binary f} (hx : x.isFinite = true) : x.abs.le (infinite t).abs = true := by
    obtain ⟨s, k, hk, rfl⟩ := exists_finite hx
    exact decide_eq_true (Int.ofNat_le.mpr (Nat.le_of_lt hk))
  cases zero : v.eq (Binary.zero false) with
  | true =>
    rw [estimate_of_zero (by rw [truncated, zero])]
    exact ⟨rfl, rfl, below rfl, rounded _⟩
  | false =>
    have rest : (rem v (infinite t)).Nonzero := by
      rw [truncated]
      exact ⟨isNaN_of_isFinite hv, zero⟩
    by_cases hs : t = v.isNegative
    · rw [estimate_of_sign_eq rest nonzero (by rw [truncated]; exact hs), truncated]
      exact ⟨isNaN_of_isFinite hv, hs.symm, below hv, rounded _⟩
    · rw [estimate_of_sign_ne rest nonzero (by rw [truncated]; exact hs), truncated,
        Binary.add_comm, infinite_add t hv]
      exact ⟨rfl, rfl, decide_eq_true (Int.le_refl _), rounded _⟩

section
variable (hv : v.isFinite = true) (hw : w.isFinite = true) (h0 : w.quanta ≠ 0)
include hv hw h0

theorem isNegative_rem_iff (rest : v.quanta.tmod w.quanta ≠ 0) :
    w.isNegative = (rem v w).isNegative ↔ (v.quanta.tmod w.quanta < 0 ↔ w.quanta < 0) := by
  obtain ⟨finite, -, exact⟩ := exists_rem hv hw h0
  rw [Bool.eq_iff_iff, isNegative_iff hw h0, isNegative_iff finite (by rwa [exact]), exact]
  exact Iff.comm

/-- The corrections are those of the truncated quotient of the integers. -/
theorem fst_estimate_truncated (h : v.quanta.tmod w.quanta = 0 ∨
    (v.quanta.tmod w.quanta < 0 ↔ w.quanta < 0)) :
    (estimate v w).1 = div (sub v (rem v w)) w := by
  obtain ⟨finite, -, exact⟩ := exists_rem hv hw h0
  by_cases rest : v.quanta.tmod w.quanta = 0
  · rw [estimate_of_zero ((eq_zero_iff finite).mpr (exact.trans rest))]
  · have signs := (isNegative_rem_iff hv hw h0 rest).mpr (h.resolve_left rest)
    have hr : (rem v w).Nonzero := (nonzero_iff finite).mpr (by rwa [exact])
    rw [estimate_of_sign_eq hr ((nonzero_iff hw).mpr h0) signs]

theorem estimate_corrected (rest : v.quanta.tmod w.quanta ≠ 0)
    (h : v.quanta.tmod w.quanta < 0 ↔ ¬ w.quanta < 0) :
    estimate v w = (sub (div (sub v (rem v w)) w) one, add (rem v w) w) := by
  obtain ⟨finite, -, exact⟩ := exists_rem hv hw h0
  have hr : (rem v w).Nonzero := (nonzero_iff finite).mpr (by rwa [exact])
  refine estimate_of_sign_ne hr ((nonzero_iff hw).mpr h0) ?_
  rw [Ne, isNegative_rem_iff hv hw h0 rest]
  omega

/-- In quanta the remainder is the floored one, rounded once. -/
theorem floored_remainder : (estimate v w).2.isNaN = false ∧
    (estimate v w).2.isNegative = w.isNegative ∧ (estimate v w).2.abs.le w.abs = true ∧
      (estimate v w).2.RoundsTo ((v.quanta.fmod w.quanta : ℤ) / (f.unit : ℚ)) := by
  obtain ⟨finite, -, exact⟩ := exists_rem hv hw h0
  have less := Integer.natAbs_tmod_lt (a := v.quanta) h0
  by_cases rest : v.quanta.tmod w.quanta = 0
  · rw [(Integer.truncated_eq h0 (.inl rest)).2, rest,
      estimate_of_zero ((eq_zero_iff finite).mpr (exact.trans rest))]
    have rounds := roundsTo_of_isFinite (x := (zero w.isNegative : Binary f)) rfl
    rw [quanta_zero] at rounds
    refine ⟨rfl, rfl, (abs_le_abs_iff rfl hw).mpr ?_, rounds⟩
    rw [quanta_zero]
    exact Nat.zero_le _
  · by_cases signs : v.quanta.tmod w.quanta < 0 ↔ w.quanta < 0
    · have hr : (rem v w).Nonzero := (nonzero_iff finite).mpr (by rwa [exact])
      have same := (isNegative_rem_iff hv hw h0 rest).mpr signs
      rw [(Integer.truncated_eq h0 (.inr signs)).2,
        estimate_of_sign_eq hr ((nonzero_iff hw).mpr h0) same, ← exact]
      refine ⟨hr.1, same.symm, (abs_le_abs_iff finite hw).mpr ?_, roundsTo_of_isFinite finite⟩
      rw [exact]
      exact Nat.le_of_lt less
    · have opposite : v.quanta.tmod w.quanta < 0 ↔ ¬ w.quanta < 0 := by omega
      have sum := (Integer.corrected_eq h0 rest opposite).2
      have smaller : (v.quanta.fmod w.quanta).natAbs ≤ w.quanta.natAbs := by
        rw [sum]
        omega
      obtain ⟨isFinite, le⟩ := ofQuanta_of_le hw smaller ((rem v w).isNegative && w.isNegative)
      rw [estimate_corrected hv hw h0 rest opposite, add_eq_ofQuanta finite hw, exact, ← sum]
      refine ⟨isNaN_of_isFinite isFinite, ?_, le, roundsTo_ofQuanta _ _⟩
      rw [isNegative_ofQuanta _ (by omega), Bool.eq_iff_iff, decide_eq_true_iff,
        isNegative_iff hw h0]
      omega

theorem remains_finite : v.Remains w (estimate v w).2 := by
  obtain ⟨defined, sign, small, rounds⟩ := floored_remainder hv hw h0
  refine ⟨defined, sign, small, fun s t x y hx hy => ?_⟩
  obtain ⟨-, rfl⟩ := Number.finite.inj ((number_eq_finite hv).symm.trans hx)
  obtain ⟨-, rfl⟩ := Number.finite.inj ((number_eq_finite hw).symm.trans hy)
  rw [div_div_div_cancel_right₀ (unit_ne_zero f), ← Integer.fdiv_eq_floor, div_mul_eq_mul_div,
    ← sub_div, ← Int.cast_mul, ← Int.cast_sub, ← Int.fmod_def]
  exact rounds

end

/-! ## the quotient is defined -/

theorem isNaN_ofQuanta (s : Bool) (z : ℤ) (d : Nat) : (ofQuanta s z d : Binary f).isNaN = false := by
  unfold ofQuanta round
  split <;> exact isNaN_ofRank _ _

theorem isNaN_add_right (hx : x.isNaN = false) (hy : y.isFinite = true) :
    (x.add y).isNaN = false := by
  cases x with
  | nan s => cases hx
  | infinite s =>
    rw [infinite_add s hy]
    rfl
  | finite s k hk => exact isNaN_add rfl hy

theorem isFinite_ofInt {i : ℤ} (h : i.natAbs ≤ 2 * f.binade) : (ofInt i : Binary f).isFinite = true := by
  obtain ⟨l, hl, e⟩ := f.exists_rank_of_le h
  rw [ofInt_eq_finite hl e]
  rfl

theorem isFinite_one : (one : Binary f).isFinite = true := by
  have hb := f.binade_pos
  exact isFinite_ofInt (by omega)

theorem isNaN_floor (hx : x.isNaN = false) : x.floor.isNaN = false := by
  cases x with
  | nan s => cases hx
  | infinite s => rfl
  | finite s k hk => exact isNaN_ofQuanta _ _ _

theorem isNaN_snap (hx : x.isNaN = false) : (snap x).isNaN = false := by
  show (if _ then _ else _ : Binary f).isNaN = false
  split
  · exact isNaN_add_right (isNaN_floor hx) isFinite_one
  · exact isNaN_floor hx

theorem isNaN_div_nonzero (hx : x.isFinite = true) (hy : y.Nonzero) : (x.div y).isNaN = false := by
  obtain ⟨s, j, hj, rfl⟩ := exists_finite hx
  cases y with
  | nan t => cases hy.1
  | infinite t => rfl
  | finite t k hk =>
    have pos : k ≠ 0 := by
      have h := hy.2
      rwa [eq_zero, decide_eq_false_iff_not] at h
    show (if k = 0 then _ else round _ _ _ : Binary f).isNaN = false
    rw [if_neg pos]
    exact isNaN_ofRank _ _

/-- What the truncated remainder leaves of the dividend is no larger. -/
theorem isFinite_sub_rem (hv : v.isFinite = true) (hw : w.Nonzero) :
    (sub v (rem v w)).isFinite = true := by
  obtain ⟨k, hk, natAbs⟩ := exists_natAbs_quanta hv
  have bound {r : Binary f} (hr : r.isFinite = true)
      (h : (v.quanta - r.quanta).natAbs ≤ v.quanta.natAbs) : (sub v r).isFinite = true := by
    refine isFinite_add hv (isFinite_neg hr) ?_ hk
    rwa [quanta_neg hr, ← Int.sub_eq_add_neg, ← natAbs]
  by_cases finite : w.isFinite = true
  · obtain ⟨hr, -, exact⟩ := exists_rem hv finite ((nonzero_iff finite).mp hw)
    refine bound hr ?_
    rw [exact, Int.tmod_def, sub_sub_cancel, Int.natAbs_mul, Int.natAbs_tdiv]
    exact Nat.mul_div_le _ _
  · have infinite := isInfinite_of_isFinite_false (Bool.eq_false_of_not_eq_true finite)
    rw [hw.1] at infinite
    rw [rem_infinite hv infinite]
    refine bound hv ?_
    rw [Int.sub_self]
    exact Nat.zero_le _

theorem isNaN_fst_estimate (hv : v.isFinite = true) (hw : w.Nonzero) :
    (estimate v w).1.isNaN = false := by
  have quotient := isNaN_div_nonzero (isFinite_sub_rem hv hw) hw
  show (if _ then _ else if _ then _ else _ : Binary f × Binary f).1.isNaN = false
  split
  · exact quotient
  · split
    · exact isNaN_add_right quotient (isFinite_neg isFinite_one)
    · exact quotient

/-! ## where the division is defined -/

theorem divmod_undefined (h : v.isFinite = false ∨ ¬ w.Nonzero) :
    (divmod v w).1.isNaN = true ∧ (divmod v w).2.isNaN = true := by
  have estimated : estimate v w = (nan false, nan false) := by
    unfold estimate
    simp only [rem_undefined h, sub_nan, nan_div, nan_sub, nan_add]
    exact (if_neg Bool.false_ne_true).trans (ite_self _)
  have snapped : snap (nan false : Binary f) = nan false :=
    if_neg (Bool.eq_false_iff.mp (lt_nan half false))
  have nonzero : ¬ (nan false : Binary f).eq (zero false) = true := Bool.false_ne_true
  rw [divmod_eq, estimated]
  dsimp only
  rw [if_neg nonzero, snapped]
  exact ⟨rfl, rfl⟩

theorem isNaN_fst_divmod (hv : v.isFinite = true) (hw : w.Nonzero) :
    (divmod v w).1.isNaN = false := by
  rw [divmod_eq]
  show (if _ then _ else _ : Binary f).isNaN = false
  split
  · rfl
  · exact isNaN_snap (isNaN_fst_estimate hv hw)

/-- **Floor division is undefined for a dividend that is not finite and a divisor of zero, or one
that is undefined itself**, in both results; in neither otherwise, and then the remainder is the
floored one, rounded once. -/
theorem divmod_defined (v w : Binary f) :
    (v.isFinite = false ∨ ¬ w.Nonzero →
      (divmod v w).1.isNaN = true ∧ (divmod v w).2.isNaN = true) ∧
    (v.isFinite = true ∧ w.Nonzero →
      (divmod v w).1.isNaN = false ∧ v.Remains w (divmod v w).2) := by
  refine ⟨divmod_undefined, fun ⟨hv, hw⟩ => ⟨isNaN_fst_divmod hv hw, ?_⟩⟩
  by_cases finite : w.isFinite = true
  · exact remains_finite hv finite ((nonzero_iff finite).mp hw)
  · have infinite := isInfinite_of_isFinite_false (Bool.eq_false_of_not_eq_true finite)
    rw [hw.1] at infinite
    exact remains_infinite hv infinite

/-- The number below zero that is nearest to it. -/
def belowZero : Binary .double := finite true 1 (by decide)

/-- By zero there is neither quotient nor remainder.  Just below zero the remainder by one is rounded
to one. -/
theorem belowZero_divmod_one :
    ((divmod belowZero (zero false)).1.isNaN = true ∧
      (divmod belowZero (zero false)).2.isNaN = true) ∧
    ((divmod belowZero one).1.isNaN = false ∧ belowZero.Remains one (divmod belowZero one).2) ∧
      (divmod belowZero one).2 = one :=
  ⟨(divmod_defined belowZero (zero false)).1 (.inr fun h => Bool.noConfusion h.2),
    (divmod_defined belowZero one).2 ⟨rfl, by decide +kernel, by decide +kernel⟩,
    by decide +kernel⟩

end Binary

end Pointwise
