import Mathlib.Tactic.Positivity
import Pointwise.Proofs.Binary.Snap
import Pointwise.Proofs.Binary.Values

/-!
# The quotient of floating-point floor division

What the divisor goes into is a multiple of the divisor, but it is rounded before it is divided, and
the quotient is rounded again.  Bringing the quotient to an integer mends an error of up to a
quarter.  Small quotients have no larger one.  For large quotients the multiple is rounded back to
the dividend, and integers that are magnitudes are further apart than the errors.  In between the
errors can add up to more than a half.

* `Format.estimate`   the quotient that is brought to an integer, in quanta;
* `estimate_small`, `corrected_small`   small quotients are within a quarter of the whole part;
* `estimate_large`, `corrected_large`   large ones are the whole part, if that is a magnitude;
* `exists_quotient`, `fst_divmod_of_near`   the quotient in quanta, and what it is brought to;
* `quotient_floor`   where the quotient is the floor.
-/

namespace Pointwise

namespace Format
variable (f : Format)

/-- A whole number of times `n` that `b` quanta go into the dividend, as it comes out of the rounded
multiple by a rounded division, in quanta. -/
def estimate (n b : Nat) : Nat :=
  f.quanta (f.nearest (f.quanta (f.nearest (n * b) 1) * f.unit) b)

theorem estimate_zero (b : Nat) : f.estimate 0 b = 0 := by
  unfold estimate
  rw [Nat.zero_mul, f.nearest_zero, f.quanta_zero, Nat.zero_mul, f.nearest_zero, f.quanta_zero]

/-- A number of quanta within a quarter of an integer, and no larger than a finite number. -/
structure Settles (e n : Nat) : Prop where
  least : 4 * (n * f.unit) ≤ 4 * e + f.unit
  most : 4 * e ≤ 4 * (n * f.unit) + f.unit
  room : ∃ m < f.top, e ≤ f.quanta m

section
variable {f : Format} {n e : Nat}

theorem settles_of_small (h : n ≤ f.binade) (least : 4 * (n * f.unit) ≤ 4 * e + f.unit)
    (most : 4 * e ≤ 4 * (n * f.unit) + f.unit) : f.Settles e n := by
  have hb := f.binade_pos
  obtain ⟨m, hm, value⟩ := f.exists_rank_of_le (n := n + 1) (by omega)
  refine ⟨least, most, m, hm, ?_⟩
  rw [Nat.succ_mul] at value
  omega

theorem settles_of_eq {m : Nat} (hm : m < f.top) (value : f.quanta m = n * f.unit)
    (he : e = n * f.unit) : f.Settles e n :=
  ⟨by omega, by omega, m, hm, by omega⟩

theorem Settles.abs_le (h : f.Settles e n) (s : Bool) :
    4 * |signed s e - signed s n * f.unit| ≤ f.unit := by
  have least : 4 * ((n : ℤ) * f.unit) ≤ 4 * e + f.unit := by exact_mod_cast h.least
  have most : 4 * (e : ℤ) ≤ 4 * (n * f.unit) + f.unit := by exact_mod_cast h.most
  rcases abs_choice (signed s e - signed s n * f.unit) with same | opposite
  · rw [same]
    cases s with
    | false => rw [signed_false, signed_false]; omega
    | true => rw [signed_true, signed_true, Int.neg_mul]; omega
  · rw [opposite]
    cases s with
    | false => rw [signed_false, signed_false]; omega
    | true => rw [signed_true, signed_true, Int.neg_mul]; omega

end

/-! ### small quotients -/

section
variable {f : Format} {n d m : Nat} (hm : m < 2 * f.binade)
include hm

/-- Rounding does not cross a quarter that is a magnitude. -/
theorem quarter_le_nearest (hd : 0 < d) (h : m * f.unit * d ≤ 4 * n) :
    m * f.unit ≤ 4 * f.quanta (f.nearest n d) := by
  obtain ⟨l, hl⟩ := f.exists_quarter hm
  have below : f.quanta l * d ≤ n := by
    rw [← hl, Nat.mul_assoc] at h
    omega
  have le := f.quanta_strictMono.monotone (le_nearest hd below)
  omega

theorem nearest_le_quarter (h : 4 * n ≤ m * f.unit * d) :
    4 * f.quanta (f.nearest n d) ≤ m * f.unit := by
  obtain ⟨l, hl⟩ := f.exists_quarter hm
  have above : n ≤ f.quanta l * d := by
    rw [← hl, Nat.mul_assoc] at h
    omega
  have le := f.quanta_strictMono.monotone (f.nearest_le above)
  omega

end

section
variable {f : Format} {n b : Nat}

theorem multiple_error (h : 2 * n ≤ f.binade) :
    4 * ((n * b : Nat) - f.quanta (f.nearest (n * b) 1) : ℤ).natAbs ≤ b := by
  have error := f.relative_error (n * b)
  have pos : 0 < 2 * f.binade := Nat.mul_pos (by decide) f.binade_pos
  refine Nat.le_of_mul_le_mul_left ?_ pos
  calc 2 * f.binade * (4 * _) = 4 * (2 * f.binade * _) := by ring
    _ ≤ 4 * (n * b) := Nat.mul_le_mul_left 4 error
    _ = 2 * (2 * n) * b := by ring
    _ ≤ 2 * f.binade * b := Nat.mul_le_mul_right b (Nat.mul_le_mul_left 2 h)

variable (hb : 0 < b)
include hb

/-- A quotient within a quarter is rounded to one within a quarter. -/
theorem estimate_near (h : 2 * n < f.binade) : f.Settles (f.estimate n b) n := by
  have error := multiple_error (b := b) (Nat.le_of_lt h)
  unfold estimate
  generalize f.quanta (f.nearest (n * b) 1) = g at error
  refine settles_of_small (by omega) ?_ ?_
  · -- the quarter below `n` is counted from the integer below, which zero does not have
    cases n with
    | zero =>
      rw [Nat.zero_mul, Nat.mul_zero]
      exact Nat.zero_le _
    | succ m =>
      have split : (4 * m + 3) * b + b = 4 * ((m + 1) * b) := by ring
      have least := quarter_le_nearest (f := f) (m := 4 * m + 3) (n := g * f.unit) (by omega) hb <|
        calc (4 * m + 3) * f.unit * b = (4 * m + 3) * b * f.unit := by ring
          _ ≤ 4 * g * f.unit := Nat.mul_le_mul_right _ (by omega)
          _ = 4 * (g * f.unit) := Nat.mul_assoc _ _ _
      have split : (4 * m + 3) * f.unit + f.unit = 4 * ((m + 1) * f.unit) := by ring
      omega
  · have split : (4 * n + 1) * b = 4 * (n * b) + b := by ring
    have most := nearest_le_quarter (f := f) (m := 4 * n + 1) (n := g * f.unit) (d := b) (by omega) <|
      calc 4 * (g * f.unit) = 4 * g * f.unit := (Nat.mul_assoc _ _ _).symm
        _ ≤ (4 * n + 1) * b * f.unit := Nat.mul_le_mul_right _ (by omega)
        _ = (4 * n + 1) * f.unit * b := by ring
    have split : (4 * n + 1) * f.unit = 4 * (n * f.unit) + f.unit := by ring
    omega

/-- Where the multiple is not rounded, the quotient is not either. -/
theorem estimate_of_exact (exact : f.quanta (f.nearest (n * b) 1) = n * b) {m : Nat}
    (hm : f.quanta m = n * f.unit) : f.estimate n b = n * f.unit := by
  have product : f.quanta (f.nearest (n * b) 1) * f.unit = f.quanta m * b := by
    rw [exact, hm]
    ring
  unfold estimate
  rw [product, f.nearest_quanta m hb, hm]

/-- The largest whole part is a power of two, and a multiple by that is not rounded. -/
theorem estimate_of_half_binade {k : Nat} (hk : b = f.quanta k) (h : 2 * n = f.binade) :
    f.estimate n b = n * f.unit := by
  have hp := f.fraction_pos
  obtain ⟨m, hm, value⟩ := f.exists_rank_of_le (n := n) (by omega)
  refine estimate_of_exact hb ?_ value.symm
  have power : n = 2 ^ (f.fractionBits - 1) := by
    have two : 2 * 2 ^ (f.fractionBits - 1) = f.binade := by
      rw [← Nat.pow_succ', binade_eq, Nat.succ_eq_add_one, Nat.sub_add_cancel hp]
    omega
  obtain ⟨i, t, hi, quanta⟩ := f.exists_significand k
  obtain ⟨l, hl⟩ := f.exists_quanta hi (t + (f.fractionBits - 1))
  have multiple : n * b = f.quanta l * 1 := by
    rw [hk, quanta, hl, power, Nat.pow_add]
    ring
  rw [multiple, f.nearest_quanta l Nat.one_pos, Nat.mul_one]

theorem estimate_small {k : Nat} (hk : b = f.quanta k) (h : 2 * n ≤ f.binade) :
    f.Settles (f.estimate n b) n := by
  rcases Nat.lt_or_eq_of_le h with less | equal
  · exact estimate_near hb less
  · rw [estimate_of_half_binade hb hk equal]
    exact settles_of_small (by omega) (by omega) (by omega)

/-- The quotient and one more settles the next integer: either its quarters are magnitudes, or it is
the last one, and a tie goes to it then. -/
theorem corrected_small (h : 2 * (n + 1) ≤ f.binade) :
    f.Settles (f.quanta (f.nearest (f.estimate n b + f.unit) 1)) (n + 1) := by
  obtain ⟨least, most, -⟩ := estimate_near (f := f) (n := n) hb (by omega)
  generalize f.estimate n b = e at least most
  have split : (n + 1) * f.unit = n * f.unit + f.unit := Nat.succ_mul n _
  refine settles_of_small (by omega) ?_ ?_
  · have split : (4 * n + 3) * f.unit = 4 * (n * f.unit) + 3 * f.unit := by ring
    have below := quarter_le_nearest (f := f) (m := 4 * n + 3) (n := e + f.unit) (by omega)
      Nat.one_pos (by omega)
    omega
  · rcases Nat.lt_or_eq_of_le h with less | equal
    · obtain ⟨i, even⟩ := f.even_binade
      have split : (4 * n + 5) * f.unit = 4 * (n * f.unit) + 5 * f.unit := by ring
      have above := nearest_le_quarter (f := f) (m := 4 * n + 5) (n := e + f.unit) (d := 1)
        (by omega) (by omega)
      omega
    · -- the quarter above the last integer is none, but the middle between the halves beside it
      obtain ⟨l, even, value, next⟩ := f.exists_even_quarter
      have split : 2 * (n + 1) * f.unit = 2 * (n * f.unit) + 2 * f.unit := by ring
      have split' : (2 * (n + 1) + 1) * f.unit = 2 * (n * f.unit) + 3 * f.unit := by ring
      rw [← equal] at value next
      have above := f.quanta_strictMono.monotone
        (nearest_le_of_even (f := f) (n := e + f.unit) Nat.one_pos even (by omega))
      omega

end

/-! ### large quotients -/

/-- Magnitudes far from zero are far apart. -/
theorem gap_below {i c : Nat} (h : 4 * f.binade * c ≤ f.quanta (i + 1)) :
    f.quanta i + 2 * c ≤ f.quanta (i + 1) := by
  have less := f.quanta_strictMono i.lt_add_one
  have pos : 0 < 2 * f.binade := Nat.mul_pos (by decide) f.binade_pos
  have gap : 2 * c ≤ f.quanta (i + 1) - f.quanta i := by
    refine Nat.le_of_mul_le_mul_left (c := 2 * f.binade) ?_ pos
    calc 2 * f.binade * (2 * c) = 4 * f.binade * c := by ring
      _ ≤ f.quanta (i + 1) := h
      _ ≤ _ := f.quanta_succ_le i
  omega

theorem gap_above {i c : Nat} (h : 4 * f.binade * c ≤ f.quanta i) :
    f.quanta i + 2 * c < f.quanta (i + 1) := by
  have less := f.quanta_strictMono i.lt_add_one
  have gap : 2 * c < f.quanta (i + 1) - f.quanta i := by
    refine Nat.lt_of_mul_lt_mul_left (a := 2 * f.binade) ?_
    calc 2 * f.binade * (2 * c) = 4 * f.binade * c := by ring
      _ < f.quanta (i + 1) := Nat.lt_of_le_of_lt h less
      _ ≤ _ := f.quanta_succ_le i
  omega

/-- One more does not change a large integer. -/
theorem corrected_large {n m : Nat} (hm : f.quanta m = n * f.unit) (large : 4 * f.binade ≤ n) :
    f.nearest (n * f.unit + f.unit) 1 = m := by
  have gap := f.gap_above (i := m) (c := f.unit) (by rw [hm]; exact Nat.mul_le_mul_right _ large)
  have least := le_nearest (f := f) (m := m) (n := n * f.unit + f.unit) Nat.one_pos (by omega)
  have most := nearest_lt (f := f) (n := n * f.unit + f.unit) Nat.one_pos m.lt_add_one (by omega)
  omega

theorem binade_le_whole {f : Format} {n b a : Nat} (high : a < (n + 1) * b)
    (large : 4 * f.binade * b ≤ a) : 4 * f.binade ≤ n :=
  Nat.le_of_lt_succ (Nat.lt_of_mul_lt_mul_right (Nat.lt_of_le_of_lt large high))

section
variable {f : Format} {n b j : Nat} (hb : 0 < b) (low : n * b ≤ f.quanta j)
  (high : f.quanta j < (n + 1) * b) (large : 4 * f.binade * b ≤ f.quanta j)
include low high large

/-- The multiple is rounded back to the dividend. -/
theorem multiple_large : f.nearest (n * b) 1 = j := by
  refine Nat.le_antisymm (f.nearest_le (by omega)) ?_
  -- the magnitude below the dividend is two divisors away, and the multiple less than one
  cases j with
  | zero => exact Nat.zero_le _
  | succ i =>
    have gap := f.gap_below large
    rw [Nat.succ_mul] at high
    exact lt_nearest Nat.one_pos i.lt_add_one (by omega)

include hb

/-- A whole part that is a magnitude is the nearest to the quotient. -/
theorem estimate_large {m : Nat} (hm : f.quanta m = n * f.unit) : f.estimate n b = n * f.unit := by
  have size := Nat.mul_le_mul_right f.unit (binade_le_whole high large)
  have gap := f.gap_above (i := m) (c := f.unit) (by omega)
  have below : f.quanta m * b ≤ f.quanta j * f.unit := by
    calc f.quanta m * b = n * b * f.unit := by rw [hm]; ring
      _ ≤ _ := Nat.mul_le_mul_right _ low
  have above : 2 * (f.quanta j * f.unit) < (f.quanta m + f.quanta (m + 1)) * b := by
    calc 2 * (f.quanta j * f.unit) < 2 * ((n + 1) * b * f.unit) := by
          have := Nat.mul_lt_mul_of_pos_right high f.unit_pos
          omega
      _ = (2 * (n * f.unit) + 2 * f.unit) * b := by ring
      _ ≤ _ := Nat.mul_le_mul_right _ (by omega)
  have least := le_nearest hb below
  have most := nearest_lt hb m.lt_add_one above
  unfold estimate
  rw [multiple_large low high large, show f.nearest (f.quanta j * f.unit) b = m by omega, hm]

/-- So is the next integer, where the divisor goes into the dividend with a rest. -/
theorem estimate_large_succ {m : Nat} (rest : n * b < f.quanta j)
    (hm : f.quanta m = (n + 1) * f.unit) : f.estimate n b = (n + 1) * f.unit := by
  have size := Nat.mul_le_mul_right f.unit (binade_le_whole high large)
  have split : (n + 1) * f.unit = n * f.unit + f.unit := Nat.succ_mul n _
  have most : f.nearest (f.quanta j * f.unit) b ≤ m := by
    refine f.nearest_le ?_
    calc f.quanta j * f.unit ≤ (n + 1) * b * f.unit := Nat.mul_le_mul_right _ (Nat.le_of_lt high)
      _ = f.quanta m * b := by rw [hm]; ring
  have least : m ≤ f.nearest (f.quanta j * f.unit) b := by
    cases m with
    | zero => exact Nat.zero_le _
    | succ i =>
      have gap := f.gap_below (i := i) (c := f.unit) (by omega)
      refine lt_nearest hb i.lt_add_one ?_
      calc (f.quanta i + f.quanta (i + 1)) * b ≤ 2 * (n * f.unit) * b :=
            Nat.mul_le_mul_right _ (by omega)
        _ = 2 * (n * b * f.unit) := by ring
        _ < 2 * (f.quanta j * f.unit) := by
            have := Nat.mul_lt_mul_of_pos_right rest f.unit_pos
            omega
  unfold estimate
  rw [multiple_large low high large, Nat.le_antisymm most least, hm]

end

end Format

namespace Binary
variable {f : Format} {v w : Binary f}

/-- A multiple over the number has the sign of the factor. -/
theorem sign_of_multiple {t : Bool} {n : Nat} {q : ℤ} (h0 : signed t n ≠ 0) (hq : q ≠ 0) :
    (decide (signed t n * q < 0) ^^ t) = decide (q < 0) := by
  cases t with
  | false =>
    rw [signed_false] at h0 ⊢
    have pos : (0 : ℤ) < n := by omega
    rw [Bool.xor_false, decide_eq_decide]
    exact ⟨fun h => neg_of_mul_neg_right h pos.le, fun h => mul_neg_of_pos_of_neg pos h⟩
  | true =>
    rw [signed_true] at h0 ⊢
    have pos : (0 : ℤ) < n := by omega
    rw [Int.neg_mul, Bool.xor_true, ← decide_not, decide_eq_decide, Int.neg_neg_iff_pos, Int.not_lt]
    refine ⟨fun h => ?_, fun h => mul_nonpos_of_nonneg_of_nonpos pos.le h.le⟩
    exact lt_of_le_of_ne (Int.not_lt.mp fun h' => (mul_pos pos h').not_ge h) hq

theorem ofRank_of_quanta_le (s : Bool) {k m : Nat} (le : f.quanta k ≤ f.quanta m) (hm : m < f.top) :
    (ofRank s k : Binary f).isFinite = true ∧
      (ofRank s k : Binary f).quanta = signed s (f.quanta k) := by
  have room : k < f.top := Nat.lt_of_le_of_lt (f.quanta_strictMono.le_iff_le.mp le) hm
  unfold ofRank
  rw [dif_pos room]
  exact ⟨rfl, rfl⟩

theorem ofQuanta_eq_ofRank (s : Bool) {z : ℤ} (h0 : z ≠ 0) :
    (ofQuanta s z 1 : Binary f) = ofRank (decide (z < 0)) (f.nearest z.natAbs 1) := by
  unfold ofQuanta
  rw [if_neg h0]
  rfl

theorem ofRank_of_isFinite {s : Bool} {k : Nat} (h : (ofRank s k : Binary f).isFinite = true) :
    ∃ hk : k < f.top, (ofRank s k : Binary f) = finite s k hk := by
  unfold ofRank at h ⊢
  by_cases hk : k < f.top
  · exact ⟨hk, dif_pos hk⟩
  · rw [dif_neg hk] at h
    cases h

theorem ofQuanta_zero (s : Bool) : (ofQuanta s 0 1 : Binary f) = zero s := round_zero s 1

theorem zero_div (s : Bool) {t : Bool} {k : Nat} {hk : k < f.top} (h0 : k ≠ 0) :
    div (zero s) (finite t k hk) = zero (s ^^ t) := by
  show (if k = 0 then _ else round (s ^^ t) (f.quanta 0 * f.unit) (f.quanta k) : Binary f) = _
  rw [if_neg h0, f.quanta_zero, Nat.zero_mul, round_zero]

/-- A finite number of quanta over a finite number, by the ranks. -/
theorem ofQuanta_div {t : Bool} {k : Nat} {hk : k < f.top} (s : Bool) {z : ℤ} (hz : z ≠ 0)
    (h0 : k ≠ 0) (h : (ofQuanta s z 1 : Binary f).isFinite = true) :
    div (ofQuanta s z 1) (finite t k hk) = ofRank (decide (z < 0) ^^ t)
      (f.nearest (f.quanta (f.nearest z.natAbs 1) * f.unit) (f.quanta k)) := by
  rw [ofQuanta_eq_ofRank s hz] at h ⊢
  obtain ⟨hj, value⟩ := ofRank_of_isFinite h
  rw [value]
  exact if_neg h0

/-- A number within a quarter settles what the quotient is brought to. -/
theorem fst_divmod_of_near {q : ℤ} (finite : (estimate v w).1.isFinite = true)
    (near : 4 * |(estimate v w).1.quanta - q * f.unit| ≤ f.unit) :
    (divmod v w).1.isFinite = true ∧ (divmod v w).1.quanta = q * f.unit := by
  rw [divmod_eq]
  dsimp only
  by_cases zero : (estimate v w).1.eq (Binary.zero false) = true
  · have hu : (0 : ℤ) < f.unit := Int.natCast_pos.mpr f.unit_pos
    have none : (0 : ℤ) = q := by
      refine eq_of_near hu ?_ near
      rw [(eq_zero_iff finite).mp zero, Int.zero_mul, Int.sub_zero, abs_zero]
      omega
    rw [if_pos zero, ← none, Int.zero_mul]
    exact ⟨rfl, quanta_zero _⟩
  · obtain ⟨isFinite, n, value, -, unique⟩ := exists_snap finite
    rw [if_neg zero, value, unique q near]
    exact ⟨isFinite, rfl⟩

section
variable (hv : v.isFinite = true) (hw : w.isFinite = true) (h0 : w.quanta ≠ 0)
include hv hw h0

/-- The quotient of what the divisor goes into, while it is no larger than a finite number. -/
theorem exists_quotient {n b m : Nat} (hn : (v.quanta.tdiv w.quanta).natAbs = n)
    (hb : w.quanta.natAbs = b) (le : f.estimate n b ≤ f.quanta m) (hm : m < f.top) :
    (div (sub v (rem v w)) w).isFinite = true ∧ (div (sub v (rem v w)) w).quanta
      = signed (decide (v.quanta.tdiv w.quanta < 0)) (f.estimate n b) := by
  obtain ⟨finite, -, rest⟩ := exists_rem hv hw h0
  have multiple : v.quanta - (rem v w).quanta = w.quanta * v.quanta.tdiv w.quanta := by
    rw [rest, Int.tmod_def, sub_sub_cancel]
  have isFinite := isFinite_sub_rem hv ((nonzero_iff hw).mpr h0)
  rw [sub_eq_ofQuanta hv finite, multiple] at isFinite ⊢
  generalize v.quanta.tdiv w.quanta = q at hn isFinite
  obtain ⟨t, k, hk, rfl⟩ := exists_finite hw
  rw [quanta_finite] at h0 hb isFinite ⊢
  have pos : k ≠ 0 := by
    rintro rfl
    exact h0 (quanta_zero t)
  rw [natAbs_signed] at hb
  subst hb
  -- a zero multiple has the sign of a sum, not of the factor
  by_cases hq : q = 0
  · subst hq
    obtain rfl : n = 0 := hn.symm
    rw [Int.mul_zero, ofQuanta_zero, zero_div _ pos, Format.estimate_zero, signed_zero]
    exact ⟨rfl, quanta_zero _⟩
  · rw [ofQuanta_div _ (mul_ne_zero h0 hq) pos isFinite, sign_of_multiple h0 hq, Int.natAbs_mul,
      natAbs_signed, hn, Nat.mul_comm (f.quanta k)]
    exact ofRank_of_quanta_le _ le hm

section
variable {n b : Nat} (hn : (v.quanta.tdiv w.quanta).natAbs = n) (hb : w.quanta.natAbs = b)
include hn hb

theorem fst_divmod_truncated (h : v.quanta.tmod w.quanta = 0 ∨
    (v.quanta.tmod w.quanta < 0 ↔ w.quanta < 0)) (settles : f.Settles (f.estimate n b) n) :
    (divmod v w).1.isFinite = true ∧
      (divmod v w).1.quanta = v.quanta.fdiv w.quanta * f.unit := by
  obtain ⟨m, hm, le⟩ := settles.room
  obtain ⟨finite, value⟩ := exists_quotient hv hw h0 hn hb le hm
  have near := settles.abs_le (decide (v.quanta.tdiv w.quanta < 0))
  rw [← value, ← hn, signed_natAbs, ← (Integer.truncated_eq h0 h).1] at near
  rw [← fst_estimate_truncated hv hw h0 h] at finite near
  exact fst_divmod_of_near finite near

section
variable (rest : v.quanta.tmod w.quanta ≠ 0) (h : v.quanta.tmod w.quanta < 0 ↔ ¬ w.quanta < 0)
  (room : ∃ m < f.top, f.estimate n b ≤ f.quanta m)
include rest h room

/-- The quotient is none above zero, so that the correction makes it larger in magnitude. -/
theorem fst_estimate_corrected :
    (estimate v w).1 = ofRank true (f.nearest (f.estimate n b + f.unit) 1) := by
  obtain ⟨m, hm, le⟩ := room
  obtain ⟨finite, value⟩ := exists_quotient hv hw h0 hn hb le hm
  have negative : (div (sub v (rem v w)) w).quanta = -(f.estimate n b : ℤ) := by
    rw [value]
    rcases Int.lt_or_eq_of_le (Integer.corrected_nonpos rest h) with less | zero
    · rw [decide_eq_true less, signed_true]
    · rw [zero] at hn
      rw [← hn, Int.natAbs_zero, Format.estimate_zero, signed_zero]
      rfl
  have sum : -(f.estimate n b : ℤ) - f.unit = -((f.estimate n b + f.unit : Nat) : ℤ) := by
    push_cast
    ring
  have hu := f.unit_pos
  rw [estimate_corrected hv hw h0 rest h, sub_eq_ofQuanta finite isFinite_one, negative,
    quanta_one, sum, ofQuanta_eq_ofRank _ (by omega), Int.natAbs_neg, Int.natAbs_natCast,
    decide_eq_true (by omega)]

theorem fst_divmod_corrected
    (settles : f.Settles (f.quanta (f.nearest (f.estimate n b + f.unit) 1)) (n + 1)) :
    (divmod v w).1.isFinite = true ∧
      (divmod v w).1.quanta = v.quanta.fdiv w.quanta * f.unit := by
  have corrected := fst_estimate_corrected hv hw h0 hn hb rest h room
  obtain ⟨m, hm, le⟩ := settles.room
  obtain ⟨finite, value⟩ := ofRank_of_quanta_le true le hm
  have whole : signed true (n + 1) = v.quanta.fdiv w.quanta := by
    have nonpos := Integer.corrected_nonpos rest h
    rw [(Integer.corrected_eq h0 rest h).1, signed_true]
    omega
  have near := settles.abs_le true
  rw [← value, whole, ← corrected] at near
  rw [← corrected] at finite
  exact fst_divmod_of_near finite near

end

end

theorem fst_divmod_small (small : 2 * v.quanta.natAbs ≤ f.binade * w.quanta.natAbs) :
    (divmod v w).1.isFinite = true ∧
      (divmod v w).1.quanta = v.quanta.fdiv w.quanta * f.unit := by
  obtain ⟨low, -, strict⟩ := Integer.natAbs_tdiv_bounds (a := v.quanta) h0
  obtain ⟨k, -, hk⟩ := exists_natAbs_quanta hw
  have pos := Int.natAbs_pos.mpr h0
  generalize hn : (v.quanta.tdiv w.quanta).natAbs = n at low strict
  have whole : 2 * n ≤ f.binade := by
    refine Nat.le_of_mul_le_mul_right (c := w.quanta.natAbs) ?_ pos
    rw [Nat.mul_assoc]
    omega
  have settles := Format.estimate_small pos hk whole
  by_cases h : v.quanta.tmod w.quanta = 0 ∨ (v.quanta.tmod w.quanta < 0 ↔ w.quanta < 0)
  · exact fst_divmod_truncated hv hw h0 hn rfl h settles
  · obtain ⟨i, even⟩ := f.even_binade
    have less : 2 * n < f.binade := by
      refine Nat.lt_of_mul_lt_mul_right (a := w.quanta.natAbs) ?_
      rw [Nat.mul_assoc]
      have := strict (by omega)
      omega
    exact fst_divmod_corrected hv hw h0 hn rfl (by omega) (by omega) settles.room
      (Format.corrected_small pos (by omega))

theorem fst_divmod_large (large : 4 * f.binade * w.quanta.natAbs ≤ v.quanta.natAbs) {m : Nat}
    (hm : m < f.top) (value : f.quanta m = (v.quanta.fdiv w.quanta).natAbs * f.unit) :
    (divmod v w).1.isFinite = true ∧
      (divmod v w).1.quanta = v.quanta.fdiv w.quanta * f.unit := by
  obtain ⟨low, high, strict⟩ := Integer.natAbs_tdiv_bounds (a := v.quanta) h0
  obtain ⟨j, -, hj⟩ := exists_natAbs_quanta hv
  have pos := Int.natAbs_pos.mpr h0
  have size := Format.binade_le_whole high large
  generalize hn : (v.quanta.tdiv w.quanta).natAbs = n at low high strict size
  rw [hj] at low high strict large
  by_cases h : v.quanta.tmod w.quanta = 0 ∨ (v.quanta.tmod w.quanta < 0 ↔ w.quanta < 0)
  · rw [(Integer.truncated_eq h0 h).1, hn] at value
    exact fst_divmod_truncated hv hw h0 hn rfl h
      (Format.settles_of_eq hm value (Format.estimate_large pos low high large value))
  · have corrected : (v.quanta.fdiv w.quanta).natAbs = n + 1 := by
      have nonpos := Integer.corrected_nonpos (a := v.quanta) (b := w.quanta) (by omega) (by omega)
      rw [(Integer.corrected_eq h0 (by omega) (by omega)).1]
      omega
    rw [corrected] at value
    have exact := Format.estimate_large_succ pos low high large (strict (by omega)) value
    have same : f.quanta (f.nearest (f.estimate n w.quanta.natAbs + f.unit) 1)
        = (n + 1) * f.unit := by
      rw [exact, f.corrected_large value (by omega), value]
    exact fst_divmod_corrected hv hw h0 hn rfl (by omega) (by omega) ⟨m, hm, by omega⟩
      (Format.settles_of_eq hm value same)

end

/-! ### the quotient as a number -/

theorem abs_div_natAbs (a b : ℤ) : |(a : ℚ) / b| = a.natAbs / b.natAbs := by
  rw [abs_div, Nat.cast_natAbs, Nat.cast_natAbs, Int.cast_abs, Int.cast_abs]

/-- An integral value of a format has a magnitude. -/
theorem exists_rank_of_mem_values {i : ℤ} (h : (i : ℚ) ∈ f.values) :
    ∃ m < f.top, f.quanta m = i.natAbs * f.unit := by
  obtain ⟨x, s, hx⟩ := mem_values_iff.mp h
  obtain ⟨finite, value⟩ := quanta_of_number hx
  obtain ⟨m, hm, natAbs⟩ := exists_natAbs_quanta finite
  rw [eq_div_iff (unit_ne_zero f)] at value
  have whole : i * f.unit = x.quanta := by exact_mod_cast value
  refine ⟨m, hm, ?_⟩
  rw [← natAbs, ← whole, Int.natAbs_mul, Int.natAbs_natCast]

/-- **The quotient of floor division is the floor of the exact quotient** where that is a value of
the format, for quotients up to half the number of significands in a binade, and again from four
times that number on. -/
theorem quotient_floor {s t : Bool} {x y : ℚ} (hx : v.number = .finite s x)
    (hy : w.number = .finite t y) (h0 : y ≠ 0) (value : (⌊x / y⌋ : ℚ) ∈ f.values)
    (size : |x / y| ≤ 2 ^ (f.fractionBits - 1) ∨ 2 ^ (f.fractionBits + 2) ≤ |x / y|) :
    ∃ u, (divmod v w).1.number = .finite u ⌊x / y⌋ := by
  obtain ⟨hv, rfl⟩ := quanta_of_number hx
  obtain ⟨hw, rfl⟩ := quanta_of_number hy
  rw [div_ne_zero_iff, Int.cast_ne_zero] at h0
  have pos : (0 : ℚ) < w.quanta.natAbs := Nat.cast_pos.mpr (Int.natAbs_pos.mpr h0.1)
  rw [div_div_div_cancel_right₀ (unit_ne_zero f)] at value size ⊢
  rw [abs_div_natAbs, div_le_iff₀ pos, le_div_iff₀ pos] at size
  rw [← Integer.fdiv_eq_floor] at value ⊢
  obtain ⟨finite, quotient⟩ : (divmod v w).1.isFinite = true ∧
      (divmod v w).1.quanta = v.quanta.fdiv w.quanta * f.unit := by
    rcases size with small | large
    · refine fst_divmod_small hv hw h0.1 ?_
      rw [f.binade_eq, ← Nat.sub_add_cancel f.fraction_pos, Nat.pow_succ', Nat.mul_assoc]
      exact Nat.mul_le_mul_left 2 (by exact_mod_cast small)
    · obtain ⟨m, hm, magnitude⟩ := exists_rank_of_mem_values value
      refine fst_divmod_large hv hw h0.1 ?_ hm magnitude
      have power : 4 * f.binade = 2 ^ (f.fractionBits + 2) := by
        rw [f.binade_eq, Nat.pow_add, Nat.mul_comm]
      rw [power]
      exact_mod_cast large
  refine ⟨(divmod v w).1.isNegative, ?_⟩
  rw [number_eq_finite finite, quotient]
  push_cast
  rw [mul_div_cancel_right₀ _ (unit_ne_zero f)]

/-- A small quotient that is corrected, and a large one. -/
theorem minus_seven_divmod_two :
    (∃ u, (divmod (ofInt (-7) : Binary .double) (ofInt 2)).1.number = .finite u (-4 : ℤ)) ∧
    ∃ u, (divmod (ofInt (2 ^ 60) : Binary .double) (ofInt (-1))).1.number
      = .finite u (-2 ^ 60 : ℤ) := by
  constructor
  · have floor : ⌊(-7 : ℚ) / 2⌋ = -4 := by decide +kernel
    have number := quotient_floor (v := (ofInt (-7) : Binary .double)) (w := ofInt 2)
      (s := true) (t := false) (x := -7) (y := 2) (by decide +kernel) (by decide +kernel)
      (by decide) (by rw [floor]; exact Format.double.intCast_mem_values (by decide))
      (.inl (by decide +kernel))
    rwa [floor] at number
  · have floor : ⌊(2 ^ 60 : ℚ) / -1⌋ = -2 ^ 60 := by decide +kernel
    have number := quotient_floor (v := (ofInt (2 ^ 60) : Binary .double)) (w := ofInt (-1))
      (s := false) (t := true) (x := 2 ^ 60) (y := -1) (by decide +kernel) (by decide +kernel)
      (by decide)
      (by rw [floor]; exact mem_values_iff.mpr ⟨ofInt (-2 ^ 60), true, by decide +kernel⟩)
      (.inr (by decide +kernel))
    rwa [floor] at number

def oneAndHalf (f : Format) : Binary f := round false (3 * f.unit) 2

/-- In between the errors can add up to more than a half: in either format the quotient of some
numbers is one above the floor, which is a value of the format. -/
theorem exists_quotient_above_floor :
    (∃ (v w : Binary .single) (s t : Bool) (x y : ℚ), v.number = .finite s x ∧
      w.number = .finite t y ∧ y ≠ 0 ∧ (⌊x / y⌋ : ℚ) ∈ Format.single.values ∧
      (divmod v w).1.number = .finite false (⌊x / y⌋ + 1)) ∧
    ∃ (v w : Binary .double) (s t : Bool) (x y : ℚ), v.number = .finite s x ∧
      w.number = .finite t y ∧ y ≠ 0 ∧ (⌊x / y⌋ : ℚ) ∈ Format.double.values ∧
      (divmod v w).1.number = .finite false (⌊x / y⌋ + 1) := by
  have single : ⌊((2 ^ 24 + 12 : ℤ) : ℚ) / (3 / 2)⌋ = 11184818 := by decide +kernel
  have double : ⌊((2 ^ 53 + 8 : ℤ) : ℚ) / (3 / 2)⌋ = 6004799503160666 := by decide +kernel
  constructor
  · refine ⟨ofInt (2 ^ 24 + 12), oneAndHalf _, false, false, (2 ^ 24 + 12 : ℤ), 3 / 2, ?_⟩
    rw [single]
    exact ⟨by decide +kernel, by decide +kernel, by decide +kernel,
      Format.single.intCast_mem_values (by decide), by decide +kernel⟩
  · refine ⟨ofInt (2 ^ 53 + 8), oneAndHalf _, false, false, (2 ^ 53 + 8 : ℤ), 3 / 2, ?_⟩
    rw [double]
    exact ⟨by decide +kernel, by decide +kernel, by decide +kernel,
      Format.double.intCast_mem_values (by decide), by decide +kernel⟩

end Binary

end Pointwise
