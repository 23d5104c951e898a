import Pointwise.Proofs.Binary.Rounding

/-!
# Finite numbers as integers

A finite number is an integer of quanta, and sums are sums of these integers, rounded once.

* `Binary.quanta`   the integer; `number_eq_finite` what it stands for;
* `add_eq_ofQuanta`, `sub_eq_ofQuanta`   sums and differences;
* `exists_ofQuanta`   an integer of quanta that is a magnitude is left as it is;
* `isFinite_add`, `eq_zero_ofQuanta`   when a sum does not overflow, and when it is zero.
-/

namespace Pointwise

theorem natAbs_signed (s : Bool) (n : Nat) : (signed s n).natAbs = n := by
  cases s with
  | false => exact Int.natAbs_natCast n
  | true => rw [signed_true, Int.natAbs_neg, Int.natAbs_natCast]

theorem signed_not (s : Bool) (n : Nat) : signed (!s) n = -signed s n := by
  cases s with
  | false => rfl
  | true => exact (Int.neg_neg _).symm

namespace Binary
variable {f : Format}

/-- The quanta of a finite number, with their sign; none for any other. -/
def quanta : Binary f → ℤ
  | finite s k _ => signed s (f.quanta k)
  | _ => 0

theorem quanta_finite (s : Bool) (k : Nat) (hk : k < f.top) :
    (finite s k hk : Binary f).quanta = signed s (f.quanta k) := rfl

theorem quanta_zero (s : Bool) : (zero s : Binary f).quanta = 0 := by
  show signed s (f.quanta 0) = 0
  rw [f.quanta_zero, signed_zero]

theorem eq_zero {s : Bool} {k : Nat} {hk : k < f.top} :
    (finite s k hk).eq (zero false) = decide (k = 0) := by
  show decide (signed s k = signed false 0) = _
  rw [decide_eq_decide]
  cases s <;> simp only [signed_true, signed_false] <;> omega

protected theorem abs_le_abs {s t : Bool} {j k : Nat} {hj : j < f.top} {hk : k < f.top} :
    (finite s j hj).abs.le (finite t k hk).abs = decide (j ≤ k) := by
  show decide ((j : ℤ) ≤ k) = _
  rw [decide_eq_decide]
  exact Int.ofNat_le

theorem isFinite_neg {x : Binary f} (h : x.isFinite = true) : x.neg.isFinite = true := by
  obtain ⟨s, k, hk, rfl⟩ := exists_finite h
  rfl

theorem isNegative_neg (x : Binary f) : x.neg.isNegative = !x.isNegative :=
  isNegative_withSign _ x

section
variable {x y : Binary f} (hx : x.isFinite = true) (hy : y.isFinite = true)
include hx

theorem number_eq_finite :
    x.number = .finite x.isNegative ((x.quanta : ℚ) / f.unit) := by
  obtain ⟨s, k, hk, rfl⟩ := exists_finite hx
  rfl

omit hx in
theorem quanta_of_number {s : Bool} {v : ℚ} (h : x.number = .finite s v) :
    x.isFinite = true ∧ v = (x.quanta : ℚ) / f.unit := by
  cases x with
  | nan t => cases h
  | infinite t => cases h
  | finite t k hk =>
    obtain ⟨rfl, rfl⟩ := Number.finite.inj h
    exact ⟨rfl, rfl⟩

theorem exists_natAbs_quanta : ∃ k < f.top, x.quanta.natAbs = f.quanta k := by
  obtain ⟨s, k, hk, rfl⟩ := exists_finite hx
  exact ⟨k, hk, natAbs_signed s _⟩

theorem exists_double (doubled : (x.add x).isFinite = true) :
    ∃ m < f.top, f.quanta m = x.quanta.natAbs + x.quanta.natAbs := by
  obtain ⟨s, k, hk, rfl⟩ := exists_finite hx
  rw [quanta_finite, natAbs_signed]
  exact exists_rank_of_doubled hk doubled

theorem quanta_neg : x.neg.quanta = -x.quanta := by
  obtain ⟨s, k, hk, rfl⟩ := exists_finite hx
  exact signed_not s _

theorem eq_zero_iff : x.eq (zero false) = true ↔ x.quanta = 0 := by
  obtain ⟨s, k, hk, rfl⟩ := exists_finite hx
  rw [eq_zero, decide_eq_true_iff, quanta_finite, ← Int.natAbs_eq_zero, natAbs_signed,
    Format.quanta_eq_zero_iff]

include hy

theorem add_eq_ofQuanta :
    x.add y = ofQuanta (x.isNegative && y.isNegative) (x.quanta + y.quanta) 1 := by
  obtain ⟨s, j, hj, rfl⟩ := exists_finite hx
  obtain ⟨t, k, hk, rfl⟩ := exists_finite hy
  rfl

theorem sub_eq_ofQuanta :
    x.sub y = ofQuanta (x.isNegative && !y.isNegative) (x.quanta - y.quanta) 1 := by
  unfold sub
  rw [add_eq_ofQuanta hx (isFinite_neg hy), quanta_neg hy, isNegative_neg, Int.sub_eq_add_neg]

theorem isFinite_add {k : Nat} (h : (x.quanta + y.quanta).natAbs ≤ f.quanta k) (hk : k < f.top) :
    (x.add y).isFinite = true := by
  rw [add_eq_ofQuanta hx hy]
  exact isFinite_ofQuanta h hk _

end

theorem eq_zero_ofRank (s : Bool) {k : Nat} (h : 0 < k) :
    (ofRank s k : Binary f).eq (zero false) = false := by
  unfold ofRank
  split
  · rw [eq_zero, decide_eq_false h.ne']
  · show decide (signed s f.top = signed false 0) = false
    have top := f.top_pos
    rw [decide_eq_false_iff_not]
    cases s <;> simp only [signed_true, signed_false] <;> omega

/-- A sum is zero only if nothing is left to round. -/
theorem eq_zero_ofQuanta (s : Bool) (z : ℤ) :
    (ofQuanta s z 1 : Binary f).eq (zero false) = true ↔ z = 0 := by
  unfold ofQuanta
  by_cases h0 : z = 0
  · rw [if_pos h0, round_zero, zero, eq_zero]
    exact iff_of_true rfl h0
  · have pos := f.nearest_pos Nat.one_pos (Nat.pos_of_ne_zero (Int.natAbs_ne_zero.mpr h0))
    unfold round
    rw [if_neg h0, eq_zero_ofRank _ pos]
    exact iff_of_false Bool.false_ne_true h0

/-- A magnitude of the format is not rounded. -/
theorem exists_ofQuanta {z : ℤ} {k : Nat} (h : z.natAbs = f.quanta k) (hk : k < f.top) (s : Bool) :
    ∃ t, (ofQuanta s z 1 : Binary f) = finite t k hk ∧ signed t (f.quanta k) = z := by
  unfold ofQuanta
  by_cases h0 : z = 0
  · subst h0
    obtain rfl := Format.quanta_eq_zero_iff.mp h.symm
    rw [if_pos rfl, round_zero]
    exact ⟨s, rfl, by rw [f.quanta_zero, signed_zero]⟩
  · have exact := round_quanta (decide (z < 0)) hk Nat.one_pos
    rw [Nat.mul_one, ← h] at exact
    rw [if_neg h0, exact, ← h]
    exact ⟨_, rfl, signed_natAbs z⟩

end Binary

end Pointwise
