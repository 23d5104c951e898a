import Pointwise.Proofs.Binary.Correct
import Pointwise.Proofs.Binary.Quotient
import Pointwise.Proofs.Element.Division

/-!
# Floor division of integers in floating point

Integers of at most one significand are divided exactly.  Their truncated remainder is an integer
no larger, and so are the multiple of the divisor that it leaves, the quotient of that, and either
after it is corrected: nothing is rounded on the way, and there is nothing to bring to an integer.
So the floating-point division agrees with the one of signed words, where that does not wrap around.

* `Format.quanta_nearest_whole`, `Format.estimate_whole`   integers of at most one significand are
  not rounded, and neither is the quotient of a multiple;
* `division_whole`   dividend and divisor counted in quanta;
* `fst_divmod_whole`, `snd_divmod_whole`   quotient and remainder are the floored ones;
* `divmod_whole`   both as values, beside the division of words.
-/

namespace Pointwise

namespace Format
variable {f : Format} {n c : Nat}

theorem quanta_nearest_whole (h : n ≤ 2 * f.binade) :
    f.quanta (f.nearest (n * f.unit) 1) = n * f.unit := by
  obtain ⟨l, -, e⟩ := f.exists_rank_of_le h
  have rank := f.nearest_quanta l Nat.one_pos
  rw [Nat.mul_one, ← e] at rank
  rw [rank, e]

/-- The multiple of a whole divisor is whole, and so is the quotient. -/
theorem estimate_whole (hc : 0 < c) (h : n * c ≤ 2 * f.binade) :
    f.estimate n (c * f.unit) = n * f.unit := by
  have small : n ≤ 2 * f.binade := (Nat.le_mul_of_pos_right n hc).trans h
  obtain ⟨m, -, value⟩ := f.exists_rank_of_le small
  refine estimate_of_exact (Nat.mul_pos hc f.unit_pos) ?_ value.symm
  rw [← Nat.mul_assoc]
  exact quanta_nearest_whole h

theorem settles_whole (h : n ≤ 2 * f.binade) : f.Settles (n * f.unit) n := by
  obtain ⟨m, hm, value⟩ := f.exists_rank_of_le h
  exact settles_of_eq hm value.symm rfl

end Format

namespace Binary
variable {f : Format} {v w : Binary f} {a b : ℤ}

section
variable (hv : v.HasValue a) (hw : w.HasValue b) (h0 : b ≠ 0)
include hv hw

/-- Dividend and divisor are counted in one unit, which a quotient does not depend on. -/
theorem division_whole : v.quanta.tdiv w.quanta = a.tdiv b ∧ v.quanta.fdiv w.quanta = a.fdiv b ∧
    v.quanta.tmod w.quanta = a.tmod b * f.unit ∧ w.quanta.natAbs = b.natAbs * f.unit := by
  have hu : (0 : ℤ) < f.unit := Int.natCast_pos.mpr f.unit_pos
  rw [hv.quanta_intCast, hw.quanta_intCast]
  refine ⟨Int.mul_tdiv_mul_of_pos_left a b hu, Int.mul_fdiv_mul_of_pos_left a b hu, ?_, ?_⟩
  · rw [Int.mul_comm a, Int.mul_comm b, Int.mul_tmod_mul_of_pos a b hu, Int.mul_comm]
  · rw [Int.natAbs_mul, Int.natAbs_natCast]

include h0

theorem fst_divmod_whole (ha : a.natAbs ≤ 2 * f.binade) :
    (divmod v w).1.HasValue (a.fdiv b : ℤ) := by
  have nonzero := hw.quanta_ne_zero h0
  have pos := Int.natAbs_pos.mpr h0
  obtain ⟨quotient, floor, rest, size⟩ := division_whole hv hw
  obtain ⟨low, -, strict⟩ := Integer.natAbs_tdiv_bounds (a := a) h0
  have exact := Format.estimate_whole pos (low.trans ha)
  have small : (a.tdiv b).natAbs ≤ a.natAbs := Int.natAbs_tdiv_le_natAbs a b
  rw [← quotient] at exact small
  have settled : (divmod v w).1.isFinite = true ∧
      (divmod v w).1.quanta = v.quanta.fdiv w.quanta * f.unit := by
    by_cases h : v.quanta.tmod w.quanta = 0 ∨ (v.quanta.tmod w.quanta < 0 ↔ w.quanta < 0)
    · refine fst_divmod_truncated hv.isFinite hw.isFinite nonzero rfl size h ?_
      rw [exact]
      exact Format.settles_whole (small.trans ha)
    · obtain ⟨remains, signs⟩ := not_or.mp h
      have some : a.tmod b ≠ 0 := by
        intro none
        apply remains
        rw [rest, none, Int.zero_mul]
      -- a remainder takes a divisor of at least two
      have less := strict some
      have next : (v.quanta.tdiv w.quanta).natAbs + 1 ≤ 2 * f.binade := by
        rw [quotient]
        have := Nat.le_mul_of_pos_right (a.tdiv b).natAbs pos
        omega
      refine fst_divmod_corrected hv.isFinite hw.isFinite nonzero rfl size remains (by omega) ?_ ?_
      · rw [exact]
        exact (Format.settles_whole (small.trans ha)).room
      · rw [exact, ← Nat.succ_mul, Format.quanta_nearest_whole next]
        exact Format.settles_whole next
  rw [floor] at settled
  exact hasValue_intCast settled.1 settled.2

theorem snd_divmod_whole (hb : b.natAbs ≤ 2 * f.binade) :
    (divmod v w).2.HasValue (a.fmod b : ℤ) := by
  have nonzero := (nonzero_iff hw.isFinite).mpr (hw.quanta_ne_zero h0)
  obtain ⟨s, hs⟩ := hv
  obtain ⟨t, ht⟩ := hw
  have rounds := ((divmod_defined v w).2 ⟨(quanta_of_number hs).1, nonzero⟩).2.rounded s t a b hs ht
  rw [← Integer.fdiv_eq_floor, ← Int.cast_mul, ← Int.cast_sub, ← Int.fmod_def] at rounds
  have less := Integer.abs_fmod_lt a h0
  rw [Int.abs_eq_natAbs, Int.abs_eq_natAbs] at less
  exact rounds.hasValue (f.intCast_mem_values (by omega))

end

/-- **Integers of at most one significand are divided exactly**, and as signed words of any width
divide them, but for the one division that wraps around there. -/
theorem divmod_whole {a b : ℤ} (ha : |a| ≤ 2 ^ (f.fractionBits + 1))
    (hb : |b| ≤ 2 ^ (f.fractionBits + 1)) (h0 : b ≠ 0) (hv : v.HasValue a) (hw : w.HasValue b) :
    ((divmod v w).1.HasValue ⌊(a : ℚ) / b⌋ ∧ (divmod v w).2.HasValue (a - b * ⌊(a : ℚ) / b⌋)) ∧
    ∀ (k : Width) (x y : BitVec k.bits), x.toInt = a → y.toInt = b →
      ((divmod v w).1.HasValue (Integer.divmodSigned x y).1.toInt ∧
        (divmod v w).2.HasValue (Integer.divmodSigned x y).2.toInt ↔
          ¬ (x = BitVec.intMin k.bits ∧ y = -1)) := by
  have quotient := fst_divmod_whole hv hw h0 (natAbs_le_of_abs_le ha)
  have remainder := snd_divmod_whole hv hw h0 (natAbs_le_of_abs_le hb)
  refine ⟨?_, ?_⟩
  · rw [← Integer.fdiv_eq_floor, ← Int.cast_mul, ← Int.cast_sub, ← Int.fmod_def]
    exact ⟨quotient, remainder⟩
  · intro k x y hx hy
    have divided := Kind.divided_signed x y
    rw [← Kind.overflows_iff x y]
    rw [hx, hy] at divided ⊢
    rw [← divided.ne_iff h0, not_not]
    constructor
    · intro same
      exact_mod_cast same.1.unique quotient
    · intro floored
      rw [floored, divided.remainder_eq h0]
      exact ⟨quotient, remainder⟩

/-- The last integer of one significand over minus three, in floating point and in words of 32 bits;
and the least number of 8 bits over minus one, where the words wrap around. -/
theorem last_divmod_minus_three :
    ((divmod (ofInt (2 ^ 24) : Binary .single) (ofInt (-3))).1.HasValue (-5592406 : ℤ) ∧
      (divmod (ofInt (2 ^ 24) : Binary .single) (ofInt (-3))).2.HasValue
        (Integer.divmodSigned (.ofNat 32 (2 ^ 24)) (-3)).2.toInt) ∧
    ¬ ((divmod (ofInt (-128) : Binary .single) (ofInt (-1))).1.HasValue
        (Integer.divmodSigned (BitVec.intMin 8) (-1)).1.toInt ∧
      (divmod (ofInt (-128) : Binary .single) (ofInt (-1))).2.HasValue
        (Integer.divmodSigned (BitVec.intMin 8) (-1)).2.toInt) := by
  have floor : ⌊((2 ^ 24 : ℤ) : ℚ) / (-3 : ℤ)⌋ = -5592406 := by decide +kernel
  constructor
  · obtain ⟨⟨quotient, -⟩, words⟩ := divmod_whole (f := .single) (a := 2 ^ 24) (b := -3)
      (by decide) (by decide) (by decide) (hasValue_ofInt (by decide)) (hasValue_ofInt (by decide))
    rw [floor] at quotient
    have floored := words .w32 (.ofNat _ (2 ^ 24)) (-3) (by decide) (by decide)
    exact ⟨quotient, (floored.mpr (by decide)).2⟩
  · intro both
    obtain ⟨-, words⟩ := divmod_whole (f := .single) (a := -128) (b := -1)
      (by decide) (by decide) (by decide) (hasValue_ofInt (by decide)) (hasValue_ofInt (by decide))
    exact (words .w8 (BitVec.intMin 8) (-1) (by decide) (by decide)).mp both ⟨rfl, rfl⟩

end Binary

end Pointwise
