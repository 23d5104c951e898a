import Pointwise.Proofs.Binary.Correct
import Pointwise.Proofs.Element.Values

/-!
# Integers cast to real and complex kinds

An integer is cast to a real kind by one rounding, whatever its width.  In single and double
precision no integer overflows.  A cast of 64 bits to single precision is not one through double
precision, which would round twice.

* `Binary.isFinite_ofInt_of_le`   integers far below the largest number do not overflow;
* `Elem.Rounds`   a cast that rounds once, is monotone, and is exact for few enough bits;
* `rounds_ofInt`   the cast through the integer that an element is;
* `exists_rounded_twice`   an integer that two roundings bring elsewhere than one;
* `cast_integer_rounds`   the casts to real and to complex kinds.
-/

namespace Pointwise

/-- A power of two far below the largest number is not passed. -/
theorem Binary.isFinite_ofInt_of_le {f : Format} {i : ℤ} {n : Nat}
    (room : n + f.scale < f.fractionBits + (1 <<< f.exponentBits - 2)) (h : i.natAbs ≤ 2 ^ n) :
    (ofInt i : Binary f).isFinite = true := by
  have hb := f.binade_pos
  obtain ⟨k, hk⟩ := f.exists_quanta (m := 1) (by omega) (n + f.scale)
  have less : k < f.top := by
    rw [← f.quanta_strictMono.lt_iff_lt, hk, f.quanta_top, Nat.one_mul]
    exact Nat.pow_lt_pow_right (by decide) room
  refine isFinite_ofQuanta (k := k) ?_ less false
  rw [hk, Nat.one_mul, Int.natAbs_mul, Int.natAbs_natCast, f.unit_eq, Nat.pow_add]
  exact Nat.mul_le_mul_right _ h

/-- No integer kind has more than 64 bits. -/
theorem Kind.natAbs_le_of_mem_range {k : Kind} {i : ℤ} (hi : i ∈ k.range) : i.natAbs ≤ 2 ^ 64 := by
  have bound {w : Width} {e : Nat} (he : e ≤ w.bits) : (2 : ℤ) ^ e ≤ 2 ^ 64 := by
    have most : w.bits ≤ 64 := by cases w <;> decide
    exact pow_le_pow_right₀ (by decide) (he.trans most)
  cases k with
  | unsigned w =>
    obtain ⟨low, high⟩ := hi
    have := bound (Nat.le_refl w.bits)
    omega
  | signed w =>
    obtain ⟨low, high⟩ := hi
    have := bound (Nat.sub_le w.bits 1)
    omega
  | real p => cases hi
  | complex p => cases hi
  | bool => cases hi

namespace Elem
variable {k : Kind} {p : Precision}

/-- A cast of integers that rounds each of them once, to the nearest number of the precision. -/
structure Rounds (k : Kind) (p : Precision) (cast : Elem k → Binary p.format) : Prop where
  isFinite {x i} : int? k x = some i → (cast x).isFinite = true
  nearest {x i} : int? k x = some i → (cast x).RoundsTo i
  exact {x i} : int? k x = some i → |i| ≤ 2 ^ (p.format.fractionBits + 1) →
    (cast x).number = .ofInt i
  monotone {x y i j} : int? k x = some i → int? k y = some j → i ≤ j →
    (cast x).le (cast y) = true

theorem rounds_ofInt (hp : p ≠ .half) {v : Elem k → ℤ} (hv : ∀ x, int? k x = some (v x)) :
    Rounds k p fun x => Binary.ofInt (v x) := by
  have room : 64 + p.format.scale
      < p.format.fractionBits + (1 <<< p.format.exponentBits - 2) := by
    cases p with
    | half => exact absurd rfl hp
    | single => decide
    | double => decide
  have value {x i} (hx : int? k x = some i) : v x = i := Option.some.inj ((hv x).symm.trans hx)
  constructor
  case isFinite =>
    intro x i hx
    exact Binary.isFinite_ofInt_of_le room (Kind.natAbs_le_of_mem_range (int?_mem_range (hv x)))
  case nearest =>
    intro x i hx
    rw [← value hx]
    exact Binary.roundsTo_ofInt (v x)
  case exact =>
    intro x i hx small
    rw [← value hx] at small ⊢
    exact Binary.number_ofInt (Binary.natAbs_le_of_abs_le small)
  case monotone =>
    intro x y i j hx hy h
    rw [← value hx, ← value hy] at h
    exact (Binary.roundsTo_ofInt (v x)).le (Binary.roundsTo_ofInt (v y)) (Int.cast_le.mpr h)

/-- A little above the middle between two numbers of single precision, and nearest to the middle in
double precision, from where the tie goes down. -/
def aboveMiddle : ℤ := 2 ^ 60 + 2 ^ 36 + 1

theorem aboveMiddle_mem_range (hk : k.isInteger = true) (wide : k.size = 8) :
    aboveMiddle ∈ k.range := by
  cases k with
  | unsigned w => cases w <;> first | exact ⟨by decide, by decide⟩ | exact absurd wide (by decide)
  | signed w => cases w <;> first | exact ⟨by decide, by decide⟩ | exact absurd wide (by decide)
  | real p => cases hk
  | complex p => cases hk
  | bool => cases hk

theorem exists_rounded_twice (hk : k.isInteger = true) (wide : k.size = 8) :
    ∃ cast through narrow x, cast? k (.real .single) = some cast ∧
      cast? k (.real .double) = some through ∧
      cast? (.real .double) (.real .single) = some narrow ∧ narrow (through x) ≠ cast x := by
  obtain ⟨v, hv, hcast⟩ := exists_value hk
  obtain ⟨x, hx⟩ := Kind.exists_int?_eq hk (aboveMiddle_mem_range hk wide)
  have value : v x = aboveMiddle := Option.some.inj ((hv x).symm.trans hx)
  refine ⟨_, _, _, x, hcast (.real .single), hcast (.real .double), rfl, ?_⟩
  show Binary.convert .single (Binary.ofInt (v x) : Binary .double) ≠ Binary.ofInt (v x)
  -- the middle itself in double precision, and a tie after that
  rw [value]
  decide +kernel

end Elem

/-- **Integers are cast to single and double precision, real or complex, by one rounding**: to the
nearest number, the even one on a tie, and never by way of another precision. -/
theorem cast_integer_rounds {k : Kind} (hk : k.isInteger = true) :
    (∀ p : Precision, p ≠ .half → ∃ cast : Elem k → Binary p.format,
      Elem.cast? k (.real p) = some cast ∧
      Elem.cast? k (.complex p) = some (fun x => Complex.ofReal (cast x)) ∧ Elem.Rounds k p cast) ∧
    (k.size = 8 → ∃ cast through narrow x, Elem.cast? k (.real .single) = some cast ∧
      Elem.cast? k (.real .double) = some through ∧
      Elem.cast? (.real .double) (.real .single) = some narrow ∧ narrow (through x) ≠ cast x) := by
  refine ⟨fun p hp => ?_, Elem.exists_rounded_twice hk⟩
  obtain ⟨v, hv, hcast⟩ := Elem.exists_value hk
  exact ⟨_, hcast (.real p), hcast (.complex p), Elem.rounds_ofInt hp hv⟩

/-- The largest integer of 64 bits is cast to the power of two above it. -/
theorem cast_uint64_last : ∃ cast : Elem (.unsigned .w64) → Binary .single,
    Elem.cast? (.unsigned .w64) (.real .single) = some cast ∧
    (cast (BitVec.allOnes 64)).RoundsTo (2 ^ 64 - 1 : ℤ) ∧
    (cast (BitVec.allOnes 64)).number = .finite false (2 ^ 64) := by
  obtain ⟨cast, hcast, -, rounds⟩ :=
    (cast_integer_rounds (k := .unsigned .w64) rfl).1 .single (by decide)
  have hx : Elem.int? (.unsigned .w64) (BitVec.allOnes 64) = some (2 ^ 64 - 1) := rfl
  refine ⟨cast, hcast, rounds.nearest hx, ?_⟩
  obtain rfl := Option.some.inj hcast
  decide +kernel

end Pointwise
