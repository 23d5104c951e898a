import Pointwise.Proofs.Element.Integer
import Pointwise.Proofs.Integer.FloorDivision

/-!
# Floor division of integer elements

* `Kind.Overflows`   the one division whose quotient is not in the kind;
* `Kind.Divided`   what the division of two integers of a kind gives, in three cases;
* `exists_divmod`   the division of elements gives it;
* `Divided.wrap_eq`, `Divided.remainder_eq`   both are the floored ones, the quotient reduced to the
  kind.
-/

namespace Pointwise

namespace Kind
variable {k : Kind} {a b i j : ℤ}

/-- The least number of a signed kind over minus one: the quotient would be one above the greatest
number. -/
def Overflows (k : Kind) (a b : ℤ) : Prop :=
  ∃ w, k = signed w ∧ a = -2 ^ (w.bits - 1) ∧ b = -1

theorem Overflows.fdiv_eq (h : k.Overflows a b) : a.fdiv b = -a := by
  obtain ⟨w, -, -, rfl⟩ := h
  rw [← neg_neg a, Int.neg_fdiv_neg, Int.fdiv_one, neg_neg]

theorem Overflows.fmod_eq (h : k.Overflows a b) : a.fmod b = 0 := by
  rw [Int.fmod_def, h.fdiv_eq]
  obtain ⟨w, -, -, rfl⟩ := h
  omega

theorem Overflows.wrap_neg (h : k.Overflows a b) : k.wrap (-a) = a := by
  obtain ⟨w, rfl, rfl, -⟩ := h
  cases w <;> decide

theorem Overflows.ne_neg (h : k.Overflows a b) : a ≠ -a := by
  obtain ⟨w, -, rfl, -⟩ := h
  have := pow_pos (two_pos (α := ℤ)) (w.bits - 1)
  omega

/-- What the division of `a` by a divisor in an integer kind gives, quotient and remainder. -/
inductive Divided (k : Kind) (a : ℤ) : ℤ → ℤ → ℤ → Prop
  | zero : Divided k a 0 0 0
  | overflow {b : ℤ} (h : k.Overflows a b) : Divided k a b a 0
  | exact {b : ℤ} (hb : b ≠ 0) (h : ¬ k.Overflows a b) : Divided k a b (a.fdiv b) (a.fmod b)

theorem Divided.by_zero (h : k.Divided a b i j) (hb : b = 0) : i = 0 ∧ j = 0 := by
  cases h with
  | zero => exact ⟨rfl, rfl⟩
  | overflow ho =>
    obtain ⟨w, -, -, rfl⟩ := ho
    exact absurd hb (by decide)
  | exact h0 => exact absurd hb h0

theorem Divided.wrap_eq (h : k.Divided a b i j) (hi : i ∈ k.range) (hb : b ≠ 0) :
    i = k.wrap (a.fdiv b) := by
  cases h with
  | zero => exact absurd rfl hb
  | overflow ho => rw [ho.fdiv_eq, ho.wrap_neg]
  | exact => rw [wrap_of_mem_range hi]

theorem Divided.remainder_eq (h : k.Divided a b i j) (hb : b ≠ 0) : j = a.fmod b := by
  cases h with
  | zero => exact absurd rfl hb
  | overflow ho => exact ho.fmod_eq.symm
  | exact => rfl

theorem Divided.ne_iff (h : k.Divided a b i j) (hb : b ≠ 0) :
    i ≠ a.fdiv b ↔ k.Overflows a b := by
  cases h with
  | zero => exact absurd rfl hb
  | overflow ho =>
    rw [ho.fdiv_eq]
    exact iff_of_true ho.ne_neg ho
  | exact _ ho => exact iff_of_false (fun h => h rfl) ho

theorem Divided.of_overflows (h : k.Divided a b i j) (ho : k.Overflows a b) : i = a ∧ j = 0 := by
  cases h with
  | zero =>
    obtain ⟨w, -, -, hb⟩ := ho
    cases hb
  | overflow => exact ⟨rfl, rfl⟩
  | exact _ hn => exact absurd ho hn

/-! ### the division of words -/

variable {w : Width}

theorem divided_unsigned (x y : BitVec w.bits) :
    (unsigned w).Divided x.toNat y.toNat (Integer.divmodUnsigned x y).1.toNat
      (Integer.divmodUnsigned x y).2.toNat := by
  by_cases hy : y = 0
  · subst hy
    exact .zero
  · have hy0 : (y.toNat : ℤ) ≠ 0 := fun h => hy (BitVec.eq_of_toNat_eq (Int.ofNat.inj h))
    have fits : ¬ (unsigned w).Overflows x.toNat y.toNat := by
      rintro ⟨v, hv, -⟩
      cases hv
    obtain ⟨hq, hr⟩ := Integer.toNat_divmodUnsigned (a := x) hy
    rw [hq, hr]
    exact .exact hy0 fits

theorem overflows_iff (x y : BitVec w.bits) :
    (signed w).Overflows x.toInt y.toInt ↔ x = BitVec.intMin w.bits ∧ y = -1 := by
  have hmin : (BitVec.intMin w.bits).toInt = -2 ^ (w.bits - 1) := by
    cases w <;> decide
  have hone : (-1 : BitVec w.bits).toInt = -1 := by
    cases w <;> decide
  rw [← BitVec.toInt_inj, ← BitVec.toInt_inj, hmin, hone]
  constructor
  · rintro ⟨v, hv, h⟩
    cases hv
    exact h
  · intro h
    exact ⟨w, rfl, h⟩

theorem divided_signed (x y : BitVec w.bits) :
    (signed w).Divided x.toInt y.toInt (Integer.divmodSigned x y).1.toInt
      (Integer.divmodSigned x y).2.toInt := by
  have zero : (0 : BitVec w.bits).toInt = 0 := BitVec.toInt_zero
  by_cases hy : y = 0
  · subst hy
    rw [Integer.divmodSigned_eq, if_pos rfl, zero]
    exact .zero
  · by_cases ho : (signed w).Overflows x.toInt y.toInt
    · have hm := (overflows_iff x y).mp ho
      rw [Integer.divmodSigned_eq, if_neg hy, if_pos hm, ← hm.1, zero]
      exact .overflow ho
    · have hy0 : y.toInt ≠ 0 := fun h => hy (BitVec.eq_of_toInt_eq (h.trans zero.symm))
      have wide : 1 < w.bits := by cases w <;> decide
      obtain ⟨hq, hr⟩ := Integer.toInt_divmodSigned wide hy (mt (overflows_iff x y).mpr ho)
      rw [hq, hr]
      exact .exact hy0 ho

end Kind

theorem Elem.exists_divmod {k : Kind} (hk : k.isInteger = true) :
    ∃ f, divmod? k = some f ∧ ∀ {x y a b}, int? k x = some a → int? k y = some b →
      ∃ i j, int? k (f x y).1 = some i ∧ int? k (f x y).2 = some j ∧ k.Divided a b i j := by
  cases k with
  | unsigned w =>
    refine ⟨_, rfl, fun {x y a b} ha hb => ⟨_, _, rfl, rfl, ?_⟩⟩
    obtain rfl := Option.some.inj ha
    obtain rfl := Option.some.inj hb
    exact Kind.divided_unsigned x y
  | signed w =>
    refine ⟨_, rfl, fun {x y a b} ha hb => ⟨_, _, rfl, rfl, ?_⟩⟩
    obtain rfl := Option.some.inj ha
    obtain rfl := Option.some.inj hb
    exact Kind.divided_signed x y
  | real p => cases hk
  | complex p => cases hk
  | bool => cases hk

end Pointwise
