import Pointwise.Element.Action

/-!
# Sums and products do not depend on the order of the operands

A sum or product of floating-point numbers is rounded from an exact result that has no order, and its
sign is a symmetric function of the signs.  A complex product has four products in it, and the two
in each part change places.

* `Binary.add_comm`, `Binary.mul_comm`, `Complex.add_comm`, `Complex.mul_comm`   by type of number;
* `Operation.Commutes`, `Operation.exists_commutative`   for the elements of every kind.
-/

namespace Pointwise

namespace Binary
variable {f : Format}

protected theorem add_comm (x y : Binary f) : x.add y = y.add x := by
  cases x with
  | nan s => cases y <;> rfl
  | infinite s =>
    cases y with
    | nan t => rfl
    | infinite t =>
      show (if s = t then infinite s else nan false) = if t = s then infinite t else nan false
      by_cases h : s = t
      · rw [if_pos h, if_pos h.symm, h]
      · rw [if_neg h, if_neg (Ne.symm h)]
    | finite t k hk => rfl
  | finite s j hj =>
    cases y with
    | nan t => rfl
    | infinite t => rfl
    | finite t k hk =>
      show ofQuanta (s && t) (signed s (f.quanta j) + signed t (f.quanta k)) 1
        = ofQuanta (t && s) (signed t (f.quanta k) + signed s (f.quanta j)) 1
      rw [Bool.and_comm, Int.add_comm]

protected theorem mul_comm (x y : Binary f) : x.mul y = y.mul x := by
  cases x with
  | nan s => cases y <;> rfl
  | infinite s =>
    cases y with
    | nan t => rfl
    | infinite t =>
      show infinite (s ^^ t) = infinite (t ^^ s)
      rw [Bool.xor_comm]
    | finite t k hk =>
      show (if k = 0 then nan false else infinite (s ^^ t))
        = if k = 0 then nan false else infinite (t ^^ s)
      rw [Bool.xor_comm]
  | finite s j hj =>
    cases y with
    | nan t => rfl
    | infinite t =>
      show (if j = 0 then nan false else infinite (s ^^ t))
        = if j = 0 then nan false else infinite (t ^^ s)
      rw [Bool.xor_comm]
    | finite t k hk =>
      show round (s ^^ t) (f.quanta j * f.quanta k) f.unit
        = round (t ^^ s) (f.quanta k * f.quanta j) f.unit
      rw [Bool.xor_comm, Nat.mul_comm]

end Binary

namespace Complex
variable {f : Format}

protected theorem add_comm (a b : Complex f) : a.add b = b.add a := by
  unfold add
  rw [Binary.add_comm a.re, Binary.add_comm a.im]

protected theorem mul_comm (a b : Complex f) : a.mul b = b.mul a := by
  unfold mul
  rw [Binary.mul_comm a.re b.re, Binary.mul_comm a.im b.im, Binary.mul_comm a.re b.im,
    Binary.mul_comm a.im b.re, Binary.add_comm]

end Complex

namespace Operation

def Commutes (op : Operation) : Prop := op = add ∨ op = multiply

theorem Commutes.family {op : Operation} (h : op.Commutes) : op.family = .arithmetic := by
  rcases h with rfl | rfl <;> rfl

theorem Commutes.outputs {op : Operation} (h : op.Commutes) : op.outputs = 1 := by
  rcases h with rfl | rfl <;> rfl

/-- Sums and products of elements, whatever their kind, are the same in both orders. -/
theorem exists_commutative {op : Operation} (h : op.Commutes) {k : Kind} (hk : k ≠ .bool) :
    ∃ f, op.action? k = some (.value f) ∧ ∀ x y, f x y = f y x := by
  rcases h with rfl | rfl
  · cases k with
    | unsigned w => exact ⟨_, rfl, BitVec.add_comm⟩
    | signed w => exact ⟨_, rfl, BitVec.add_comm⟩
    | real p => exact ⟨_, rfl, Binary.add_comm⟩
    | complex p => exact ⟨_, rfl, Complex.add_comm⟩
    | bool => exact absurd rfl hk
  · cases k with
    | unsigned w => exact ⟨_, rfl, BitVec.mul_comm⟩
    | signed w => exact ⟨_, rfl, BitVec.mul_comm⟩
    | real p => exact ⟨_, rfl, Binary.mul_comm⟩
    | complex p => exact ⟨_, rfl, Complex.mul_comm⟩
    | bool => exact absurd rfl hk

end Operation

end Pointwise
