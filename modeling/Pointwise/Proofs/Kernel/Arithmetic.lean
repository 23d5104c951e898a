import Pointwise.Proofs.Element.Arithmetic
import Pointwise.Proofs.Kernel.Answer
import Pointwise.Proofs.Promotion.Exact

/-!
# Sums, differences and products of integers of any two kinds

Two integer kinds join in an integer kind with room for both, so the operands are added, subtracted
and multiplied as the integers they are, and the result is reduced to the common kind
(`integerArithmetic_exact`).  A common kind wider than both operands has room for every result.
-/

namespace Pointwise

namespace Operation
variable {op : Operation} {a b n : ℤ}

theorem family_of_exact? (h : op.exact? a b = some n) : op.family = .arithmetic := by
  cases op <;> first | rfl | cases h

theorem outputs_of_arithmetic (h : op.family = .arithmetic) : op.outputs = 1 := by
  cases op <;> first | rfl | cases h

end Operation

/-- **Integers of any two kinds are added, subtracted and multiplied as the integers they are.** -/
theorem integerArithmetic_exact {e : Entry} (he : e ∈ Promotion.available .arithmetic)
    {x : Elem e.left} {y : Elem e.right} {a b : ℤ} (ha : Elem.int? e.left x = some a)
    (hb : Elem.int? e.right y = some b) {op : Operation} {n : ℤ} (hn : op.exact? a b = some n) :
    ∃ (z : Elem e.common) (i : ℤ), op.Answers x y z ∧ Elem.int? e.common z = some i ∧
      (∀ j, e.common.IsResidue n j ↔ j = i) ∧
      (e.left.size < e.common.size → e.right.size < e.common.size → i = n) := by
  have hjoin := Promotion.join?_of_arithmetic he
  have il := Elem.isInteger_of_int? ha
  have ir := Elem.isInteger_of_int? hb
  have ic := Kind.isInteger_of_join? hjoin il ir
  obtain ⟨fl, fr⟩ := Kind.fits_join hjoin
  obtain ⟨castLeft, hl, hx⟩ := Elem.exists_cast_int_of_fits il ic fl
  obtain ⟨castRight, hr, hy⟩ := Elem.exists_cast_int_of_fits ir ic fr
  have family := Operation.family_of_exact? hn
  obtain ⟨f, hf, exact⟩ := Elem.exists_action family ic
  have value := exact (hx x a ha) (hy y b hb) hn
  have available : e ∈ Promotion.available op.family := by
    rw [family]
    exact he
  refine ⟨f (castLeft x) (castRight y), e.common.wrap n, ?_, value, fun j => ?_, ?_⟩
  · exact Operation.answers_of_available available hf hl hr
      (Operation.outputs_of_arithmetic family) x y
  · exact Kind.isResidue_iff ic
  · intro wideLeft wideRight
    have room := Kind.exact?_mem_range hjoin wideLeft wideRight (Elem.int?_mem_range ha)
      (Elem.int?_mem_range hb) hn
    exact Kind.wrap_of_mem_range room

/-- The largest unsigned and the least signed number of 32 bits have a product of 64 bits. -/
theorem multiply_uint32_int32 :
    ∃ z : Elem (.signed .w64),
      @Operation.Answers (.unsigned .w32) (.signed .w32) _ .multiply (BitVec.allOnes 32)
        (BitVec.intMin 32) z ∧
      Elem.int? (.signed .w64) z = some (-((2 ^ 32 - 1) * 2 ^ 31)) := by
  have he : (⟨.arithmetic, .unsigned .w32, .signed .w32, .signed .w64, .signed .w64, .available⟩ :
      Entry) ∈ Promotion.available .arithmetic :=
    Promotion.mem_available_iff.mpr ⟨Promotion.lookup_eq_rule? _ _ _, rfl⟩
  have ha : Elem.int? (.unsigned .w32) (BitVec.allOnes 32) = some (2 ^ 32 - 1) := rfl
  have hb : Elem.int? (.signed .w32) (BitVec.intMin 32) = some (-2 ^ 31) := rfl
  have hn : Operation.multiply.exact? (2 ^ 32 - 1) (-2 ^ 31) = some (-((2 ^ 32 - 1) * 2 ^ 31)) := rfl
  obtain ⟨z, i, answers, hi, -, exact⟩ := integerArithmetic_exact he ha hb hn
  have wideLeft : (Kind.unsigned .w32).size < (Kind.signed .w64).size := by decide
  have wideRight : (Kind.signed .w32).size < (Kind.signed .w64).size := by decide
  obtain rfl := exact wideLeft wideRight
  exact ⟨z, answers, hi⟩

end Pointwise
