import Pointwise.Proofs.Binary.Correct
import Pointwise.Proofs.Kernel.Answer
import Pointwise.Proofs.Promotion.Exact

/-!
# Real results are rounded once

Where the common kind is real, both operands are cast to it without loss, and the operation on it
is what the exact result is rounded to.  So arithmetic on mixed kinds, the division of integers
included, rounds the exact result on the operands as they came, once and in the precision of the
common kind.

* `Elem.HasValue`   an integer or a finite real number, by its value;
* `Operation.exactValue?`   the exact result of an operation on two rationals;
* `exists_rounding`   what the operations on real numbers are;
* `realArithmetic_rounds_once`   what they answer for operands of any kinds.
-/

namespace Pointwise

namespace Elem

/-- An integer or a finite real number with the given value. -/
def HasValue (k : Kind) (x : Elem k) (v : ℚ) : Prop := ∃ s, parts k x = (.finite s v, .ofInt 0)

theorem hasValue_of_int? {k : Kind} {x : Elem k} {i : ℤ} (h : int? k x = some i) : HasValue k x i :=
  ⟨_, parts_of_int? h⟩

theorem hasValue_real {p : Precision} {x : Binary p.format} {v : ℚ} :
    HasValue (.real p) x v ↔ x.HasValue v := by
  constructor
  · rintro ⟨s, hs⟩
    exact ⟨s, (Prod.mk.inj hs).1⟩
  · rintro ⟨s, hs⟩
    exact ⟨s, Prod.ext hs rfl⟩

theorem HasValue.congr {k l : Kind} {x : Elem k} {y : Elem l} {v : ℚ} (hy : HasValue l y v)
    (h : parts k x = parts l y) : HasValue k x v := by
  obtain ⟨s, hs⟩ := hy
  exact ⟨s, h.trans hs⟩

end Elem

namespace Operation
variable {op : Operation} {a b q : ℚ}

def exactValue? : Operation → ℚ → ℚ → Option ℚ
  | add, a, b => some (a + b)
  | subtract, a, b => some (a - b)
  | multiply, a, b => some (a * b)
  | divide, a, b => if b = 0 then none else some (a / b)
  | _, _, _ => none

theorem outputs_of_exactValue? (h : op.exactValue? a b = some q) : op.outputs = 1 := by
  cases op <;> first | rfl | cases h

/-- An operation on real numbers rounds the exact result. -/
theorem exists_rounding (p : Precision) (h : op.exactValue? a b = some q) :
    ∃ f : Binary p.format → Binary p.format → Binary p.format,
      op.action? (.real p) = some (.value f) ∧
      ∀ x y, x.HasValue a → y.HasValue b → (f x y).RoundsTo q := by
  cases op with
  | add =>
    obtain rfl := Option.some.inj h
    exact ⟨_, rfl, fun x y hx hy => Binary.roundsTo_add hx hy⟩
  | subtract =>
    obtain rfl := Option.some.inj h
    exact ⟨_, rfl, fun x y hx hy => Binary.roundsTo_sub hx hy⟩
  | multiply =>
    obtain rfl := Option.some.inj h
    exact ⟨_, rfl, fun x y hx hy => Binary.roundsTo_mul hx hy⟩
  | divide =>
    obtain ⟨h0, value⟩ := Option.ite_none_left_eq_some.mp h
    obtain rfl := Option.some.inj value
    exact ⟨_, rfl, fun x y hx hy => Binary.roundsTo_div hx hy h0⟩
  | _ => cases h

end Operation

/-- **Arithmetic on operands of any kinds rounds once**, where the common kind is real: it answers
with what the exact result on the operands is rounded to in the precision of the common kind. -/
theorem realArithmetic_rounds_once {op : Operation} {e : Entry}
    (he : e ∈ Promotion.available op.family) {p : Precision} (hc : e.common = .real p)
    {x : Elem e.left} {y : Elem e.right} {a b q : ℚ} (ha : Elem.HasValue e.left x a)
    (hb : Elem.HasValue e.right y b) (hq : op.exactValue? a b = some q) :
    ∃ z : Binary p.format, @Operation.Answers e.left e.right (.real p) op x y z ∧ z.RoundsTo q := by
  obtain ⟨family, left, right, common, result, availability⟩ := e
  obtain rfl : common = .real p := hc
  obtain ⟨fl, fr⟩ := Promotion.fits_of_mem_available he
  obtain ⟨castLeft, hl, el⟩ := Elem.exists_cast_of_fits fl
  obtain ⟨castRight, hr, er⟩ := Elem.exists_cast_of_fits fr
  obtain ⟨f, hf, rounds⟩ := Operation.exists_rounding p hq
  -- the casts keep the values, so what is rounded is the result on the operands themselves
  have valueLeft := Elem.hasValue_real.mp (ha.congr (el x))
  have valueRight := Elem.hasValue_real.mp (hb.congr (er y))
  refine ⟨f (castLeft x) (castRight y), ?_, rounds _ _ valueLeft valueRight⟩
  exact Operation.answers_of_available he hf hl hr (Operation.outputs_of_exactValue? hq) x y

/-- The quotient of two integers of 16 bits is rounded in single precision. -/
theorem divide_uint16_int16 : ∃ z : Binary .single,
    @Operation.Answers (.unsigned .w16) (.signed .w16) (.real .single) .divide (1 : BitVec 16)
      (-3 : BitVec 16) z ∧ z.RoundsTo (1 / -3) := by
  have he : (⟨.trueDivide, .unsigned .w16, .signed .w16, .real .single, .real .single, .available⟩ :
      Entry) ∈ Promotion.available Operation.divide.family :=
    Promotion.mem_available_iff.mpr ⟨Promotion.lookup_eq_rule? _ _ _, rfl⟩
  have ha : Elem.int? (.unsigned .w16) (1 : BitVec 16) = some 1 := rfl
  have hb : Elem.int? (.signed .w16) (-3 : BitVec 16) = some (-3) := rfl
  exact realArithmetic_rounds_once he rfl (Elem.hasValue_of_int? ha) (Elem.hasValue_of_int? hb)
    (by decide +kernel)

end Pointwise
