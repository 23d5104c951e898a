import Pointwise.Proofs.Element.Order
import Pointwise.Proofs.Kernel.Answer
import Pointwise.Proofs.Promotion.Exact

/-!
# Comparisons are exact

The operands of a comparison are cast to a common kind first.  The casts keep what the operands
stand for and so their places, and the relation of the common kind is the order of the places.  A
comparison thus answers for the operands as they came, whatever their kinds.

* `Elem.place?`   the place of an element without an imaginary part;
* `Operation.Holds`   the relation that a comparison stands for;
* `comparison_exact`   it is what the comparison decides.
-/

namespace Pointwise

namespace Elem

noncomputable def place? : (k : Kind) → Elem k → Option EReal
  | .unsigned _, x => some (((BitVec.toNat x : ℤ) : ℝ) : EReal)
  | .signed _, x => some ((BitVec.toInt x : ℝ) : EReal)
  | .real _, x => (Binary.number x).place?
  | _, _ => none

theorem point?_of_place? {k : Kind} {x : Elem k} {a : EReal} (h : place? k x = some a) :
    point? k x = some (toLex (a, 0)) := by
  cases k with
  | unsigned w =>
    obtain rfl := Option.some.inj h
    exact point?_of_int? rfl
  | signed w =>
    obtain rfl := Option.some.inj h
    exact point?_of_int? rfl
  | real p =>
    have ha : (Binary.number x).place? = some a := h
    rw [point?_real, ha]
    rfl
  | complex p => cases h
  | bool => cases h

theorem Decides.flip {k : Kind} {f : Elem k → Elem k → Bool}
    {r : EReal ×ₗ EReal → EReal ×ₗ EReal → Prop} (h : Decides f r) :
    Decides (fun a b => f b a) fun p q => r q p where
  ordered hp hq := h.ordered hq hp
  unordered hn := h.unordered hn.symm

end Elem

namespace Operation

def Holds {α : Type} [LT α] [LE α] : Operation → α → α → Prop
  | less, a, b => a < b
  | lessEqual, a, b => a ≤ b
  | greaterEqual, a, b => a ≥ b
  | greater, a, b => a > b
  | _, _, _ => False

theorem holds_toLex_iff (op : Operation) (a b : EReal) :
    op.Holds (toLex (a, (0 : EReal))) (toLex (b, (0 : EReal))) ↔ op.Holds a b := by
  cases op with
  | less => exact Elem.toLex_zero_lt_iff
  | lessEqual => exact Elem.toLex_zero_le_iff
  | greaterEqual => exact Elem.toLex_zero_le_iff
  | greater => exact Elem.toLex_zero_lt_iff
  | _ => exact Iff.rfl

theorem exists_test {op : Operation} (h : op.family = .comparison) {k : Kind} (hk : k ≠ .bool) :
    ∃ f, op.action? k = some (.test f) ∧ Elem.Decides f op.Holds := by
  obtain ⟨lt, hlt, dlt⟩ := Elem.exists_lt hk
  obtain ⟨le, hle, dle⟩ := Elem.exists_le hk
  cases op with
  | less => exact ⟨lt, by simp [action?, hlt], dlt⟩
  | lessEqual => exact ⟨le, by simp [action?, hle], dle⟩
  | greaterEqual => exact ⟨fun a b => le b a, by simp [action?, hle], dle.flip⟩
  | greater => exact ⟨fun a b => lt b a, by simp [action?, hlt], dlt.flip⟩
  | _ => cases h

theorem outputs_of_comparison {op : Operation} (h : op.family = .comparison) : op.outputs = 1 := by
  cases op <;> first | rfl | cases h

/-- What a comparison decides in the common kind, it decides of the operands. -/
theorem exists_decider {op : Operation} (h : op.family = .comparison) {e : Entry}
    (he : e ∈ Promotion.available .comparison) (x : Elem e.left) (y : Elem e.right) :
    ∃ z : Bool, @Answers _ _ .bool op x y z ∧
      (∀ p q, Elem.point? e.left x = some p → Elem.point? e.right y = some q →
        (z = true ↔ op.Holds p q)) ∧
      (Elem.point? e.left x = none ∨ Elem.point? e.right y = none → z = false) := by
  obtain ⟨fl, fr⟩ := Promotion.fits_of_mem_available he
  obtain ⟨castLeft, hl, el⟩ := Elem.exists_cast_of_fits fl
  obtain ⟨castRight, hr, er⟩ := Elem.exists_cast_of_fits fr
  obtain ⟨f, ha, hf⟩ := exists_test h (Kind.ne_bool_of_fits fl)
  have hx := Elem.point?_congr (el x)
  have hy := Elem.point?_congr (er y)
  refine ⟨f (castLeft x) (castRight y), ?_, fun p q hp hq => ?_, fun hn => ?_⟩
  · exact answers_of_available (h ▸ he) ha hl hr (outputs_of_comparison h) x y
  · exact hf.ordered (hx.trans hp) (hy.trans hq)
  · exact hf.unordered (hn.imp hx.trans hy.trans)

end Operation

/-- **Comparisons answer by the order of the operands, and are false of what is not a number.** -/
theorem comparison_exact {op : Operation} (h : op.family = .comparison) {e : Entry}
    (he : e ∈ Promotion.available .comparison) (x : Elem e.left) (y : Elem e.right) :
    (∀ a b, Elem.place? e.left x = some a → Elem.place? e.right y = some b →
      op.Decides x y (op.Holds a b)) ∧
    (∀ p q, Elem.point? e.left x = some p → Elem.point? e.right y = some q →
      op.Decides x y (op.Holds p q)) ∧
    (Elem.HasNaN e.left x ∨ Elem.HasNaN e.right y → op.Decides x y False) := by
  obtain ⟨z, hz, hpoint, hnone⟩ := Operation.exists_decider h he x y
  refine ⟨fun a b ha hb => ⟨z, hz, ?_⟩, fun p q hp hq => ⟨z, hz, hpoint p q hp hq⟩, fun hn => ?_⟩
  · rw [hpoint _ _ (Elem.point?_of_place? ha) (Elem.point?_of_place? hb), op.holds_toLex_iff]
  · rw [← Elem.point?_eq_none_iff, ← Elem.point?_eq_none_iff] at hn
    refine ⟨z, hz, ?_⟩
    rw [hnone hn, iff_false]
    exact Bool.false_ne_true

/-- The largest unsigned number is below the float after it; in single precision the two would be
equal. -/
theorem less_uint32_float32 :
    ∃ y : Elem (.real .single), Elem.place? (.real .single) y = some (((2 ^ 32 : ℚ) : ℝ) : EReal) ∧
      @Operation.Decides (.unsigned .w32) _ .less (BitVec.allOnes 32) y True := by
  have he : (⟨.comparison, .unsigned .w32, .real .single, .real .double, .bool, .available⟩ : Entry)
      ∈ Promotion.available .comparison :=
    Promotion.mem_available_iff.mpr ⟨Promotion.lookup_eq_rule? _ _ _, rfl⟩
  have number : Binary.number (f := .single) (.finite false 0x4f800000 (by decide))
      = .finite false (2 ^ 32) := by decide +kernel
  have hy : Elem.place? (.real .single) (.finite false 0x4f800000 (by decide))
      = some (((2 ^ 32 : ℚ) : ℝ) : EReal) := congrArg Number.place? number
  have less : Operation.less.family = .comparison := rfl
  obtain ⟨z, hz, h⟩ := (comparison_exact less he (BitVec.allOnes 32) _).1 _ _ rfl hy
  refine ⟨_, hy, z, hz, h.trans ?_⟩
  have lt : ((((BitVec.allOnes 32).toNat : ℤ) : ℝ) : EReal) < (((2 ^ 32 : ℚ) : ℝ) : EReal) := by
    rw [EReal.coe_lt_coe_iff, BitVec.toNat_allOnes]
    norm_num
  exact iff_true_intro lt

end Pointwise
