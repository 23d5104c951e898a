import Pointwise.Proofs.Element.Division
import Pointwise.Proofs.Kernel.Answer
import Pointwise.Proofs.Promotion.Exact

/-!
# Floor division of integers of any two kinds

Two integer kinds join in an integer kind with room for both, so the operands are divided as the
integers they are.  Only there can the quotient overflow, and only if the join is the kind of the
dividend.

* `answers_divmod`, `answersPair_divmod`   quotient and remainder, apart or together;
* `Kind.FloorDivided`   what the division of two integers gives, by their kinds and the common one;
* `floorDivision_exact`   it is what the operations answer.
-/

namespace Pointwise

namespace Operation
variable {e : Entry} {f : Elem e.common → Elem e.common → Elem e.common × Elem e.common}
  (hf : Elem.divmod? e.common = some f) {castLeft : Elem e.left → Elem e.common}
  {castRight : Elem e.right → Elem e.common} (hl : Elem.cast? e.left e.common = some castLeft)
  (hr : Elem.cast? e.right e.common = some castRight) (x : Elem e.left) (y : Elem e.right)
include hf hl hr

theorem answers_divmod (he : e ∈ Promotion.available .floorRemainder) :
    floorDivide.Answers x y (f (castLeft x) (castRight y)).1 ∧
      remainder.Answers x y (f (castLeft x) (castRight y)).2 := by
  have hd : e ∈ Promotion.available floorDivide.family := he
  have hp : e ∈ Promotion.available remainder.family := he
  have hq : floorDivide.action? e.common = some (.value fun a b => (f a b).1) := by
    simp [action?, hf]
  have hm : remainder.action? e.common = some (.value fun a b => (f a b).2) := by
    simp [action?, hf]
  exact ⟨answers_of_available hd hq hl hr rfl x y, answers_of_available hp hm hl hr rfl x y⟩

theorem answersPair_divmod (he : e ∈ Promotion.available .divmod) :
    divmod.AnswersPair x y (f (castLeft x) (castRight y)).1 (f (castLeft x) (castRight y)).2 := by
  have hd : e ∈ Promotion.available divmod.family := he
  have ha : divmod.action? e.common = some (.pair f) := by
    simp [action?, hf]
  exact answersPair_of_available hd ha hl hr rfl x y rfl

end Operation

/-- What the floor division of `a` by `b`, integers of two kinds, gives in a common kind. -/
structure Kind.FloorDivided (left right common : Kind) (a b quotient remainder : ℤ) : Prop where
  by_zero : b = 0 → quotient = 0 ∧ remainder = 0
  quotient_eq : b ≠ 0 → quotient = common.wrap ⌊(a : ℚ) / b⌋
  remainder_eq : b ≠ 0 → remainder = a - b * ⌊(a : ℚ) / b⌋
  sign : b ≠ 0 → remainder = 0 ∨ remainder.sign = b.sign
  small : b ≠ 0 → |remainder| < |b|
  /-- the floor itself, but for the least number of the common kind over minus one -/
  wraps_iff : b ≠ 0 → (quotient ≠ ⌊(a : ℚ) / b⌋ ↔
    ∃ w, left = .signed w ∧ common = .signed w ∧ a = -2 ^ (w.bits - 1) ∧ b = -1)
  wrapped : b ≠ 0 → quotient ≠ ⌊(a : ℚ) / b⌋ → quotient = a ∧ remainder = 0
  mixed : b ≠ 0 → left.isSigned ≠ right.isSigned → quotient = ⌊(a : ℚ) / b⌋

theorem Kind.Divided.floorDivided {left right common : Kind} {a b i j : ℤ}
    (h : common.Divided a b i j) (hi : i ∈ common.range) (ha : a ∈ left.range)
    (hb : b ∈ right.range) (fits : left.fits common = true) :
    FloorDivided left right common a b i j := by
  have over_iff : common.Overflows a b ↔
      ∃ w, left = .signed w ∧ common = .signed w ∧ a = -2 ^ (w.bits - 1) ∧ b = -1 := by
    constructor
    · rintro ⟨w, rfl, rfl, hb⟩
      exact ⟨w, Elem.eq_of_least_mem_range fits ha, rfl, rfl, hb⟩
    · rintro ⟨w, -, hc, ho⟩
      exact ⟨w, hc, ho⟩
  have negative : b = -1 → right.isSigned = true := by
    rintro rfl
    cases right with
    | unsigned w => exact absurd hb.1 (by decide)
    | signed w => rfl
    | real p => cases hb
    | complex p => cases hb
    | bool => cases hb
  have floor := Integer.fdiv_eq_floor a b
  constructor
  case by_zero => exact h.by_zero
  case quotient_eq =>
    intro h0
    rw [← floor]
    exact h.wrap_eq hi h0
  case remainder_eq =>
    intro h0
    rw [← floor, ← Int.fmod_def]
    exact h.remainder_eq h0
  case sign =>
    intro h0
    rw [h.remainder_eq h0]
    exact Integer.sign_fmod a h0
  case small =>
    intro h0
    rw [h.remainder_eq h0]
    exact Integer.abs_fmod_lt a h0
  case wraps_iff =>
    intro h0
    rw [← floor]
    exact (h.ne_iff h0).trans over_iff
  case wrapped =>
    intro h0 hne
    rw [← floor, h.ne_iff h0] at hne
    exact h.of_overflows hne
  case mixed =>
    intro h0 hs
    rw [← floor]
    by_contra hne
    obtain ⟨w, rfl, -, -, rfl⟩ := over_iff.mp ((h.ne_iff h0).mp hne)
    exact hs (negative rfl).symm

/-- **Integers of any two kinds are divided as the integers they are.** -/
theorem floorDivision_exact {e : Entry} (he : e ∈ Promotion.available .floorRemainder)
    {x : Elem e.left} {y : Elem e.right} {a b : ℤ} (ha : Elem.int? e.left x = some a)
    (hb : Elem.int? e.right y = some b) :
    ∃ (q r : Elem e.common) (i j : ℤ),
      Operation.floorDivide.Answers x y q ∧ Operation.remainder.Answers x y r ∧
      (e.left = e.right → Operation.divmod.AnswersPair x y q r) ∧
      Elem.int? e.common q = some i ∧ Elem.int? e.common r = some j ∧
      Kind.FloorDivided e.left e.right e.common a b i j := by
  have hjoin := Promotion.join?_of_floorRemainder he
  have il := Elem.isInteger_of_int? ha
  have ir := Elem.isInteger_of_int? hb
  have ic := Kind.isInteger_of_join? hjoin il ir
  obtain ⟨fl, fr⟩ := Kind.fits_join hjoin
  obtain ⟨f, hf, hdiv⟩ := Elem.exists_divmod ic
  obtain ⟨castLeft, hl, hx⟩ := Elem.exists_cast_int_of_fits il ic fl
  obtain ⟨castRight, hr, hy⟩ := Elem.exists_cast_int_of_fits ir ic fr
  obtain ⟨i, j, hi, hj, divided⟩ := hdiv (hx x a ha) (hy y b hb)
  obtain ⟨quotient, remainder⟩ := Operation.answers_divmod hf hl hr x y he
  refine ⟨_, _, i, j, quotient, remainder, fun same => ?_, hi, hj, ?_⟩
  · obtain ⟨family, left, right, common, result, availability⟩ := e
    obtain rfl : left = right := same
    obtain rfl : left = common := by
      have hb : left ≠ .bool := by
        rintro rfl
        cases il
      exact Option.some.inj ((Kind.join?_self left hb).symm.trans hjoin)
    exact Operation.answersPair_divmod (e := ⟨.divmod, left, left, left, left, .available⟩) hf hl hr
      x y (Promotion.divmod_mem_available il)
  · exact divided.floorDivided (Elem.int?_mem_range hi) (Elem.int?_mem_range ha)
      (Elem.int?_mem_range hb) fl

theorem divmod_int8_least :
    ∃ q r : Elem (.signed .w8),
      @Operation.AnswersPair (.signed .w8) (.signed .w8) _ .divmod (BitVec.intMin 8)
        (BitVec.allOnes 8) q r ∧
      Elem.int? (.signed .w8) q = some (-128) ∧ Elem.int? (.signed .w8) r = some 0 := by
  have he : (⟨.floorRemainder, .signed .w8, .signed .w8, .signed .w8, .signed .w8, .available⟩ :
      Entry) ∈ Promotion.available .floorRemainder :=
    Promotion.mem_available_iff.mpr ⟨Promotion.lookup_eq_rule? _ _ _, rfl⟩
  have ha : Elem.int? (.signed .w8) (BitVec.intMin 8) = some (-128) := rfl
  have hb : Elem.int? (.signed .w8) (BitVec.allOnes 8) = some (-1) := rfl
  obtain ⟨q, r, i, j, -, -, pair, hi, hj, divided⟩ := floorDivision_exact he ha hb
  have wraps := (divided.wraps_iff (by decide)).mpr ⟨.w8, rfl, rfl, rfl, rfl⟩
  obtain ⟨rfl, rfl⟩ := divided.wrapped (by decide) wraps
  exact ⟨q, r, pair rfl, hi, hj⟩

end Pointwise
