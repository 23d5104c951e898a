import Pointwise.Element.Action
import Pointwise.Element.Basic
import Pointwise.Proofs.Binary.Correct
import Pointwise.Proofs.Binary.Remainder
import Pointwise.Proofs.Complex.Division

/-!
# Real numbers among the complex ones

The complex operations on finite real numbers come down to the real ones.  What they compute beside
them are sums and products with zeros, which change the sign of a zero at most: real parts are equal
in value to the real result, infinities included, and imaginary parts are zero.

* `Complex.Extends`   a complex number that is equal in value to a real one;
* `extends_add`, `extends_sub`, `extends_mul`, `extends_div`   the four operations;
* `lt_ofReal`, `le_ofReal`   the orderings;
* `complex_extends_real`   all of them on promoted operands.
-/

namespace Pointwise

theorem Format.zero_mem_values (f : Format) : (0 : ℚ) ∈ f.values := by
  have zero := f.intCast_mem_values (i := 0) (Nat.zero_le _)
  rwa [Int.cast_zero] at zero

namespace Binary
variable {f : Format} {x y : Binary f} {a b : ℚ}

theorem HasValue.mem_values (h : x.HasValue a) : a ∈ f.values := mem_values_iff.mpr ⟨x, h⟩

theorem HasValue.eq (h : x.HasValue a) (h' : y.HasValue a) : x.eq y = true :=
  h.roundsTo.eq h'.roundsTo

protected theorem eq_self (hx : x.isNaN = false) : x.eq x = true := by
  cases x with
  | nan s => cases hx
  | infinite s => exact decide_eq_true rfl
  | finite s k hk => exact decide_eq_true rfl

theorem le_eq_lt_or_eq (x y : Binary f) : x.le y = (x.lt y || x.eq y) := by
  unfold le lt eq related
  cases x.order? with
  | none => rfl
  | some i =>
    cases y.order? with
    | none => rfl
    | some j =>
      show decide (i ≤ j) = (decide (i < j) || decide (i = j))
      rw [← Bool.decide_or, decide_eq_decide]
      exact Int.le_iff_lt_or_eq

/-- A format converts to itself without a change. -/
theorem convert_self (x : Binary f) : x.convert f = x := by
  cases x with
  | nan s => rfl
  | infinite s => rfl
  | finite s k hk => exact round_quanta s hk f.unit_pos

/-! ### zeros beside a number -/

theorem hasValue_add_zero (hx : x.HasValue a) (hy : y.HasValue 0) : (x.add y).HasValue a := by
  have rounds := roundsTo_add hx hy
  rw [add_zero] at rounds
  exact rounds.hasValue hx.mem_values

theorem hasValue_zero_sub (hx : x.HasValue 0) (hy : y.HasValue 0) : (x.sub y).HasValue 0 := by
  have rounds := roundsTo_sub hx hy
  rw [sub_zero] at rounds
  exact rounds.hasValue f.zero_mem_values

theorem hasValue_mul_zero (hx : x.HasValue a) (hy : y.HasValue 0) : (x.mul y).HasValue 0 := by
  have rounds := roundsTo_mul hx hy
  rw [mul_zero] at rounds
  exact rounds.hasValue f.zero_mem_values

theorem hasValue_zero_div (hx : x.HasValue 0) (hy : y.HasValue b) (h0 : b ≠ 0) :
    (x.div y).HasValue 0 := by
  have rounds := roundsTo_div hx hy h0
  rw [div_eq_zero_iff.mpr (.inl rfl)] at rounds
  exact rounds.hasValue f.zero_mem_values

/-- A zero that is subtracted does not count, beside infinity neither. -/
theorem sub_zero_eq (hx : x.isNaN = false) (hy : y.HasValue 0) : (x.sub y).eq x = true := by
  cases x with
  | nan t => cases hx
  | infinite t =>
    show ((infinite t).add y.neg).eq (infinite t) = true
    rw [infinite_add t (isFinite_neg hy.isFinite)]
    exact decide_eq_true rfl
  | finite t k hk =>
    have value := hasValue_quanta (x := (finite t k hk : Binary f)) rfl
    have rounds := roundsTo_sub value hy
    rw [sub_zero] at rounds
    exact rounds.eq value.roundsTo

end Binary

namespace Complex
variable {f : Format} {x y : Binary f} {a b : ℚ}

open Binary (hasValue_zero hasValue_add_zero hasValue_mul_zero hasValue_zero_sub hasValue_zero_div)

/-! ## sums, products and quotients -/

/-- A complex number that is equal in value to a real one, which may be infinite. -/
structure Extends (z : Complex f) (x : Binary f) : Prop where
  re : z.re.eq x = true
  im : z.im.eq (.zero false) = true

section
variable (hx : x.HasValue a) (hy : y.HasValue b)
include hx hy

theorem extends_add : ((ofReal x).add (ofReal y)).Extends (x.add y) where
  re := Binary.eq_self (Binary.roundsTo_add hx hy).isNaN
  im := (hasValue_add_zero (hasValue_zero false) (hasValue_zero false)).eq (hasValue_zero false)

theorem extends_sub : ((ofReal x).sub (ofReal y)).Extends (x.sub y) where
  re := Binary.eq_self (Binary.roundsTo_sub hx hy).isNaN
  im := (hasValue_zero_sub (hasValue_zero false) (hasValue_zero false)).eq (hasValue_zero false)

theorem extends_mul : ((ofReal x).mul (ofReal y)).Extends (x.mul y) := by
  have zero := hasValue_zero (f := f) false
  constructor
  case re =>
    exact Binary.sub_zero_eq (Binary.roundsTo_mul hx hy).isNaN (hasValue_mul_zero zero zero)
  case im =>
    show ((x.mul (.zero false)).add ((Binary.zero false).mul y)).eq (.zero false) = true
    rw [Binary.mul_comm (.zero false) y]
    exact (hasValue_add_zero (hasValue_mul_zero hx zero) (hasValue_mul_zero hy zero)).eq zero

variable (h0 : b ≠ 0)
include h0

/-- The real part of a real divisor is the larger one, and the ratio is zero. -/
theorem roundsTo_scaledQuotient : (scaledQuotient (ofReal x) (ofReal y)).re.RoundsTo (a / b) ∧
    (scaledQuotient (ofReal x) (ofReal y)).im.HasValue 0 := by
  have zero := hasValue_zero (f := f) false
  have larger : (Binary.zero false).abs.le y.abs = true := by
    rw [Binary.abs_le_abs_iff zero.isFinite hy.isFinite, Binary.quanta_zero]
    exact Nat.zero_le _
  have ratio := hasValue_zero_div zero hy h0
  have divisor := hasValue_add_zero hy (hasValue_mul_zero zero ratio)
  have dividend := hasValue_add_zero hx (hasValue_mul_zero zero ratio)
  have rest := hasValue_zero_sub zero (hasValue_mul_zero hx ratio)
  have quotient : scaledQuotient (ofReal x) (ofReal y) = ⟨_, _⟩ := if_pos larger
  rw [quotient]
  exact ⟨Binary.roundsTo_div dividend divisor h0, hasValue_zero_div rest divisor h0⟩

theorem extends_div : ((ofReal x).div (ofReal y)).Extends (x.div y) := by
  obtain ⟨re, im⟩ := roundsTo_scaledQuotient hx hy h0
  -- the real part is a number, so the quotient needs no recovery
  have defined : (ofReal x).div (ofReal y) = scaledQuotient (ofReal x) (ofReal y) := by
    unfold div
    dsimp only
    rw [re.isNaN, Bool.false_and]
    rfl
  rw [defined]
  exact ⟨re.eq (Binary.roundsTo_div hx hy h0), im.eq (hasValue_zero false)⟩

end

/-! ## order -/

section
variable (hx : x.isNaN = false) (hy : y.isNaN = false)
include hx hy

theorem lexicographic_ofReal (last : Binary f → Binary f → Bool) :
    lexicographic last (ofReal x) (ofReal y)
      = (x.lt y || (x.eq y && last (.zero false) (.zero false))) := by
  have left : (ofReal x).hasNaN = false := Bool.or_eq_false_iff.mpr ⟨hx, rfl⟩
  have right : (ofReal y).hasNaN = false := Bool.or_eq_false_iff.mpr ⟨hy, rfl⟩
  unfold lexicographic
  rw [left, right]
  rfl

theorem lt_ofReal : (ofReal x).lt (ofReal y) = x.lt y := by
  show lexicographic Binary.lt (ofReal x) (ofReal y) = x.lt y
  have zeros : (Binary.zero false : Binary f).lt (.zero false) = false := rfl
  rw [lexicographic_ofReal hx hy, zeros, Bool.and_false, Bool.or_false]

theorem le_ofReal : (ofReal x).le (ofReal y) = x.le y := by
  show lexicographic Binary.le (ofReal x) (ofReal y) = x.le y
  have zeros : (Binary.zero false : Binary f).le (.zero false) = true := rfl
  rw [lexicographic_ofReal hx hy, zeros, Bool.and_true, Binary.le_eq_lt_or_eq]

end

end Complex

/-! ## promoted operands -/

namespace Elem

theorem cast_real_complex (p : Precision) :
    cast? (.real p) (.complex p) = some fun x => Complex.ofReal x := by
  show some (fun x => Complex.ofReal (Binary.convert p.format x)) = _
  simp only [Binary.convert_self]

end Elem

namespace Operation
variable {op : Operation} {p : Precision} {x y : Binary p.format} {a b : ℚ}

/-- Sums, differences, products and quotients by anything but zero. -/
theorem exists_extends (hx : x.HasValue a) (hy : y.HasValue b)
    (h : op.family = .arithmetic ∨ op = .divide ∧ b ≠ 0) :
    ∃ f g, op.action? (.real p) = some (.value f) ∧ op.action? (.complex p) = some (.value g) ∧
      (g (Complex.ofReal x) (Complex.ofReal y)).Extends (f x y) := by
  cases op with
  | add => exact ⟨_, _, rfl, rfl, Complex.extends_add hx hy⟩
  | subtract => exact ⟨_, _, rfl, rfl, Complex.extends_sub hx hy⟩
  | multiply => exact ⟨_, _, rfl, rfl, Complex.extends_mul hx hy⟩
  | divide =>
    have h0 := h.resolve_left (fun h => nomatch h)
    exact ⟨_, _, rfl, rfl, Complex.extends_div hx hy h0.2⟩
  | _ => rcases h with h | ⟨h, -⟩ <;> cases h

theorem exists_order (hx : x.isNaN = false) (hy : y.isNaN = false) (h : op.family = .comparison) :
    ∃ f g, op.action? (.real p) = some (.test f) ∧ op.action? (.complex p) = some (.test g) ∧
      g (Complex.ofReal x) (Complex.ofReal y) = f x y := by
  cases op with
  | less => exact ⟨_, _, rfl, rfl, Complex.lt_ofReal hx hy⟩
  | lessEqual => exact ⟨_, _, rfl, rfl, Complex.le_ofReal hx hy⟩
  | greaterEqual => exact ⟨_, _, rfl, rfl, Complex.le_ofReal hy hx⟩
  | greater => exact ⟨_, _, rfl, rfl, Complex.lt_ofReal hy hx⟩
  | _ => cases h

end Operation

/-- **On promoted real numbers the complex operations give what the real ones give**: the real part
is equal in value to the real result, which may be infinite, the imaginary part is zero, and the
orderings answer alike. -/
theorem complex_extends_real (p : Precision) {x y : Binary p.format} (hx : x.isFinite = true)
    (hy : y.isFinite = true) :
    ∃ promote : Binary p.format → Complex p.format,
      Elem.cast? (.real p) (.complex p) = some promote ∧
      (∀ op : Operation, op.family = .arithmetic ∨ op = .divide ∧ y.eq (.zero false) = false →
        ∃ f g, op.action? (.real p) = some (.value f) ∧ op.action? (.complex p) = some (.value g) ∧
          (g (promote x) (promote y)).Extends (f x y)) ∧
      ∀ op : Operation, op.family = .comparison →
        ∃ f g, op.action? (.real p) = some (.test f) ∧ op.action? (.complex p) = some (.test g) ∧
          g (promote x) (promote y) = f x y := by
  have valueLeft := Binary.hasValue_quanta hx
  have valueRight := Binary.hasValue_quanta hy
  refine ⟨_, Elem.cast_real_complex p, ?_, ?_⟩
  · intro op h
    refine Operation.exists_extends valueLeft valueRight (h.imp_right ?_)
    rintro ⟨divide, nonzero⟩
    refine ⟨divide, fun none => ?_⟩
    rw [none] at valueRight
    rw [valueRight.eq (Binary.hasValue_zero false)] at nonzero
    cases nonzero
  · intro op h
    exact Operation.exists_order (Binary.isNaN_of_isFinite hx) (Binary.isNaN_of_isFinite hy) h

/-- The largest number over one half is infinite, as a complex quotient too. -/
theorem largest_over_half :
    (Complex.div (Complex.ofReal (Complex.largest .double).re) (Complex.ofReal Binary.half)).Extends
      (.infinite false) := by
  have finite : (Complex.largest .double).re.isFinite = true := rfl
  have half : (Binary.half : Binary .double).isFinite = true := by decide +kernel
  obtain ⟨promote, cast, arithmetic, -⟩ := complex_extends_real .double finite half
  obtain ⟨f, g, hf, hg, result⟩ := arithmetic .divide (.inr ⟨rfl, by decide +kernel⟩)
  obtain rfl := Option.some.inj ((Elem.cast_real_complex .double).symm.trans cast)
  obtain rfl : Binary.div = f := Action.value.inj (Option.some.inj hf)
  obtain rfl : Complex.div = g := Action.value.inj (Option.some.inj hg)
  have infinite : Binary.div (Complex.largest .double).re Binary.half = .infinite false := by
    decide +kernel
  rw [← infinite]
  exact result

end Pointwise
