import Mathlib.Data.Prod.Lex
import Pointwise.Proofs.Element.Parts

/-!
# The order of elements

Elements are ordered by the real part of what they stand for, and then by the imaginary part, both
on the extended real line. That is the plain order for integers and real numbers, whose imaginary
part is zero. An element with a part that is not a number has no place in the order.

* `Elem.point?`   the place of an element;
* `exists_lt`, `exists_le`   the relations of each kind are those of the places.
-/

namespace Pointwise

namespace Elem

/-- The place of an element: its parts in lexicographic order. There is none if a part is not a
number. -/
noncomputable def point? (k : Kind) (x : Elem k) : Option (EReal ×ₗ EReal) :=
  match (parts k x).1.place?, (parts k x).2.place? with
  | some a, some b => some (toLex (a, b))
  | _, _ => none

theorem point?_congr {s t : Kind} {x : Elem s} {y : Elem t} (h : parts s x = parts t y) :
    point? s x = point? t y := by
  unfold point?
  rw [h]

theorem point?_eq_none_iff {k : Kind} {x : Elem k} : point? k x = none ↔ HasNaN k x := by
  unfold point? HasNaN
  rw [← Number.place?_eq_none_iff, ← Number.place?_eq_none_iff]
  cases (parts k x).1.place? <;> cases (parts k x).2.place? <;> simp

theorem point?_of_int? {k : Kind} {x : Elem k} {i : ℤ} (h : int? k x = some i) :
    point? k x = some (toLex (((i : ℝ) : EReal), 0)) := by
  have h0 : (Number.ofInt 0).place? = some (0 : EReal) := by
    rw [Number.place?_ofInt, Int.cast_zero, EReal.coe_zero]
  unfold point?
  rw [parts_of_int? h, Number.place?_ofInt, h0]

/-- A relation of elements that holds of their places, and never where there is none. -/
structure Decides {k : Kind} (f : Elem k → Elem k → Bool)
    (r : EReal ×ₗ EReal → EReal ×ₗ EReal → Prop) : Prop where
  ordered : ∀ {a b p q}, point? k a = some p → point? k b = some q → (f a b = true ↔ r p q)
  unordered : ∀ {a b}, point? k a = none ∨ point? k b = none → f a b = false

theorem toLex_lt_iff {a b a' b' : EReal} :
    toLex (a, b) < toLex (a', b') ↔ a < a' ∨ a = a' ∧ b < b' := Prod.Lex.toLex_lt_toLex

theorem toLex_le_iff {a b a' b' : EReal} :
    toLex (a, b) ≤ toLex (a', b') ↔ a < a' ∨ a = a' ∧ b ≤ b' := Prod.Lex.toLex_le_toLex

theorem toLex_zero_lt_iff {a b : EReal} :
    toLex (a, (0 : EReal)) < toLex (b, (0 : EReal)) ↔ a < b := by
  simp [toLex_lt_iff]

theorem toLex_zero_le_iff {a b : EReal} :
    toLex (a, (0 : EReal)) ≤ toLex (b, (0 : EReal)) ↔ a ≤ b := by
  rw [toLex_le_iff, le_iff_lt_or_eq (a := a)]
  simp

theorem decides_of_int {k : Kind} {v : Elem k → ℤ} (hv : ∀ a, int? k a = some (v a))
    {f : Elem k → Elem k → Bool} {s : ℤ → ℤ → Prop}
    {r : EReal ×ₗ EReal → EReal ×ₗ EReal → Prop} (hf : ∀ a b, f a b = true ↔ s (v a) (v b))
    (hr : ∀ i j : ℤ, s i j ↔ r (toLex (((i : ℝ) : EReal), 0)) (toLex (((j : ℝ) : EReal), 0))) :
    Decides f r where
  ordered {a b p q} hp hq := by
    rw [point?_of_int? (hv a)] at hp
    rw [point?_of_int? (hv b)] at hq
    rw [hf, hr, Option.some.inj hp, Option.some.inj hq]
  unordered {a b} h := by
    rw [point?_of_int? (hv a), point?_of_int? (hv b)] at h
    rcases h with h | h <;> cases h

theorem int_lt_iff (i j : ℤ) :
    i < j ↔ toLex (((i : ℝ) : EReal), (0 : EReal)) < toLex (((j : ℝ) : EReal), 0) := by
  rw [toLex_zero_lt_iff, EReal.coe_lt_coe_iff, Int.cast_lt]

theorem int_le_iff (i j : ℤ) :
    i ≤ j ↔ toLex (((i : ℝ) : EReal), (0 : EReal)) ≤ toLex (((j : ℝ) : EReal), 0) := by
  rw [toLex_zero_le_iff, EReal.coe_le_coe_iff, Int.cast_le]

/-! real numbers -/

section
variable {p : Precision}

theorem point?_real (x : Elem (.real p)) :
    point? (.real p) x = (Binary.number x).place?.map fun a => toLex (a, 0) := by
  have h0 : (Number.ofInt 0).place? = some (0 : EReal) := by
    rw [Number.place?_ofInt, Int.cast_zero, EReal.coe_zero]
  show (match (Binary.number x).place?, (Number.ofInt 0).place? with
    | some a, some b => some (toLex (a, b))
    | _, _ => none) = _
  rw [h0]
  cases (Binary.number x).place? <;> rfl

theorem decides_of_real {f : Elem (.real p) → Elem (.real p) → Bool} {s : EReal → EReal → Prop}
    {r : EReal ×ₗ EReal → EReal ×ₗ EReal → Prop}
    (hf : ∀ {x y : Elem (.real p)} {a b}, (Binary.number x).place? = some a →
      (Binary.number y).place? = some b → (f x y = true ↔ s a b))
    (hn : ∀ {x y : Elem (.real p)}, (Binary.number x).place? = none ∨
      (Binary.number y).place? = none → f x y = false)
    (hr : ∀ a b : EReal, s a b ↔ r (toLex (a, 0)) (toLex (b, 0))) :
    Decides f r where
  ordered {x y q q'} hq hq' := by
    rw [point?_real, Option.map_eq_some_iff] at hq hq'
    obtain ⟨a, ha, rfl⟩ := hq
    obtain ⟨b, hb, rfl⟩ := hq'
    rw [hf ha hb, hr]
  unordered {x y} h := by
    rw [point?_real, point?_real, Option.map_eq_none_iff, Option.map_eq_none_iff] at h
    exact hn h

end

/-! complex numbers -/

section
variable {p : Precision}

theorem point?_complex {z : Elem (.complex p)} {q : EReal ×ₗ EReal} :
    point? (.complex p) z = some q ↔ ∃ a b, (Complex.re z).number.place? = some a ∧
      (Complex.im z).number.place? = some b ∧ toLex (a, b) = q := by
  show (match (Complex.re z).number.place?, (Complex.im z).number.place? with
    | some a, some b => some (toLex (a, b))
    | _, _ => none) = _ ↔ _
  cases (Complex.re z).number.place? <;> cases (Complex.im z).number.place? <;> simp

theorem hasNaN_complex_iff {z : Complex p.format} :
    HasNaN (.complex p) z ↔ z.hasNaN = true := by
  unfold Complex.hasNaN
  rw [Bool.or_eq_true, ← Binary.number_eq_nan_iff, ← Binary.number_eq_nan_iff]
  rfl

theorem hasNaN_eq_false {z : Complex p.format} {q : EReal ×ₗ EReal}
    (h : point? (.complex p) z = some q) : z.hasNaN = false := by
  refine Bool.eq_false_iff.mpr fun hn => ?_
  rw [point?_eq_none_iff.mpr (hasNaN_complex_iff.mpr hn)] at h
  cases h

theorem hasNaN_of_point?_none {z : Complex p.format} (h : point? (.complex p) z = none) :
    z.hasNaN = true :=
  hasNaN_complex_iff.mp (point?_eq_none_iff.mp h)

/-- The lexicographic order of the parts is that of the places. -/
theorem decides_of_complex {last : Binary p.format → Binary p.format → Bool}
    {s : EReal → EReal → Prop} {r : EReal ×ₗ EReal → EReal ×ₗ EReal → Prop}
    (hs : ∀ {x y : Binary p.format} {a b}, x.number.place? = some a → y.number.place? = some b →
      (last x y = true ↔ s a b))
    (hr : ∀ a b a' b' : EReal, (a < a' ∨ a = a' ∧ s b b') ↔ r (toLex (a, b)) (toLex (a', b'))) :
    Decides (k := .complex p) (Complex.lexicographic last) r where
  ordered {z w q q'} hq hq' := by
    obtain ⟨a, b, ha, hb, rfl⟩ := point?_complex.mp hq
    obtain ⟨a', b', ha', hb', rfl⟩ := point?_complex.mp hq'
    unfold Complex.lexicographic
    rw [hasNaN_eq_false hq, hasNaN_eq_false hq', Bool.not_false, Bool.true_and, Bool.true_and,
      Bool.or_eq_true, Bool.and_eq_true, Binary.lt_iff ha ha', Binary.eq_iff ha ha', hs hb hb', hr]
  unordered {z w} h := by
    unfold Complex.lexicographic
    rcases h with h | h
    · rw [hasNaN_of_point?_none h, Bool.not_true, Bool.false_and, Bool.false_and]
    · rw [hasNaN_of_point?_none h, Bool.not_true, Bool.and_false, Bool.false_and]

end

theorem exists_lt {k : Kind} (hk : k ≠ .bool) : ∃ f, lt? k = some f ∧ Decides f (· < ·) := by
  cases k with
  | unsigned w =>
    have hf (a b : BitVec w.bits) : a.ult b = true ↔ (a.toNat : ℤ) < b.toNat := by
      rw [Int.ofNat_lt]
      exact BitVec.ult_iff_lt
    exact ⟨_, rfl, decides_of_int (fun _ => rfl) hf int_lt_iff⟩
  | signed w =>
    have hf (a b : BitVec w.bits) : a.slt b = true ↔ a.toInt < b.toInt := BitVec.slt_iff_toInt_lt
    exact ⟨_, rfl, decides_of_int (fun _ => rfl) hf int_lt_iff⟩
  | real p =>
    exact ⟨_, rfl, decides_of_real Binary.lt_iff Binary.related_of_place_none
      fun a b => toLex_zero_lt_iff.symm⟩
  | complex p =>
    exact ⟨_, rfl, decides_of_complex Binary.lt_iff
      fun a b a' b' => toLex_lt_iff.symm⟩
  | bool => exact absurd rfl hk

theorem exists_le {k : Kind} (hk : k ≠ .bool) : ∃ f, le? k = some f ∧ Decides f (· ≤ ·) := by
  cases k with
  | unsigned w =>
    have hf (a b : BitVec w.bits) : a.ule b = true ↔ (a.toNat : ℤ) ≤ b.toNat := by
      rw [Int.ofNat_le]
      exact BitVec.ule_iff_le
    exact ⟨_, rfl, decides_of_int (fun _ => rfl) hf int_le_iff⟩
  | signed w =>
    have hf (a b : BitVec w.bits) : a.sle b = true ↔ a.toInt ≤ b.toInt := BitVec.sle_iff_toInt_le
    exact ⟨_, rfl, decides_of_int (fun _ => rfl) hf int_le_iff⟩
  | real p =>
    exact ⟨_, rfl, decides_of_real Binary.le_iff Binary.related_of_place_none
      fun a b => toLex_zero_le_iff.symm⟩
  | complex p =>
    exact ⟨_, rfl, decides_of_complex Binary.le_iff
      fun a b a' b' => toLex_le_iff.symm⟩
  | bool => exact absurd rfl hk

end Elem

end Pointwise
