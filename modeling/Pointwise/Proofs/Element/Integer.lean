import Mathlib.Algebra.Order.Ring.Int
import Mathlib.Data.Set.Defs
import Pointwise.Element.Action
import Pointwise.Element.Basic

/-!
# Integer elements

An element of an integer kind is an integer in the range of the kind, and every integer has exactly
one element of the kind that is congruent to it, its `Kind.wrap`.

* `Elem.int?`   the integer that an element is;
* `Kind.range`, `Kind.wrap`   the integers of a kind, and the reduction of any integer to them;
* `int?_mem_range`, `wrap_of_mem_range`   elements lie in the range, and the range is kept;
* `exists_cast_int`   a cast between integer kinds is the reduction to the target.
-/

namespace Pointwise

namespace Kind

def range : Kind → Set ℤ
  | unsigned w => {i | 0 ≤ i ∧ i < 2 ^ w.bits}
  | signed w => {i | -2 ^ (w.bits - 1) ≤ i ∧ i < 2 ^ (w.bits - 1)}
  | _ => ∅

/-- The integer of a kind that is congruent to an integer modulo two to the width. -/
def wrap : Kind → ℤ → ℤ
  | unsigned w, i => i % 2 ^ w.bits
  | signed w, i => i.bmod (2 ^ w.bits)
  | _, i => i

theorem two_pow_bits (w : Width) : (2 : ℤ) ^ w.bits = 2 * 2 ^ (w.bits - 1) := by
  have h : w.bits - 1 + 1 = w.bits := Nat.sub_add_cancel w.bits_pos
  rw [← pow_succ', h]

theorem wrap_of_mem_range {k : Kind} {i : ℤ} (h : i ∈ k.range) : k.wrap i = i := by
  cases k with
  | unsigned w => exact Int.emod_eq_of_lt h.1 h.2
  | signed w =>
    have hp := two_pow_bits w
    obtain ⟨h1, h2⟩ := h
    exact Int.bmod_eq_of_le (by push_cast; omega) (by push_cast; omega)
  | real p => rfl
  | complex p => rfl
  | bool => rfl

end Kind

namespace Elem

def int? : (k : Kind) → Elem k → Option ℤ
  | .unsigned _, x => some (BitVec.toNat x)
  | .signed _, x => some (BitVec.toInt x)
  | _, _ => none

theorem int?_mem_range {k : Kind} {x : Elem k} {i : ℤ} (h : int? k x = some i) : i ∈ k.range := by
  cases k with
  | unsigned w =>
    obtain rfl := Option.some.inj h
    refine ⟨Int.natCast_nonneg _, ?_⟩
    exact_mod_cast BitVec.isLt (w := w.bits) x
  | signed w =>
    obtain rfl := Option.some.inj h
    exact ⟨BitVec.le_toInt (w := w.bits) x, BitVec.toInt_lt (w := w.bits) (x := x)⟩
  | real p => cases h
  | complex p => cases h
  | bool => cases h

theorem exists_int? {k : Kind} (hk : k.isInteger = true) (x : Elem k) : ∃ i, int? k x = some i := by
  cases k with
  | unsigned w => exact ⟨_, rfl⟩
  | signed w => exact ⟨_, rfl⟩
  | real p => cases hk
  | complex p => cases hk
  | bool => cases hk

theorem isInteger_of_int? {k : Kind} {x : Elem k} {i : ℤ} (h : int? k x = some i) :
    k.isInteger = true := by
  cases k <;> first | rfl | cases h

theorem int?_injective {k : Kind} {x y : Elem k} {i : ℤ} (hx : int? k x = some i)
    (hy : int? k y = some i) : x = y := by
  rw [← hy] at hx
  cases k with
  | unsigned w => exact BitVec.eq_of_toNat_eq (Int.ofNat.inj (Option.some.inj hx))
  | signed w => exact BitVec.eq_of_toInt_eq (Option.some.inj hx)
  | real p => cases hy
  | complex p => cases hy
  | bool => cases hy

theorem int?_ofInt (w : Width) (i : ℤ) :
    int? (.unsigned w) (BitVec.ofInt w.bits i) = some ((Kind.unsigned w).wrap i) ∧
      int? (.signed w) (BitVec.ofInt w.bits i) = some ((Kind.signed w).wrap i) := by
  constructor
  · refine congrArg some ?_
    have hp : ((2 ^ w.bits : Nat) : ℤ) ≠ 0 := Int.natCast_ne_zero.mpr (Nat.two_pow_pos _).ne'
    rw [BitVec.toNat_ofInt, Int.toNat_of_nonneg (Int.emod_nonneg _ hp), Nat.cast_pow]
    rfl
  · exact congrArg some (BitVec.toInt_ofInt i)

/-- A cast from an integer kind goes through the integer that the element is. -/
theorem exists_value {s : Kind} (hs : s.isInteger = true) :
    ∃ v : Elem s → ℤ, (∀ x, int? s x = some (v x)) ∧
      ∀ t, cast? s t = (ofInt? t).map fun g x => g (v x) := by
  cases s with
  | unsigned w => exact ⟨fun x => BitVec.toNat x, fun _ => rfl, fun _ => rfl⟩
  | signed w => exact ⟨fun x => BitVec.toInt x, fun _ => rfl, fun _ => rfl⟩
  | real p => cases hs
  | complex p => cases hs
  | bool => cases hs

theorem exists_ofInt {t : Kind} (ht : t.isInteger = true) :
    ∃ g, ofInt? t = some g ∧ ∀ i, int? t (g i) = some (t.wrap i) := by
  cases t with
  | unsigned w => exact ⟨_, rfl, fun i => (int?_ofInt w i).1⟩
  | signed w => exact ⟨_, rfl, fun i => (int?_ofInt w i).2⟩
  | real p => cases ht
  | complex p => cases ht
  | bool => cases ht

/-- A cast between integer kinds is the reduction to the target. -/
theorem exists_cast_int {s t : Kind} (hs : s.isInteger = true) (ht : t.isInteger = true) :
    ∃ g, cast? s t = some g ∧ ∀ x i, int? s x = some i → int? t (g x) = some (t.wrap i) := by
  obtain ⟨v, hv, hcast⟩ := exists_value hs
  obtain ⟨g, hg, hint⟩ := exists_ofInt ht
  refine ⟨fun x => g (v x), ?_, fun x i hx => ?_⟩
  · rw [hcast, hg]
    rfl
  · obtain rfl := Option.some.inj ((hv x).symm.trans hx)
    exact hint (v x)

end Elem

end Pointwise
