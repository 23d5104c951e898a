import Mathlib.Data.Int.ModEq
import Mathlib.Tactic.Linarith
import Mathlib.Tactic.Ring
import Pointwise.Promotion.Table
import Pointwise.Proofs.Element.Integer

/-!
# Sums, differences and products of integer elements

The arithmetic of an integer kind is that of the integers, reduced to the range of the kind. The
range has one integer of every residue class, so the reduction is the only result that is both in
range and congruent to the exact one. Where two kinds join in one that is wider than both, no
result leaves the range.

* `Kind.IsResidue`, `isResidue_iff`   the reduction is the one congruent integer in the range;
* `Elem.exists_action`   what sums, differences and products of elements are;
* `exact?_mem_range`   the exact result has room in a join wider than both kinds.
-/

namespace Pointwise

def Operation.exact? : Operation → ℤ → ℤ → Option ℤ
  | add, a, b => some (a + b)
  | subtract, a, b => some (a - b)
  | multiply, a, b => some (a * b)
  | _, _, _ => none

namespace Kind

/-- An integer of the kind that is congruent to `n` modulo two to the width. -/
structure IsResidue (k : Kind) (n i : ℤ) : Prop where
  mem_range : i ∈ k.range
  congruent : i ≡ n [ZMOD 2 ^ (8 * k.size)]

variable {k : Kind} {i j n : ℤ}

theorem wrap_mem_range (hk : k.isInteger = true) (n : ℤ) : k.wrap n ∈ k.range := by
  cases k with
  | unsigned w =>
    have hp : (0 : ℤ) < 2 ^ w.bits := by positivity
    exact ⟨Int.emod_nonneg n hp.ne', Int.emod_lt_of_pos n hp⟩
  | signed w =>
    have hp := two_pow_bits w
    have hpos : 0 < 2 ^ w.bits := Nat.two_pow_pos _
    have low := Int.le_bmod (x := n) hpos
    have high := Int.bmod_lt (x := n) hpos
    push_cast at low high
    refine ⟨?_, ?_⟩
    · show _ ≤ n.bmod (2 ^ w.bits)
      omega
    · show n.bmod (2 ^ w.bits) < _
      omega
  | real p => cases hk
  | complex p => cases hk
  | bool => cases hk

theorem wrap_congruent (hk : k.isInteger = true) (n : ℤ) :
    k.wrap n ≡ n [ZMOD 2 ^ (8 * k.size)] := by
  cases k with
  | unsigned w => exact Int.mod_modEq n _
  | signed w =>
    show n.bmod (2 ^ w.bits) % 2 ^ w.bits = n % 2 ^ w.bits
    exact_mod_cast Int.bmod_emod (x := n) (m := 2 ^ w.bits)
  | real p => cases hk
  | complex p => cases hk
  | bool => cases hk

/-- The integers of a kind are as many as there are residue classes. -/
theorem abs_sub_lt_of_mem_range (hi : i ∈ k.range) (hj : j ∈ k.range) :
    |i - j| < 2 ^ (8 * k.size) := by
  cases k with
  | unsigned w =>
    show |i - j| < 2 ^ w.bits
    obtain ⟨i1, i2⟩ := hi
    obtain ⟨j1, j2⟩ := hj
    rw [abs_lt]
    omega
  | signed w =>
    show |i - j| < 2 ^ w.bits
    have hp := two_pow_bits w
    obtain ⟨i1, i2⟩ := hi
    obtain ⟨j1, j2⟩ := hj
    rw [abs_lt]
    omega
  | real p => cases hi
  | complex p => cases hi
  | bool => cases hi

/-- The reduction is the one integer of the kind that is congruent. -/
theorem isResidue_iff (hk : k.isInteger = true) : k.IsResidue n i ↔ i = k.wrap n := by
  constructor
  · rintro ⟨mem, congruent⟩
    have same : i ≡ k.wrap n [ZMOD 2 ^ (8 * k.size)] :=
      congruent.trans (wrap_congruent hk n).symm
    have small := abs_sub_lt_of_mem_range (wrap_mem_range hk n) mem
    have zero := Int.eq_zero_of_abs_lt_dvd same.dvd small
    omega
  · rintro rfl
    exact ⟨wrap_mem_range hk n, wrap_congruent hk n⟩

end Kind

/-! ## words -/

namespace Elem
variable {w : Width} {k : Kind} {op : Operation} {i a b n : ℤ}

theorem eq_ofInt_unsigned {x : Elem (.unsigned w)} (h : int? (.unsigned w) x = some i) :
    x = BitVec.ofInt w.bits i := by
  obtain rfl := Option.some.inj h
  have nat := BitVec.ofInt_natCast w.bits (BitVec.toNat (w := w.bits) x)
  exact (nat.trans (BitVec.ofNat_toNat w.bits x |>.trans (BitVec.setWidth_eq x))).symm

theorem eq_ofInt_signed {x : Elem (.signed w)} (h : int? (.signed w) x = some i) :
    x = BitVec.ofInt w.bits i := by
  obtain rfl := Option.some.inj h
  exact BitVec.ofInt_toInt.symm

/-- The operation on words goes with the one on integers. -/
theorem exists_word_action (h : op.family = .arithmetic) (w : Width) :
    ∃ f : BitVec w.bits → BitVec w.bits → BitVec w.bits,
      op.action? (.unsigned w) = some (.value f) ∧ op.action? (.signed w) = some (.value f) ∧
      ∀ {a b n : ℤ}, op.exact? a b = some n →
        f (BitVec.ofInt w.bits a) (BitVec.ofInt w.bits b) = BitVec.ofInt w.bits n := by
  cases op with
  | add =>
    refine ⟨BitVec.add, rfl, rfl, fun {a b n} hn => ?_⟩
    obtain rfl := Option.some.inj hn
    exact (BitVec.ofInt_add a b).symm
  | subtract =>
    refine ⟨BitVec.sub, rfl, rfl, fun {a b n} hn => ?_⟩
    obtain rfl := Option.some.inj hn
    rw [sub_eq_add_neg, BitVec.ofInt_add, BitVec.ofInt_neg]
    exact BitVec.sub_eq_add_neg _ _
  | multiply =>
    refine ⟨BitVec.mul, rfl, rfl, fun {a b n} hn => ?_⟩
    obtain rfl := Option.some.inj hn
    exact (BitVec.ofInt_mul a b).symm
  | _ => cases h

/-- Sums, differences and products of an integer kind are the exact ones, reduced. -/
theorem exists_action (h : op.family = .arithmetic) (hk : k.isInteger = true) :
    ∃ f, op.action? k = some (.value f) ∧ ∀ {x y a b n}, int? k x = some a → int? k y = some b →
      op.exact? a b = some n → int? k (f x y) = some (k.wrap n) := by
  cases k with
  | unsigned w =>
    obtain ⟨f, hf, -, exact⟩ := exists_word_action h w
    refine ⟨f, hf, fun {x y a b n} ha hb hn => ?_⟩
    rw [eq_ofInt_unsigned ha, eq_ofInt_unsigned hb, exact hn]
    exact (int?_ofInt w n).1
  | signed w =>
    obtain ⟨f, -, hf, exact⟩ := exists_word_action h w
    refine ⟨f, hf, fun {x y a b n} ha hb hn => ?_⟩
    rw [eq_ofInt_signed ha, eq_ofInt_signed hb, exact hn]
    exact (int?_ofInt w n).2
  | real p => cases hk
  | complex p => cases hk
  | bool => cases hk

end Elem

/-! ## results that need no reduction -/

namespace Kind
variable {op : Operation} {a b n : ℤ}

/-- Twice the bits of the unsigned operand have room for every result, the product of the two
extremes included. -/
theorem exact?_bounds {P : ℤ} (hP : 2 ≤ P) (ha : 0 ≤ a ∧ a < 2 * P) (hb : -P ≤ b ∧ b < P)
    (hn : op.exact? a b = some n ∨ op.exact? b a = some n) :
    -(2 * P * P) ≤ n ∧ n < 2 * P * P := by
  obtain ⟨a1, a2⟩ := ha
  obtain ⟨b1, b2⟩ := hb
  have square : 4 * P ≤ 2 * P * P := by nlinarith
  have low : -(2 * P * P) ≤ a * b := by nlinarith
  have high : a * b < 2 * P * P := by nlinarith
  cases op with
  | add =>
    rcases hn with hn | hn <;> obtain rfl := Option.some.inj hn <;> omega
  | subtract =>
    rcases hn with hn | hn <;> obtain rfl := Option.some.inj hn <;> omega
  | multiply =>
    rcases hn with hn | hn <;> obtain rfl := Option.some.inj hn
    · exact ⟨low, high⟩
    · rw [mul_comm b a]
      exact ⟨low, high⟩
  | _ => rcases hn with hn | hn <;> cases hn

theorem exact?_mem_mixed {u s d : Width} (hd : u.double? = some d)
    (wide : s.bytes < (d.max s).bytes) (ha : a ∈ (unsigned u).range) (hb : b ∈ (signed s).range)
    (hn : op.exact? a b = some n ∨ op.exact? b a = some n) :
    n ∈ (signed (d.max s)).range := by
  have bits : (d.max s).bits - 1 = (u.bits - 1) + (u.bits - 1) + 1 ∧ s.bits - 1 ≤ u.bits - 1 ∧
      1 ≤ u.bits - 1 := by
    cases u <;> cases hd <;> cases s <;> revert wide <;> decide
  obtain ⟨hbits, hs, hu⟩ := bits
  have hP : (2 : ℤ) ≤ 2 ^ (u.bits - 1) := le_self_pow₀ (by decide) (by omega)
  have hle : (2 : ℤ) ^ (s.bits - 1) ≤ 2 ^ (u.bits - 1) := pow_le_pow_right₀ (by decide) hs
  have ha' : 0 ≤ a ∧ a < 2 * 2 ^ (u.bits - 1) := by
    rw [← two_pow_bits]
    exact ha
  have hb' : -2 ^ (u.bits - 1) ≤ b ∧ b < 2 ^ (u.bits - 1) := by
    obtain ⟨b1, b2⟩ := hb
    exact ⟨by omega, by omega⟩
  have power : (2 : ℤ) ^ ((d.max s).bits - 1) = 2 * 2 ^ (u.bits - 1) * 2 ^ (u.bits - 1) := by
    rw [hbits, pow_succ, pow_add]
    ring
  show -2 ^ ((d.max s).bits - 1) ≤ n ∧ n < 2 ^ ((d.max s).bits - 1)
  rw [power]
  exact exact?_bounds hP ha' hb' hn

/-- The join of two kinds of one signedness is one of them. -/
theorem not_wider_of_max {u v : Width} (wide_left : u.bytes < (u.max v).bytes)
    (wide_right : v.bytes < (u.max v).bytes) : False := by
  rcases u.max_eq v with e | e
  · rw [e] at wide_left
    exact Nat.lt_irrefl _ wide_left
  · rw [e] at wide_right
    exact Nat.lt_irrefl _ wide_right

/-- In a join that is wider than both kinds, sums, differences and products are exact. -/
theorem exact?_mem_range {l r c : Kind} (hc : join? l r = some c) (wide_left : l.size < c.size)
    (wide_right : r.size < c.size) (ha : a ∈ l.range) (hb : b ∈ r.range)
    (hn : op.exact? a b = some n) : n ∈ c.range := by
  cases l with
  | unsigned u =>
    cases r with
    | unsigned v =>
      obtain rfl := Option.some.inj hc
      exact (not_wider_of_max wide_left wide_right).elim
    | signed s =>
      obtain ⟨d, hd, rfl⟩ := Option.map_eq_some_iff.mp hc
      exact exact?_mem_mixed hd wide_right ha hb (.inl hn)
    | real p => cases hb
    | complex p => cases hb
    | bool => cases hb
  | signed s =>
    cases r with
    | signed t =>
      obtain rfl := Option.some.inj hc
      exact (not_wider_of_max wide_left wide_right).elim
    | unsigned u =>
      obtain ⟨d, hd, rfl⟩ := Option.map_eq_some_iff.mp hc
      exact exact?_mem_mixed hd wide_left hb ha (.inr hn)
    | real p => cases hb
    | complex p => cases hb
    | bool => cases hb
  | real p => cases ha
  | complex p => cases ha
  | bool => cases ha

end Kind

end Pointwise
