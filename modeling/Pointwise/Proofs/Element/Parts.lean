import Pointwise.Proofs.Binary.Number
import Pointwise.Proofs.Element.Integer

/-!
# What elements stand for

Whatever its kind, an element stands for a real and an imaginary part; integers and real numbers
have the imaginary part zero. A kind *fits* into another if that has room for all its elements, and
then the cast keeps both parts.

* `Elem.parts`, `parts_injective`   the parts of an element, which tell apart all but the NaNs;
* `Kind.fits`, `exists_cast_of_fits`   casts that lose nothing.
-/

namespace Pointwise

namespace Kind

/-- The kind `b` has room for all elements of the kind `a`. -/
def fits : (a b : Kind) → Bool
  | unsigned a, unsigned b => a.bytes ≤ b.bytes
  | unsigned a, signed b => a.bytes < b.bytes
  | signed a, signed b => a.bytes ≤ b.bytes
  | unsigned a, real p => a.bits ≤ p.format.fractionBits + 1
  | signed a, real p => a.bits ≤ p.format.fractionBits + 1
  | unsigned a, complex p => a.bits ≤ p.format.fractionBits + 1
  | signed a, complex p => a.bits ≤ p.format.fractionBits + 1
  | real p, real q => p.bytes ≤ q.bytes
  | real p, complex q => p.bytes ≤ q.bytes
  | complex p, complex q => p.bytes ≤ q.bytes
  | _, _ => false

theorem fits_self {k : Kind} (h : k ≠ bool) : k.fits k = true := by
  cases k with
  | unsigned w => exact decide_eq_true (Nat.le_refl _)
  | signed w => exact decide_eq_true (Nat.le_refl _)
  | real p => exact decide_eq_true (Nat.le_refl _)
  | complex p => exact decide_eq_true (Nat.le_refl _)
  | bool => exact absurd rfl h

theorem ne_bool_of_fits {a b : Kind} (h : a.fits b = true) : b ≠ bool := by
  rintro rfl
  cases a <;> cases h

theorem ne_bool_of_fits_left {a b : Kind} (h : a.fits b = true) : a ≠ bool := by
  rintro rfl
  cases b <;> cases h

/-- What fits into an integer kind is an integer kind. -/
theorem isInteger_of_fits {a b : Kind} (h : a.fits b = true) (hb : b.isInteger = true) :
    a.isInteger = true := by
  cases a with
  | unsigned w => rfl
  | signed w => rfl
  | real p => cases b <;> first | cases h | cases hb
  | complex p => cases b <;> first | cases h | cases hb
  | bool => cases b <;> cases h

end Kind

theorem Precision.within {p q : Precision} (h : p.bytes ≤ q.bytes) : p.format.Within q.format := by
  revert h
  cases p <;> cases q <;> intro h <;> first
    | exact ⟨by decide, by decide⟩
    | exact absurd h (by decide)

namespace Elem

/-- The real and the imaginary part of an element. A truth value counts as one or zero. -/
def parts : (k : Kind) → Elem k → Number × Number
  | .unsigned _, x => (.ofInt (BitVec.toNat x), .ofInt 0)
  | .signed _, x => (.ofInt (BitVec.toInt x), .ofInt 0)
  | .real _, x => (Binary.number x, .ofInt 0)
  | .complex _, z => ((Complex.re z).number, (Complex.im z).number)
  | .bool, b => (.ofInt (Bool.toNat b), .ofInt 0)

def HasNaN (k : Kind) (x : Elem k) : Prop := (parts k x).1 = .nan ∨ (parts k x).2 = .nan

/-- Elements of one kind with the same parts are the same, but for what a NaN is. -/
theorem parts_injective {k : Kind} {x y : Elem k} (hx : ¬ HasNaN k x)
    (h : parts k x = parts k y) : x = y := by
  obtain ⟨h1, h2⟩ := Prod.mk.inj h
  cases k with
  | unsigned w =>
    exact BitVec.eq_of_toNat_eq (Int.ofNat.inj (Number.ofInt_injective h1))
  | signed w => exact BitVec.eq_of_toInt_eq (Number.ofInt_injective h1)
  | real p =>
    refine Binary.number_injective ?_ h1
    exact Bool.eq_false_iff.mpr fun hn => hx (.inl (Binary.number_eq_nan_iff.mpr hn))
  | complex p =>
    obtain ⟨re, im⟩ := x
    obtain ⟨re', im'⟩ := y
    have hre : re = re' := by
      refine Binary.number_injective ?_ h1
      exact Bool.eq_false_iff.mpr fun hn => hx (.inl (Binary.number_eq_nan_iff.mpr hn))
    have him : im = im' := by
      refine Binary.number_injective ?_ h2
      exact Bool.eq_false_iff.mpr fun hn => hx (.inr (Binary.number_eq_nan_iff.mpr hn))
    rw [hre, him]
  | bool =>
    have hb := Int.ofNat.inj (Number.ofInt_injective h1)
    cases x <;> cases y <;> first | rfl | exact nomatch hb

/-! ### casts that lose nothing -/

theorem parts_of_int? {k : Kind} {x : Elem k} {i : ℤ} (h : int? k x = some i) :
    parts k x = (.ofInt i, .ofInt 0) := by
  cases k with
  | unsigned w =>
    obtain rfl := Option.some.inj h
    rfl
  | signed w =>
    obtain rfl := Option.some.inj h
    rfl
  | real p => cases h
  | complex p => cases h
  | bool => cases h

theorem range_subset_of_fits {s t : Kind} (hs : s.isInteger = true) (ht : t.isInteger = true)
    (h : s.fits t = true) : s.range ⊆ t.range := by
  intro i hi
  cases s with
  | unsigned v =>
    cases t with
    | unsigned w =>
      have hw : v.bits ≤ w.bits := Nat.mul_le_mul_left 8 (of_decide_eq_true h)
      exact ⟨hi.1, lt_of_lt_of_le hi.2 (pow_le_pow_right₀ (by decide) hw)⟩
    | signed w =>
      have hw : v.bits ≤ w.bits - 1 := by
        have hb : v.bytes < w.bytes := of_decide_eq_true h
        rw [Width.bits_eq, Width.bits_eq]
        omega
      have hp : (0 : ℤ) < 2 ^ (w.bits - 1) := by positivity
      have hi0 := hi.1
      refine ⟨by omega, lt_of_lt_of_le hi.2 (pow_le_pow_right₀ (by decide) hw)⟩
    | real p => cases ht
    | complex p => cases ht
    | bool => cases ht
  | signed v =>
    cases t with
    | unsigned w => cases h
    | signed w =>
      have hw : v.bits - 1 ≤ w.bits - 1 :=
        Nat.sub_le_sub_right (Nat.mul_le_mul_left 8 (of_decide_eq_true h)) 1
      have hp : (2 : ℤ) ^ (v.bits - 1) ≤ 2 ^ (w.bits - 1) := pow_le_pow_right₀ (by decide) hw
      obtain ⟨h1, h2⟩ := hi
      exact ⟨by omega, by omega⟩
    | real p => cases ht
    | complex p => cases ht
    | bool => cases ht
  | real p => cases hs
  | complex p => cases hs
  | bool => cases hs

/-- A smaller kind does not hold the least number of a signed one. -/
theorem eq_of_least_mem_range {s : Kind} {w : Width} (h : s.fits (.signed w) = true)
    (hm : -2 ^ (w.bits - 1) ∈ s.range) : s = .signed w := by
  have hp : (0 : ℤ) < 2 ^ (w.bits - 1) := by positivity
  cases s with
  | unsigned v =>
    obtain ⟨h1, -⟩ := hm
    omega
  | signed v =>
    obtain ⟨h1, -⟩ := hm
    have hv : w.bits - 1 ≤ v.bits - 1 := by
      rw [← Nat.pow_le_pow_iff_right (a := 2) (by decide)]
      exact_mod_cast neg_le_neg_iff.mp h1
    have hle : v.bytes ≤ w.bytes := of_decide_eq_true h
    have hpos := v.bits_pos
    rw [Width.bits_eq, Width.bits_eq] at hv
    have he : v.bytes = w.bytes := by omega
    cases v <;> cases w <;> first | rfl | exact absurd he (by decide)
  | real p => cases h
  | complex p => cases h
  | bool => cases h

theorem natAbs_le_of_fits {s : Kind} {p : Precision} (hs : s.isInteger = true)
    (h : s.fits (.real p) = true ∨ s.fits (.complex p) = true) {i : ℤ} (hi : i ∈ s.range) :
    i.natAbs ≤ 2 * p.format.binade := by
  rw [Format.binade_eq, ← Nat.pow_succ']
  cases s with
  | unsigned w =>
    have hw : w.bits ≤ p.format.fractionBits + 1 := by
      rcases h with h | h <;> exact of_decide_eq_true h
    refine Nat.le_trans ?_ (Nat.pow_le_pow_right (by decide) hw)
    have hle : (i.natAbs : ℤ) ≤ 2 ^ w.bits := by
      obtain ⟨h1, h2⟩ := hi
      omega
    exact_mod_cast hle
  | signed w =>
    have hw : w.bits ≤ p.format.fractionBits + 1 := by
      rcases h with h | h <;> exact of_decide_eq_true h
    refine Nat.le_trans ?_ (Nat.pow_le_pow_right (by decide) hw)
    have hp := Kind.two_pow_bits w
    have hle : (i.natAbs : ℤ) ≤ 2 ^ w.bits := by
      obtain ⟨h1, h2⟩ := hi
      omega
    exact_mod_cast hle
  | real q => cases hs
  | complex q => cases hs
  | bool => cases hs

theorem exists_ofInt_of_fits {s t : Kind} (hs : s.isInteger = true) (h : s.fits t = true) :
    ∃ g, ofInt? t = some g ∧ ∀ i ∈ s.range, parts t (g i) = (.ofInt i, .ofInt 0) := by
  by_cases ht : t.isInteger = true
  · obtain ⟨g, hg, hint⟩ := exists_ofInt ht
    refine ⟨g, hg, fun i hi => parts_of_int? ?_⟩
    rw [hint, Kind.wrap_of_mem_range (range_subset_of_fits hs ht h hi)]
  · cases t with
    | unsigned w => exact absurd rfl ht
    | signed w => exact absurd rfl ht
    | real p =>
      refine ⟨_, rfl, fun i hi => Prod.ext ?_ rfl⟩
      exact Binary.number_ofInt (natAbs_le_of_fits hs (.inl h) hi)
    | complex p =>
      refine ⟨_, rfl, fun i hi => Prod.ext ?_ Binary.number_zero⟩
      exact Binary.number_ofInt (natAbs_le_of_fits hs (.inr h) hi)
    | bool => cases s <;> cases h

theorem exists_cast_int_of_fits {s t : Kind} (hs : s.isInteger = true)
    (ht : t.isInteger = true) (h : s.fits t = true) :
    ∃ g, cast? s t = some g ∧ ∀ x i, int? s x = some i → int? t (g x) = some i := by
  obtain ⟨g, hg, hint⟩ := exists_cast_int hs ht
  refine ⟨g, hg, fun x i hi => ?_⟩
  rw [hint x i hi, Kind.wrap_of_mem_range (range_subset_of_fits hs ht h (int?_mem_range hi))]

/-- A kind that fits into another is cast to it without loss. -/
theorem exists_cast_of_fits {s t : Kind} (h : s.fits t = true) :
    ∃ g, cast? s t = some g ∧ ∀ x, parts t (g x) = parts s x := by
  by_cases hs : s.isInteger = true
  · obtain ⟨v, hv, hcast⟩ := exists_value hs
    obtain ⟨g, hg, hparts⟩ := exists_ofInt_of_fits hs h
    refine ⟨fun x => g (v x), ?_, fun x => ?_⟩
    · rw [hcast, hg]
      rfl
    · rw [hparts (v x) (int?_mem_range (hv x)), parts_of_int? (hv x)]
  · cases s with
    | unsigned w => exact absurd rfl hs
    | signed w => exact absurd rfl hs
    | real p =>
      cases t with
      | real q =>
        refine ⟨_, rfl, fun x => Prod.ext ?_ rfl⟩
        exact Binary.number_convert (Precision.within (of_decide_eq_true h)) x
      | complex q =>
        refine ⟨_, rfl, fun x => Prod.ext ?_ Binary.number_zero⟩
        exact Binary.number_convert (Precision.within (of_decide_eq_true h)) x
      | unsigned w => cases h
      | signed w => cases h
      | bool => cases h
    | complex p =>
      cases t with
      | complex q =>
        have hpq : p.bytes ≤ q.bytes := of_decide_eq_true h
        refine ⟨_, if_pos hpq, fun z => Prod.ext ?_ ?_⟩
        · exact Binary.number_convert (Precision.within hpq) z.re
        · exact Binary.number_convert (Precision.within hpq) z.im
      | unsigned w => cases h
      | signed w => cases h
      | real q => cases h
      | bool => cases h
    | bool => cases t <;> cases h

end Elem

end Pointwise
