import Pointwise.Proofs.Binary.Values
import Pointwise.Proofs.Element.Arithmetic
import Pointwise.Proofs.Element.Parts

/-!
# The values of a kind

The finite values of a kind are pairs of a real and an imaginary part: integers of a range, values of
a format, or pairs of these.  A kind fits into another exactly when its values are among those of the
other.

* `Kind.values`, `mem_values_iff`   the values of a kind are what its elements stand for;
* `values_subset_of_fits`   the cast of an element stands for the same;
* `fits_of_values_subset`   where a kind does not fit, some value of it is missing: an extreme integer,
  the first integer that a format leaves out, one half, or the imaginary unit;
* `values_subset_iff`   both together.
-/

namespace Pointwise

namespace Kind

/-- The finite values of a kind, with their imaginary parts. -/
def values : Kind → Set (ℚ × ℚ)
  | unsigned w => {v | (∃ i ∈ (unsigned w).range, v.1 = i) ∧ v.2 = 0}
  | signed w => {v | (∃ i ∈ (signed w).range, v.1 = i) ∧ v.2 = 0}
  | real p => {v | v.1 ∈ p.format.values ∧ v.2 = 0}
  | complex p => {v | v.1 ∈ p.format.values ∧ v.2 ∈ p.format.values}
  | bool => ∅

variable {a b k : Kind} {v : ℚ × ℚ}

theorem mem_values_of_integer (hk : k.isInteger = true) :
    v ∈ k.values ↔ (∃ i ∈ k.range, v.1 = i) ∧ v.2 = 0 := by
  cases k with
  | unsigned w => exact Iff.rfl
  | signed w => exact Iff.rfl
  | real p => cases hk
  | complex p => cases hk
  | bool => cases hk

theorem intCast_mem_values_iff (hk : k.isInteger = true) {i : ℤ} :
    ((i : ℚ), (0 : ℚ)) ∈ k.values ↔ i ∈ k.range := by
  rw [mem_values_of_integer hk]
  constructor
  · rintro ⟨⟨j, hj, e⟩, -⟩
    have eq : i = j := Int.cast_injective e
    rw [eq]
    exact hj
  · intro hi
    exact ⟨⟨i, hi, rfl⟩, rfl⟩

/-! ### values and elements -/

theorem exists_int?_eq (hk : k.isInteger = true) {i : ℤ} (hi : i ∈ k.range) :
    ∃ x, Elem.int? k x = some i := by
  obtain ⟨g, -, hg⟩ := Elem.exists_ofInt hk
  refine ⟨g i, ?_⟩
  rw [hg, wrap_of_mem_range hi]

theorem mem_values_iff_of_integer (hk : k.isInteger = true) :
    v ∈ k.values ↔ ∃ x s t, Elem.parts k x = (.finite s v.1, .finite t v.2) := by
  obtain ⟨re, im⟩ := v
  rw [mem_values_of_integer hk]
  constructor
  · rintro ⟨⟨i, hi, rfl⟩, rfl⟩
    obtain ⟨x, hx⟩ := exists_int?_eq hk hi
    exact ⟨x, _, _, Elem.parts_of_int? hx⟩
  · rintro ⟨x, s, t, hx⟩
    obtain ⟨i, hi⟩ := Elem.exists_int? hk x
    rw [Elem.parts_of_int? hi] at hx
    obtain ⟨hre, him⟩ := Prod.mk.inj hx
    obtain ⟨-, rfl⟩ := Number.finite.inj hre
    obtain ⟨-, rfl⟩ := Number.finite.inj him
    exact ⟨⟨i, Elem.int?_mem_range hi, rfl⟩, Int.cast_zero⟩

/-- The values of a kind are what its elements stand for, the infinities and the undefined apart. -/
theorem mem_values_iff (hk : k ≠ bool) :
    v ∈ k.values ↔ ∃ x s t, Elem.parts k x = (.finite s v.1, .finite t v.2) := by
  obtain ⟨re, im⟩ := v
  cases k with
  | unsigned w => exact mem_values_iff_of_integer rfl
  | signed w => exact mem_values_iff_of_integer rfl
  | real p =>
    constructor
    · rintro ⟨hre, him⟩
      obtain rfl : im = 0 := him
      obtain ⟨x, s, hx⟩ := Binary.mem_values_iff.mp hre
      refine ⟨x, s, false, Prod.ext hx ?_⟩
      show Number.finite false ((0 : ℤ) : ℚ) = _
      rw [Int.cast_zero]
    · rintro ⟨x, s, t, hx⟩
      obtain ⟨hre, him⟩ := Prod.mk.inj hx
      obtain ⟨-, rfl⟩ := Number.finite.inj him
      exact ⟨Binary.mem_values_iff.mpr ⟨x, s, hre⟩, Int.cast_zero⟩
  | complex p =>
    constructor
    · rintro ⟨hre, him⟩
      obtain ⟨x, s, hx⟩ := Binary.mem_values_iff.mp hre
      obtain ⟨y, t, hy⟩ := Binary.mem_values_iff.mp him
      exact ⟨⟨x, y⟩, s, t, Prod.ext hx hy⟩
    · rintro ⟨z, s, t, hz⟩
      obtain ⟨hre, him⟩ := Prod.mk.inj hz
      exact ⟨Binary.mem_values_iff.mpr ⟨_, s, hre⟩, Binary.mem_values_iff.mpr ⟨_, t, him⟩⟩
  | bool => exact absurd rfl hk

/-- The cast of an element stands for the same value. -/
theorem values_subset_of_fits (h : a.fits b = true) : a.values ⊆ b.values := by
  intro v hv
  obtain ⟨cast, -, hcast⟩ := Elem.exists_cast_of_fits h
  obtain ⟨x, s, t, hx⟩ := (mem_values_iff (ne_bool_of_fits_left h)).mp hv
  exact (mem_values_iff (ne_bool_of_fits h)).mpr ⟨cast x, s, t, (hcast x).trans hx⟩

/-! ### values that are missing -/

theorem half_not_mem_values (hb : b.isInteger = true) (y : ℚ) : ((1 / 2 : ℚ), y) ∉ b.values := by
  rw [mem_values_of_integer hb]
  rintro ⟨⟨i, -, e⟩, -⟩
  have twice : (1 : ℚ) = ((2 * i : ℤ) : ℚ) := by
    push_cast
    linarith
  have odd : (1 : ℤ) = 2 * i := by exact_mod_cast twice
  omega

/-- An integer kind that does not fit into a precision has the first integer that is left out. -/
theorem gap_mem_range {p : Precision} (ha : a.isInteger = true) (h : ¬ a.fits (real p) = true) :
    p.format.gap ∈ a.range := by
  cases a with
  | unsigned w => cases w <;> cases p <;> first | exact absurd rfl h | exact ⟨by decide, by decide⟩
  | signed w => cases w <;> cases p <;> first | exact absurd rfl h | exact ⟨by decide, by decide⟩
  | real q => cases ha
  | complex q => cases ha
  | bool => cases ha

theorem gap_mem_values {p q : Precision} (h : q.bytes < p.bytes) :
    (q.format.gap : ℚ) ∈ p.format.values := by
  apply p.format.intCast_mem_values
  revert h
  cases p <;> cases q <;> decide

theorem bytes_le_of_gap {p q : Precision} (h : (q.format.gap : ℚ) ∈ p.format.values →
    (q.format.gap : ℚ) ∈ q.format.values) : p.bytes ≤ q.bytes := by
  by_contra less
  exact q.format.gap_not_mem_values (h (gap_mem_values (Nat.lt_of_not_le less)))

theorem two_pow_bits_le {m n : Nat} (h : (2 : ℤ) ^ m ≤ 2 ^ n) : m ≤ n := by
  rw [← Nat.pow_le_pow_iff_right (a := 2) (by decide)]
  exact_mod_cast h

theorem fits_of_range_subset (ha : a.isInteger = true) (hb : b.isInteger = true)
    (h : a.range ⊆ b.range) : a.fits b = true := by
  cases a with
  | unsigned v =>
    have hp : (0 : ℤ) < 2 ^ v.bits := by positivity
    have greatest : (2 : ℤ) ^ v.bits - 1 ∈ (unsigned v).range := ⟨by omega, by omega⟩
    cases b with
    | unsigned w =>
      obtain ⟨-, less⟩ := h greatest
      have bits : v.bits ≤ w.bits := two_pow_bits_le (by omega)
      rw [Width.bits_eq, Width.bits_eq] at bits
      exact decide_eq_true (by omega)
    | signed w =>
      obtain ⟨-, less⟩ := h greatest
      have bits : v.bits ≤ w.bits - 1 := two_pow_bits_le (by omega)
      have hv := v.bits_pos
      rw [Width.bits_eq, Width.bits_eq] at bits
      rw [Width.bits_eq] at hv
      exact decide_eq_true (by omega)
    | real p => cases hb
    | complex p => cases hb
    | bool => cases hb
  | signed v =>
    have hp : (0 : ℤ) < 2 ^ (v.bits - 1) := by positivity
    have least : -(2 : ℤ) ^ (v.bits - 1) ∈ (signed v).range := ⟨le_refl _, by omega⟩
    cases b with
    | unsigned w =>
      obtain ⟨low, -⟩ := h least
      omega
    | signed w =>
      obtain ⟨low, -⟩ := h least
      have bits : v.bits - 1 ≤ w.bits - 1 := two_pow_bits_le (by omega)
      have hw := w.bits_pos
      rw [Width.bits_eq, Width.bits_eq] at bits
      rw [Width.bits_eq] at hw
      exact decide_eq_true (by omega)
    | real p => cases hb
    | complex p => cases hb
    | bool => cases hb
  | real p => cases ha
  | complex p => cases ha
  | bool => cases ha

/-! ### containment -/

theorem fits_of_values_subset_of_integer (ha : a.isInteger = true) (h : a.values ⊆ b.values) :
    a.fits b = true := by
  have into {i : ℤ} (hi : i ∈ a.range) : ((i : ℚ), (0 : ℚ)) ∈ b.values :=
    h ((intCast_mem_values_iff ha).mpr hi)
  cases b with
  | unsigned w =>
    exact fits_of_range_subset ha rfl fun i hi => (intCast_mem_values_iff rfl).mp (into hi)
  | signed w =>
    exact fits_of_range_subset ha rfl fun i hi => (intCast_mem_values_iff rfl).mp (into hi)
  | real p =>
    by_contra hn
    exact p.format.gap_not_mem_values (into (gap_mem_range ha hn)).1
  | complex p =>
    by_contra hn
    have hn' : ¬ a.fits (real p) = true := by
      cases a <;> first | exact hn | cases ha
    exact p.format.gap_not_mem_values (into (gap_mem_range ha hn')).1
  | bool => exact absurd (into (wrap_mem_range ha 0)) (Set.notMem_empty _)

/-- Where a kind does not fit, some value of it is missing. -/
theorem fits_of_values_subset (ha : a ≠ bool) (h : a.values ⊆ b.values) : a.fits b = true := by
  have zero (p : Precision) : (0 : ℚ) ∈ p.format.values := by
    exact_mod_cast p.format.intCast_mem_values (i := 0) (Nat.zero_le _)
  have one (p : Precision) : (1 : ℚ) ∈ p.format.values := by
    have hb := p.format.binade_pos
    exact_mod_cast p.format.intCast_mem_values (i := 1) (by omega)
  cases a with
  | unsigned w => exact fits_of_values_subset_of_integer rfl h
  | signed w => exact fits_of_values_subset_of_integer rfl h
  | real p =>
    have half : ((1 / 2 : ℚ), (0 : ℚ)) ∈ (real p).values := ⟨p.format.half_mem_values, rfl⟩
    have gap {q : Precision} (hg : (q.format.gap : ℚ) ∈ p.format.values) :
        ((q.format.gap : ℚ), (0 : ℚ)) ∈ (real p).values := ⟨hg, rfl⟩
    cases b with
    | unsigned w => exact absurd (h half) (half_not_mem_values rfl 0)
    | signed w => exact absurd (h half) (half_not_mem_values rfl 0)
    | real q => exact decide_eq_true (bytes_le_of_gap fun hg => (h (gap hg)).1)
    | complex q => exact decide_eq_true (bytes_le_of_gap fun hg => (h (gap hg)).1)
    | bool => exact absurd (h half) (Set.notMem_empty _)
  | complex p =>
    have half : ((1 / 2 : ℚ), (0 : ℚ)) ∈ (complex p).values := ⟨p.format.half_mem_values, zero p⟩
    have unit : ((0 : ℚ), (1 : ℚ)) ∈ (complex p).values := ⟨zero p, one p⟩
    have gap {q : Precision} (hg : (q.format.gap : ℚ) ∈ p.format.values) :
        ((q.format.gap : ℚ), (0 : ℚ)) ∈ (complex p).values := ⟨hg, zero p⟩
    cases b with
    | unsigned w => exact absurd (h half) (half_not_mem_values rfl 0)
    | signed w => exact absurd (h half) (half_not_mem_values rfl 0)
    | real q => exact absurd (h unit).2 one_ne_zero
    | complex q => exact decide_eq_true (bytes_le_of_gap fun hg => (h (gap hg)).1)
    | bool => exact absurd (h half) (Set.notMem_empty _)
  | bool => exact absurd rfl ha

/-- A kind fits into another iff its values are among those of the other. -/
theorem values_subset_iff (ha : a ≠ bool) : a.values ⊆ b.values ↔ a.fits b = true :=
  ⟨fits_of_values_subset ha, values_subset_of_fits⟩

end Kind

end Pointwise
