import Pointwise.Proofs.Binary.Truncation
import Pointwise.Proofs.Element.Rounded

/-!
# Real numbers cast to integer kinds

A real number is cast to an integer kind by its integral part, or by the nearest integer of the kind
where the integral part lies outside.  An integer that was cast to a real kind comes back as it was if
it has few enough bits; any other comes back as the integer it was rounded to, and that may lie outside
the kind again.

* `Kind.least`, `Kind.greatest`, `Kind.clamp`   the ends of a range, and the integer of a kind that is
  nearest to an integer;
* `Elem.Truncates`   a cast to an integer kind;
* `Elem.Returns`   a cast from an integer kind and back;
* `truncation_saturates`   the casts from and to the real kinds.
-/

namespace Pointwise

/-! ### the ends of a range -/

namespace Kind
variable {k : Kind} {i j : ℤ}

def least : Kind → ℤ
  | signed w => -2 ^ (w.bits - 1)
  | _ => 0

def greatest : Kind → ℤ
  | unsigned w => 2 ^ w.bits - 1
  | signed w => 2 ^ (w.bits - 1) - 1
  | _ => 0

def clamp (k : Kind) (i : ℤ) : ℤ := max k.least (min k.greatest i)

theorem mem_range_iff (hk : k.isInteger = true) :
    i ∈ k.range ↔ k.least ≤ i ∧ i ≤ k.greatest := by
  cases k with
  | unsigned w => exact and_congr_right fun _ => Int.le_sub_one_iff.symm
  | signed w => exact and_congr_right fun _ => Int.le_sub_one_iff.symm
  | real p => cases hk
  | complex p => cases hk
  | bool => cases hk

theorem least_nonpos_greatest_nonneg (hk : k.isInteger = true) : k.least ≤ 0 ∧ 0 ≤ k.greatest := by
  rw [← mem_range_iff hk]
  cases k with
  | unsigned w => exact ⟨le_rfl, by positivity⟩
  | signed w => exact ⟨by simp, by positivity⟩
  | real p => cases hk
  | complex p => cases hk
  | bool => cases hk

theorem clamp_of_mem_range (hk : k.isInteger = true) (hi : i ∈ k.range) : k.clamp i = i := by
  obtain ⟨low, high⟩ := (mem_range_iff hk).mp hi
  unfold clamp
  rw [min_eq_right high, max_eq_right low]

end Kind

namespace Elem
variable {k : Kind} {p : Precision}

theorem exists_ofBinary (hk : k.isInteger = true) (f : Format) :
    ∃ cast : Binary f → Elem k, ofBinary? k = some cast ∧
      ∀ x, int? k (cast x) = some (k.wrap (x.truncate k.least k.greatest)) := by
  cases k with
  | unsigned w =>
    have greatest : ((BitVec.allOnes w.bits).toNat : ℤ) = (Kind.unsigned w).greatest := by
      cases w <;> rfl
    refine ⟨_, rfl, fun x => ?_⟩
    rw [greatest]
    exact (int?_ofInt w _).1
  | signed w =>
    have least : (BitVec.intMin w.bits).toInt = (Kind.signed w).least := by cases w <;> rfl
    have greatest : (BitVec.intMax w.bits).toInt = (Kind.signed w).greatest := by cases w <;> rfl
    refine ⟨_, rfl, fun x => ?_⟩
    rw [least, greatest]
    exact (int?_ofInt w _).2
  | real p => cases hk
  | complex p => cases hk
  | bool => cases hk

/-- The integral part within the range needs no reduction. -/
theorem exists_truncate (hk : k.isInteger = true) (f : Format) :
    ∃ cast : Binary f → Elem k, ofBinary? k = some cast ∧
      ∀ x, int? k (cast x) = some (x.truncate k.least k.greatest) := by
  obtain ⟨cast, hcast, value⟩ := exists_ofBinary hk f
  obtain ⟨nonpos, nonneg⟩ := Kind.least_nonpos_greatest_nonneg hk
  refine ⟨cast, hcast, fun x => ?_⟩
  rw [value, Kind.wrap_of_mem_range]
  rw [Kind.mem_range_iff hk]
  cases hx : x.isNaN with
  | true =>
    rw [Binary.truncate_of_number.1 (Binary.number_eq_nan_iff.mpr hx)]
    exact ⟨nonpos, nonneg⟩
  | false => exact Binary.truncate_bounds (nonpos.trans nonneg) hx

/-- A cast that cuts off towards zero and then at the ends of the range, and is monotone. -/
structure Truncates (p : Precision) (k : Kind) (cast : Binary p.format → Elem k) : Prop where
  nan {x} : x.number = .nan → int? k (cast x) = some 0
  infinite {x} : (x.number = .infinite true → int? k (cast x) = some k.least) ∧
    (x.number = .infinite false → int? k (cast x) = some k.greatest)
  finite {x s v} : x.number = .finite s v → int? k (cast x) = some (k.clamp (wholePart v))
  monotone {x y i j} : x.le y = true → int? k (cast x) = some i → int? k (cast y) = some j → i ≤ j

theorem truncates_of_value (hk : k.isInteger = true) {cast : Binary p.format → Elem k}
    (value : ∀ x, int? k (cast x) = some (x.truncate k.least k.greatest)) :
    Truncates p k cast := by
  constructor
  case nan =>
    intro x hx
    rw [value, Binary.truncate_of_number.1 hx]
  case infinite =>
    intro x
    constructor
    · intro hx
      rw [value, Binary.truncate_of_number.2.1 _ hx, if_pos rfl]
    · intro hx
      rw [value, Binary.truncate_of_number.2.1 _ hx, if_neg Bool.false_ne_true]
  case finite =>
    intro x s v hx
    rw [value, Binary.truncate_of_number.2.2 _ _ hx]
    rfl
  case monotone =>
    intro x y i j le hi hj
    obtain ⟨nonpos, nonneg⟩ := Kind.least_nonpos_greatest_nonneg hk
    obtain rfl := Option.some.inj ((value x).symm.trans hi)
    obtain rfl := Option.some.inj ((value y).symm.trans hj)
    exact Binary.truncate_mono (nonpos.trans nonneg) le

/-- A cast to a real kind and one back, which takes back the integers of at most one significand, and
brings any other to the nearest number of the precision, which is an integer, clamped. -/
structure Returns (k : Kind) (p : Precision) (cast : Elem k → Binary p.format)
    (back : Binary p.format → Elem k) : Prop where
  exact {x i} : int? k x = some i → |i| ≤ 2 ^ (p.format.fractionBits + 1) → back (cast x) = x
  rounded {x i} : int? k x = some i → ∃ n : ℤ, (cast x).RoundsTo i ∧ (cast x).HasValue n ∧
    int? k (back (cast x)) = some (k.clamp n)

theorem Truncates.returns (hk : k.isInteger = true) {cast : Elem k → Binary p.format}
    {back : Binary p.format → Elem k} (rounds : Rounds k p cast) (truncates : Truncates p k back)
    (whole : ∀ x, ∃ n : ℤ, (cast x).HasValue n) : Returns k p cast back := by
  have value {x} {n : ℤ} (h : (cast x).HasValue n) : int? k (back (cast x)) = some (k.clamp n) := by
    obtain ⟨s, hs⟩ := h
    rw [truncates.finite hs, wholePart_intCast]
  constructor
  case exact =>
    intro x i hx small
    have same := value ⟨_, rounds.exact hx small⟩
    rw [Kind.clamp_of_mem_range hk (int?_mem_range hx)] at same
    exact int?_injective same hx
  case rounded =>
    intro x i hx
    obtain ⟨n, hn⟩ := whole x
    exact ⟨n, rounds.nearest hx, hn, value hn⟩

end Elem

/-- **Real numbers are truncated and saturate in an integer kind**: what is not a number becomes zero,
any other the integral part within the range.  An integer that is cast to single or double precision
comes back as it was if it has few enough bits, and else as the nearest number of the precision within
the range. -/
theorem truncation_saturates {p : Precision} {k : Kind} (hp : p ≠ .half)
    (hk : k.isInteger = true) :
    ∃ (cast : Elem k → Binary p.format) (back : Binary p.format → Elem k),
      Elem.cast? k (.real p) = some cast ∧ Elem.cast? (.real p) k = some back ∧
      Elem.Truncates p k back ∧ Elem.Returns k p cast back := by
  obtain ⟨v, hv, hcast⟩ := Elem.exists_value hk
  obtain ⟨back, hback, value⟩ := Elem.exists_truncate hk p.format
  have rounds := Elem.rounds_ofInt hp hv
  have truncates := Elem.truncates_of_value hk value
  refine ⟨_, back, hcast (.real p), hback, truncates, truncates.returns hk rounds fun x => ?_⟩
  exact Binary.exists_hasValue_ofInt (rounds.isFinite (hv x))

/-- The largest integer of 64 bits is rounded out of its range, and clamped to itself on its way back. -/
theorem uint64_last_returns : ∃ (cast : Elem (.unsigned .w64) → Binary .single)
    (back : Binary .single → Elem (.unsigned .w64)),
    Elem.cast? (.unsigned .w64) (.real .single) = some cast ∧
    Elem.cast? (.real .single) (.unsigned .w64) = some back ∧
    (cast (BitVec.allOnes 64)).HasValue (2 ^ 64 : ℤ) ∧
    Elem.int? (.unsigned .w64) (back (cast (BitVec.allOnes 64))) = some (2 ^ 64 - 1) := by
  obtain ⟨cast, back, hcast, hback, -, returns⟩ :=
    truncation_saturates (p := .single) (k := .unsigned .w64) (by decide) rfl
  have hx : Elem.int? (.unsigned .w64) (BitVec.allOnes 64) = some (2 ^ 64 - 1) := rfl
  obtain ⟨n, -, hn, clamped⟩ := returns.rounded hx
  have value : (cast (BitVec.allOnes 64)).HasValue (2 ^ 64 : ℤ) := by
    obtain rfl := Option.some.inj hcast
    exact ⟨false, by decide +kernel⟩
  obtain rfl : n = 2 ^ 64 := by exact_mod_cast hn.unique value
  exact ⟨cast, back, hcast, hback, value, clamped⟩

end Pointwise
