import Pointwise.Proofs.Element.Values
import Pointwise.Proofs.Promotion.Exact

/-!
# The common kind is the smallest that holds both operands

The promotion rules compare widths and precisions only.  Judged by the values of the kinds, they name
a common kind that holds every value of both operands, and no candidate with smaller elements does;
where they name none, there is none.

* `Kind.exists_join?_of_fits`   the join among all kinds that hold both operands;
* `Entry.Smallest`   what the rules promise of an entry;
* `smallest_of_joined`, `smallest_of_quotientKind`   the two ways in which a common kind is found;
* `common_kind_smallest`   the families whose common kind is one of the two.
-/

namespace Pointwise

/-! ## room for integers -/

/-- The next width of an unsigned integer has a sign bit to spare. -/
theorem Width.exists_double_of_lt {u w : Width} (h : u.bytes < w.bytes) :
    ∃ v, u.double? = some v ∧ v.bytes ≤ w.bytes := by
  cases u <;> cases w <;> first | exact absurd h (by decide) | exact ⟨_, rfl, by decide⟩

theorem Width.exists_double_of_bits {u : Width} {p : Precision}
    (h : u.bits ≤ p.format.fractionBits + 1) : ∃ v, u.double? = some v ∧ v.bytes ≤ p.bytes := by
  cases u <;> cases p <;> first | exact absurd h (by decide) | exact ⟨_, rfl, by decide⟩

/-- The precision of a width is the lowest that has room for it. -/
theorem Width.exists_precision_of_bits {w : Width} {p : Precision}
    (h : w.bits ≤ p.format.fractionBits + 1) :
    ∃ q, w.precision? = some q ∧ q.bytes ≤ p.bytes := by
  cases w <;> cases p <;> first | exact absurd h (by decide) | exact ⟨_, rfl, by decide⟩

theorem Width.bytes_le_of_bits {w : Width} {p : Precision}
    (h : w.bits ≤ p.format.fractionBits + 1) : w.bytes ≤ p.bytes := by
  revert h
  cases w <;> cases p <;> decide

namespace Kind
variable {a b d : Kind} {w : Width} {p q : Precision}

/-! ## kinds that hold two others -/

theorem size_le_of_fits (h : a.fits d = true) : a.size ≤ d.size := by
  have integer {w : Width} {p : Precision} (room : w.bits ≤ p.format.fractionBits + 1) :
      w.bytes ≤ p.bytes ∧ w.bytes ≤ 2 * p.bytes := by
    have := Width.bytes_le_of_bits room
    omega
  cases a with
  | unsigned u =>
    cases d with
    | unsigned w => exact of_decide_eq_true h
    | signed w => exact Nat.le_of_lt (of_decide_eq_true h)
    | real p => exact (integer (of_decide_eq_true h)).1
    | complex p => exact (integer (of_decide_eq_true h)).2
    | bool => cases h
  | signed s =>
    cases d with
    | unsigned w => cases h
    | signed w => exact of_decide_eq_true h
    | real p => exact (integer (of_decide_eq_true h)).1
    | complex p => exact (integer (of_decide_eq_true h)).2
    | bool => cases h
  | real p =>
    cases d with
    | real q => exact of_decide_eq_true h
    | complex q =>
      have : p.bytes ≤ q.bytes := of_decide_eq_true h
      rw [size_real, size_complex]
      omega
    | unsigned w => cases h
    | signed w => cases h
    | bool => cases h
  | complex p =>
    cases d with
    | complex q => exact Nat.mul_le_mul_left 2 (of_decide_eq_true h)
    | unsigned w => cases h
    | signed w => cases h
    | real q => cases h
    | bool => cases h
  | bool => cases d <;> cases h

theorem exists_double_of_fits {u s : Width} (hu : (unsigned u).fits d = true)
    (hs : (signed s).fits d = true) : ∃ v, u.double? = some v ∧ v.bytes ≤ d.size := by
  cases d with
  | unsigned w => cases hs
  | signed w => exact Width.exists_double_of_lt (of_decide_eq_true hu)
  | real p => exact Width.exists_double_of_bits (of_decide_eq_true hu)
  | complex p =>
    obtain ⟨v, hv, le⟩ := Width.exists_double_of_bits (of_decide_eq_true hu)
    refine ⟨v, hv, ?_⟩
    rw [size_complex]
    omega
  | bool => cases hu

/-- Beside floating-point numbers an integer is held like the precision that stands for it. -/
theorem exists_precision_of_fits (hw : (unsigned w).fits d = true ∨ (signed w).fits d = true)
    (hd : d.isReal = true ∨ d.isComplex = true) :
    ∃ p, w.precision? = some p ∧ (real p).fits d = true := by
  cases d with
  | real r =>
    have room : w.bits ≤ r.format.fractionBits + 1 := by
      rcases hw with hw | hw <;> exact of_decide_eq_true hw
    obtain ⟨p, hp, le⟩ := Width.exists_precision_of_bits room
    exact ⟨p, hp, decide_eq_true le⟩
  | complex r =>
    have room : w.bits ≤ r.format.fractionBits + 1 := by
      rcases hw with hw | hw <;> exact of_decide_eq_true hw
    obtain ⟨p, hp, le⟩ := Width.exists_precision_of_bits room
    exact ⟨p, hp, decide_eq_true le⟩
  | unsigned v => rcases hd with hd | hd <;> cases hd
  | signed v => rcases hd with hd | hd <;> cases hd
  | bool => rcases hd with hd | hd <;> cases hd

/-- What holds a number that is not an integer is no integer kind. -/
theorem isReal_or_isComplex_of_fits (h : (real p).fits d = true ∨ (complex p).fits d = true) :
    d.isReal = true ∨ d.isComplex = true := by
  cases d with
  | real r => exact .inl rfl
  | complex r => exact .inr rfl
  | unsigned v => rcases h with h | h <;> cases h
  | signed v => rcases h with h | h <;> cases h
  | bool => rcases h with h | h <;> cases h

theorem two_mul_bytes_le (hp : (real p).fits d = true) (hq : (complex q).fits d = true) :
    2 * p.bytes ≤ d.size := by
  cases d with
  | complex r => exact Nat.mul_le_mul_left 2 (of_decide_eq_true hp)
  | unsigned w => cases hq
  | signed w => cases hq
  | real r => cases hq
  | bool => cases hq

/-! ## the join among them -/

theorem size_real_max_le (hp : (real p).fits d = true) (hq : (real q).fits d = true) :
    (real (p.max q)).size ≤ d.size := by
  rcases p.max_eq q with e | e
  · rw [e]
    exact size_le_of_fits hp
  · rw [e]
    exact size_le_of_fits hq

theorem size_complex_max_le (hp : (real p).fits d = true) (hq : (complex q).fits d = true) :
    (complex (p.max q)).size ≤ d.size := by
  rcases p.max_eq q with e | e
  · rw [e]
    exact two_mul_bytes_le hp hq
  · rw [e]
    exact size_le_of_fits hq

def JoinWithin (d a b : Kind) : Prop := ∃ c, join? a b = some c ∧ c.size ≤ d.size

theorem JoinWithin.symm (h : d.JoinWithin a b) : d.JoinWithin b a := by
  obtain ⟨c, hc, le⟩ := h
  rw [join?_comm] at hc
  exact ⟨c, hc, le⟩

theorem joinWithin_mixed {u s : Width} (hu : (unsigned u).fits d = true)
    (hs : (signed s).fits d = true) : d.JoinWithin (unsigned u) (signed s) := by
  obtain ⟨v, hv, le⟩ := exists_double_of_fits hu hs
  refine ⟨_, Option.map_eq_some_iff.mpr ⟨v, hv, rfl⟩, ?_⟩
  rcases v.max_eq s with e | e
  · rw [e]
    exact le
  · rw [e]
    exact size_le_of_fits hs

theorem joinWithin_real (hw : (unsigned w).fits d = true ∨ (signed w).fits d = true)
    (hq : (real q).fits d = true) :
    d.JoinWithin (unsigned w) (real q) ∧ d.JoinWithin (signed w) (real q) := by
  obtain ⟨p, hp, fits⟩ := exists_precision_of_fits hw (isReal_or_isComplex_of_fits (.inl hq))
  have le := size_real_max_le fits hq
  exact ⟨⟨_, Option.map_eq_some_iff.mpr ⟨p, hp, rfl⟩, le⟩,
    ⟨_, Option.map_eq_some_iff.mpr ⟨p, hp, rfl⟩, le⟩⟩

theorem joinWithin_complex (hw : (unsigned w).fits d = true ∨ (signed w).fits d = true)
    (hq : (complex q).fits d = true) :
    d.JoinWithin (unsigned w) (complex q) ∧ d.JoinWithin (signed w) (complex q) := by
  obtain ⟨p, hp, fits⟩ := exists_precision_of_fits hw (isReal_or_isComplex_of_fits (.inr hq))
  have le := size_complex_max_le fits hq
  exact ⟨⟨_, Option.map_eq_some_iff.mpr ⟨p, hp, rfl⟩, le⟩,
    ⟨_, Option.map_eq_some_iff.mpr ⟨p, hp, rfl⟩, le⟩⟩

/-- The join of two kinds of one class is one of them. -/
theorem joinWithin_of_eq {c : Kind} (h : join? a b = some c) (hc : c = a ∨ c = b)
    (ha : a.fits d = true) (hb : b.fits d = true) : d.JoinWithin a b := by
  refine ⟨c, h, ?_⟩
  rcases hc with rfl | rfl
  · exact size_le_of_fits ha
  · exact size_le_of_fits hb

/-- Two kinds that some kind holds have a join, and it is no larger than that kind. -/
theorem joinWithin_of_fits (ha : a.fits d = true) (hb : b.fits d = true) : d.JoinWithin a b := by
  have hb0 := ne_bool_of_fits_left hb
  cases a with
  | unsigned u =>
    cases b with
    | unsigned v => exact joinWithin_of_eq rfl ((u.max_eq v).imp (congrArg _) (congrArg _)) ha hb
    | signed s => exact joinWithin_mixed ha hb
    | real q => exact (joinWithin_real (.inl ha) hb).1
    | complex q => exact (joinWithin_complex (.inl ha) hb).1
    | bool => exact absurd rfl hb0
  | signed s =>
    cases b with
    | unsigned u => exact (joinWithin_mixed hb ha).symm
    | signed t => exact joinWithin_of_eq rfl ((s.max_eq t).imp (congrArg _) (congrArg _)) ha hb
    | real q => exact (joinWithin_real (.inr ha) hb).2
    | complex q => exact (joinWithin_complex (.inr ha) hb).2
    | bool => exact absurd rfl hb0
  | real p =>
    cases b with
    | unsigned w => exact (joinWithin_real (.inl hb) ha).1.symm
    | signed w => exact (joinWithin_real (.inr hb) ha).2.symm
    | real q => exact ⟨_, rfl, size_real_max_le ha hb⟩
    | complex q => exact ⟨_, rfl, size_complex_max_le ha hb⟩
    | bool => exact absurd rfl hb0
  | complex p =>
    cases b with
    | unsigned w => exact (joinWithin_complex (.inl hb) ha).1.symm
    | signed w => exact (joinWithin_complex (.inr hb) ha).2.symm
    | real q => exact JoinWithin.symm ⟨_, rfl, size_complex_max_le hb ha⟩
    | complex q => exact joinWithin_of_eq rfl ((p.max_eq q).imp (congrArg _) (congrArg _)) ha hb
    | bool => exact absurd rfl hb0
  | bool => exact absurd rfl (ne_bool_of_fits_left ha)

/-! ## holding both operands -/

theorem isBool_eq_false (ha : a ≠ bool) : a.isBool = false := by
  cases a <;> first | rfl | exact absurd rfl ha

theorem not_isBool_or (ha : a ≠ bool) (hb : b ≠ bool) : ¬ (a.isBool || b.isBool) = true := by
  rw [isBool_eq_false ha, isBool_eq_false hb]
  exact Bool.false_ne_true

def HoldsBoth (k left right : Kind) : Prop := left.values ⊆ k.values ∧ right.values ⊆ k.values

theorem holdsBoth_iff {k left right : Kind} (hl : left ≠ bool) (hr : right ≠ bool) :
    k.HoldsBoth left right ↔ left.fits k = true ∧ right.fits k = true := by
  unfold HoldsBoth
  rw [values_subset_iff hl, values_subset_iff hr]

end Kind

/-- The kinds in which a family may compute: every one but the truth values, and for quotients only
those that are no integers. -/
def Family.Candidate : Family → Kind → Prop
  | .trueDivide, k => k.isReal = true ∨ k.isComplex = true
  | _, k => k ≠ .bool

namespace Entry

/-- The entry names a smallest candidate that holds every value of both operands, or there is none. It
can be computed unless one of its kinds is inert. -/
structure Smallest (candidate : Kind → Prop) (left right : Kind) (e : Entry) : Prop where
  unsafe_iff : e.availability = .noSafeCommonType ↔
    ¬ ∃ k, candidate k ∧ k.HoldsBoth left right
  holds : e.availability ≠ .noSafeCommonType → candidate e.common ∧ e.common.HoldsBoth left right
  least : e.availability ≠ .noSafeCommonType →
    ¬ ∃ k, candidate k ∧ k.size < e.common.size ∧ k.HoldsBoth left right
  available_iff : (∃ k, candidate k ∧ k.HoldsBoth left right) →
    (e.availability = .available ↔
      left.isInert = false ∧ right.isInert = false ∧ e.common.isInert = false)

variable {left right : Kind} {e : Entry} {candidate : Kind → Prop}

/-- Only the kinds that hold both operands matter. -/
theorem Smallest.congr {other : Kind → Prop} (h : e.Smallest candidate left right)
    (same : ∀ k, k.HoldsBoth left right → (candidate k ↔ other k)) :
    e.Smallest other left right := by
  have iff : (∃ k, candidate k ∧ k.HoldsBoth left right) ↔
      ∃ k, other k ∧ k.HoldsBoth left right := by
    refine exists_congr fun k => ?_
    exact and_congr_left fun hk => same k hk
  constructor
  case unsafe_iff =>
    rw [← iff]
    exact h.unsafe_iff
  case holds =>
    intro safe
    obtain ⟨hc, hk⟩ := h.holds safe
    exact ⟨(same _ hk).mp hc, hk⟩
  case least =>
    rintro safe ⟨k, hc, less, hk⟩
    exact h.least safe ⟨k, (same k hk).mpr hc, less, hk⟩
  case available_iff =>
    rw [← iff]
    exact h.available_iff

/-- An entry without a common kind is right if there is no candidate. -/
theorem smallest_of_none (he : e.availability = .noSafeCommonType)
    (none : ¬ ∃ k, candidate k ∧ k.HoldsBoth left right) : e.Smallest candidate left right where
  unsafe_iff := iff_of_true he none
  holds safe := absurd he safe
  least safe := absurd he safe
  available_iff some := absurd some none

/-- An entry with a common kind is right if no candidate is smaller. -/
theorem smallest_of_some (hc : candidate e.common) (hk : e.common.HoldsBoth left right)
    (least : ∀ k, candidate k → k.HoldsBoth left right → e.common.size ≤ k.size)
    (he : e.availability =
      if left.isInert || right.isInert || e.common.isInert then .notImplemented else .available) :
    e.Smallest candidate left right := by
  have safe : e.availability ≠ .noSafeCommonType := by
    rw [he]
    split <;> exact fun h => nomatch h
  constructor
  case unsafe_iff => exact iff_of_false safe (not_not_intro ⟨_, hc, hk⟩)
  case holds => exact fun _ => ⟨hc, hk⟩
  case least =>
    rintro - ⟨k, hck, less, hkk⟩
    exact absurd (least k hck hkk) (Nat.not_le_of_lt less)
  case available_iff =>
    intro _
    rw [he]
    cases left.isInert <;> cases right.isInert <;> cases e.common.isInert <;> simp

theorem smallest_of_joined (hl : left ≠ .bool) (hr : right ≠ .bool)
    (h : joined left right = (e.common, e.availability)) :
    e.Smallest (fun k => k ≠ .bool) left right := by
  unfold joined at h
  cases hj : left.join? right with
  | none =>
    rw [hj] at h
    obtain ⟨-, ha⟩ := Prod.mk.inj h
    refine smallest_of_none ha.symm ?_
    rintro ⟨k, -, hk⟩
    obtain ⟨fl, fr⟩ := (Kind.holdsBoth_iff hl hr).mp hk
    obtain ⟨c, hc, -⟩ := Kind.joinWithin_of_fits fl fr
    rw [hj] at hc
    cases hc
  | some c =>
    rw [hj] at h
    obtain ⟨rfl, ha⟩ := Prod.mk.inj h
    obtain ⟨fl, fr⟩ := Kind.fits_join hj
    refine smallest_of_some (Kind.ne_bool_of_fits fl) ((Kind.holdsBoth_iff hl hr).mpr ⟨fl, fr⟩)
      (fun k _ hk => ?_) ha.symm
    obtain ⟨gl, gr⟩ := (Kind.holdsBoth_iff hl hr).mp hk
    obtain ⟨c, hc, le⟩ := Kind.joinWithin_of_fits gl gr
    rw [hj] at hc
    rw [Option.some.inj hc]
    exact le

/-! ### quotients -/

theorem exists_width (hl : left.isInteger = true) : ∃ w, left = .unsigned w ∨ left = .signed w := by
  cases left with
  | unsigned w => exact ⟨w, .inl rfl⟩
  | signed w => exact ⟨w, .inr rfl⟩
  | real p => cases hl
  | complex p => cases hl
  | bool => cases hl

theorem exists_precision_of_size {w : Width} (h : w.bytes ≠ 8) : ∃ p, w.precision? = some p := by
  cases w <;> first | exact ⟨_, rfl⟩ | exact absurd rfl h

theorem quotientKind_eq {w : Width} {p : Precision} (hp : w.precision? = some p)
    (h : left.larger right = .unsigned w ∨ left.larger right = .signed w) :
    quotientKind left right = .real p := by
  unfold quotientKind
  rcases h with h | h <;> rw [h] <;> simp [hp]

/-- Two integers below 64 bits divide in the precision of one of them. -/
theorem exists_quotientKind (hl : left.isInteger = true) (hr : right.isInteger = true)
    (sl : left.size ≠ 8) (sr : right.size ≠ 8) :
    ∃ w p, w.precision? = some p ∧ quotientKind left right = .real p ∧
      (left = .unsigned w ∨ left = .signed w ∨ right = .unsigned w ∨ right = .signed w) := by
  rcases left.larger_eq right with larger | larger
  · obtain ⟨w, hw⟩ := exists_width hl
    have narrow : w.bytes ≠ 8 := by
      rcases hw with rfl | rfl <;> exact sl
    obtain ⟨p, hp⟩ := exists_precision_of_size narrow
    refine ⟨w, p, hp, quotientKind_eq hp ?_, ?_⟩
    · rw [larger]
      exact hw
    · rw [← or_assoc]
      exact .inl hw
  · obtain ⟨w, hw⟩ := exists_width hr
    have narrow : w.bytes ≠ 8 := by
      rcases hw with rfl | rfl <;> exact sr
    obtain ⟨p, hp⟩ := exists_precision_of_size narrow
    refine ⟨w, p, hp, quotientKind_eq hp ?_, .inr (.inr hw)⟩
    rw [larger]
    exact hw

theorem smallest_of_quotientKind (hl : left.isInteger = true) (hr : right.isInteger = true)
    (sl : left.size ≠ 8) (sr : right.size ≠ 8) (hc : e.common = quotientKind left right)
    (ha : e.availability = if e.common.isInert then .notImplemented else .available) :
    e.Smallest Family.trueDivide.Candidate left right := by
  have ne_bool {k : Kind} (hk : k.isInteger = true) : k ≠ .bool := by
    rintro rfl
    cases hk
  have active {k : Kind} (hk : k.isInteger = true) : k.isInert = false := by
    obtain ⟨w, rfl | rfl⟩ := exists_width hk <;> rfl
  obtain ⟨w, p, hp, hq, owner⟩ := exists_quotientKind hl hr sl sr
  have fits := fits_quotientKind hl hr sl sr
  have holds (k : Kind) := Kind.holdsBoth_iff (k := k) (ne_bool hl) (ne_bool hr)
  refine smallest_of_some ?_ ?_ (fun k hk both => ?_) ?_
  · rw [hc, hq]
    exact .inl rfl
  · rw [hc]
    exact (holds _).mpr fits
  · -- the operand whose precision this is asks for as much
    obtain ⟨fl, fr⟩ := (holds k).mp both
    have hw : (Kind.unsigned w).fits k = true ∨ (Kind.signed w).fits k = true := by
      rcases owner with rfl | rfl | rfl | rfl
      · exact .inl fl
      · exact .inr fl
      · exact .inl fr
      · exact .inr fr
    obtain ⟨q, hq', room⟩ := Kind.exists_precision_of_fits hw hk
    obtain rfl := Option.some.inj (hp.symm.trans hq')
    rw [hc, hq]
    exact Kind.size_le_of_fits room
  · rw [ha, active hl, active hr, Bool.or_false, Bool.false_or]

/-- No floating-point kind holds the integers of 64 bits. -/
theorem not_fits_of_wide {k : Kind} (hl : left.isInteger = true) (hs : left.size = 8)
    (hk : k.isReal = true ∨ k.isComplex = true) : ¬ left.fits k = true := by
  intro fits
  obtain ⟨w, hw⟩ := exists_width hl
  have wide : w.bytes = 8 := by
    rcases hw with rfl | rfl <;> exact hs
  have held : (Kind.unsigned w).fits k = true ∨ (Kind.signed w).fits k = true := by
    rcases hw with rfl | rfl
    · exact .inl fits
    · exact .inr fits
  obtain ⟨p, hp, -⟩ := Kind.exists_precision_of_fits held hk
  cases w with
  | w64 => cases hp
  | _ => exact absurd wide (by decide)

theorem candidate_of_holdsBoth (hl : left ≠ .bool) (hr : right ≠ .bool)
    (h : ¬ (left.isInteger && right.isInteger) = true) {k : Kind} (hk : k.HoldsBoth left right) :
    k ≠ .bool ↔ Family.trueDivide.Candidate k := by
  obtain ⟨fl, fr⟩ := (Kind.holdsBoth_iff hl hr).mp hk
  have float : k.isReal = true ∨ k.isComplex = true := by
    cases left with
    | real p => exact Kind.isReal_or_isComplex_of_fits (.inl fl)
    | complex p => exact Kind.isReal_or_isComplex_of_fits (.inr fl)
    | bool => exact absurd rfl hl
    | _ =>
      cases right with
      | real p => exact Kind.isReal_or_isComplex_of_fits (.inl fr)
      | complex p => exact Kind.isReal_or_isComplex_of_fits (.inr fr)
      | bool => exact absurd rfl hr
      | _ => exact absurd rfl h
  exact iff_of_true (Kind.ne_bool_of_fits fl) float

theorem smallest_trueDivide (hl : left ≠ .bool) (hr : right ≠ .bool) :
    ∃ e, trueDivide? left right = some e ∧ e.Smallest Family.trueDivide.Candidate left right := by
  unfold trueDivide?
  rw [if_neg (Kind.not_isBool_or hl hr)]
  split
  · next wide =>
    refine ⟨_, rfl, smallest_of_none rfl ?_⟩
    rintro ⟨k, hk, both⟩
    obtain ⟨fl, fr⟩ := (Kind.holdsBoth_iff hl hr).mp both
    rw [Bool.or_eq_true, Bool.and_eq_true, Bool.and_eq_true, beq_iff_eq, beq_iff_eq] at wide
    rcases wide with ⟨hi, hs⟩ | ⟨hi, hs⟩
    · exact not_fits_of_wide hi hs hk fl
    · exact not_fits_of_wide hi hs hk fr
  · next narrow =>
    rw [Bool.or_eq_true, not_or, Bool.and_eq_true, Bool.and_eq_true, beq_iff_eq, beq_iff_eq,
      not_and, not_and] at narrow
    split
    · next int =>
      rw [Bool.and_eq_true] at int
      exact ⟨_, rfl, smallest_of_quotientKind int.1 int.2 (narrow.1 int.1) (narrow.2 int.2) rfl rfl⟩
    · next int =>
      refine ⟨_, rfl, (smallest_of_joined hl hr ?_).congr fun k hk => ?_⟩
      · rfl
      · exact candidate_of_holdsBoth hl hr int hk

end Entry

/-- **The common kind is the smallest that holds every value of both operands.** -/
theorem common_kind_smallest {family : Family}
    (hf : family = .arithmetic ∨ family = .comparison ∨ family = .trueDivide) {left right : Kind}
    (hl : left ≠ .bool) (hr : right ≠ .bool) :
    ∃ e, Promotion.lookup family left right = some e ∧
      e.Smallest family.Candidate left right := by
  have bool := Kind.not_isBool_or hl hr
  rw [Promotion.lookup_eq_rule?]
  rcases hf with rfl | rfl | rfl
  · exact ⟨_, if_neg bool, Entry.smallest_of_joined hl hr rfl⟩
  · exact ⟨_, if_neg bool, Entry.smallest_of_joined hl hr rfl⟩
  · exact Entry.smallest_trueDivide hl hr

/-- A product of 32-bit integers and single-precision numbers is taken in double precision. -/
theorem int32_float32_smallest :
    ∃ e, Promotion.lookup .arithmetic (.signed .w32) (.real .single) = some e ∧
      e.Smallest Family.arithmetic.Candidate (.signed .w32) (.real .single) ∧
      e.common = .real .double ∧ e.availability = .available := by
  have hl : Kind.signed .w32 ≠ .bool := by decide
  have hr : Kind.real .single ≠ .bool := by decide
  obtain ⟨e, he, smallest⟩ := common_kind_smallest (.inl rfl) hl hr
  refine ⟨e, he, smallest, ?_⟩
  rw [Promotion.lookup_eq_rule?] at he
  obtain rfl := Option.some.inj he
  exact ⟨rfl, rfl⟩

end Pointwise
