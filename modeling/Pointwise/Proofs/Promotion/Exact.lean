import Pointwise.Proofs.Element.Parts
import Pointwise.Proofs.Promotion.Cells

/-!
# Promotion loses nothing

Wherever an entry of the promotion table is available, its common kind has room for all elements of
both operand kinds, and so the casts of the operands keep what they stand for.

* `fits_join`   a join has room for what it joins;
* `join?_of_joined`, `fits_of_rule?`   available entries name a kind with room for both operands;
* `promotion_exact`   what that means for the casts.
-/

namespace Pointwise

namespace Kind

theorem fits_join_left {a b c : Kind} (h : join? a b = some c) : a.fits c = true := by
  rcases a with (_ | _ | _ | _) | (_ | _ | _ | _) | (_ | _ | _) | (_ | _ | _) | _ <;>
  rcases b with (_ | _ | _ | _) | (_ | _ | _ | _) | (_ | _ | _) | (_ | _ | _) | _ <;>
  cases h <;> rfl

theorem fits_join {a b c : Kind} (h : join? a b = some c) : a.fits c = true ∧ b.fits c = true := by
  refine ⟨fits_join_left h, fits_join_left (b := a) ?_⟩
  rw [join?_comm]
  exact h

theorem isInteger_of_join? {a b c : Kind} (h : join? a b = some c) (ha : a.isInteger = true)
    (hb : b.isInteger = true) : c.isInteger = true := by
  rcases a with u | u | _ | _ | _ <;> rcases b with v | v | _ | _ | _ <;>
    first
    | exact absurd ha Bool.false_ne_true
    | exact absurd hb Bool.false_ne_true
    | (obtain rfl := Option.some.inj h; rfl)
    | (obtain ⟨d, -, rfl⟩ := Option.map_eq_some_iff.mp h; rfl)

end Kind

namespace Entry
variable {left right : Kind} {e : Entry}

theorem join?_of_joined {common : Kind} (h : joined left right = (common, .available)) :
    left.join? right = some common := by
  unfold joined at h
  cases hj : left.join? right with
  | none =>
    rw [hj] at h
    cases h
  | some k =>
    rw [hj] at h
    exact congrArg some (Prod.mk.inj h).1

theorem join?_of_arithmetic? (h : arithmetic? left right = some e)
    (ha : e.availability = .available) : left.join? right = some e.common := by
  unfold arithmetic? at h
  split at h
  · cases h
  · obtain rfl := Option.some.inj h
    exact join?_of_joined (Prod.ext rfl ha)

theorem join?_of_comparison? (h : comparison? left right = some e)
    (ha : e.availability = .available) : left.join? right = some e.common := by
  unfold comparison? at h
  split at h
  · cases h
  · obtain rfl := Option.some.inj h
    exact join?_of_joined (Prod.ext rfl ha)

theorem join?_of_floorRemainder? (h : floorRemainder? left right = some e)
    (ha : e.availability = .available) : left.join? right = some e.common := by
  unfold floorRemainder? at h
  split at h
  · cases h
  · generalize hj : joined left right = j at h
    obtain ⟨common, availability⟩ := j
    obtain rfl := Option.some.inj h
    change (if _ then _ else availability) = Availability.available at ha
    split at ha
    · cases ha
    · rw [ha] at hj
      exact join?_of_joined hj

/-- Two integers below 64 bits divide in a precision that holds both. -/
theorem fits_quotientKind (hl : left.isInteger = true) (hr : right.isInteger = true)
    (sl : left.size ≠ 8) (sr : right.size ≠ 8) :
    left.fits (quotientKind left right) = true ∧ right.fits (quotientKind left right) = true := by
  rcases left with (_ | _ | _ | _) | (_ | _ | _ | _) | _ | _ | _ <;>
  rcases right with (_ | _ | _ | _) | (_ | _ | _ | _) | _ | _ | _ <;>
  first
    | exact ⟨rfl, rfl⟩
    | exact absurd rfl sl
    | exact absurd rfl sr
    | exact absurd hl Bool.false_ne_true
    | exact absurd hr Bool.false_ne_true

theorem fits_of_trueDivide? (h : trueDivide? left right = some e)
    (ha : e.availability = .available) :
    left.fits e.common = true ∧ right.fits e.common = true := by
  unfold trueDivide? at h
  split at h
  · cases h
  · split at h
    · obtain rfl := Option.some.inj h
      cases ha
    · next wide =>
      rw [Bool.or_eq_true, not_or, Bool.and_eq_true, Bool.and_eq_true, beq_iff_eq, beq_iff_eq,
        not_and, not_and] at wide
      split at h
      · next int =>
        obtain rfl := Option.some.inj h
        rw [Bool.and_eq_true] at int
        exact fits_quotientKind int.1 int.2 (wide.1 int.1) (wide.2 int.2)
      · obtain rfl := Option.some.inj h
        exact Kind.fits_join (join?_of_joined (Prod.ext rfl ha))

theorem fits_of_divmod (ha : (divmod left right).availability = .available) :
    left.fits (divmod left right).common = true ∧
      right.fits (divmod left right).common = true := by
  unfold divmod at ha ⊢
  split at ha
  · next h =>
    obtain ⟨rfl, hk⟩ := h
    rw [if_pos ⟨rfl, hk⟩]
    have hb : left ≠ .bool := by
      rintro rfl
      cases hk
    exact ⟨Kind.fits_self hb, Kind.fits_self hb⟩
  · cases ha

/-- The common kind of an available entry has room for both operands. -/
theorem fits_of_rule? {family : Family} (h : rule? family left right = some e)
    (ha : e.availability = .available) :
    left.fits e.common = true ∧ right.fits e.common = true := by
  cases family with
  | arithmetic => exact Kind.fits_join (join?_of_arithmetic? h ha)
  | floorRemainder => exact Kind.fits_join (join?_of_floorRemainder? h ha)
  | trueDivide => exact fits_of_trueDivide? h ha
  | comparison => exact Kind.fits_join (join?_of_comparison? h ha)
  | divmod =>
    obtain rfl := Option.some.inj h
    exact fits_of_divmod ha

end Entry

namespace Promotion

theorem fits_of_mem_available {family : Family} {e : Entry} (he : e ∈ available family) :
    e.left.fits e.common = true ∧ e.right.fits e.common = true := by
  obtain ⟨hl, ha⟩ := mem_available_iff.mp he
  rw [lookup_eq_rule?] at hl
  exact Entry.fits_of_rule? hl ha

theorem join?_of_arithmetic {e : Entry} (he : e ∈ available .arithmetic) :
    e.left.join? e.right = some e.common := by
  obtain ⟨hl, ha⟩ := mem_available_iff.mp he
  rw [lookup_eq_rule?] at hl
  exact Entry.join?_of_arithmetic? hl ha

theorem join?_of_floorRemainder {e : Entry} (he : e ∈ available .floorRemainder) :
    e.left.join? e.right = some e.common := by
  obtain ⟨hl, ha⟩ := mem_available_iff.mp he
  rw [lookup_eq_rule?] at hl
  exact Entry.join?_of_floorRemainder? hl ha

theorem divmod_mem_available {k : Kind} (hk : k.isInteger = true) :
    (⟨.divmod, k, k, k, k, .available⟩ : Entry) ∈ available .divmod := by
  refine mem_available_iff.mpr ⟨?_, rfl⟩
  rw [lookup_eq_rule?]
  simp [Entry.rule?, Entry.divmod, hk]

end Promotion

/-- A cast that loses nothing: both parts are kept, a zero with its sign, and elements without a NaN
stay apart. -/
structure Elem.Exact {source target : Kind} (cast : Elem source → Elem target) : Prop where
  parts : ∀ x, Elem.parts target (cast x) = Elem.parts source x
  injective : ∀ x y, ¬ HasNaN source x → ¬ HasNaN source y → cast x = cast y → x = y

theorem Elem.exists_exact_cast {source target : Kind} (h : source.fits target = true) :
    ∃ cast, cast? source target = some cast ∧ Exact cast := by
  obtain ⟨cast, hcast, hparts⟩ := exists_cast_of_fits h
  refine ⟨cast, hcast, hparts, fun x y hx _ e => parts_injective hx ?_⟩
  rw [← hparts x, ← hparts y, e]

/-- **Promotion loses nothing.** -/
theorem promotion_exact {family : Family} {e : Entry} (he : e ∈ Promotion.available family) :
    ∃ castLeft castRight, Elem.cast? e.left e.common = some castLeft ∧
      Elem.cast? e.right e.common = some castRight ∧
      Elem.Exact castLeft ∧ Elem.Exact castRight := by
  obtain ⟨fl, fr⟩ := Promotion.fits_of_mem_available he
  obtain ⟨castLeft, hl, el⟩ := Elem.exists_exact_cast fl
  obtain ⟨castRight, hr, er⟩ := Elem.exists_exact_cast fr
  exact ⟨castLeft, castRight, hl, hr, el, er⟩

theorem promotion_int32_complex64 :
    ∃ e ∈ Promotion.available .arithmetic, e.left = .signed .w32 ∧ e.right = .complex .single ∧
      e.common = .complex .double ∧ ∃ castLeft castRight,
        Elem.cast? e.left e.common = some castLeft ∧ Elem.cast? e.right e.common = some castRight ∧
        Elem.Exact castLeft ∧ Elem.Exact castRight := by
  have he : (⟨.arithmetic, .signed .w32, .complex .single, .complex .double, .complex .double,
      .available⟩ : Entry) ∈ Promotion.available .arithmetic :=
    Promotion.mem_available_iff.mpr ⟨Promotion.lookup_eq_rule? _ _ _, rfl⟩
  exact ⟨_, he, rfl, rfl, rfl, promotion_exact he⟩

end Pointwise
