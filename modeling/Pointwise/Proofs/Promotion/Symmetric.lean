import Pointwise.Proofs.Promotion.Exact

/-!
# The promotion table is symmetric

An available entry stays what it is when its operands change places: the swapped pair has the same
common kind and the same result, and is available too.  Entries that are not available may differ:
they name the first of two kinds of equal size as a stand-in.

* `Entry.swap`   the entry of the swapped pair;
* `Promotion.swap_mem_available`   it is in the table;
* `Promotion.resolve_swap`   pairs resolve alike in both orders.
-/

namespace Pointwise

namespace Entry

def swap (e : Entry) : Entry := { e with left := e.right, right := e.left }

variable {left right : Kind} {e : Entry}

/-- The join does not know its operands apart, and no more does what hangs on it. -/
theorem joined_swap {common : Kind} (h : joined left right = (common, .available)) :
    joined right left = (common, .available) := by
  rw [← h]
  unfold joined
  rw [Kind.join?_comm right left, join?_of_joined h]
  show (common, if _ then _ else _) = (common, if _ then _ else _)
  rw [Bool.or_comm right.isInert]

theorem arithmetic?_swap (h : arithmetic? left right = some e) (ha : e.availability = .available) :
    arithmetic? right left = some e.swap := by
  unfold arithmetic? at h ⊢
  rw [Bool.or_comm right.isBool]
  split at h
  · cases h
  · next hb =>
    generalize hj : joined left right = j at h
    obtain ⟨common, availability⟩ := j
    obtain rfl := Option.some.inj h
    obtain rfl : availability = .available := ha
    rw [if_neg hb, joined_swap hj]
    rfl

theorem comparison?_swap (h : comparison? left right = some e) (ha : e.availability = .available) :
    comparison? right left = some e.swap := by
  unfold comparison? at h ⊢
  rw [Bool.or_comm right.isBool]
  split at h
  · cases h
  · next hb =>
    generalize hj : joined left right = j at h
    obtain ⟨common, availability⟩ := j
    obtain rfl := Option.some.inj h
    obtain rfl : availability = .available := ha
    rw [if_neg hb, joined_swap hj]
    rfl

theorem floorRemainder?_swap (h : floorRemainder? left right = some e)
    (ha : e.availability = .available) : floorRemainder? right left = some e.swap := by
  unfold floorRemainder? at h ⊢
  rw [Bool.or_comm right.isBool, Bool.or_comm right.isComplex]
  split at h
  · cases h
  · next hb =>
    generalize hj : joined left right = j at h
    obtain ⟨common, availability⟩ := j
    obtain rfl := Option.some.inj h
    change (if _ then _ else availability) = Availability.available at ha
    split at ha
    · cases ha
    · next hc =>
      obtain rfl := ha
      rw [if_neg hb, joined_swap hj]
      rfl

/-- Of two integers below 64 bits, the larger sets the precision, and of two equally large both. -/
theorem quotientKind_swap (hl : left.isInteger = true) (hr : right.isInteger = true)
    (sl : left.size ≠ 8) (sr : right.size ≠ 8) :
    quotientKind left right = quotientKind right left := by
  rcases left with (_ | _ | _ | _) | (_ | _ | _ | _) | _ | _ | _ <;>
  rcases right with (_ | _ | _ | _) | (_ | _ | _ | _) | _ | _ | _ <;>
  first
    | rfl
    | exact absurd rfl sl
    | exact absurd rfl sr
    | exact absurd hl Bool.false_ne_true
    | exact absurd hr Bool.false_ne_true

theorem trueDivide?_swap (h : trueDivide? left right = some e) (ha : e.availability = .available) :
    trueDivide? right left = some e.swap := by
  unfold trueDivide? at h ⊢
  rw [Bool.or_comm right.isBool, Bool.or_comm (right.isInteger && _),
    Bool.and_comm right.isInteger left.isInteger]
  split at h
  · cases h
  · next hb =>
    rw [if_neg hb]
    split at h
    · obtain rfl := Option.some.inj h
      cases ha
    · next wide =>
      rw [if_neg wide]
      rw [Bool.or_eq_true, not_or, Bool.and_eq_true, Bool.and_eq_true, beq_iff_eq, beq_iff_eq,
        not_and, not_and] at wide
      split at h
      · next int =>
        obtain rfl := Option.some.inj h
        rw [Bool.and_eq_true] at int
        rw [if_pos (by rw [int.1, int.2]; rfl),
          quotientKind_swap int.2 int.1 (wide.2 int.2) (wide.1 int.1)]
        rfl
      · next int =>
        generalize hj : joined left right = j at h
        obtain ⟨common, availability⟩ := j
        obtain rfl := Option.some.inj h
        obtain rfl : availability = .available := ha
        rw [if_neg int, joined_swap hj]
        rfl

theorem divmod_swap (ha : (divmod left right).availability = .available) :
    divmod right left = (divmod left right).swap := by
  unfold divmod at ha ⊢
  split at ha
  · next hk =>
    obtain ⟨rfl, hk⟩ := hk
    rw [if_pos ⟨rfl, hk⟩]
    rfl
  · cases ha

/-- An available entry of any family is available with its operands swapped. -/
theorem rule?_swap {family : Family} (h : rule? family left right = some e)
    (ha : e.availability = .available) : rule? family right left = some e.swap := by
  cases family with
  | arithmetic => exact arithmetic?_swap h ha
  | floorRemainder => exact floorRemainder?_swap h ha
  | trueDivide => exact trueDivide?_swap h ha
  | comparison => exact comparison?_swap h ha
  | divmod =>
    obtain rfl := Option.some.inj h
    exact congrArg some (divmod_swap ha)

end Entry

namespace Promotion

/-- **The table is symmetric** where anything is computed. -/
theorem swap_mem_available {family : Family} {e : Entry} (he : e ∈ available family) :
    e.swap ∈ available family := by
  obtain ⟨hl, ha⟩ := mem_available_iff.mp he
  rw [lookup_eq_rule?] at hl
  refine mem_available_iff.mpr ⟨?_, ha⟩
  rw [lookup_eq_rule?]
  exact Entry.rule?_swap hl ha

theorem resolve_swap {op : Operation} {left right : Kind} {e : Entry}
    (h : resolve op left right = .ok e) : resolve op right left = .ok e.swap := by
  obtain ⟨he, rfl, rfl⟩ := resolve_eq_ok_iff.mp h
  exact resolve_eq_ok_iff.mpr ⟨swap_mem_available he, rfl, rfl⟩

end Promotion

end Pointwise
