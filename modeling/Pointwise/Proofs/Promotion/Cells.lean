import Mathlib.Algebra.Order.BigOperators.Group.List
import Mathlib.Algebra.Order.Group.Nat
import Mathlib.Data.List.FinRange
import Pointwise.Promotion.Table

/-!
# The cells of the promotion table

A list of entries holds what the table has in the cells of a family: an entry is in the list iff it
is found under its own kinds (`mem_entries_iff`, `mem_available_iff`).  The list goes through the
pairs of kinds in order and meets none of them twice (`entries_eq`, `available_ascending`).

* `Kind.index_ofIndex`   every cell belongs to a pair of kinds;
* `Entry.OfCell`, `Entry.ofCell_of_rule?`   an entry names the cell that it is in, and its result is
  of the common kind, or a truth value for comparisons.
-/

namespace Pointwise

theorem Kind.index_ofIndex (i : Fin 15) : (ofIndex i).index = i := by
  revert i
  decide

namespace Entry

/-- What the rules say of an entry: where it belongs and what comes out of it. -/
structure OfCell (family : Family) (left right : Kind) (e : Entry) : Prop where
  result : e.result = if family = .comparison then .bool else e.common
  family : e.family = family
  left : e.left = left
  right : e.right = right

theorem ofCell_arithmetic? {left right : Kind} {e : Entry} (h : arithmetic? left right = some e) :
    OfCell .arithmetic left right e := by
  unfold arithmetic? at h
  split at h
  · exact nomatch h
  · obtain rfl := Option.some.inj h
    exact ⟨rfl, rfl, rfl, rfl⟩

theorem ofCell_floorRemainder? {left right : Kind} {e : Entry}
    (h : floorRemainder? left right = some e) : OfCell .floorRemainder left right e := by
  unfold floorRemainder? at h
  split at h
  · exact nomatch h
  · obtain rfl := Option.some.inj h
    exact ⟨rfl, rfl, rfl, rfl⟩

theorem ofCell_trueDivide? {left right : Kind} {e : Entry} (h : trueDivide? left right = some e) :
    OfCell .trueDivide left right e := by
  unfold trueDivide? at h
  split at h
  · exact nomatch h
  · split at h
    · obtain rfl := Option.some.inj h
      exact ⟨rfl, rfl, rfl, rfl⟩
    · split at h
      · obtain rfl := Option.some.inj h
        exact ⟨rfl, rfl, rfl, rfl⟩
      · obtain rfl := Option.some.inj h
        exact ⟨rfl, rfl, rfl, rfl⟩

theorem ofCell_comparison? {left right : Kind} {e : Entry} (h : comparison? left right = some e) :
    OfCell .comparison left right e := by
  unfold comparison? at h
  split at h
  · exact nomatch h
  · obtain rfl := Option.some.inj h
    exact ⟨rfl, rfl, rfl, rfl⟩

theorem ofCell_divmod (left right : Kind) : OfCell .divmod left right (divmod left right) := by
  unfold divmod
  split
  · exact ⟨rfl, rfl, rfl, rfl⟩
  · exact ⟨rfl, rfl, rfl, rfl⟩

theorem ofCell_of_rule? {family : Family} {left right : Kind} {e : Entry}
    (h : rule? family left right = some e) : OfCell family left right e := by
  cases family with
  | arithmetic => exact ofCell_arithmetic? h
  | floorRemainder => exact ofCell_floorRemainder? h
  | trueDivide => exact ofCell_trueDivide? h
  | comparison => exact ofCell_comparison? h
  | divmod =>
    obtain rfl := Option.some.inj h
    exact ofCell_divmod left right

/-- The cell of one entry comes before that of another: left kinds are compared first. -/
def Before (a b : Entry) : Prop := a.left < b.left ∨ a.left = b.left ∧ a.right < b.right

end Entry

namespace Promotion

theorem ofCell_of_lookup {family : Family} {left right : Kind} {e : Entry}
    (h : lookup family left right = some e) : e.OfCell family left right := by
  rw [lookup_eq_rule?] at h
  exact Entry.ofCell_of_rule? h

theorem mem_entries_of_lookup {family : Family} {left right : Kind} {e : Entry}
    (h : lookup family left right = some e) : e ∈ entries family := by
  refine List.mem_flatMap.mpr ⟨table[family.index][left.index], ?_, ?_⟩
  · exact Vector.mem_toList_iff.mpr (Vector.getElem_mem left.index.isLt)
  · refine List.mem_filterMap.mpr ⟨table[family.index][left.index][right.index], ?_, h⟩
    exact Vector.mem_toList_iff.mpr (Vector.getElem_mem right.index.isLt)

theorem exists_lookup_of_mem_entries {family : Family} {e : Entry} (h : e ∈ entries family) :
    ∃ left right, lookup family left right = some e := by
  obtain ⟨row, hrow, he⟩ := List.mem_flatMap.mp h
  obtain ⟨l, hl, rfl⟩ := Vector.mem_iff_getElem.mp (Vector.mem_toList_iff.mp hrow)
  obtain ⟨cell, hcell, hc⟩ := List.mem_filterMap.mp he
  obtain ⟨r, hr, rfl⟩ := Vector.mem_iff_getElem.mp (Vector.mem_toList_iff.mp hcell)
  refine ⟨.ofIndex ⟨l, hl⟩, .ofIndex ⟨r, hr⟩, ?_⟩
  unfold lookup Table.get
  simp only [Kind.index_ofIndex]
  exact hc

theorem mem_entries_iff {family : Family} {e : Entry} :
    e ∈ entries family ↔ lookup family e.left e.right = some e := by
  constructor
  · intro h
    obtain ⟨left, right, hl⟩ := exists_lookup_of_mem_entries h
    have cell := ofCell_of_lookup hl
    rw [cell.left, cell.right]
    exact hl
  · exact mem_entries_of_lookup

theorem mem_available_iff {family : Family} {e : Entry} :
    e ∈ available family ↔
      lookup family e.left e.right = some e ∧ e.availability = .available := by
  unfold available
  rw [List.mem_filter, mem_entries_iff]
  unfold Entry.isAvailable
  rw [beq_iff_eq]

/-- A pair of kinds resolves to its available entry, or there is none. -/
theorem resolve_cases (op : Operation) (left right : Kind) :
    (∃ e ∈ available op.family, e.left = left ∧ e.right = right ∧ resolve op left right = .ok e) ∨
    ((∀ e ∈ available op.family, ¬ (e.left = left ∧ e.right = right)) ∧
      resolve op left right = .error (.unsupportedOperand op.name left right)) := by
  unfold resolve
  cases h : lookup op.family left right with
  | none =>
    refine .inr ⟨?_, rfl⟩
    rintro e he ⟨rfl, rfl⟩
    rw [(mem_available_iff.mp he).1] at h
    exact nomatch h
  | some e =>
    have cell := ofCell_of_lookup h
    dsimp only
    split
    · next ha =>
      have he : e ∈ entries op.family := mem_entries_of_lookup h
      exact .inl ⟨e, List.mem_filter.mpr ⟨he, ha⟩, cell.left, cell.right, rfl⟩
    · next ha =>
      refine .inr ⟨?_, rfl⟩
      rintro e' he' ⟨rfl, rfl⟩
      rw [(mem_available_iff.mp he').1] at h
      obtain rfl := Option.some.inj h
      exact ha (List.mem_filter.mp he').2

theorem resolve_eq_ok_iff {op : Operation} {left right : Kind} {e : Entry} :
    resolve op left right = .ok e ↔ e ∈ available op.family ∧ e.left = left ∧ e.right = right := by
  rcases resolve_cases op left right with ⟨e', he', rfl, rfl, ok⟩ | ⟨none, refused⟩
  · rw [ok]
    constructor
    · intro h
      obtain rfl := Except.ok.inj h
      exact ⟨he', rfl, rfl⟩
    · rintro ⟨he, hl, hr⟩
      have lookup := (mem_available_iff.mp he).1
      rw [hl, hr, (mem_available_iff.mp he').1] at lookup
      exact congrArg _ (Option.some.inj lookup)
  · rw [refused]
    constructor
    · intro h
      cases h
    · rintro ⟨he, hl, hr⟩
      exact absurd ⟨hl, hr⟩ (none e he)

/-! ## the order of the entries -/

theorem all_eq_map : Kind.all.toList = (List.finRange 15).map Kind.ofIndex := by decide

theorem all_ascending : Kind.all.toList.Pairwise (· < ·) := by decide

theorem entries_eq (family : Family) :
    entries family = Kind.all.toList.flatMap fun left =>
      Kind.all.toList.filterMap fun right => lookup family left right := by
  unfold entries Table.entries table Table.ofRules
  rw [all_eq_map, List.flatMap_map]
  simp only [lookup_eq_rule?, Fin.getElem_fin, Vector.getElem_ofFn, Vector.toList_ofFn,
    List.ofFn_eq_map, List.flatMap_map, List.filterMap_map, Family.ofIndex_index, Fin.eta,
    Function.comp_def, id]

theorem entries_ascending (family : Family) : (entries family).Pairwise Entry.Before := by
  rw [entries_eq, List.pairwise_flatMap]
  constructor
  · intro left _
    rw [List.pairwise_filterMap]
    refine all_ascending.imp fun {r r'} less e he e' he' => .inr ?_
    have cell := ofCell_of_lookup he
    have cell' := ofCell_of_lookup he'
    rw [cell.left, cell'.left, cell.right, cell'.right]
    exact ⟨rfl, less⟩
  · refine all_ascending.imp fun {l l'} less e he e' he' => .inl ?_
    obtain ⟨r, -, hr⟩ := List.mem_filterMap.mp he
    obtain ⟨r', -, hr'⟩ := List.mem_filterMap.mp he'
    rw [(ofCell_of_lookup hr).left, (ofCell_of_lookup hr').left]
    exact less

theorem available_ascending (family : Family) : (available family).Pairwise Entry.Before :=
  (entries_ascending family).filter _

/-- There are no more entries than pairs of kinds. -/
theorem length_available_le (family : Family) : (available family).length ≤ 225 := by
  have row (left : Kind) :
      (Kind.all.toList.filterMap fun right => lookup family left right).length ≤ 15 :=
    List.length_filterMap_le _ _
  have entries : (entries family).length ≤ 225 := by
    rw [entries_eq, List.length_flatMap]
    refine (List.sum_le_card_nsmul _ 15 fun n hn => ?_).trans ?_
    · obtain ⟨left, -, rfl⟩ := List.mem_map.mp hn
      exact row left
    · rw [List.length_map]
      exact Nat.le_of_eq rfl
  exact (List.length_filter_le _ _).trans entries

end Promotion

end Pointwise
