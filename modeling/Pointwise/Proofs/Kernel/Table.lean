import Mathlib.Data.List.Forall2
import Pointwise.Proofs.Kernel.Builtin
import Pointwise.Proofs.Promotion.Smallest

/-!
# The kernels of an operation are the available entries of its family

The rules make an entry available only where the operations of its family are defined, and its common
kind has room for both operands.  So every available entry gives a kernel, none is passed over, and
the kernels of an operation stand in the order of the table.

* `Family.definedOn`, `definedOn_of_mem_available`   where the operations of a family are defined;
* `Kernel.Serves`   a kernel is what an entry calls for;
* `forall₂_kernels`   kernels and entries side by side;
* `find?_kernels_eq_some`, `find?_kernels_eq_none`   the kernel of a pair of kinds is that of its
  entry.
-/

namespace Pointwise

/-! ## where operations are defined -/

def Family.definedOn : Family → Kind → Bool
  | .arithmetic, k => !k.isBool
  | .comparison, k => !k.isBool
  | .floorRemainder, k => k.isInteger || k.isReal
  | .divmod, k => k.isInteger || k.isReal
  | .trueDivide, k => k.isReal || k.isComplex

theorem Operation.isSome_action? (op : Operation) (k : Kind) :
    (op.action? k).isSome = op.family.definedOn k := by
  cases op <;> cases k <;> rfl

namespace Kind
variable {k : Kind}

theorem isInteger_or_isReal (h : k ≠ bool) (hc : k.isComplex = false) :
    (k.isInteger || k.isReal) = true := by
  cases k <;> first | rfl | exact absurd rfl h | cases hc

end Kind

namespace Entry
variable {left right : Kind} {e : Entry}

theorem not_isComplex_of_floorRemainder? (h : floorRemainder? left right = some e)
    (ha : e.availability = .available) : e.common.isComplex = false := by
  unfold floorRemainder? at h
  split at h
  · cases h
  · generalize joined left right = j at h
    obtain ⟨common, availability⟩ := j
    obtain rfl := Option.some.inj h
    change (if _ then _ else availability) = Availability.available at ha
    split at ha
    · cases ha
    · next hn =>
      rw [Bool.or_eq_true, not_or] at hn
      exact Bool.eq_false_of_not_eq_true hn.2

theorem definedOn_of_trueDivide? (h : trueDivide? left right = some e)
    (ha : e.availability = .available) : Family.trueDivide.definedOn e.common = true := by
  obtain ⟨fl, fr⟩ := fits_of_trueDivide? h ha
  obtain ⟨e', he', smallest⟩ :=
    smallest_trueDivide (Kind.ne_bool_of_fits_left fl) (Kind.ne_bool_of_fits_left fr)
  obtain rfl := Option.some.inj (he'.symm.trans h)
  have safe : e'.availability ≠ .noSafeCommonType := by
    rw [ha]
    exact fun h => nomatch h
  exact (Bool.or_eq_true _ _).mpr (smallest.holds safe).1

theorem definedOn_of_divmod (ha : (divmod left right).availability = .available) :
    Family.divmod.definedOn (divmod left right).common = true := by
  unfold divmod at ha ⊢
  split at ha
  · next h =>
    rw [if_pos h]
    obtain ⟨-, hk⟩ := h
    rw [Bool.or_eq_true, Bool.or_eq_true, decide_eq_true_iff, decide_eq_true_iff, or_assoc] at hk
    show (left.isInteger || left.isReal) = true
    rcases hk with hk | rfl | rfl
    · rw [hk, Bool.true_or]
    · rfl
    · rfl
  · cases ha

/-- Where an entry is available, the operations of its family are defined on the common kind. -/
theorem definedOn_of_rule? {family : Family} (h : rule? family left right = some e)
    (ha : e.availability = .available) : family.definedOn e.common = true := by
  have common : e.common ≠ .bool := Kind.ne_bool_of_fits (fits_of_rule? h ha).1
  cases family with
  | arithmetic => exact congrArg Bool.not (Kind.isBool_eq_false common)
  | comparison => exact congrArg Bool.not (Kind.isBool_eq_false common)
  | floorRemainder =>
    exact Kind.isInteger_or_isReal common (not_isComplex_of_floorRemainder? h ha)
  | trueDivide => exact definedOn_of_trueDivide? h ha
  | divmod =>
    obtain rfl := Option.some.inj h
    exact definedOn_of_divmod ha

end Entry

theorem Promotion.definedOn_of_mem_available {family : Family} {e : Entry}
    (he : e ∈ available family) : family.definedOn e.common = true := by
  obtain ⟨hl, ha⟩ := mem_available_iff.mp he
  rw [lookup_eq_rule?] at hl
  exact Entry.definedOn_of_rule? hl ha

/-! ## the kernel of an entry -/

/-- A kernel of the operation, made for the kinds of the entry and registered under them. -/
structure Kernel.Serves (k : Kernel) (op : Operation) (e : Entry) : Prop where
  left : k.left = e.left
  right : k.right = e.right
  result : k.result = e.result
  outputs : k.outputs = op.outputs
  signature : k.signature = .kinds ⟨[e.left, e.right], List.replicate op.outputs e.result⟩

section
variable {op : Operation} {e : Entry}

theorem Builtin.serves_make (he : e ∈ Promotion.available op.family) {action : Action e.common}
    (ha : op.action? e.common = some action) (castLeft : Elem e.left → Elem e.common)
    (castRight : Elem e.right → Elem e.common) :
    (make op e action castLeft castRight).kernel.Serves op e := by
  have cell := Promotion.ofCell_of_lookup (Promotion.mem_available_iff.mp he).1
  have result : action.result = e.result := (Operation.result_of_action? ha).trans cell.result.symm
  refine ⟨rfl, rfl, result, Operation.outputs_of_action? ha castLeft castRight, ?_⟩
  show Signature.kinds ⟨[e.left, e.right], List.replicate op.outputs action.result⟩ = _
  rw [result]

theorem Builtin.exists_of? (he : e ∈ Promotion.available op.family) :
    ∃ b, of? op e = some b ∧ b.kernel.Serves op e := by
  obtain ⟨fl, fr⟩ := Promotion.fits_of_mem_available he
  obtain ⟨castLeft, hl, -⟩ := Elem.exists_cast_of_fits fl
  obtain ⟨castRight, hr, -⟩ := Elem.exists_cast_of_fits fr
  have defined := Promotion.definedOn_of_mem_available he
  rw [← op.isSome_action?] at defined
  obtain ⟨action, ha⟩ := Option.isSome_iff_exists.mp defined
  exact ⟨_, of?_eq_some_iff.mpr ⟨action, castLeft, castRight, ha, hl, hr, rfl⟩,
    serves_make he ha castLeft castRight⟩

end

/-! ## all of them in order -/

def Operation.kernels (op : Operation) : List Kernel := (builtins op).map Builtin.kernel

/-- A list stays as long as it is where nothing is passed over. -/
theorem forall₂_filterMap {α β : Type} {R : α → β → Prop} {f : α → Option β} {l : List α}
    (h : ∀ a ∈ l, ∃ b, f a = some b ∧ R a b) : List.Forall₂ R l (l.filterMap f) := by
  induction l with
  | nil => exact .nil
  | cons a l ih =>
    obtain ⟨b, hb, r⟩ := h a List.mem_cons_self
    rw [List.filterMap_cons_some hb]
    exact .cons r (ih fun x hx => h x (List.mem_cons_of_mem _ hx))

/-- Every available entry has its kernel, and the kernels keep the order of the table. -/
theorem forall₂_kernels (op : Operation) :
    List.Forall₂ (fun e k => k.Serves op e) (Promotion.available op.family) op.kernels := by
  unfold Operation.kernels
  rw [List.forall₂_map_right_iff]
  exact forall₂_filterMap fun e he => Builtin.exists_of? he

theorem length_kernels (op : Operation) :
    op.kernels.length = (Promotion.available op.family).length :=
  (forall₂_kernels op).length_eq.symm

/-- The kernels go through the pairs of kinds as the table does. -/
theorem kinds_kernels (op : Operation) : op.kernels.map (fun k => (k.left, k.right))
    = (Promotion.available op.family).map fun e => (e.left, e.right) := by
  rw [← List.forall₂_eq_eq_eq, List.forall₂_map_left_iff, List.forall₂_map_right_iff]
  exact ((forall₂_kernels op).imp fun e k serves => Prod.ext serves.left serves.right).flip

theorem kernels_ascending (op : Operation) : op.kernels.Pairwise fun k k' =>
    k.left < k'.left ∨ k.left = k'.left ∧ k.right < k'.right := by
  have pairs : (op.kernels.map fun k => (k.left, k.right)).Pairwise fun p q =>
      p.1 < q.1 ∨ p.1 = q.1 ∧ p.2 < q.2 := by
    rw [kinds_kernels, List.pairwise_map]
    exact Promotion.available_ascending op.family
  exact List.pairwise_map.mp pairs

/-! ## the kernel of a pair of kinds -/

section
variable {op : Operation} {e : Entry} {k : Kernel}

theorem exists_serves_of_mem_kernels (hk : k ∈ op.kernels) :
    ∃ e ∈ Promotion.available op.family, k.Serves op e := by
  obtain ⟨b, hb, rfl⟩ := List.mem_map.mp hk
  obtain ⟨e, he, hof⟩ := List.mem_filterMap.mp hb
  obtain ⟨b', hb', serves⟩ := Builtin.exists_of? he
  obtain rfl := Option.some.inj (hof.symm.trans hb')
  exact ⟨e, he, serves⟩

theorem exists_mem_kernels (he : e ∈ Promotion.available op.family) :
    ∃ k ∈ op.kernels, k.Serves op e := by
  obtain ⟨b, hb, serves⟩ := Builtin.exists_of? he
  exact ⟨b.kernel, List.mem_map_of_mem (List.mem_filterMap.mpr ⟨e, he, hb⟩), serves⟩

theorem Kernel.takes_iff {left right : Kind} :
    k.takes left right = true ↔ k.left = left ∧ k.right = right := by
  unfold takes
  rw [Bool.and_eq_true, beq_iff_eq, beq_iff_eq]

theorem find?_kernels_eq_some (he : e ∈ Promotion.available op.family) :
    ∃ k, op.kernels.find? (fun k => k.takes e.left e.right) = some k ∧ k.Serves op e := by
  obtain ⟨k, hk, serves⟩ := exists_mem_kernels he
  have takes : k.takes e.left e.right = true := Kernel.takes_iff.mpr ⟨serves.left, serves.right⟩
  obtain ⟨k', hk'⟩ : ∃ k', op.kernels.find? (fun k => k.takes e.left e.right) = some k' := by
    rw [← Option.isSome_iff_exists, List.find?_isSome]
    exact ⟨k, hk, takes⟩
  refine ⟨k', hk', ?_⟩
  -- an earlier kernel for the same kinds would come from the same cell
  obtain ⟨e', he', serves'⟩ := exists_serves_of_mem_kernels (List.mem_of_find?_eq_some hk')
  have takes' : k'.takes e.left e.right = true := by simpa using List.find?_some hk'
  obtain ⟨hl, hr⟩ := Kernel.takes_iff.mp takes'
  have lookup := (Promotion.mem_available_iff.mp he).1
  have lookup' := (Promotion.mem_available_iff.mp he').1
  rw [← serves'.left, ← serves'.right, hl, hr, lookup] at lookup'
  obtain rfl := Option.some.inj lookup'
  exact serves'

theorem find?_kernels_eq_none {left right : Kind}
    (h : ∀ e ∈ Promotion.available op.family, ¬ (e.left = left ∧ e.right = right)) :
    op.kernels.find? (fun k => k.takes left right) = none := by
  rw [List.find?_eq_none]
  intro k hk takes
  obtain ⟨e, he, serves⟩ := exists_serves_of_mem_kernels hk
  rw [Kernel.takes_iff, serves.left, serves.right] at takes
  exact h e he takes

end

end Pointwise
