import Pointwise.Proofs.Element.Commutative
import Pointwise.Proofs.Kernel.Answer
import Pointwise.Proofs.Promotion.Symmetric
import Pointwise.Proofs.Registry.Builtin
import Pointwise.Proofs.Registry.Lookup

/-!
# The registry adds and multiplies in either order

A registry with the builtin kernels finds a kernel for a pair of kinds iff it finds one for the
swapped pair.  The two are different kernels, with casts of their own, but they have one kind of
result, and on swapped operands they give one value if the operation commutes.

* `Operation.exists_answers_swap`   the builtin kernels of a pair and of the swapped pair;
* `exists_serves_of_resolve`, `exists_builtin_of_resolve`   what a registry finds is the builtin kernel
  of an entry of the table;
* `Registry.Commutes`, `builtins_commute`   the registry in either order.
-/

namespace Pointwise

/-- Whatever kernels there are for a pair and for the swapped pair, they give the same value. -/
theorem Operation.exists_answers_swap {op : Operation} (commutes : op.Commutes) {e : Entry}
    (he : e ∈ Promotion.available op.family) (x : Elem e.left) (y : Elem e.right) :
    ∃ z : Elem e.common, op.Answers x y z ∧ op.Answers y x z := by
  obtain ⟨fl, fr⟩ := Promotion.fits_of_mem_available he
  obtain ⟨castLeft, hl, -⟩ := Elem.exists_cast_of_fits fl
  obtain ⟨castRight, hr, -⟩ := Elem.exists_cast_of_fits fr
  obtain ⟨f, ha, comm⟩ := exists_commutative commutes (Kind.ne_bool_of_fits fl)
  have swapped := Promotion.swap_mem_available he
  refine ⟨f (castLeft x) (castRight y), answers_of_available he ha hl hr commutes.outputs x y, ?_⟩
  rw [comm]
  exact answers_of_available (e := e.swap) swapped ha hr hl commutes.outputs y x

namespace Registry

/-- Two kinds have a kernel in one order iff they have one in the other, and then both kernels have
the same kind of result and give the same value on the same operands. -/
structure Commutes (r : Registry) (name : String) (left right : Kind) : Prop where
  kernel : (∃ k, r.resolve name left right = .ok k) ↔ ∃ k, r.resolve name right left = .ok k
  kind : ∀ k k', r.resolve name left right = .ok k → r.resolve name right left = .ok k' →
    k.result = k'.result
  value : ∀ k k', r.resolve name left right = .ok k → r.resolve name right left = .ok k' →
    ∀ (x : Elem left) (y : Elem right), ∃ z : Elem k.result,
      k.applyScalar k.result x y = .ok z ∧ k'.applyScalar k.result y x = .ok z

section
variable {config : Config} (ok : (withBuiltins config).result = .ok ()) {op : Operation}
  {left right : Kind} {k : Kernel}
include ok

theorem agrees_of_withBuiltins (left right : Kind) :
    (withBuiltins config).after.Agrees op left right :=
  agrees_of_furnished (furnished_withBuiltins (fits_of_withBuiltins ok)).2
    (fits_of_withBuiltins ok op) left right

theorem exists_serves_of_resolve
    (h : (withBuiltins config).after.resolve op.name left right = .ok k) :
    ∃ e, Promotion.resolve op left right = .ok e ∧ k.Serves op e := by
  rcases agrees_of_withBuiltins ok left right with ⟨e, k', he, hk', serves⟩ | ⟨-, refused⟩
  · obtain rfl := Except.ok.inj (hk'.symm.trans h)
    exact ⟨e, he, serves⟩
  · rw [refused] at h
    cases h

theorem exists_resolve_of_entry {e : Entry} (h : Promotion.resolve op left right = .ok e) :
    ∃ k, (withBuiltins config).after.resolve op.name left right = .ok k := by
  rcases agrees_of_withBuiltins ok left right with ⟨-, k, -, hk, -⟩ | ⟨refused, -⟩
  · exact ⟨k, hk⟩
  · rw [refused] at h
    cases h

theorem exists_resolve_swap
    (h : ∃ k, (withBuiltins config).after.resolve op.name left right = .ok k) :
    ∃ k, (withBuiltins config).after.resolve op.name right left = .ok k := by
  obtain ⟨k, hk⟩ := h
  obtain ⟨e, he, -⟩ := exists_serves_of_resolve ok hk
  exact exists_resolve_of_entry ok (Promotion.resolve_swap he)

theorem exists_builtin_of_resolve
    (h : (withBuiltins config).after.resolve op.name left right = .ok k) :
    ∃ b ∈ builtins op, b.kernel = k ∧ b.kernel.takes left right = true := by
  have fits := fits_of_withBuiltins ok
  have furnished := (furnished_withBuiltins fits).2
  obtain ⟨f, hf, -, -, kernels⟩ := function_of_furnished furnished (fits op)
  obtain ⟨f', hf', found⟩ := resolve_eq_ok_iff.mp h
  obtain rfl := Option.some.inj (hf.symm.trans hf')
  have takes : k.takes left right = true := by simpa using Array.find?_some found
  have mem := Array.mem_of_find?_eq_some found
  rw [← Array.mem_toList_iff, kernels] at mem
  obtain ⟨b, hb, rfl⟩ := List.mem_map.mp mem
  exact ⟨b, hb, rfl, takes⟩

/-- The kernels of a pair and of the swapped pair have one kind of result and give one value. -/
theorem exists_value_swap (commutes : op.Commutes) {k' : Kernel}
    (h : (withBuiltins config).after.resolve op.name left right = .ok k)
    (h' : (withBuiltins config).after.resolve op.name right left = .ok k') :
    ∃ common, k.result = common ∧ k'.result = common ∧ ∀ (x : Elem left) (y : Elem right),
      ∃ z : Elem common, k.applyScalar common x y = .ok z ∧ k'.applyScalar common y x = .ok z := by
  obtain ⟨e, he, serves⟩ := exists_serves_of_resolve ok h
  obtain ⟨e', he', serves'⟩ := exists_serves_of_resolve ok h'
  obtain rfl : e.swap = e' := Except.ok.inj ((Promotion.resolve_swap he).symm.trans he')
  obtain ⟨b, hb, rfl, takes⟩ := exists_builtin_of_resolve ok h
  obtain ⟨b', hb', rfl, takes'⟩ := exists_builtin_of_resolve ok h'
  obtain ⟨available, rfl, rfl⟩ := Promotion.resolve_eq_ok_iff.mp he
  have cell := Promotion.ofCell_of_lookup (Promotion.mem_available_iff.mp available).1
  have result : e.result = e.common := by
    rw [cell.result, commutes.family, if_neg nofun]
  refine ⟨e.common, serves.result.trans result, serves'.result.trans result, fun x y => ?_⟩
  obtain ⟨z, hz, hz'⟩ := Operation.exists_answers_swap commutes available x y
  exact ⟨z, hz.call b hb takes, hz'.call b' hb' takes'⟩

end

/-- **The registry adds and multiplies in either order**, whatever the kinds of the operands. -/
theorem builtins_commute {config : Config} (ok : (withBuiltins config).result = .ok ())
    {op : Operation} (commutes : op.Commutes) (left right : Kind) :
    (withBuiltins config).after.Commutes op.name left right := by
  constructor
  case kernel =>
    exact ⟨exists_resolve_swap ok, exists_resolve_swap ok⟩
  case kind =>
    intro k k' h h'
    obtain ⟨common, kind, kind', -⟩ := exists_value_swap ok commutes h h'
    exact kind.trans kind'.symm
  case value =>
    intro k k' h h'
    obtain ⟨common, rfl, -, value⟩ := exists_value_swap ok commutes h h'
    exact value

/-- An integer and a floating-point number have their common kind in either order. -/
theorem default_adds_int32_float32 : ∃ k k',
    (withBuiltins {}).after.resolve Operation.add.name (.signed .w32) (.real .single) = .ok k ∧
    (withBuiltins {}).after.resolve Operation.add.name (.real .single) (.signed .w32) = .ok k' ∧
    k.result = k'.result ∧ ∀ (x : Elem (.signed .w32)) (y : Elem (.real .single)),
      ∃ z : Elem k.result, k.applyScalar k.result x y = .ok z ∧
        k'.applyScalar k.result y x = .ok z := by
  have he : (⟨.arithmetic, .signed .w32, .real .single, .real .double, .real .double, .available⟩ :
      Entry) ∈ Promotion.available Operation.add.family :=
    Promotion.mem_available_iff.mpr ⟨Promotion.lookup_eq_rule? _ _ _, rfl⟩
  have commutes := builtins_commute withBuiltins_default (.inl rfl) (.signed .w32) (.real .single)
  obtain ⟨k, hk⟩ := exists_resolve_of_entry withBuiltins_default
    (Promotion.resolve_eq_ok_iff.mpr ⟨he, rfl, rfl⟩)
  obtain ⟨k', hk'⟩ := commutes.kernel.mp ⟨k, hk⟩
  exact ⟨k, k', hk, hk', commutes.kind k k' hk hk', commutes.value k k' hk hk'⟩

end Registry

end Pointwise
