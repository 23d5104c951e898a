import Pointwise.Proofs.Element.Division
import Pointwise.Proofs.Kernel.Answer
import Pointwise.Proofs.Promotion.Exact

/-!
# Quotient and remainder, together or apart

Quotient and remainder can be had together from one kernel with two outputs, for two operands of one
kind.  Wherever that is available, so are the two kernels with one output each, and they give the
same two sequences.

* `Kind.Divides`   the kinds for which they can be had together;
* `Promotion.floorRemainder_of_divides`   an entry of the one family is an entry of the other;
* `Operation.Provides`, `Operation.AnswersSlices`, `Operation.AnswersSlicesPair`   what the kernels of
  an operation make of two sequences;
* `divmod_eq_apart`   the two ways agree.
-/

namespace Pointwise

/-! ## the two families -/

/-- Integers, and the real numbers that are computed with. -/
def Kind.Divides (k : Kind) : Prop := k.isInteger = true ∨ k = .real .single ∨ k = .real .double

namespace Kind.Divides
variable {k : Kind} (h : Divides k)
include h

theorem ne_bool : k ≠ .bool := by
  rcases h with hk | rfl | rfl
  · rintro rfl
    cases hk
  · exact fun e => nomatch e
  · exact fun e => nomatch e

theorem exists_divmod : ∃ f, Elem.divmod? k = some f := by
  rcases h with hk | rfl | rfl
  · obtain ⟨f, hf, -⟩ := Elem.exists_divmod hk
    exact ⟨f, hf⟩
  · exact ⟨_, rfl⟩
  · exact ⟨_, rfl⟩

theorem floorRemainder? :
    Entry.floorRemainder? k k = some ⟨.floorRemainder, k, k, k, k, .available⟩ := by
  unfold Entry.floorRemainder? Entry.joined
  rw [join?_self k h.ne_bool]
  rcases h with hk | rfl | rfl
  · cases k with
    | unsigned w => rfl
    | signed w => rfl
    | real p => cases hk
    | complex p => cases hk
    | bool => cases hk
  · rfl
  · rfl

end Kind.Divides

theorem Entry.divmod_eq_of_available {left right : Kind}
    (h : (divmod left right).availability = .available) :
    left.Divides ∧ divmod left right = ⟨.divmod, left, left, left, left, .available⟩ := by
  unfold divmod at h ⊢
  split at h
  · next hk =>
    obtain ⟨rfl, hk⟩ := hk
    rw [if_pos ⟨rfl, hk⟩]
    rw [Bool.or_eq_true, Bool.or_eq_true, decide_eq_true_iff, decide_eq_true_iff, or_assoc] at hk
    exact ⟨hk, rfl⟩
  · cases h

namespace Promotion

theorem eq_of_mem_divmod {e : Entry} (he : e ∈ available .divmod) :
    e.left.Divides ∧ e = ⟨.divmod, e.left, e.left, e.left, e.left, .available⟩ := by
  obtain ⟨hl, ha⟩ := mem_available_iff.mp he
  rw [lookup_eq_rule?] at hl
  have h := Option.some.inj hl
  rw [← h] at ha
  obtain ⟨divides, eq⟩ := Entry.divmod_eq_of_available ha
  exact ⟨divides, h.symm.trans eq⟩

theorem divides_of_resolve {k : Kind} {e : Entry} (h : resolve .divmod k k = .ok e) :
    k.Divides ∧ (⟨.divmod, k, k, k, k, .available⟩ : Entry) ∈ available .divmod := by
  obtain ⟨he, rfl, -⟩ := resolve_eq_ok_iff.mp h
  obtain ⟨divides, eq⟩ := eq_of_mem_divmod he
  refine ⟨divides, ?_⟩
  rw [← eq]
  exact he

/-- Where quotient and remainder can be had together, they can be had apart. -/
theorem floorRemainder_of_divides {k : Kind} (h : k.Divides) :
    (⟨.floorRemainder, k, k, k, k, .available⟩ : Entry) ∈ available .floorRemainder := by
  refine mem_available_iff.mpr ⟨?_, rfl⟩
  rw [lookup_eq_rule?]
  exact h.floorRemainder?

end Promotion

/-! ## kernels on sequences -/

namespace Operation
variable {left right result : Kind}

/-- The operation has a kernel for two kinds, and any such kernel has results of a third. -/
structure Provides (op : Operation) (left right result : Kind) : Prop where
  kernel : ∃ b ∈ builtins op, b.kernel.takes left right = true
  kind : ∀ b ∈ builtins op, b.kernel.takes left right = true → b.kernel.result = result

/-- The operation has a kernel for two sequences, and any such kernel gives `zs`, whatever the output
held. -/
structure AnswersSlices (op : Operation) (xs : List (Elem left)) (ys : List (Elem right))
    (zs : List (Elem result)) : Prop extends op.Provides left right result where
  call : ∀ b ∈ builtins op, b.kernel.takes left right = true → ∀ out : List (Elem result),
    out.length = xs.length → b.kernel.applySlices xs ys out = (.ok (), zs)

structure AnswersSlicesPair (op : Operation) (xs : List (Elem left)) (ys : List (Elem right))
    (zs ws : List (Elem result)) : Prop extends op.Provides left right result where
  call : ∀ b ∈ builtins op, b.kernel.takes left right = true → ∀ out0 out1 : List (Elem result),
    out0.length = xs.length → out1.length = xs.length →
    b.kernel.applySlicesDual xs ys out0 out1 = (.ok (), zs, ws)

/-- The results are those that the kernel gives. -/
theorem AnswersSlicesPair.unique {op : Operation} {xs : List (Elem left)} {ys : List (Elem right)}
    {zs ws zs' ws' : List (Elem result)} (h : op.AnswersSlicesPair xs ys zs ws)
    (h' : op.AnswersSlicesPair xs ys zs' ws') : zs = zs' ∧ ws = ws' := by
  obtain ⟨b, hb, takes⟩ := h.kernel
  have blank : (List.replicate xs.length (Elem.decode result [])).length = xs.length :=
    List.length_replicate
  have value := h.call b hb takes _ _ blank blank
  rw [h'.call b hb takes _ _ blank blank] at value
  obtain ⟨hz, hw⟩ := Prod.mk.inj (Prod.mk.inj value).2
  exact ⟨hz.symm, hw.symm⟩

section
variable {op : Operation} {e : Entry} (he : e ∈ Promotion.available op.family)
  {action : Action e.common} {castLeft : Elem e.left → Elem e.common}
  {castRight : Elem e.right → Elem e.common} (ha : op.action? e.common = some action)
  (hl : Elem.cast? e.left e.common = some castLeft)
  (hr : Elem.cast? e.right e.common = some castRight)
include he ha hl hr

theorem provides_of_available : op.Provides e.left e.right action.result where
  kernel := exists_kernel he ha hl hr
  kind b hb takes := by
    obtain rfl := Builtin.eq_make_of_takes he ha hl hr hb takes
    rfl

variable {xs : List (Elem e.left)} {ys : List (Elem e.right)} (hlen : ys.length = xs.length)
include hlen

theorem answersSlices_of_available (one : op.outputs = 1) :
    op.AnswersSlices xs ys ((action.body castLeft castRight).values xs ys) where
  toProvides := provides_of_available he ha hl hr
  call b hb takes out hout := by
    obtain rfl := Builtin.eq_make_of_takes he ha hl hr hb takes
    exact Kernel.applySlices_eq (k := (Builtin.make op e action castLeft castRight).kernel) hlen
      ((outputs_of_mem_builtins hb).trans one) hout

theorem answersSlicesPair_of_available (two : op.outputs = 2) :
    op.AnswersSlicesPair xs ys ((action.body castLeft castRight).values xs ys)
      ((action.body castLeft castRight).others xs ys) where
  toProvides := provides_of_available he ha hl hr
  call b hb takes out0 out1 hout0 hout1 := by
    obtain rfl := Builtin.eq_make_of_takes he ha hl hr hb takes
    exact Kernel.applySlicesDual_eq (k := (Builtin.make op e action castLeft castRight).kernel) hlen
      ((outputs_of_mem_builtins hb).trans two) hout0 hout1

end

end Operation

/-- **Quotient and remainder together are quotient and remainder apart.** -/
theorem divmod_eq_apart {k : Kind} {e : Entry} (h : Promotion.resolve .divmod k k = .ok e) :
    (∃ e', Promotion.resolve .floorDivide k k = .ok e' ∧ Promotion.resolve .remainder k k = .ok e' ∧
      e'.result = k) ∧
    ∀ xs ys : List (Elem k), ys.length = xs.length → ∃ qs rs : List (Elem k),
      Operation.divmod.AnswersSlicesPair xs ys qs rs ∧
      Operation.floorDivide.AnswersSlices xs ys qs ∧ Operation.remainder.AnswersSlices xs ys rs := by
  obtain ⟨divides, both⟩ := Promotion.divides_of_resolve h
  have apart := Promotion.floorRemainder_of_divides divides
  have together : _ ∈ Promotion.available Operation.divmod.family := both
  have quotient : _ ∈ Promotion.available Operation.floorDivide.family := apart
  have remainder : _ ∈ Promotion.available Operation.remainder.family := apart
  refine ⟨⟨_, Promotion.resolve_eq_ok_iff.mpr ⟨quotient, rfl, rfl⟩,
    Promotion.resolve_eq_ok_iff.mpr ⟨remainder, rfl, rfl⟩, rfl⟩, fun xs ys hlen => ?_⟩
  obtain ⟨f, hf⟩ := divides.exists_divmod
  obtain ⟨cast, hcast, -⟩ := Elem.exists_cast_of_fits (Kind.fits_self divides.ne_bool)
  have hp : Operation.divmod.action? k = some (.pair f) := by
    simp [Operation.action?, hf]
  have hq : Operation.floorDivide.action? k = some (.value fun a b => (f a b).1) := by
    simp [Operation.action?, hf]
  have hr : Operation.remainder.action? k = some (.value fun a b => (f a b).2) := by
    simp [Operation.action?, hf]
  have pair := Operation.answersSlicesPair_of_available together hp hcast hcast hlen rfl
  refine ⟨_, _, pair, Operation.answersSlices_of_available quotient hq hcast hcast hlen rfl, ?_⟩
  have others := Body.others_two (fun x y => f (cast x) (cast y)) xs ys
  show Operation.remainder.AnswersSlices xs ys ((Body.two fun x y => f (cast x) (cast y)).others xs ys)
  rw [others]
  exact Operation.answersSlices_of_available remainder hr hcast hcast hlen rfl

/-- The least number over minus one, and a number over zero, beside two ordinary quotients. -/
theorem divmod_int8_apart :
    ∃ qs rs : List (Elem (.signed .w8)),
      @Operation.AnswersSlicesPair (.signed .w8) (.signed .w8) _ .divmod
        [7#8, 249#8, 128#8, 5#8] [254#8, 2#8, 255#8, 0#8] qs rs ∧
      @Operation.AnswersSlices (.signed .w8) (.signed .w8) _ .floorDivide
        [7#8, 249#8, 128#8, 5#8] [254#8, 2#8, 255#8, 0#8] qs ∧
      @Operation.AnswersSlices (.signed .w8) (.signed .w8) _ .remainder
        [7#8, 249#8, 128#8, 5#8] [254#8, 2#8, 255#8, 0#8] rs ∧
      qs = [252#8, 252#8, 128#8, 0#8] ∧ rs = [255#8, 1#8, 0#8, 0#8] := by
  have he : (⟨.divmod, .signed .w8, .signed .w8, .signed .w8, .signed .w8, .available⟩ : Entry)
      ∈ Promotion.available Operation.divmod.family :=
    Promotion.mem_available_iff.mpr ⟨Promotion.lookup_eq_rule? _ _ _, rfl⟩
  have h : Promotion.resolve .divmod (.signed .w8) (.signed .w8) = .ok _ :=
    Promotion.resolve_eq_ok_iff.mpr ⟨he, rfl, rfl⟩
  obtain ⟨qs, rs, pair, quotient, remainder⟩ := (divmod_eq_apart h).2
    [7#8, 249#8, 128#8, 5#8] [254#8, 2#8, 255#8, 0#8] rfl
  have action : Operation.divmod.action? (.signed .w8) = some (.pair Integer.divmodSigned) := rfl
  have computed : @Operation.AnswersSlicesPair (.signed .w8) (.signed .w8) _ .divmod
      [7#8, 249#8, 128#8, 5#8] [254#8, 2#8, 255#8, 0#8] _ _ :=
    Operation.answersSlicesPair_of_available he action rfl rfl rfl rfl
  obtain ⟨hq, hr⟩ := pair.unique computed
  exact ⟨qs, rs, pair, quotient, remainder, hq.trans (by rfl), hr.trans (by rfl)⟩

end Pointwise
