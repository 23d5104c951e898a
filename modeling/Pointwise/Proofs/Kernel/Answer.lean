import Pointwise.Proofs.Kernel.Path

/-!
# What an operation answers

For every available entry of its family an operation has exactly one kernel
(`eq_make_of_takes`).  `Operation.Answers` says what that kernel makes of two elements, and
`answers_of_available` finds it from the operation's action on the common kind and the two casts.
-/

namespace Pointwise

theorem Builtin.eq_make_of_takes {op : Operation} {e : Entry}
    (he : e ∈ Promotion.available op.family) {action : Action e.common}
    {castLeft : Elem e.left → Elem e.common} {castRight : Elem e.right → Elem e.common}
    (ha : op.action? e.common = some action) (hl : Elem.cast? e.left e.common = some castLeft)
    (hr : Elem.cast? e.right e.common = some castRight) {b : Builtin} (hb : b ∈ builtins op)
    (takes : b.kernel.takes e.left e.right = true) : b = make op e action castLeft castRight := by
  obtain ⟨e', action', castLeft', castRight', hlookup, -, ha', hl', hr', rfl⟩ :=
    mem_builtins_iff.mp hb
  obtain ⟨hleft, hright⟩ : e'.left = e.left ∧ e'.right = e.right := by
    simpa [Kernel.takes, make] using takes
  rw [hleft, hright, (Promotion.mem_available_iff.mp he).1] at hlookup
  obtain rfl := Option.some.inj hlookup
  obtain rfl := Option.some.inj (ha.symm.trans ha')
  obtain rfl := Option.some.inj (hl.symm.trans hl')
  obtain rfl := Option.some.inj (hr.symm.trans hr')
  rfl

namespace Operation
variable {left right result : Kind}

/-- The operation has a kernel for the kinds of `x` and `y`, and any such kernel gives `z`. -/
structure Answers (op : Operation) (x : Elem left) (y : Elem right) (z : Elem result) : Prop where
  kernel : ∃ b ∈ builtins op, b.kernel.takes left right = true
  call : ∀ b ∈ builtins op, b.kernel.takes left right = true →
    b.kernel.applyScalar result x y = .ok z

structure AnswersPair (op : Operation) (x : Elem left) (y : Elem right) (z w : Elem result) :
    Prop where
  kernel : ∃ b ∈ builtins op, b.kernel.takes left right = true
  call : ∀ b ∈ builtins op, b.kernel.takes left right = true →
    b.kernel.applyScalarDual result x y = .ok (z, w)

def Decides (op : Operation) (x : Elem left) (y : Elem right) (p : Prop) : Prop :=
  ∃ z : Bool, @Answers _ _ .bool op x y z ∧ (z = true ↔ p)

section
variable {op : Operation} {e : Entry} (he : e ∈ Promotion.available op.family)
  {action : Action e.common} {castLeft : Elem e.left → Elem e.common}
  {castRight : Elem e.right → Elem e.common} (ha : op.action? e.common = some action)
  (hl : Elem.cast? e.left e.common = some castLeft)
  (hr : Elem.cast? e.right e.common = some castRight)
include he ha hl hr

theorem exists_kernel : ∃ b ∈ builtins op, b.kernel.takes e.left e.right = true := by
  obtain ⟨hlookup, available⟩ := Promotion.mem_available_iff.mp he
  refine ⟨_, mem_builtins_iff.mpr
    ⟨e, action, castLeft, castRight, hlookup, available, ha, hl, hr, rfl⟩, ?_⟩
  simp [Kernel.takes, Builtin.make]

theorem answers_of_available (one : op.outputs = 1) (x : Elem e.left) (y : Elem e.right) :
    op.Answers x y ((action.body castLeft castRight).value x y) where
  kernel := exists_kernel he ha hl hr
  call b hb takes := by
    obtain rfl := Builtin.eq_make_of_takes he ha hl hr hb takes
    exact Kernel.applyScalar_eq (k := (Builtin.make op e action castLeft castRight).kernel) x y
      ((outputs_of_mem_builtins hb).trans one)

theorem answersPair_of_available (two : op.outputs = 2) (x : Elem e.left) (y : Elem e.right)
    {w : Elem action.result} (hw : (action.body castLeft castRight).other x y = [w]) :
    op.AnswersPair x y ((action.body castLeft castRight).value x y) w where
  kernel := exists_kernel he ha hl hr
  call b hb takes := by
    obtain rfl := Builtin.eq_make_of_takes he ha hl hr hb takes
    exact Kernel.applyScalarDual_eq (k := (Builtin.make op e action castLeft castRight).kernel) x y
      ((outputs_of_mem_builtins hb).trans two) hw

end

end Operation

end Pointwise
