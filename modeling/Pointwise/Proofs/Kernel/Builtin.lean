import Pointwise.Kernel.Builtin
import Pointwise.Proofs.Promotion.Cells

/-!
# What a builtin kernel is made of

A builtin kernel of an operation comes from an available cell of the promotion table, from the
operation's action on the common kind of that cell, and from the casts of both operands to it
(`mem_builtins_iff`).  The kind and the number of its results are those that the table and the
operation announce (`result_of_action?`, `outputs_of_action?`).
-/

namespace Pointwise

theorem Operation.result_of_action? {op : Operation} {k : Kind} {action : Action k}
    (h : op.action? k = some action) :
    action.result = if op.family = .comparison then .bool else k := by
  cases op <;>
  · obtain ⟨f, -, rfl⟩ := Option.map_eq_some_iff.mp h
    rfl

theorem Operation.outputs_of_action? {op : Operation} {k left right : Kind} {action : Action k}
    (h : op.action? k = some action) (castLeft : Elem left → Elem k)
    (castRight : Elem right → Elem k) : (action.body castLeft castRight).outputs = op.outputs := by
  cases op <;>
  · obtain ⟨f, -, rfl⟩ := Option.map_eq_some_iff.mp h
    rfl

theorem Operation.outputs_eq (op : Operation) : op.outputs = if op = .divmod then 2 else 1 := by
  cases op <;> rfl

namespace Builtin

def make (op : Operation) (e : Entry) (action : Action e.common)
    (castLeft : Elem e.left → Elem e.common) (castRight : Elem e.right → Elem e.common) :
    Builtin where
  operation := op
  entry := e
  kernel :=
    { left := e.left
      right := e.right
      result := action.result
      body := action.body castLeft castRight
      signature := .kinds ⟨[e.left, e.right], List.replicate op.outputs action.result⟩ }

theorem of?_eq_some_iff {op : Operation} {e : Entry} {b : Builtin} :
    of? op e = some b ↔ ∃ action castLeft castRight,
      op.action? e.common = some action ∧ Elem.cast? e.left e.common = some castLeft ∧
        Elem.cast? e.right e.common = some castRight ∧ make op e action castLeft castRight = b := by
  unfold of?
  simp only [Option.bind_eq_bind, Option.bind_eq_some_iff]
  constructor
  · rintro ⟨action, ha, castLeft, hl, castRight, hr, hb⟩
    exact ⟨action, castLeft, castRight, ha, hl, hr, Option.some.inj hb⟩
  · rintro ⟨action, castLeft, castRight, ha, hl, hr, rfl⟩
    exact ⟨action, ha, castLeft, hl, castRight, hr, rfl⟩

end Builtin

theorem mem_builtins_iff {op : Operation} {b : Builtin} :
    b ∈ builtins op ↔ ∃ e action castLeft castRight,
      Promotion.lookup op.family e.left e.right = some e ∧ e.availability = .available ∧
        op.action? e.common = some action ∧ Elem.cast? e.left e.common = some castLeft ∧
        Elem.cast? e.right e.common = some castRight ∧
        Builtin.make op e action castLeft castRight = b := by
  unfold builtins
  rw [List.mem_filterMap]
  constructor
  · rintro ⟨e, he, hb⟩
    obtain ⟨hl, ha⟩ := Promotion.mem_available_iff.mp he
    obtain ⟨action, castLeft, castRight, h⟩ := Builtin.of?_eq_some_iff.mp hb
    exact ⟨e, action, castLeft, castRight, hl, ha, h⟩
  · rintro ⟨e, action, castLeft, castRight, hl, ha, h⟩
    exact ⟨e, Promotion.mem_available_iff.mpr ⟨hl, ha⟩,
      Builtin.of?_eq_some_iff.mpr ⟨action, castLeft, castRight, h⟩⟩

theorem outputs_of_mem_builtins {op : Operation} {b : Builtin} (h : b ∈ builtins op) :
    b.kernel.outputs = op.outputs := by
  obtain ⟨e, action, castLeft, castRight, -, -, ha, -, -, rfl⟩ := mem_builtins_iff.mp h
  exact Operation.outputs_of_action? ha castLeft castRight

end Pointwise
