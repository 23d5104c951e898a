import Pointwise.Element.Action
import Pointwise.Element.Basic
import Pointwise.Kernel.Basic
import Pointwise.Promotion.Table

/-!
# Builtin kernels

Every available entry of an operation's family gives a kernel: both operands are cast to the common
kind of the entry, and the operation is done there. `builtins op` lists them in the order of the
promotion table.
-/

namespace Pointwise

namespace Action
variable {common left right : Kind}

def result : Action common → Kind
  | value _ => common
  | test _ => .bool
  | pair _ => common

/-- An action on the casts of two operands. -/
def body (castLeft : Elem left → Elem common) (castRight : Elem right → Elem common) :
    (action : Action common) → Body left right action.result
  | value f => .one fun a b => f (castLeft a) (castRight b)
  | test f => .one fun a b => f (castLeft a) (castRight b)
  | pair f => .two fun a b => f (castLeft a) (castRight b)

end Action

/-- A kernel that comes with the library, and the entry it was made from. -/
structure Builtin where
  operation : Operation
  entry : Entry
  kernel : Kernel

namespace Builtin

/-- The kernel of an operation under an entry, where casts and operation are defined. -/
def of? (op : Operation) (e : Entry) : Option Builtin := do
  let action ← op.action? e.common
  let castLeft ← Elem.cast? e.left e.common
  let castRight ← Elem.cast? e.right e.common
  let result := action.result
  return {
    operation := op
    entry := e
    kernel := {
      left := e.left
      right := e.right
      result
      body := action.body castLeft castRight
      signature := .kinds ⟨[e.left, e.right], List.replicate op.outputs result⟩ } }

end Builtin

/-- The builtin kernels of an operation, in the order of the promotion table. -/
def builtins (op : Operation) : List Builtin :=
  (Promotion.available op.family).filterMap (Builtin.of? op)

/-- All builtin kernels, operation by operation. -/
def allBuiltins : List Builtin := Operation.all.flatMap builtins

end Pointwise
