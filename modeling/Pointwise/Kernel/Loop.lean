import Pointwise.Element.Basic

/-!
# Loops over elements in memory

A loop reads one element of each operand, computes, and writes one element of each output, index by
index upwards. Nothing is checked but that every access stays in its buffer, and a loop whose access
does not is refused.

* `Memory` the buffers of a call;
* `Placement` the byte at which each begins, and whether the first output overwrites an operand;
* `contiguous` the loop over a number of elements, `single` the one step on the first element.
-/

namespace Pointwise

/-- What is computed from an element of each operand: one result, or two of the same kind. -/
inductive Body (left right result : Kind)
  | one (f : Elem left → Elem right → Elem result)
  | two (f : Elem left → Elem right → Elem result × Elem result)

def Body.outputs {left right result : Kind} : Body left right result → Nat
  | one _ => 1
  | two _ => 2

/-- The buffers of a call: two operands and room for two outputs. -/
structure Memory where
  left : Buffer
  right : Buffer
  first : Buffer
  second : Buffer
  deriving DecidableEq

/-- Where the first output goes: to its own buffer, or over one of the operands. -/
inductive Target
  | own | left | right
  deriving DecidableEq, Repr

/-- Where elements begin in each buffer; an output that overwrites an operand begins with it. -/
structure Placement where
  left : Nat := 0
  right : Nat := 0
  first : Nat := 0
  second : Nat := 0
  target : Target := .own
  deriving DecidableEq, Repr

namespace Memory

/-- The buffer that the first output is written to. -/
def output (mem : Memory) : Target → Buffer
  | .own => mem.first
  | .left => mem.left
  | .right => mem.right

/-- The memory with an element of the first output written. -/
def storeFirst? (mem : Memory) (place : Placement) (k : Kind) (i : Nat) (x : Elem k) :
    Option Memory :=
  match place.target with
  | .own => (Elem.store? k mem.first place.first i x).map fun b => { mem with first := b }
  | .left => (Elem.store? k mem.left place.left i x).map fun b => { mem with left := b }
  | .right => (Elem.store? k mem.right place.right i x).map fun b => { mem with right := b }

/-- The memory with an element of the second output written. -/
def storeSecond? (mem : Memory) (place : Placement) (k : Kind) (i : Nat) (x : Elem k) :
    Option Memory :=
  (Elem.store? k mem.second place.second i x).map fun b => { mem with second := b }

end Memory

namespace Body
variable {left right result : Kind}

/-- The loop's work on one index. -/
def step (body : Body left right result) (place : Placement) (mem : Memory) (i : Nat) :
    Option Memory := do
  let a ← Elem.load? left mem.left place.left i
  let b ← Elem.load? right mem.right place.right i
  match body with
  | one f => mem.storeFirst? place result i (f a b)
  | two f =>
    let mem ← mem.storeFirst? place result i (f a b).1
    mem.storeSecond? place result i (f a b).2

/-- The loop over `n` elements. -/
def contiguous (body : Body left right result) (place : Placement) (n : Nat) (mem : Memory) :
    Option Memory :=
  (List.range n).foldlM (body.step place) mem

/-- The work on a single pair of elements. -/
def single (body : Body left right result) (place : Placement) (mem : Memory) : Option Memory :=
  body.step place mem 0

theorem contiguous_zero (body : Body left right result) (place : Placement) (mem : Memory) :
    body.contiguous place 0 mem = some mem := rfl

theorem contiguous_succ (body : Body left right result) (place : Placement) (n : Nat)
    (mem : Memory) :
    body.contiguous place (n + 1) mem
      = (body.contiguous place n mem).bind fun mem => body.step place mem n := by
  simp [contiguous, List.range_succ, List.foldlM_append]

theorem contiguous_one (body : Body left right result) (place : Placement) (mem : Memory) :
    body.contiguous place 1 mem = body.single place mem := by
  rw [contiguous_succ, contiguous_zero]
  rfl

end Body

end Pointwise
