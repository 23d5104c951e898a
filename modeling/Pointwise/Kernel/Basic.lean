import Pointwise.Error
import Pointwise.Kernel.Loop

/-!
# Kernels and checked calls

A kernel is a loop for three given kinds, together with the signature it is registered under. The
loop itself checks nothing; the calls here compare the caller's kinds, lengths and number of outputs
with the kernel's first, in this order, and touch no output unless all of them agree.

* `applySlices`, `applySlicesDual` over sequences of elements: the outcome, and the outputs after
  the call;
* `applyScalar`, `applyScalarDual` on one pair of elements.

A kernel carries a signature: the kinds of its inputs and outputs, or a label of the owner's choice.
A list of kinds is written with `", "` between its members, and `" -> "` separates inputs from
outputs.
-/

namespace Pointwise

/-! ## signatures -/

/-- The kinds that go in and come out. -/
structure KindSignature where
  inputs : List Kind
  outputs : List Kind
  deriving DecidableEq, Repr

def Kind.listText (kinds : List Kind) : String := ", ".intercalate (kinds.map Kind.name)

/-- The text of a signature, for instance `uint8, int8 -> int16`. -/
def KindSignature.text (s : KindSignature) : String :=
  Kind.listText s.inputs ++ " -> " ++ Kind.listText s.outputs

/-- What a kernel is registered under. -/
inductive Signature
  | kinds (s : KindSignature)
  | label (text : String)
  deriving DecidableEq, Repr

/-- The text of a signature; a label is its own text. -/
def Signature.text : Signature → String
  | kinds s => s.text
  | label text => text

/-! ## kernels -/

/-- One computation of a function, made for the kinds of its operands and its result. -/
structure Kernel where
  left : Kind
  right : Kind
  result : Kind
  body : Body left right result
  signature : Signature

namespace Kernel

def outputs (k : Kernel) : Nat := k.body.outputs

/-- The kernel was made for this pair of kinds. -/
def takes (k : Kernel) (left right : Kind) : Bool := k.left == left && k.right == right

/-! ### checks -/

def checkKind (expected actual : Kind) : Except Error Unit :=
  if expected = actual then .ok () else .error (.kindMismatch expected actual)

/-- The caller's elements are of the kernel's kinds. -/
def checkKinds (k : Kernel) (left right result : Kind) : Except Error Unit := do
  checkKind k.left left
  checkKind k.right right
  checkKind k.result result

def checkLength (what : String) (expected actual : Nat) : Except Error Unit :=
  if actual = expected then .ok () else .error (.sizeMismatch what expected actual)

/-- The right operand and every output are as long as the left operand. -/
def checkLengths (expected right : Nat) (outputs : List Nat) : Except Error Unit := do
  checkLength "right operand" expected right
  outputs.forM (checkLength "output" expected)

/-- The call provides as many outputs as the kernel has. -/
def checkOutputs (k : Kernel) (provided : Nat) : Except Error Unit :=
  if k.outputs = provided then .ok () else .error (.arityMismatch k.outputs provided)

/-- All that is checked of a call on sequences. -/
def checkSlices (k : Kernel) (left right result : Kind) (length rightLength : Nat)
    (outputs : List Nat) : Except Error Unit := do
  k.checkKinds left right result
  checkLengths length rightLength outputs
  k.checkOutputs outputs.length

/-- All that is checked of a call on one pair. -/
def checkScalar (k : Kernel) (left right result : Kind) (provided : Nat) : Except Error Unit := do
  k.checkKinds left right result
  k.checkOutputs provided

/-! ### calls -/

/-- The memory after the loop over `n` elements; a loop that is refused leaves it as it was. -/
def run (k : Kernel) (n : Nat) (mem : Memory) : Memory := (k.body.contiguous {} n mem).getD mem

/-- The memory after the work on one pair; if that is refused, the memory as it was. -/
def runSingle (k : Kernel) (mem : Memory) : Memory := (k.body.single {} mem).getD mem

section
variable {left right result : Kind}

/-- One output over sequences of equal length. -/
def applySlices (k : Kernel) (a : List (Elem left)) (b : List (Elem right))
    (out : List (Elem result)) : Except Error Unit × List (Elem result) :=
  match k.checkSlices left right result a.length b.length [out.length] with
  | .error e => (.error e, out)
  | .ok () =>
    let mem := k.run a.length
      ⟨Elem.toBuffer left a, Elem.toBuffer right b, Elem.toBuffer result out, #[]⟩
    (.ok (), Elem.ofBuffer result a.length mem.first)

/-- Two outputs over sequences of equal length. -/
def applySlicesDual (k : Kernel) (a : List (Elem left)) (b : List (Elem right))
    (out0 out1 : List (Elem result)) :
    Except Error Unit × List (Elem result) × List (Elem result) :=
  match k.checkSlices left right result a.length b.length [out0.length, out1.length] with
  | .error e => (.error e, out0, out1)
  | .ok () =>
    let mem := k.run a.length
      ⟨Elem.toBuffer left a, Elem.toBuffer right b, Elem.toBuffer result out0,
        Elem.toBuffer result out1⟩
    (.ok (), Elem.ofBuffer result a.length mem.first, Elem.ofBuffer result a.length mem.second)

/-- The memory of a call on one pair of elements, with blank outputs. -/
def scalarMemory (result : Kind) (a : Elem left) (b : Elem right) : Memory :=
  let blank : Buffer := Array.replicate result.size 0
  ⟨Elem.toBuffer left [a], Elem.toBuffer right [b], blank, blank⟩

/-- One output on one pair of elements. -/
def applyScalar (k : Kernel) (result : Kind) (a : Elem left) (b : Elem right) :
    Except Error (Elem result) := do
  k.checkScalar left right result 1
  let mem := k.runSingle (scalarMemory result a b)
  return Elem.decode result mem.first.toList

/-- Two outputs on one pair of elements. -/
def applyScalarDual (k : Kernel) (result : Kind) (a : Elem left) (b : Elem right) :
    Except Error (Elem result × Elem result) := do
  k.checkScalar left right result 2
  let mem := k.runSingle (scalarMemory result a b)
  return (Elem.decode result mem.first.toList, Elem.decode result mem.second.toList)

end

end Kernel

end Pointwise
