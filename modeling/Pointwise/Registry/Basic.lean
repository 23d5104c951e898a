import Std.Data.ExtTreeMap
import Pointwise.Kernel.Builtin
import Pointwise.Registry.Outcome

/-!
# The registry of functions

A function has a name, a capacity, and kernels in the order in which they were added, never more
than its capacity. A pair of kinds finds the first kernel made for it. A kernel for which there is
no room is let go, and nothing else changes.

The registry holds functions under their names, in the order of the names' bytes. Every function that
is created has the capacity of the registry's configuration. An operation that fails leaves the
registry as it was, and lets go of nothing but the kernel it was given.

A registry with the builtin kernels has one function for each operation, under the operation's name,
with the builtin kernels of the operation in order. Its construction stops at the first kernel for
which there is no room.
-/

namespace Pointwise

/-! ## the kernels of one function -/

/-- Kernels that a function may hold unless it is told otherwise. -/
def defaultCapacity : Nat := 512

/-- The kernels of one function. -/
structure Overloads where
  name : String
  capacity : Nat
  kernels : Array Kernel
  size_le : kernels.size ≤ capacity

namespace Overloads

def empty (name : String) (capacity : Nat := defaultCapacity) : Overloads :=
  ⟨name, capacity, #[], Nat.zero_le _⟩

def size (f : Overloads) : Nat := f.kernels.size

def isEmpty (f : Overloads) : Bool := f.kernels.isEmpty

/-- There is no room for another kernel. -/
def isFull (f : Overloads) : Bool := decide (f.capacity ≤ f.size)

/-- The signatures held, in order. -/
def signatures (f : Overloads) : List Signature := f.kernels.toList.map Kernel.signature

/-- A kernel added at the end, if there is room. -/
def add (f : Overloads) (k : Kernel) : Outcome Overloads Unit :=
  if h : f.kernels.size < f.capacity then {
    result := .ok ()
    after := { f with
      kernels := f.kernels.push k
      size_le := by rw [Array.size_push]; exact h } }
  else {
    result := .error (.capacityExceeded f.name f.capacity)
    after := f
    released := [k.signature] }

/-- The first kernel made for a pair of kinds. -/
def find? (f : Overloads) (left right : Kind) : Option Kernel :=
  f.kernels.find? fun k => k.takes left right

/-- The first kernel made for a pair of kinds with a given kind of result. -/
def findExact? (f : Overloads) (left right result : Kind) : Option Kernel :=
  f.kernels.find? fun k => k.takes left right && k.result == result

end Overloads

/-! ## functions by name -/

/-- Names in the order of their bytes. -/
def nameOrder : String → String → Ordering := compareOn fun s => s.toByteArray.data.toList

instance : Std.TransCmp nameOrder :=
  inferInstanceAs (Std.TransCmp (compareOn fun s : String => s.toByteArray.data.toList))

instance : Std.LawfulEqCmp nameOrder where
  eq_of_compare h := String.toByteArray_inj.1
    (ByteArray.ext (Array.toList_inj.1 (Std.LawfulEqOrd.eq_of_compare h)))

/-- Settings of a registry. -/
structure Config where
  /-- capacity of each function -/
  maxKernels : Nat := defaultCapacity
  deriving DecidableEq, Repr

/-- Functions by name. -/
structure Registry where
  config : Config
  functions : Std.ExtTreeMap String Overloads nameOrder

namespace Registry

def empty (config : Config := {}) : Registry := ⟨config, ∅⟩

def size (r : Registry) : Nat := r.functions.size

def isEmpty (r : Registry) : Bool := r.functions.isEmpty

/-- The function of a name. -/
def get? (r : Registry) (name : String) : Option Overloads := r.functions[name]?

def names (r : Registry) : List String := r.functions.keys

/-- The signatures held by all functions, in the order of their names. -/
def signatures (r : Registry) : List Signature :=
  r.functions.toList.flatMap fun (_, f) => f.signatures

/-- The registry with other content under a name. -/
def put (r : Registry) (name : String) (f : Overloads) : Registry :=
  { r with functions := r.functions.insert name f }

def erase (r : Registry) (name : String) : Registry :=
  { r with functions := r.functions.erase name }

/-- A new function without kernels, unless the name is taken. -/
def create (r : Registry) (name : String) : Outcome Registry Overloads :=
  match r.get? name with
  | some _ => { result := .error (.duplicateFunction name), after := r }
  | none =>
    let f := Overloads.empty name r.config.maxKernels
    { result := .ok f, after := r.put name f, events := [.created name r.config.maxKernels] }

/-- A kernel added to a function. A kernel that is refused is let go, and only want of room is
reported. -/
def register (r : Registry) (name : String) (k : Kernel) : Outcome Registry Unit :=
  match r.get? name with
  | none => { result := .error (.functionNotFound name), after := r, released := [k.signature] }
  | some f =>
    let o := f.add k
    match o.result with
    | .ok () => { result := .ok (), after := r.put name o.after, released := o.released }
    | .error e =>
      { result := .error e, after := r, released := o.released, events := [.rejected name e] }

/-- A function removed with all its kernels. -/
def destroy (r : Registry) (name : String) : Outcome Registry Unit :=
  match r.get? name with
  | none => { result := .error (.functionNotFound name), after := r }
  | some f => {
      result := .ok ()
      after := r.erase name
      released := f.signatures
      events := [.destroyed name f.size] }

/-- All functions removed, without a report. -/
def clear (r : Registry) : Outcome Registry Unit :=
  { result := .ok (), after := empty r.config, released := r.signatures }

/-- The kernel of a function for a pair of kinds. -/
def resolve (r : Registry) (name : String) (left right : Kind) : Except Error Kernel :=
  match r.get? name with
  | none => .error (.functionNotFound name)
  | some f =>
    match f.find? left right with
    | some k => .ok k
    | none => .error (.unsupportedOperand name left right)

/-! ### the builtin kernels -/

/-- The operations that put the builtin kernels in place. -/
def setup : List (Registry → Outcome Registry Unit) :=
  Operation.all.flatMap fun op =>
    (fun r => (r.create op.name).discard)
      :: (builtins op).map fun b r => r.register op.name b.kernel

/-- A registry with the builtin kernels under the given settings. -/
def withBuiltins (config : Config := {}) : Outcome Registry Unit :=
  let o := Outcome.runAll setup (empty config)
  let last := match o.result with
    | .ok () => [Event.completed allBuiltins.length o.after.size]
    | .error _ => []
  { o with events := .opened config.maxKernels :: o.events ++ last }

end Registry

end Pointwise
