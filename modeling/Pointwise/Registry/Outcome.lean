import Pointwise.Error
import Pointwise.Kernel.Basic

/-!
# What a change of state brings about

An operation on a state gives a result, the state after it, the signatures of the kernels that it
let go, and the events it reports. `Outcome.runAll` does operations one after the other up to the
first that fails.
-/

namespace Pointwise

/-- How much an event matters. -/
inductive Level
  | span | debug | warn
  deriving DecidableEq, Repr

def Level.name : Level → String
  | span => "SPAN"
  | debug => "DEBUG"
  | warn => "WARN"

/-- Something worth reporting. -/
inductive Event
  /-- the construction of a registry with builtin kernels begins -/
  | opened (maxKernels : Nat)
  | created (function : String) (capacity : Nat)
  | destroyed (function : String) (kernels : Nat)
  /-- all builtin kernels are in place -/
  | completed (kernels functions : Nat)
  /-- a function had no room for a kernel -/
  | rejected (function : String) (reason : Error)
  deriving DecidableEq, Repr

namespace Event

def level : Event → Level
  | opened _ => .span
  | rejected .. => .warn
  | _ => .debug

def message : Event → String
  | opened maxKernels => "with_builtins_config max_kernels=" ++ toString maxKernels
  | created function capacity =>
    "Created function " ++ function ++ " with capacity " ++ toString capacity
  | destroyed function kernels =>
    "Destroyed function " ++ function ++ " (" ++ toString kernels ++ " kernels)"
  | completed kernels functions =>
    "Registered " ++ toString kernels ++ " builtin kernels across " ++ toString functions
      ++ " functions"
  | rejected function reason => "Rejected kernel for " ++ function ++ ": " ++ reason.message

end Event

/-- What an operation on a state of type `σ` brings about. -/
structure Outcome (σ α : Type) where
  result : Except Error α
  after : σ
  released : List Signature := []
  events : List Event := []

namespace Outcome
variable {σ α β : Type}

/-- A second operation after a first, unless that failed. -/
def bind (o : Outcome σ α) (next : α → σ → Outcome σ β) : Outcome σ β :=
  match o.result with
  | .error e => { result := .error e, after := o.after, released := o.released, events := o.events }
  | .ok a =>
    let p := next a o.after
    { p with released := o.released ++ p.released, events := o.events ++ p.events }

/-- The same outcome without its value. -/
def discard (o : Outcome σ α) : Outcome σ Unit := { o with result := o.result.map fun _ => () }

/-- Operations one after the other, up to the first that fails. -/
def runAll : List (σ → Outcome σ Unit) → σ → Outcome σ Unit
  | [], s => { result := .ok (), after := s }
  | act :: rest, s => (act s).bind fun _ s => runAll rest s

theorem runAll_nil (s : σ) : runAll [] s = { result := .ok (), after := s } := rfl
theorem runAll_cons (act : σ → Outcome σ Unit) (rest : List (σ → Outcome σ Unit)) (s : σ) :
    runAll (act :: rest) s = (act s).bind fun _ s => runAll rest s := rfl

end Outcome

end Pointwise
