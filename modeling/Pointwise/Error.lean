import Pointwise.Kind

/-!
# Errors

Each way in which a call can be refused is one constructor of `Error`; `Error.message` words it.
-/

namespace Pointwise

/-- Why a call was refused. -/
inductive Error
  /-- no computation is defined for the operands' kinds -/
  | unsupportedOperand (operation : String) (left right : Kind)
  | unknownOperation (name : String)
  | unknownKind (name : String)
  /-- memory could not be reserved -/
  | allocation (detail : String)
  /-- the function holds as many kernels as it may -/
  | capacityExceeded (function : String) (capacity : Nat)
  | functionNotFound (name : String)
  | duplicateFunction (name : String)
  /-- elements of another kind than the kernel works on -/
  | kindMismatch (expected actual : Kind)
  /-- a call with another number of outputs than the kernel has -/
  | arityMismatch (expected actual : Nat)
  /-- an operand or output of another length than the first operand -/
  | sizeMismatch (what : String) (expected actual : Nat)
  | invalidInput (detail : String)
  | other (detail : String)
  deriving DecidableEq, Repr

namespace Error

def message : Error → String
  | unsupportedOperand operation left right =>
    "Unsupported operand kinds for " ++ operation ++ ": (" ++ left.name ++ ", " ++ right.name ++ ")"
  | unknownOperation name => "Unknown operation: " ++ name
  | unknownKind name => "Unknown type kind: " ++ name
  | allocation detail => "Memory error: " ++ detail
  | capacityExceeded function capacity =>
    function ++ ": maximum number of kernels reached (" ++ toString capacity ++ ")"
  | functionNotFound name => "Function not found: " ++ name
  | duplicateFunction name => "Function already exists: " ++ name
  | kindMismatch expected actual =>
    "Kind mismatch: expected " ++ expected.name ++ ", got " ++ actual.name
  | arityMismatch expected actual =>
    "Arity mismatch: kernel has " ++ toString expected ++ " output(s), call provides "
      ++ toString actual
  | sizeMismatch what expected actual =>
    "Invalid input: Size mismatch in " ++ what ++ ": expected " ++ toString expected ++ ", got "
      ++ toString actual
  | invalidInput detail => "Invalid input: " ++ detail
  | other detail => "Other error: " ++ detail

/-- A reservation of more bytes than any collection may hold. -/
def capacityOverflow (what : String) : Error :=
  allocation (what ++ ": memory allocation failed because the computed capacity exceeded "
    ++ "the collection's maximum")

/-- The operation has no meaning for these operands. -/
def isUnsupported : Error → Bool
  | unsupportedOperand .. => true
  | _ => false

end Error

end Pointwise
