import Pointwise.Binary.Arithmetic
import Pointwise.Complex
import Pointwise.Element.Basic
import Pointwise.Integer.Division
import Pointwise.Operation

/-!
# Operations on elements of one kind

`Operation.action? op k` is what an operation does to two elements of kind `k`, if it is defined
there.

* Sums, differences and products: integers wrap around, the others are rounded.
* Floor division: integers and real numbers.
* Division: real and complex numbers.
* Order: by value for integers and real numbers, lexicographic for complex numbers.
* Nothing is defined on truth values.
-/

namespace Pointwise

namespace Elem

def add? : (k : Kind) → Option (Elem k → Elem k → Elem k)
  | .unsigned _ => some BitVec.add
  | .signed _ => some BitVec.add
  | .real _ => some Binary.add
  | .complex _ => some Complex.add
  | .bool => none

def sub? : (k : Kind) → Option (Elem k → Elem k → Elem k)
  | .unsigned _ => some BitVec.sub
  | .signed _ => some BitVec.sub
  | .real _ => some Binary.sub
  | .complex _ => some Complex.sub
  | .bool => none

def mul? : (k : Kind) → Option (Elem k → Elem k → Elem k)
  | .unsigned _ => some BitVec.mul
  | .signed _ => some BitVec.mul
  | .real _ => some Binary.mul
  | .complex _ => some Complex.mul
  | .bool => none

/-- Floored quotient, and remainder with the sign of the divisor. -/
def divmod? : (k : Kind) → Option (Elem k → Elem k → Elem k × Elem k)
  | .unsigned _ => some Integer.divmodUnsigned
  | .signed _ => some Integer.divmodSigned
  | .real _ => some Binary.divmod
  | .complex _ => none
  | .bool => none

/-- The quotient that is not rounded to an integer. -/
def div? : (k : Kind) → Option (Elem k → Elem k → Elem k)
  | .unsigned _ => none
  | .signed _ => none
  | .real _ => some Binary.div
  | .complex _ => some Complex.div
  | .bool => none

def lt? : (k : Kind) → Option (Elem k → Elem k → Bool)
  | .unsigned _ => some BitVec.ult
  | .signed _ => some BitVec.slt
  | .real _ => some Binary.lt
  | .complex _ => some Complex.lt
  | .bool => none

def le? : (k : Kind) → Option (Elem k → Elem k → Bool)
  | .unsigned _ => some BitVec.ule
  | .signed _ => some BitVec.sle
  | .real _ => some Binary.le
  | .complex _ => some Complex.le
  | .bool => none

end Elem

/-- What is done to two elements of a kind. -/
inductive Action (k : Kind)
  /-- one element of the same kind -/
  | value (f : Elem k → Elem k → Elem k)
  /-- a truth value -/
  | test (f : Elem k → Elem k → Bool)
  /-- two elements of the same kind -/
  | pair (f : Elem k → Elem k → Elem k × Elem k)

/-- What an operation does to two elements of a kind, if it is defined there. -/
def Operation.action? (op : Operation) (k : Kind) : Option (Action k) :=
  match op with
  | .add => (Elem.add? k).map .value
  | .subtract => (Elem.sub? k).map .value
  | .multiply => (Elem.mul? k).map .value
  | .floorDivide => (Elem.divmod? k).map fun f => .value fun a b => (f a b).1
  | .remainder => (Elem.divmod? k).map fun f => .value fun a b => (f a b).2
  | .divide => (Elem.div? k).map .value
  | .less => (Elem.lt? k).map .test
  | .lessEqual => (Elem.le? k).map .test
  | .greaterEqual => (Elem.le? k).map fun f => .test fun a b => f b a
  | .greater => (Elem.lt? k).map fun f => .test fun a b => f b a
  | .divmod => (Elem.divmod? k).map .pair

end Pointwise
