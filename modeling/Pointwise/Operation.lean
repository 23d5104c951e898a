import Pointwise.Named

/-!
# Operations and their families

An operation combines two elements; operations of one family share their promotion rules.
Quotient and remainder together (`divmod`) have two outputs, every other operation has one.
-/

namespace Pointwise

/-- Operations that promote their operands alike. -/
inductive Family
  | arithmetic | floorRemainder | trueDivide | comparison | divmod
  deriving DecidableEq, Repr

namespace Family

def all : Vector Family 5 := #v[arithmetic, floorRemainder, trueDivide, comparison, divmod]

def index : Family → Fin 5
  | arithmetic => 0
  | floorRemainder => 1
  | trueDivide => 2
  | comparison => 3
  | divmod => 4

def ofIndex (i : Fin 5) : Family := all.get i

theorem ofIndex_index (f : Family) : ofIndex f.index = f := by cases f <;> rfl

def name : Family → String
  | arithmetic => "arithmetic"
  | floorRemainder => "floor_remainder"
  | trueDivide => "true_divide"
  | comparison => "comparison"
  | divmod => "divmod"

def identifier : Family → String
  | arithmetic => "Arithmetic"
  | floorRemainder => "FloorRemainder"
  | trueDivide => "TrueDivide"
  | comparison => "Comparison"
  | divmod => "Divmod"

instance : Named Family := ⟨all.toList, name, fun f => Casing.snake.apply f.identifier⟩

end Family

/-- An operation on two elements. -/
inductive Operation
  | add | subtract | multiply
  | floorDivide | remainder
  | divide
  | less | lessEqual | greaterEqual | greater
  | divmod
  deriving DecidableEq, Repr

namespace Operation

def all : List Operation :=
  [add, subtract, multiply, floorDivide, remainder, divide,
   less, lessEqual, greaterEqual, greater, divmod]

theorem mem_all (op : Operation) : op ∈ all := by cases op <;> decide

def name : Operation → String
  | add => "add"
  | subtract => "subtract"
  | multiply => "multiply"
  | floorDivide => "floor_divide"
  | remainder => "remainder"
  | divide => "divide"
  | less => "less"
  | lessEqual => "less_equal"
  | greaterEqual => "greater_equal"
  | greater => "greater"
  | divmod => "divmod"

def identifier : Operation → String
  | add => "Add"
  | subtract => "Subtract"
  | multiply => "Multiply"
  | floorDivide => "FloorDivide"
  | remainder => "Remainder"
  | divide => "Divide"
  | less => "Less"
  | lessEqual => "LessEqual"
  | greaterEqual => "GreaterEqual"
  | greater => "Greater"
  | divmod => "Divmod"

instance : Named Operation := ⟨all, name, fun op => Casing.snake.apply op.identifier⟩

def ofName? (s : String) : Option Operation := Named.ofName? s

def family : Operation → Family
  | add | subtract | multiply => .arithmetic
  | floorDivide | remainder => .floorRemainder
  | divide => .trueDivide
  | less | lessEqual | greaterEqual | greater => .comparison
  | divmod => .divmod

/-- Outputs per pair of elements. -/
def outputs : Operation → Nat
  | divmod => 2
  | _ => 1

end Operation

end Pointwise
