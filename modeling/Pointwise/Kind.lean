import Pointwise.Named

/-!
# Kinds of elements

The kind of an element says what it is: an integer with or without sign, a binary floating-point
number, a complex number made of two of them, or a truth value.

* `Kind.index`   position in the fixed order of kinds (`Kind.ofIndex_index`);
* `Kind.name`    the spelling, with `Kind.ofName?` as its inverse;
* `Kind.size`    bytes of one element, `Kind.align` its natural alignment;
* `Kind.isInert`   kinds that appear in promotion entries but never take part in a computation;
* `Kind.storage?`  the type in which elements are stored, which all but the inert kinds have.

Complex kinds are named by their whole width: `complex64` has two parts of kind `float32`.
-/

namespace Pointwise

inductive Width
  | w8 | w16 | w32 | w64
  deriving DecidableEq, Repr

namespace Width

def bytes : Width → Nat
  | w8 => 1
  | w16 => 2
  | w32 => 4
  | w64 => 8

def bits (w : Width) : Nat := 8 * w.bytes

/-- Position among the widths, from the narrowest. -/
def index : Width → Fin 4
  | w8 => 0
  | w16 => 1
  | w32 => 2
  | w64 => 3

def max (a b : Width) : Width := if a.bytes < b.bytes then b else a

/-- The next width up. -/
def double? : Width → Option Width
  | w8 => some w16
  | w16 => some w32
  | w32 => some w64
  | w64 => none

theorem bits_eq (w : Width) : w.bits = 8 * w.bytes := rfl

theorem bits_pos (w : Width) : 0 < w.bits := by cases w <;> decide

theorem max_eq (a b : Width) : a.max b = a ∨ a.max b = b := by
  unfold max
  split
  · exact .inr rfl
  · exact .inl rfl

end Width

inductive Precision
  | half | single | double
  deriving DecidableEq, Repr

namespace Precision

def bytes : Precision → Nat
  | half => 2
  | single => 4
  | double => 8

/-- Position among the precisions, from the lowest. -/
def index : Precision → Fin 3
  | half => 0
  | single => 1
  | double => 2

def max (a b : Precision) : Precision := if a.bytes < b.bytes then b else a

theorem max_eq (a b : Precision) : a.max b = a ∨ a.max b = b := by
  unfold max
  split
  · exact .inr rfl
  · exact .inl rfl

end Precision

/-- What one element is. -/
inductive Kind
  | unsigned (width : Width)
  | signed (width : Width)
  | real (precision : Precision)
  | complex (part : Precision)
  | bool
  deriving DecidableEq, Repr

namespace Kind

/-- Every kind in the fixed order: by class, and from narrow to wide within a class. -/
def all : Vector Kind 15 :=
  #v[unsigned .w8, unsigned .w16, unsigned .w32, unsigned .w64,
     signed .w8, signed .w16, signed .w32, signed .w64,
     real .half, real .single, real .double,
     complex .half, complex .single, complex .double,
     bool]

def index : Kind → Fin 15
  | unsigned w => ⟨w.index, by omega⟩
  | signed w => ⟨4 + w.index, by omega⟩
  | real p => ⟨8 + p.index, by omega⟩
  | complex p => ⟨11 + p.index, by omega⟩
  | bool => 14

def ofIndex (i : Fin 15) : Kind := all.get i

theorem ofIndex_index (k : Kind) : ofIndex k.index = k := by
  rcases k with (_ | _ | _ | _) | (_ | _ | _ | _) | (_ | _ | _) | (_ | _ | _) | _ <;> rfl

instance : LE Kind := ⟨fun a b => a.index ≤ b.index⟩

instance : LT Kind := ⟨fun a b => a.index < b.index⟩

instance (a b : Kind) : Decidable (a ≤ b) := inferInstanceAs (Decidable (a.index ≤ b.index))

instance (a b : Kind) : Decidable (a < b) := inferInstanceAs (Decidable (a.index < b.index))

/-- Kinds sorted by their position; equal kinds stay as they were. -/
def sort (kinds : List Kind) : List Kind := kinds.mergeSort fun a b => decide (a ≤ b)

def name : Kind → String
  | unsigned .w8 => "uint8"
  | unsigned .w16 => "uint16"
  | unsigned .w32 => "uint32"
  | unsigned .w64 => "uint64"
  | signed .w8 => "int8"
  | signed .w16 => "int16"
  | signed .w32 => "int32"
  | signed .w64 => "int64"
  | real .half => "float16"
  | real .single => "float32"
  | real .double => "float64"
  | complex .half => "complex32"
  | complex .single => "complex64"
  | complex .double => "complex128"
  | bool => "bool"

/-- The name of the constant that stands for a kind. -/
def identifier : Kind → String
  | unsigned .w8 => "Uint8"
  | unsigned .w16 => "Uint16"
  | unsigned .w32 => "Uint32"
  | unsigned .w64 => "Uint64"
  | signed .w8 => "Int8"
  | signed .w16 => "Int16"
  | signed .w32 => "Int32"
  | signed .w64 => "Int64"
  | real .half => "Float16"
  | real .single => "Float32"
  | real .double => "Float64"
  | complex .half => "Complex32"
  | complex .single => "Complex64"
  | complex .double => "Complex128"
  | bool => "Bool"

instance : Named Kind := ⟨all.toList, name, fun k => Casing.lower.apply k.identifier⟩

def ofName? (s : String) : Option Kind := Named.ofName? s

/-- Bytes of one element. -/
def size : Kind → Nat
  | unsigned w => w.bytes
  | signed w => w.bytes
  | real p => p.bytes
  | complex p => 2 * p.bytes
  | bool => 1

theorem size_real (p : Precision) : (real p).size = p.bytes := rfl
theorem size_complex (p : Precision) : (complex p).size = 2 * p.bytes := rfl

/-- Alignment of one element: a complex number aligns as its parts do. -/
def align : Kind → Nat
  | complex p => p.bytes
  | k => k.size

def isUnsigned : Kind → Bool
  | unsigned _ => true
  | _ => false

def isSigned : Kind → Bool
  | signed _ => true
  | _ => false

def isInteger (k : Kind) : Bool := k.isUnsigned || k.isSigned

def isReal : Kind → Bool
  | real _ => true
  | _ => false

def isComplex : Kind → Bool
  | complex _ => true
  | _ => false

def isBool : Kind → Bool
  | bool => true
  | _ => false

/-- Half precision is known to the promotion rules, but nothing is computed in it. -/
def isInert : Kind → Bool
  | real .half => true
  | complex .half => true
  | _ => false

/-- The type in which elements are stored; inert kinds have none. -/
def storage? : Kind → Option String
  | unsigned .w8 => some "u8"
  | unsigned .w16 => some "u16"
  | unsigned .w32 => some "u32"
  | unsigned .w64 => some "u64"
  | signed .w8 => some "i8"
  | signed .w16 => some "i16"
  | signed .w32 => some "i32"
  | signed .w64 => some "i64"
  | real .half => none
  | real .single => some "f32"
  | real .double => some "f64"
  | complex .half => none
  | complex .single => some "::num_complex::Complex<f32>"
  | complex .double => some "::num_complex::Complex<f64>"
  | bool => some "bool"

theorem isNone_storage? (k : Kind) : k.storage?.isNone = k.isInert := by
  rcases k with (_ | _ | _ | _) | (_ | _ | _ | _) | (_ | _ | _) | (_ | _ | _) | _ <;> rfl

end Kind

end Pointwise
