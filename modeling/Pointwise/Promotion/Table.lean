import Pointwise.Error
import Pointwise.Operation

/-!
# The promotion table

`Kind.join? a b` is the narrowest kind that holds every value of `a` and every value of `b`, if
there is one.

* Kinds of one class join in the wider of the two.
* An unsigned integer joins a signed one in a signed kind with room for both.
* An integer joins a floating-point or complex kind through the lowest precision that holds every
  integer of its width; no precision holds those of 64 bits.
* A real kind joins a complex one in the complex kind of the higher precision.
* Truth values join nothing.

For a family and two operand kinds, an entry names the common kind in which the computation takes
place, the kind of the result, and whether the computation can be carried out. `Entry.rule?` gives
the entry of each family that mentions the pair. An entry that is not available still names its
kinds; nothing is ever computed in them.

The table holds the rules evaluated once for every family and every pair of kinds. `lookup` reads one
cell, and is the rule itself (`lookup_eq_rule?`); `entries` lists the cells of a family with the left
kind varying slowest; `resolve` is what an operation asks for before it runs.
-/

namespace Pointwise

/-! ## the lattice of kinds -/

/-- The lowest precision that holds every integer of a width. -/
def Width.precision? : Width → Option Precision
  | .w8 => some .half
  | .w16 => some .single
  | .w32 => some .double
  | .w64 => none

namespace Kind

/-- The kind with the larger elements, the first on a tie. -/
def larger (a b : Kind) : Kind := if a.size < b.size then b else a

theorem larger_eq (a b : Kind) : a.larger b = a ∨ a.larger b = b := by
  unfold larger
  split
  · exact .inr rfl
  · exact .inl rfl

/-- The narrowest kind that holds every value of both kinds. -/
def join? : Kind → Kind → Option Kind
  | unsigned a, unsigned b => some (unsigned (a.max b))
  | signed a, signed b => some (signed (a.max b))
  | unsigned u, signed s => u.double?.map fun d => signed (d.max s)
  | signed s, unsigned u => u.double?.map fun d => signed (d.max s)
  | real a, real b => some (real (a.max b))
  | complex a, complex b => some (complex (a.max b))
  | real a, complex b => some (complex (a.max b))
  | complex a, real b => some (complex (a.max b))
  | unsigned w, real p => w.precision?.map fun q => real (q.max p)
  | signed w, real p => w.precision?.map fun q => real (q.max p)
  | real p, unsigned w => w.precision?.map fun q => real (q.max p)
  | real p, signed w => w.precision?.map fun q => real (q.max p)
  | unsigned w, complex p => w.precision?.map fun q => complex (q.max p)
  | signed w, complex p => w.precision?.map fun q => complex (q.max p)
  | complex p, unsigned w => w.precision?.map fun q => complex (q.max p)
  | complex p, signed w => w.precision?.map fun q => complex (q.max p)
  | bool, _ => none
  | _, bool => none

theorem join?_comm (a b : Kind) : join? a b = join? b a := by
  rcases a with (_ | _ | _ | _) | (_ | _ | _ | _) | (_ | _ | _) | (_ | _ | _) | _ <;>
  rcases b with (_ | _ | _ | _) | (_ | _ | _ | _) | (_ | _ | _) | (_ | _ | _) | _ <;> rfl

theorem join?_self (a : Kind) (h : a ≠ bool) : join? a a = some a := by
  rcases a with (_ | _ | _ | _) | (_ | _ | _ | _) | (_ | _ | _) | (_ | _ | _) | _ <;>
    first | rfl | exact absurd rfl h

end Kind

/-! ## entries and the rules behind them -/

/-- Whether the computation of an entry can be carried out. -/
inductive Availability
  | available
  /-- meaningful, but there is no kernel for it -/
  | notImplemented
  /-- no kind holds every value of both operands -/
  | noSafeCommonType
  deriving DecidableEq, Repr

namespace Availability

def all : List Availability := [available, notImplemented, noSafeCommonType]

def identifier : Availability → String
  | available => "Available"
  | notImplemented => "NotImplemented"
  | noSafeCommonType => "NoSafeCommonType"

/-- An availability has no other name than its spelling in documents. -/
def name (a : Availability) : String := Casing.snake.apply a.identifier

instance : Named Availability := ⟨all, name, name⟩

end Availability

/-- One cell of the promotion table. -/
structure Entry where
  family : Family
  left : Kind
  right : Kind
  common : Kind
  result : Kind
  availability : Availability
  deriving DecidableEq, Repr

namespace Entry

def isAvailable (e : Entry) : Bool := e.availability == .available

/-- The join of two kinds or, without one, the larger kind as a stand-in. -/
def nominal (left right : Kind) : Kind := (left.join? right).getD (left.larger right)

/-- The common kind of a pair, and whether anything can be computed in it: there must be a join, and
none of the three kinds may be inert. -/
def joined (left right : Kind) : Kind × Availability :=
  match left.join? right with
  | none => (left.larger right, .noSafeCommonType)
  | some common =>
    (common,
      if left.isInert || right.isInert || common.isInert then .notImplemented else .available)

/-- Sums, differences and products are taken in the join of the operands. -/
def arithmetic? (left right : Kind) : Option Entry :=
  if left.isBool || right.isBool then none
  else
    let (common, availability) := joined left right
    some ⟨.arithmetic, left, right, common, common, availability⟩

/-- Floored quotients and remainders exist for integers and real numbers only. -/
def floorRemainder? (left right : Kind) : Option Entry :=
  if left.isBool || right.isBool then none
  else
    let (common, availability) := joined left right
    let availability :=
      if left.isComplex || right.isComplex || common.isComplex then .notImplemented
      else availability
    some ⟨.floorRemainder, left, right, common, common, availability⟩

/-- The kind in which two integers of at most 32 bits are divided. -/
def quotientKind (left right : Kind) : Kind :=
  match left.larger right with
  | .unsigned w => w.precision?.elim (.unsigned w) .real
  | .signed w => w.precision?.elim (.signed w) .real
  | k => k

/-- A quotient is never an integer: two integers divide in the lowest precision that holds both, and
no kind is safe for an integer of 64 bits. -/
def trueDivide? (left right : Kind) : Option Entry :=
  if left.isBool || right.isBool then none
  else if (left.isInteger && left.size == 8) || (right.isInteger && right.size == 8) then
    let common := nominal left right
    some ⟨.trueDivide, left, right, common, common, .noSafeCommonType⟩
  else if left.isInteger && right.isInteger then
    let common := quotientKind left right
    some ⟨.trueDivide, left, right, common, common,
      if common.isInert then .notImplemented else .available⟩
  else
    let (common, availability) := joined left right
    some ⟨.trueDivide, left, right, common, common, availability⟩

/-- Operands are compared in their join, and the result is a truth value. -/
def comparison? (left right : Kind) : Option Entry :=
  if left.isBool || right.isBool then none
  else
    let (common, availability) := joined left right
    some ⟨.comparison, left, right, common, .bool, availability⟩

/-- Quotient and remainder together take two operands of one kind, an integer or a real one. -/
def divmod (left right : Kind) : Entry :=
  if left = right ∧ (left.isInteger || left = .real .single || left = .real .double) then
    ⟨.divmod, left, right, left, left, .available⟩
  else
    let common := nominal left right
    ⟨.divmod, left, right, common, common, .notImplemented⟩

/-- The entry of a family for a pair of kinds, if the family mentions the pair. -/
def rule? (family : Family) (left right : Kind) : Option Entry :=
  match family with
  | .arithmetic => arithmetic? left right
  | .floorRemainder => floorRemainder? left right
  | .trueDivide => trueDivide? left right
  | .comparison => comparison? left right
  | .divmod => some (divmod left right)

end Entry

/-! ## the table -/

namespace Promotion

/-- A table with one cell for each family, left kind and right kind. -/
abbrev Table : Type := Vector (Vector (Vector (Option Entry) 15) 15) 5

/-- The table that a set of rules fills. -/
def Table.ofRules (rule? : Family → Kind → Kind → Option Entry) : Table :=
  Vector.ofFn fun f => Vector.ofFn fun l => Vector.ofFn fun r =>
    rule? (.ofIndex f) (.ofIndex l) (.ofIndex r)

/-- The cell of a family and a pair of kinds. -/
def Table.get (t : Table) (family : Family) (left right : Kind) : Option Entry :=
  t[family.index][left.index][right.index]

/-- The filled cells of a family, the left kind varying slowest. -/
def Table.entries (t : Table) (family : Family) : List Entry :=
  t[family.index].toList.flatMap fun row => row.toList.filterMap id

theorem Table.get_ofRules (rule? : Family → Kind → Kind → Option Entry) (family : Family)
    (left right : Kind) :
    (Table.ofRules rule?).get family left right = rule? family left right := by
  simp [Table.ofRules, Table.get, Family.ofIndex_index, Kind.ofIndex_index]

def table : Table := Table.ofRules Entry.rule?

/-- The cell of a family and a pair of kinds, whether it can be computed or not. -/
def lookup (family : Family) (left right : Kind) : Option Entry := table.get family left right

theorem lookup_eq_rule? (family : Family) (left right : Kind) :
    lookup family left right = Entry.rule? family left right :=
  Table.get_ofRules Entry.rule? family left right

def entries (family : Family) : List Entry := table.entries family

/-- The cells of a family that can be computed. -/
def available (family : Family) : List Entry := (entries family).filter Entry.isAvailable

/-- The entry under which an operation computes; every other pair is refused alike. -/
def resolve (op : Operation) (left right : Kind) : Except Error Entry :=
  match lookup op.family left right with
  | some e =>
    if e.isAvailable then .ok e else .error (.unsupportedOperand op.name left right)
  | none => .error (.unsupportedOperand op.name left right)

end Promotion

end Pointwise
