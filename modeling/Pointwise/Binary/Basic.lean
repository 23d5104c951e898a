import Pointwise.Binary.Format

/-!
# Binary floating-point numbers

A number of a format is finite, infinite or not a number; each has a sign. A finite number is a
sign and the rank of its magnitude, so every value has one representation, and the two zeros differ
in their sign only. What a not-a-number carries beside its sign is not kept.

* `Binary.round`     the number nearest to a fraction of quanta, infinite above the largest;
* `Binary.order?`    position on the extended line, the two zeros at one place; it decides all
  comparisons;
* `Binary.copySign`  the magnitude of one number with the sign of another;
* `Binary.convert`   the nearest number of another format, and `Binary.truncate` the integral part
  clamped to a range;
* `Binary.toWord`, `Binary.ofWord`   the words that store a number: sign, then magnitude.
-/

namespace Pointwise

/-- A floating-point number of the given format. -/
inductive Binary (f : Format)
  | nan (negative : Bool)
  | infinite (negative : Bool)
  | finite (negative : Bool) (rank : Nat) (lt_top : rank < f.top)
  deriving DecidableEq

/-- An integer from its sign and its magnitude. -/
def signed (negative : Bool) (magnitude : Nat) : Int := if negative then -magnitude else magnitude

theorem signed_true (n : Nat) : signed true n = -n := rfl
theorem signed_false (n : Nat) : signed false n = n := rfl
theorem signed_zero (s : Bool) : signed s 0 = 0 := by cases s <;> rfl

namespace Binary
variable {f : Format}

/-! ### construction -/

/-- The number of a sign and a rank; every rank from the top on is infinite. -/
def ofRank (negative : Bool) (rank : Nat) : Binary f :=
  if h : rank < f.top then finite negative rank h else infinite negative

/-- The number nearest to `n / d` quanta with the given sign. -/
def round (negative : Bool) (n d : Nat) : Binary f := ofRank negative (f.nearest n d)

/-- The number nearest to `z / d` quanta; the sign is used for an exact zero. -/
def ofQuanta (negative : Bool) (z : Int) (d : Nat) : Binary f :=
  if z = 0 then round negative 0 d else round (decide (z < 0)) z.natAbs d

def zero (negative : Bool) : Binary f := finite negative 0 f.top_pos

/-- The number nearest to an integer. -/
def ofInt (i : Int) : Binary f := ofQuanta false (i * f.unit) 1

def one : Binary f := ofInt 1

def half : Binary f := round false f.unit 2

theorem round_zero (s : Bool) (d : Nat) : (round s 0 d : Binary f) = zero s := by
  simp [round, ofRank, zero, f.nearest_zero, f.top_pos]

/-! ### classes and signs -/

def isNaN : Binary f → Bool
  | nan _ => true
  | _ => false

def isInfinite : Binary f → Bool
  | infinite _ => true
  | _ => false

def isFinite : Binary f → Bool
  | finite .. => true
  | _ => false

def isNegative : Binary f → Bool
  | nan s => s
  | infinite s => s
  | finite s .. => s

def withSign (negative : Bool) : Binary f → Binary f
  | nan _ => nan negative
  | infinite _ => infinite negative
  | finite _ k h => finite negative k h

def neg (x : Binary f) : Binary f := x.withSign (!x.isNegative)

def abs (x : Binary f) : Binary f := x.withSign false

/-- The magnitude of the first number with the sign of the second. -/
def copySign (x y : Binary f) : Binary f := x.withSign y.isNegative

theorem isNegative_withSign (s : Bool) (x : Binary f) : (x.withSign s).isNegative = s := by
  cases x <;> rfl

protected theorem neg_neg (x : Binary f) : x.neg.neg = x := by
  cases x <;> simp [neg, withSign, isNegative]

/-! ### order -/

/-- Position on the extended line, counted in ranks from zero. -/
def order? : Binary f → Option Int
  | nan _ => none
  | infinite s => some (signed s f.top)
  | finite s k _ => some (signed s k)

/-- Two numbers in a relation that is decided by their positions; it never holds of a
not-a-number. -/
def related (r : Int → Int → Bool) (x y : Binary f) : Bool :=
  match x.order?, y.order? with
  | some a, some b => r a b
  | _, _ => false

def lt : Binary f → Binary f → Bool := related fun a b => decide (a < b)

def le : Binary f → Binary f → Bool := related fun a b => decide (a ≤ b)

/-- Equal in value: the zeros are equal, and a not-a-number equals nothing. -/
def eq : Binary f → Binary f → Bool := related fun a b => decide (a = b)

/-! ### conversions -/

/-- The nearest number of another format. -/
def convert (g : Format) : Binary f → Binary g
  | nan s => nan s
  | infinite s => infinite s
  | finite s k _ => round s (f.quanta k * g.unit) f.unit

/-- The integral part within the bounds `low` and `high`; a not-a-number counts as zero. -/
def truncate (low high : Int) : Binary f → Int
  | nan _ => 0
  | infinite s => if s then low else high
  | finite s k _ => max low (min high (signed s (f.quanta k / f.unit)))

/-! ### stored words -/

/-- The stored magnitude; a not-a-number is a quiet one. -/
def magnitude : Binary f → Nat
  | nan _ => f.top + 1 <<< (f.fractionBits - 1)
  | infinite _ => f.top
  | finite _ k _ => k

def toWord (x : Binary f) : Nat := x.isNegative.toNat <<< f.magnitudeBits + x.magnitude

def ofMagnitude (negative : Bool) (m : Nat) : Binary f :=
  if f.top < m then nan negative else ofRank negative m

def ofWord (w : Nat) : Binary f :=
  ofMagnitude (w.testBit f.magnitudeBits) (w % 1 <<< f.magnitudeBits)

end Binary

end Pointwise
