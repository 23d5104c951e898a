/-!
# Floor division of fixed-width integers

The quotient is rounded down and the remainder has the sign of the divisor. A zero divisor gives
two zeros, and so does no harm; the least signed number over minus one, whose true quotient does not
fit, gives itself and no remainder.

Division of signed numbers starts from the truncated quotient and corrects it by one where a
remainder has the other sign. It is written over the arithmetic `Steps` that it takes: `wrapping`
steps always have a result, `checked` steps have none where the exact result does not fit. Minus one
is such a step too, and is taken only for the least number.
-/

namespace Pointwise

namespace Integer
variable {w : Nat} {m : Type → Type} [Monad m]

structure Steps (w : Nat) (m : Type → Type) where
  quotient : BitVec w → BitVec w → m (BitVec w)
  remainder : BitVec w → BitVec w → m (BitVec w)
  add : BitVec w → BitVec w → m (BitVec w)
  sub : BitVec w → BitVec w → m (BitVec w)
  neg : BitVec w → m (BitVec w)

def divmodUnsignedWith (s : Steps w m) (a b : BitVec w) : m (BitVec w × BitVec w) :=
  if b = 0 then return (0, 0)
  else return (← s.quotient a b, ← s.remainder a b)

/-- The least number over minus one, whose quotient does not fit. -/
def overflowsWith (s : Steps w m) (a b : BitVec w) : m Bool := do
  if a = BitVec.intMin w then return b == (← s.neg 1)
  else return false

def divmodSignedWith (s : Steps w m) (a b : BitVec w) : m (BitVec w × BitVec w) := do
  if b = 0 then return (0, 0)
  else if ← overflowsWith s a b then return (BitVec.intMin w, 0)
  else
    let q ← s.quotient a b
    let r ← s.remainder a b
    if r ≠ 0 ∧ r.msb ≠ b.msb then return (← s.sub q 1, ← s.add r b)
    else return (q, r)

/-! ### wrapping and checked steps -/

def Steps.wrappingUnsigned : Steps w Id :=
  ⟨BitVec.udiv, BitVec.umod, BitVec.add, BitVec.sub, BitVec.neg⟩

def Steps.wrappingSigned : Steps w Id :=
  ⟨BitVec.sdiv, BitVec.srem, BitVec.add, BitVec.sub, BitVec.neg⟩

/-- A number of the width with the given unsigned value, if there is one. -/
def ofNat? (n : Nat) : Option (BitVec w) :=
  if (BitVec.ofNat w n).toNat = n then some (.ofNat w n) else none

/-- A number of the width with the given signed value, if there is one. -/
def ofInt? (i : Int) : Option (BitVec w) :=
  if (BitVec.ofInt w i).toInt = i then some (.ofInt w i) else none

/-- Unsigned steps that fail on a zero divisor and where the exact result does not fit. -/
def Steps.checkedUnsigned : Steps w Option where
  quotient a b := if b = 0 then none else ofNat? (a.toNat / b.toNat)
  remainder a b := if b = 0 then none else ofNat? (a.toNat % b.toNat)
  add a b := ofNat? (a.toNat + b.toNat)
  sub a b := if a.toNat < b.toNat then none else ofNat? (a.toNat - b.toNat)
  neg a := if a = 0 then some 0 else none

/-- Signed steps that fail on a zero divisor and where the exact result does not fit; a remainder
fails together with its quotient. -/
def Steps.checkedSigned : Steps w Option where
  quotient a b := if b = 0 then none else ofInt? (a.toInt.tdiv b.toInt)
  remainder a b :=
    if b = 0 ∨ (a = BitVec.intMin w ∧ b = -1) then none else ofInt? (a.toInt.tmod b.toInt)
  add a b := ofInt? (a.toInt + b.toInt)
  sub a b := ofInt? (a.toInt - b.toInt)
  neg a := ofInt? (-a.toInt)

def divmodUnsigned (a b : BitVec w) : BitVec w × BitVec w :=
  (divmodUnsignedWith .wrappingUnsigned a b).run

def divmodSigned (a b : BitVec w) : BitVec w × BitVec w :=
  (divmodSignedWith .wrappingSigned a b).run

end Integer

end Pointwise
