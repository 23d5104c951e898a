import Pointwise.Binary.Arithmetic

/-!
# Complex numbers over a floating-point format

Sums and differences are taken part by part, and the product is the plain one: each of its parts
takes two products and then their sum or difference. The order is lexicographic, real part first; no
relation holds when a part of either number is not a number.

The quotient is computed after scaling by the larger part of the divisor, so that no intermediate
square overflows (`scaledQuotient`). When both parts of that come out as not a number, three cases
still have a definite answer (`recover?`):

* a divisor of two zeros, when the dividend is not wholly undefined, gives infinities with the sign
  of the divisor's real part;
* an infinite dividend over a finite divisor gives a multiple of infinity;
* a finite dividend over an infinite divisor gives a multiple of zero.

In the last two, the parts of the infinite operand are replaced by one where they are infinite and
by zero where they are not, with their signs, before the product with the conjugate is formed.
-/

namespace Pointwise

/-- A complex number with floating-point parts. -/
structure Complex (f : Format) where
  re : Binary f
  im : Binary f
  deriving DecidableEq

namespace Complex
variable {f : Format}

/-- A real number, with a positive zero as imaginary part. -/
def ofReal (x : Binary f) : Complex f := ⟨x, .zero false⟩

def add (a b : Complex f) : Complex f := ⟨a.re.add b.re, a.im.add b.im⟩

def sub (a b : Complex f) : Complex f := ⟨a.re.sub b.re, a.im.sub b.im⟩

def mul (a b : Complex f) : Complex f :=
  ⟨(a.re.mul b.re).sub (a.im.mul b.im), (a.re.mul b.im).add (a.im.mul b.re)⟩

/-! ### order -/

def hasNaN (a : Complex f) : Bool := a.re.isNaN || a.im.isNaN

/-- The lexicographic order whose last step is the given relation. -/
def lexicographic (last : Binary f → Binary f → Bool) (a b : Complex f) : Bool :=
  !a.hasNaN && !b.hasNaN && (a.re.lt b.re || (a.re.eq b.re && last a.im b.im))

def lt : Complex f → Complex f → Bool := lexicographic Binary.lt

def le : Complex f → Complex f → Bool := lexicographic Binary.le

/-! ### division -/

/-- The quotient of `n` by `d`, scaled by the larger part of `d`. -/
def scaledQuotient (n d : Complex f) : Complex f :=
  if d.im.abs.le d.re.abs then
    let ratio := d.im.div d.re
    let den := d.re.add (d.im.mul ratio)
    ⟨(n.re.add (n.im.mul ratio)).div den, (n.im.sub (n.re.mul ratio)).div den⟩
  else
    let ratio := d.re.div d.im
    let den := (d.re.mul ratio).add d.im
    ⟨((n.re.mul ratio).add n.im).div den, ((n.im.mul ratio).sub n.re).div den⟩

/-- One for an infinite number and zero for any other, with its sign. -/
def boxed (x : Binary f) : Binary f :=
  (if x.isInfinite then Binary.one else .zero false).copySign x

/-- The number `n` times the conjugate of `d`, part by part. -/
def mulConjugate (n d : Complex f) : Complex f :=
  ⟨(n.re.mul d.re).add (n.im.mul d.im), (n.im.mul d.re).sub (n.re.mul d.im)⟩

def scale (s : Binary f) (a : Complex f) : Complex f := ⟨s.mul a.re, s.mul a.im⟩

def isZero (a : Complex f) : Bool := a.re.eq (.zero false) && a.im.eq (.zero false)

def isInfinite (a : Complex f) : Bool := a.re.isInfinite || a.im.isInfinite

def isFinite (a : Complex f) : Bool := a.re.isFinite && a.im.isFinite

/-- The quotient where the scaled one is undefined but a limit is not. -/
def recover? (n d : Complex f) : Option (Complex f) :=
  if d.isZero && (!n.re.isNaN || !n.im.isNaN) then
    some (scale (.infinite d.re.isNegative) n)
  else if n.isInfinite && d.isFinite then
    some (scale (.infinite false) (mulConjugate ⟨boxed n.re, boxed n.im⟩ d))
  else if d.isInfinite && n.isFinite then
    some (scale (.zero false) (mulConjugate n ⟨boxed d.re, boxed d.im⟩))
  else none

/-- The quotient of two complex numbers. -/
def div (n d : Complex f) : Complex f :=
  let q := scaledQuotient n d
  if q.re.isNaN && q.im.isNaN then (recover? n d).getD q else q

end Complex

end Pointwise
