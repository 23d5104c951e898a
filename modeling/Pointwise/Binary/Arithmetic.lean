import Pointwise.Binary.Basic

/-!
# Arithmetic of binary floating-point numbers

Each operation takes the exact result on finite numbers, as an integer or a fraction of quanta, and
rounds it once. A result that is not defined is the positive not-a-number.

* An exact sum of zero is positive unless both terms are negative.
* Products and quotients have the product of the signs.
* `rem` is the remainder of the truncated quotient, with the sign of the dividend; it is exact.
* `floor` keeps the sign of a zero.

`divmod v w` is the quotient of `v` by `w` brought to an integer, and a remainder with the sign of
`w`. The remainder starts from the truncated one, which is exact, and is moved by `w` when it has the
other sign; a zero remainder takes the sign of `w`. The dividend less the remainder is a multiple of
`w`, but the difference and its quotient by `w` are rounded, so the quotient is close to integral
rather than integral: it is brought to the nearest integer. A zero quotient takes the sign of the
true one.
-/

namespace Pointwise

namespace Binary
variable {f : Format}

def add : Binary f → Binary f → Binary f
  | nan _, _ => nan false
  | _, nan _ => nan false
  | infinite s, infinite t => if s = t then infinite s else nan false
  | infinite s, finite .. => infinite s
  | finite .., infinite t => infinite t
  | finite s j _, finite t k _ =>
    ofQuanta (s && t) (signed s (f.quanta j) + signed t (f.quanta k)) 1

def sub (x y : Binary f) : Binary f := add x y.neg

def mul : Binary f → Binary f → Binary f
  | nan _, _ => nan false
  | _, nan _ => nan false
  | infinite s, infinite t => infinite (s ^^ t)
  | infinite s, finite t k _ => if k = 0 then nan false else infinite (s ^^ t)
  | finite s j _, infinite t => if j = 0 then nan false else infinite (s ^^ t)
  | finite s j _, finite t k _ => round (s ^^ t) (f.quanta j * f.quanta k) f.unit

def div : Binary f → Binary f → Binary f
  | nan _, _ => nan false
  | _, nan _ => nan false
  | infinite _, infinite _ => nan false
  | infinite s, finite t _ _ => infinite (s ^^ t)
  | finite s _ _, infinite t => zero (s ^^ t)
  | finite s j _, finite t k _ =>
    if k = 0 then if j = 0 then nan false else infinite (s ^^ t)
    else round (s ^^ t) (f.quanta j * f.unit) (f.quanta k)

/-- The remainder of the truncated quotient. -/
def rem : Binary f → Binary f → Binary f
  | nan _, _ => nan false
  | _, nan _ => nan false
  | infinite _, _ => nan false
  | finite s j h, infinite _ => finite s j h
  | finite s j _, finite _ k _ =>
    if k = 0 then nan false else round s (f.quanta j % f.quanta k) 1

/-- The largest integral number that is not above. -/
def floor : Binary f → Binary f
  | nan s => nan s
  | infinite s => infinite s
  | finite s k _ => ofQuanta s ((signed s (f.quanta k)).fdiv f.unit * f.unit) 1

/-! ### floor division -/

/-- The integral number nearest to a number that is close to integral. -/
def snap (x : Binary f) : Binary f :=
  let below := x.floor
  if lt half (sub x below) then add below one else below

/-- Integral quotient, and remainder with the sign of the divisor. -/
def divmod (v w : Binary f) : Binary f × Binary f :=
  let truncated := rem v w
  let quotient := div (sub v truncated) w
  let (quotient, remainder) :=
    if eq truncated (zero false) then (quotient, copySign (zero false) w)
    else if lt w (zero false) != lt truncated (zero false) then
      (sub quotient one, add truncated w)
    else (quotient, truncated)
  (if eq quotient (zero false) then copySign (zero false) (div v w) else snap quotient, remainder)

end Binary

end Pointwise
