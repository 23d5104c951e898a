import Pointwise.Buffer
import Pointwise.Complex
import Pointwise.Kind

/-!
# Elements

The values of each kind: words for integers, with the sign in the kind, and floating-point, complex
and truth values for the others.

Casts from one kind to another (`Elem.cast?`):

* To an integer kind, an integer is reduced modulo two to the width, and a floating-point number is
  truncated and clamped to the range.
* To a real kind, an integer or floating-point number is rounded once.
* To a complex kind, a real value becomes the real part, and the imaginary part is a positive zero.
* A complex number goes only to a complex kind of at least its precision, part by part.
* Truth values are not cast.

In memory an element of kind `k` takes `k.size` bytes. Integers and floating-point words are stored
with the lowest byte first, a complex number as its real part and then its imaginary part, and a truth
value as one byte. Element `i` of a buffer that starts at byte `start` begins at `start + i * k.size`,
at any alignment.
-/

namespace Pointwise

def Precision.format : Precision → Format
  | .half => .half
  | .single => .single
  | .double => .double

/-- The values of a kind. -/
def Elem : Kind → Type
  | .unsigned w => BitVec w.bits
  | .signed w => BitVec w.bits
  | .real p => Binary p.format
  | .complex p => Complex p.format
  | .bool => Bool

instance Elem.decidableEq : (k : Kind) → DecidableEq (Elem k)
  | .unsigned w => inferInstanceAs (DecidableEq (BitVec w.bits))
  | .signed w => inferInstanceAs (DecidableEq (BitVec w.bits))
  | .real p => inferInstanceAs (DecidableEq (Binary p.format))
  | .complex p => inferInstanceAs (DecidableEq (Complex p.format))
  | .bool => inferInstanceAs (DecidableEq Bool)

/-! ## casts -/

namespace Elem

/-- How an integer becomes an element. -/
def ofInt? : (k : Kind) → Option (Int → Elem k)
  | .unsigned w => some fun i => BitVec.ofInt w.bits i
  | .signed w => some fun i => BitVec.ofInt w.bits i
  | .real _ => some fun i => Binary.ofInt i
  | .complex _ => some fun i => Complex.ofReal (Binary.ofInt i)
  | .bool => none

/-- How a floating-point number becomes an element. -/
def ofBinary? {f : Format} : (k : Kind) → Option (Binary f → Elem k)
  | .unsigned w => some fun x => BitVec.ofInt w.bits (x.truncate 0 (BitVec.allOnes w.bits).toNat)
  | .signed w => some fun x =>
    BitVec.ofInt w.bits (x.truncate (BitVec.intMin w.bits).toInt (BitVec.intMax w.bits).toInt)
  | .real p => some fun x => x.convert p.format
  | .complex p => some fun x => Complex.ofReal (x.convert p.format)
  | .bool => none

/-- How a complex number of a precision becomes an element. -/
def ofComplex? (p : Precision) : (k : Kind) → Option (Complex p.format → Elem k)
  | .complex q =>
    if p.bytes ≤ q.bytes then some fun z => ⟨z.re.convert q.format, z.im.convert q.format⟩
    else none
  | _ => none

/-- The cast from one kind to another, if there is one. -/
def cast? : (source target : Kind) → Option (Elem source → Elem target)
  | .unsigned _, k => (ofInt? k).map fun g x => g (BitVec.toNat x)
  | .signed _, k => (ofInt? k).map fun g x => g (BitVec.toInt x)
  | .real _, k => ofBinary? k
  | .complex p, k => ofComplex? p k
  | .bool, _ => none

/-! ## elements in memory -/

/-- The bytes of an element. -/
def encode : (k : Kind) → Elem k → List UInt8
  | .unsigned w, x => littleEndian w.bytes (BitVec.toNat x)
  | .signed w, x => littleEndian w.bytes (BitVec.toNat x)
  | .real p, x => littleEndian p.bytes (Binary.toWord x)
  | .complex p, z =>
    littleEndian p.bytes (Complex.re z).toWord ++ littleEndian p.bytes (Complex.im z).toWord
  | .bool, b => littleEndian 1 (Bool.toNat b)

def decode : (k : Kind) → List UInt8 → Elem k
  | .unsigned w, bytes => BitVec.ofNat w.bits (ofLittleEndian bytes)
  | .signed w, bytes => BitVec.ofNat w.bits (ofLittleEndian bytes)
  | .real _, bytes => Binary.ofWord (ofLittleEndian bytes)
  | .complex p, bytes =>
    ⟨Binary.ofWord (ofLittleEndian (bytes.take p.bytes)),
      Binary.ofWord (ofLittleEndian (bytes.drop p.bytes))⟩
  | .bool, bytes => ofLittleEndian bytes != 0

theorem length_encode (k : Kind) (x : Elem k) : (encode k x).length = k.size := by
  rcases k with w | w | p | p | _ <;>
    simp [encode, length_littleEndian, Kind.size]
  omega

/-- The element at an index. -/
def load? (k : Kind) (b : Buffer) (start i : Nat) : Option (Elem k) :=
  (b.read? (start + i * k.size) k.size).map (decode k)

/-- The buffer with an element put at an index. -/
def store? (k : Kind) (b : Buffer) (start i : Nat) (x : Elem k) : Option Buffer :=
  b.write? (start + i * k.size) (encode k x)

/-- A buffer that holds the given elements and no more. -/
def toBuffer (k : Kind) (xs : List (Elem k)) : Buffer := (xs.flatMap (encode k)).toArray

/-- The first elements of a buffer. -/
def ofBuffer (k : Kind) (count : Nat) (b : Buffer) : List (Elem k) :=
  (List.range count).map fun i => decode k (b.bytesAt (i * k.size) k.size)

end Elem

end Pointwise
