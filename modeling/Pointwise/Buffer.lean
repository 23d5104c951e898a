/-!
# Byte buffers

Naturals as little-endian bytes, and reading and writing runs of bytes inside a buffer.

* `littleEndian`, `ofLittleEndian`   a natural as a given number of bytes, the lowest first;
* `Buffer.read?`, `Buffer.write?`    access to a run of bytes, refused where it leaves the buffer.
-/

namespace Pointwise

/-- The lowest bytes of a natural, the lowest first. -/
def littleEndian : Nat → Nat → List UInt8
  | 0, _ => []
  | count + 1, n => UInt8.ofNat n :: littleEndian count (n / 256)

/-- The natural with the given bytes, the lowest first. -/
def ofLittleEndian : List UInt8 → Nat
  | [] => 0
  | b :: bytes => b.toNat + 256 * ofLittleEndian bytes

theorem littleEndian_succ (count n : Nat) :
    littleEndian (count + 1) n = UInt8.ofNat n :: littleEndian count (n / 256) := rfl
theorem ofLittleEndian_cons (b : UInt8) (bytes : List UInt8) :
    ofLittleEndian (b :: bytes) = b.toNat + 256 * ofLittleEndian bytes := rfl

theorem length_littleEndian (count n : Nat) : (littleEndian count n).length = count := by
  induction count generalizing n with
  | zero => rfl
  | succ count ih => rw [littleEndian_succ, List.length_cons, ih]

/-- A stretch of memory. -/
abbrev Buffer : Type := Array UInt8

namespace Buffer

/-- The bytes of a run, as far as they lie in the buffer. -/
def bytesAt (b : Buffer) (start count : Nat) : List UInt8 :=
  (b.extract start (start + count)).toList

/-- The bytes of a run that lies in the buffer. -/
def read? (b : Buffer) (start count : Nat) : Option (List UInt8) :=
  if start + count ≤ b.size then some (b.bytesAt start count) else none

/-- The buffer with a run of bytes put in, as far as they fit. -/
def put (b : Buffer) (start : Nat) : List UInt8 → Buffer
  | [] => b
  | x :: bytes => put (b.setIfInBounds start x) (start + 1) bytes

/-- The buffer with a run of bytes put in that fits. -/
def write? (b : Buffer) (start : Nat) (bytes : List UInt8) : Option Buffer :=
  if start + bytes.length ≤ b.size then some (b.put start bytes) else none

theorem size_put (b : Buffer) (start : Nat) (bytes : List UInt8) :
    (b.put start bytes).size = b.size := by
  induction bytes generalizing b start with
  | nil => rfl
  | cons x bytes ih => rw [put, ih, Array.size_setIfInBounds]

end Buffer

end Pointwise
