import Pointwise.Proofs.Element.Codec
import Pointwise.Proofs.Element.Order

/-!
# Elements stored and loaded

An element that is stored at an index, at any alignment, is loaded from there, and all that lies beside
its bytes is as it was. An element that is loaded and stored back leaves its bytes as they were: all of
them, unless it holds a NaN, which keeps its sign and loses its payload, or is a truth value in a byte
other than 0 and 1.

* `Elem.encode_decode`   bytes from the element they make up;
* `Elem.Stored`, `stored_put`   what storing an element does to a buffer;
* `Elem.load_store`   elements loaded after they are stored, and stored after they are loaded.
-/

namespace Pointwise

/-! ### bytes decoded and encoded again -/

/-- Bytes of one number that differ at most in the payload of a NaN. -/
def Precision.SameBytes (p : Precision) (s t : List UInt8) : Prop :=
  s = t ∨ p.format.IsNaN (ofLittleEndian s) ∧ p.format.IsNaN (ofLittleEndian t) ∧
    (ofLittleEndian s).testBit p.format.magnitudeBits
      = (ofLittleEndian t).testBit p.format.magnitudeBits

namespace Elem

/-- Bytes that storing an element can leave: a truth value is the byte 0 or 1. -/
def Valid (k : Kind) (bytes : List UInt8) : Prop := k = .bool → bytes = [0] ∨ bytes = [1]

def SameBytes : (k : Kind) → (s t : List UInt8) → Prop
  | .real p, s, t => p.SameBytes s t
  | .complex p, s, t =>
    p.SameBytes (s.take p.bytes) (t.take p.bytes) ∧ p.SameBytes (s.drop p.bytes) (t.drop p.bytes)
  | _, s, t => s = t

theorem sameBytes_word (p : Precision) {bytes : List UInt8} (len : bytes.length = p.bytes) :
    p.SameBytes bytes
      (littleEndian p.bytes (Binary.ofWord (ofLittleEndian bytes) : Binary p.format).toWord) := by
  by_cases h : p.format.IsNaN (ofLittleEndian bytes)
  · right
    have hw := (Binary.ofWord (ofLittleEndian bytes) : Binary p.format).toWord_lt
    rw [p.magnitudeBits_format] at hw
    rw [ofLittleEndian_littleEndian hw, Binary.ofWord_of_isNaN h, Binary.testBit_toWord]
    exact ⟨h, Binary.isNaN_toWord _, rfl⟩
  · left
    have hw := ofLittleEndian_lt bytes
    rw [len, ← p.magnitudeBits_format] at hw
    rw [Binary.toWord_ofWord hw h, ← len, littleEndian_ofLittleEndian]

theorem littleEndian_ofNat (w : Width) {bytes : List UInt8} (len : bytes.length = w.bytes) :
    littleEndian w.bytes (BitVec.ofNat w.bits (ofLittleEndian bytes)).toNat = bytes := by
  have hw := ofLittleEndian_lt bytes
  rw [len, Nat.one_shiftLeft] at hw
  rw [BitVec.toNat_ofNat, Width.bits_eq, Nat.mod_eq_of_lt hw, ← len, littleEndian_ofLittleEndian]

/-- The bytes of an element are made again of it, but for the payloads of NaNs. -/
theorem encode_decode {k : Kind} {bytes : List UInt8} (len : bytes.length = k.size)
    (valid : Valid k bytes) : SameBytes k bytes (encode k (decode k bytes)) := by
  cases k with
  | unsigned w => exact (littleEndian_ofNat w len).symm
  | signed w => exact (littleEndian_ofNat w len).symm
  | real p => exact sameBytes_word p len
  | complex p =>
    have len : bytes.length = 2 * p.bytes := len
    have re : (bytes.take p.bytes).length = p.bytes := by
      rw [List.length_take]
      omega
    have im : (bytes.drop p.bytes).length = p.bytes := by
      rw [List.length_drop]
      omega
    show p.SameBytes _ ((littleEndian _ _ ++ littleEndian _ _).take _) ∧
      p.SameBytes _ ((littleEndian _ _ ++ littleEndian _ _).drop _)
    rw [List.take_left' (length_littleEndian _ _), List.drop_left' (length_littleEndian _ _)]
    exact ⟨sameBytes_word p re, sameBytes_word p im⟩
  | bool => rcases valid rfl with rfl | rfl <;> rfl

theorem eq_of_sameBytes_word {p : Precision} {s t : List UInt8} (h : p.SameBytes s t)
    (number : (Binary.ofWord (ofLittleEndian s) : Binary p.format).number ≠ .nan) : s = t := by
  rcases h with same | ⟨nan, -⟩
  · exact same
  · rw [Binary.ofWord_of_isNaN nan] at number
    exact absurd rfl number

/-- Without a NaN there is no payload to differ in. -/
theorem eq_of_sameBytes {k : Kind} {s t : List UInt8} (h : SameBytes k s t)
    (numbers : ¬ HasNaN k (decode k s)) : s = t := by
  cases k with
  | unsigned w => exact h
  | signed w => exact h
  | real p => exact eq_of_sameBytes_word h fun hn => numbers (.inl hn)
  | complex p =>
    have re := eq_of_sameBytes_word h.1 fun hn => numbers (.inl hn)
    have im := eq_of_sameBytes_word h.2 fun hn => numbers (.inr hn)
    rw [← List.take_append_drop p.bytes s, re, im, List.take_append_drop]
  | bool => exact h

/-! ### accesses to a buffer -/

def bytesOf (k : Kind) (b : Buffer) (start i : Nat) : List UInt8 :=
  b.bytesAt (start + i * k.size) k.size

/-- What storing an element does: its bytes are where it is loaded from, and the elements at other
indices and all other bytes are as they were. -/
structure Stored (k : Kind) (before : Buffer) (start i : Nat) (x : Elem k) (after : Buffer) :
    Prop where
  size : after.size = before.size
  bytes : bytesOf k after start i = encode k x
  loaded : load? k after start i = some x
  others : ∀ j, j ≠ i → load? k after start j = load? k before start j
  outside : ∀ n, n < start + i * k.size ∨ start + (i + 1) * k.size ≤ n → after[n]? = before[n]?

variable {k : Kind} {b : Buffer} {start i : Nat}

theorem apart_of_ne (k : Kind) (start : Nat) {i j : Nat} (h : j ≠ i) :
    start + j * k.size + k.size ≤ start + i * k.size ∨
      start + i * k.size + k.size ≤ start + j * k.size := by
  rcases Nat.lt_or_gt_of_ne h with before | after
  · have hle := run_le_of_lt before k.size
    omega
  · have hle := run_le_of_lt after k.size
    omega

theorem load?_put_of_ne (x : Elem k) {j : Nat} (h : j ≠ i) :
    load? k (b.put (start + i * k.size) (encode k x)) start j = load? k b start j := by
  have apart := apart_of_ne k start h
  have len := length_encode k x
  unfold load? Buffer.read?
  rw [Buffer.size_put, Buffer.bytesAt_put_of_apart b (by rwa [len])]

theorem stored_put (x : Elem k) (fits : start + (i + 1) * k.size ≤ b.size) :
    Stored k b start i x (b.put (start + i * k.size) (encode k x)) := by
  have len := length_encode k x
  have room : start + i * k.size + (encode k x).length ≤ b.size := by
    rw [len, Nat.add_assoc, ← Nat.succ_mul]
    exact fits
  have bytes := Buffer.bytesAt_put_self room
  rw [len] at bytes
  refine ⟨Buffer.size_put _ _ _, bytes, ?_, fun j hj => load?_put_of_ne x hj, fun n hn => ?_⟩
  · rw [load?_eq_peek (by rwa [Buffer.size_put])]
    unfold peek
    rw [bytes, decode_encode]
  · rw [Nat.succ_mul, ← Nat.add_assoc] at hn
    exact Buffer.getElem?_put_of_outside b _ _ (by rwa [len])

/-- **An element is loaded where it was stored, and stored back where it was loaded**: at any alignment,
storing changes the bytes of that element and nothing else, and an element that was loaded brings its
bytes back, but for the payloads of NaNs. -/
theorem load_store (fits : start + (i + 1) * k.size ≤ b.size) :
    (∀ x, ∃ after, store? k b start i x = some after ∧ Stored k b start i x after) ∧
    ∃ x, load? k b start i = some x ∧
      ∃ after, store? k b start i x = some after ∧
        (Valid k (bytesOf k b start i) →
          SameBytes k (bytesOf k b start i) (bytesOf k after start i) ∧
          (¬ HasNaN k x → after = b)) := by
  constructor
  · intro x
    exact ⟨_, store?_eq_put x fits, stored_put x fits⟩
  · refine ⟨_, load?_eq_peek fits, _, store?_eq_put _ fits, fun valid => ?_⟩
    have room : start + i * k.size + k.size ≤ b.size := by
      rwa [Nat.add_assoc, ← Nat.succ_mul]
    have same := encode_decode (Buffer.length_bytesAt room) valid
    constructor
    · rw [(stored_put _ fits).bytes]
      exact same
    · intro numbers
      unfold peek
      rw [← eq_of_sameBytes same numbers]
      exact Buffer.put_bytesAt room

/-- A complex number that starts at an odd byte: a NaN and an infinity are stored between the bytes 7 and
9, and the number that was there comes back as it was. -/
theorem complex64_load_store :
    (∃ after, store? (.complex .single) #[7, 0, 0, 128, 63, 0, 0, 128, 191, 9] 1 0
        ⟨.nan true, .infinite false⟩ = some after ∧
      load? (.complex .single) after 1 0 = some ⟨.nan true, .infinite false⟩ ∧
      after[0]? = some 7 ∧ after[9]? = some 9) ∧
    ∃ x, load? (.complex .single) #[7, 0, 0, 128, 63, 0, 0, 128, 191, 9] 1 0 = some x ∧
      store? (.complex .single) #[7, 0, 0, 128, 63, 0, 0, 128, 191, 9] 1 0 x
        = some #[7, 0, 0, 128, 63, 0, 0, 128, 191, 9] := by
  obtain ⟨stores, x, loads, back, hback, unchanged⟩ :=
    @load_store (.complex .single) #[7, 0, 0, 128, 63, 0, 0, 128, 191, 9] 1 0 (by decide)
  constructor
  · obtain ⟨after, hafter, stored⟩ := stores ⟨.nan true, .infinite false⟩
    exact ⟨after, hafter, stored.loaded, stored.outside 0 (.inl (by decide)),
      stored.outside 9 (.inr (by decide))⟩
  · have numbers : ¬ HasNaN (.complex .single) x := by
      have hx : Complex.hasNaN x = false := by
        obtain rfl := Option.some.inj loads
        decide
      intro hn
      exact Bool.eq_false_iff.mp hx (hasNaN_complex_iff.mp hn)
    obtain rfl := (unchanged nofun).2 numbers
    exact ⟨x, loads, hback⟩

end Elem

end Pointwise
