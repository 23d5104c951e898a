import Pointwise.Element.Basic
import Pointwise.Proofs.Binary.Word
import Pointwise.Proofs.Memory.Runs

/-!
# Elements as bytes

Every element is read back from its bytes, for every kind. `Elem.peek` is the element that starts at
a byte, whether or not it lies in the buffer; loading is `peek` wherever the element does.

* `decode_encode`   an element from its own bytes;
* `load?_eq_peek`, `store?_eq_put`   accesses that stay in the buffer;
* `Elem.Laid`   a list of elements in a buffer, read back by `peek_of_laid`.
-/

namespace Pointwise

theorem one_shiftLeft_byte (count : Nat) : 1 <<< (8 * (count + 1)) = 1 <<< (8 * count) * 256 := by
  rw [Nat.one_shiftLeft, Nat.one_shiftLeft, Nat.mul_succ, Nat.pow_add]

theorem ofLittleEndian_littleEndian {count n : Nat} (h : n < 1 <<< (8 * count)) :
    ofLittleEndian (littleEndian count n) = n := by
  induction count generalizing n with
  | zero =>
    have h0 : n < 1 := h
    show 0 = n
    omega
  | succ count ih =>
    have h8 := one_shiftLeft_byte count
    have hq : n / 256 < 1 <<< (8 * count) := by
      rw [h8] at h
      exact Nat.div_lt_of_lt_mul (by rwa [Nat.mul_comm])
    rw [littleEndian_succ, ofLittleEndian_cons, ih hq]
    show n % 256 + 256 * (n / 256) = n
    omega

theorem ofLittleEndian_lt (bytes : List UInt8) :
    ofLittleEndian bytes < 1 <<< (8 * bytes.length) := by
  induction bytes with
  | nil => exact Nat.one_pos
  | cons x bytes ih =>
    have hx := x.toNat_lt
    rw [ofLittleEndian_cons, List.length_cons, one_shiftLeft_byte]
    omega

theorem littleEndian_ofLittleEndian (bytes : List UInt8) :
    littleEndian bytes.length (ofLittleEndian bytes) = bytes := by
  induction bytes with
  | nil => rfl
  | cons x bytes ih =>
    have hx := x.toNat_lt
    have low : UInt8.ofNat (x.toNat + 256 * ofLittleEndian bytes) = x := by
      apply UInt8.toNat_inj.mp
      rw [UInt8.toNat_ofNat']
      omega
    have high : (x.toNat + 256 * ofLittleEndian bytes) / 256 = ofLittleEndian bytes := by omega
    rw [List.length_cons, ofLittleEndian_cons, littleEndian_succ, low, high, ih]

theorem Precision.magnitudeBits_format (p : Precision) :
    p.format.magnitudeBits + 1 = 8 * p.bytes := by
  cases p <;> rfl

namespace Elem

theorem ofWord_ofLittleEndian (p : Precision) (x : Binary p.format) :
    (Binary.ofWord (ofLittleEndian (littleEndian p.bytes x.toWord)) : Binary p.format) = x := by
  have h := x.toWord_lt
  rw [p.magnitudeBits_format] at h
  rw [ofLittleEndian_littleEndian h, Binary.ofWord_toWord]

theorem ofNat_ofLittleEndian (w : Width) (x : BitVec w.bits) :
    BitVec.ofNat w.bits (ofLittleEndian (littleEndian w.bytes x.toNat)) = x := by
  have h : x.toNat < 1 <<< (8 * w.bytes) := by
    rw [Nat.one_shiftLeft]
    exact x.isLt
  rw [ofLittleEndian_littleEndian h, BitVec.ofNat_toNat, BitVec.setWidth_eq]

/-- An element is read back from its bytes. -/
theorem decode_encode (k : Kind) (x : Elem k) : decode k (encode k x) = x := by
  cases k with
  | unsigned w => exact ofNat_ofLittleEndian w x
  | signed w => exact ofNat_ofLittleEndian w x
  | real p => exact ofWord_ofLittleEndian p x
  | complex p =>
    obtain ⟨re, im⟩ := x
    show (⟨Binary.ofWord (ofLittleEndian ((littleEndian p.bytes re.toWord
        ++ littleEndian p.bytes im.toWord).take p.bytes)),
      Binary.ofWord (ofLittleEndian ((littleEndian p.bytes re.toWord
        ++ littleEndian p.bytes im.toWord).drop p.bytes))⟩ : Complex p.format) = ⟨re, im⟩
    rw [List.take_left' (length_littleEndian _ _), List.drop_left' (length_littleEndian _ _),
      ofWord_ofLittleEndian, ofWord_ofLittleEndian]
  | bool => cases x <;> rfl

/-! ## one element in a buffer -/

def peek (k : Kind) (b : Buffer) (start i : Nat) : Elem k :=
  decode k (b.bytesAt (start + i * k.size) k.size)

theorem load?_eq_peek {k : Kind} {b : Buffer} {start i : Nat}
    (fits : start + (i + 1) * k.size ≤ b.size) : load? k b start i = some (peek k b start i) := by
  rw [Nat.succ_mul, ← Nat.add_assoc] at fits
  show (Buffer.read? b _ _).map (decode k) = _
  unfold Buffer.read?
  rw [if_pos fits]
  rfl

theorem store?_eq_put {k : Kind} {b : Buffer} {start i : Nat} (x : Elem k)
    (fits : start + (i + 1) * k.size ≤ b.size) :
    store? k b start i x = some (b.put (start + i * k.size) (encode k x)) := by
  rw [Nat.succ_mul, ← Nat.add_assoc] at fits
  unfold store? Buffer.write?
  rw [length_encode, if_pos fits]

theorem peek_congr {k : Kind} {b c : Buffer} {start i : Nat}
    (h : b.bytesAt (start + i * k.size) k.size = c.bytesAt (start + i * k.size) k.size) :
    peek k b start i = peek k c start i :=
  congrArg (decode k) h

theorem load?_shift (k : Kind) (b : Buffer) (start i : Nat) :
    load? k b (start + i * k.size) 0 = load? k b start i := by
  unfold load?
  rw [Nat.zero_mul, Nat.add_zero]

theorem store?_shift (k : Kind) (b : Buffer) (start i : Nat) (x : Elem k) :
    store? k b (start + i * k.size) 0 x = store? k b start i x := by
  unfold store?
  rw [Nat.zero_mul, Nat.add_zero]

/-! ## many elements in a buffer -/

/-- The elements lie in the buffer one after the other, the first at the byte `start`. -/
structure Laid (k : Kind) (b : Buffer) (start : Nat) (xs : List (Elem k)) : Prop where
  fits : start + xs.length * k.size ≤ b.size
  bytes : b.bytesAt start (xs.length * k.size) = xs.flatMap (encode k)

theorem peek_of_laid {k : Kind} {b : Buffer} {start : Nat} {xs : List (Elem k)}
    (h : Laid k b start xs) {i : Nat} {x : Elem k} (hx : xs[i]? = some x) :
    peek k b start i = x := by
  obtain ⟨hi, -⟩ := List.getElem?_eq_some_iff.mp hx
  have hle := run_le_of_lt hi k.size
  show decode k (b.bytesAt (start + i * k.size) k.size) = x
  rw [Buffer.bytesAt_eq_take_drop b hle, h.bytes, take_drop_flatMap (length_encode k) hx,
    decode_encode]

theorem size_toBuffer (k : Kind) (xs : List (Elem k)) :
    (toBuffer k xs).size = xs.length * k.size := by
  unfold toBuffer
  rw [List.size_toArray, length_flatMap_of_length (length_encode k)]

theorem laid_toBuffer (k : Kind) (xs : List (Elem k)) : Laid k (toBuffer k xs) 0 xs := by
  have hs := size_toBuffer k xs
  refine ⟨by omega, ?_⟩
  unfold Buffer.bytesAt
  rw [Nat.zero_add, ← hs, Array.extract_size]
  rfl

theorem ofBuffer_eq_map (k : Kind) (count : Nat) (b : Buffer) :
    ofBuffer k count b = (List.range count).map (peek k b 0) := by
  unfold ofBuffer peek
  simp only [Nat.zero_add]

theorem laid_put {k : Kind} {b : Buffer} {start : Nat} {zs : List (Elem k)}
    (fits : start + zs.length * k.size ≤ b.size) :
    Laid k (b.put start (zs.flatMap (encode k))) start zs := by
  have hlen := length_flatMap_of_length (length_encode k) zs
  constructor
  · rw [Buffer.size_put]
    exact fits
  · rw [← hlen]
    apply Buffer.bytesAt_put_self
    rw [hlen]
    exact fits

theorem ofBuffer_of_laid {k : Kind} {b : Buffer} {zs : List (Elem k)} (h : Laid k b 0 zs) :
    ofBuffer k zs.length b = zs := by
  rw [ofBuffer_eq_map]
  apply List.ext_getElem?
  intro i
  rw [List.getElem?_map]
  by_cases hi : i < zs.length
  · obtain ⟨z, hz⟩ : ∃ z, zs[i]? = some z := ⟨_, List.getElem?_eq_getElem hi⟩
    rw [List.getElem?_range hi, hz, Option.map_some, peek_of_laid h hz]
  · have hr : (List.range zs.length).length ≤ i := by
      rw [List.length_range]
      omega
    rw [List.getElem?_eq_none hr, List.getElem?_eq_none (by omega)]
    rfl

theorem decode_of_laid {k : Kind} {b : Buffer} {z : Elem k} (h : Laid k b 0 [z])
    (hs : b.size = k.size) : decode k b.toList = z := by
  have hb : b.bytesAt (0 + 0 * k.size) k.size = b.toList := by
    unfold Buffer.bytesAt
    rw [Nat.zero_mul, Nat.zero_add, Nat.zero_add, ← hs, Array.extract_size]
  have hp : peek k b 0 0 = z := peek_of_laid h rfl
  rw [← hb]
  exact hp

theorem ofBuffer_put {k : Kind} {b : Buffer} {zs : List (Elem k)} {n : Nat} (hn : zs.length = n)
    (hb : b.size = n * k.size) :
    ofBuffer k n (b.put 0 (zs.flatMap (encode k))) = zs := by
  rw [← hn] at hb ⊢
  apply ofBuffer_of_laid
  apply laid_put
  omega

theorem decode_put_blank {k : Kind} (z : Elem k) :
    decode k
      (Buffer.put (Array.replicate k.size 0) 0 ([z].flatMap (encode k))).toList = z := by
  have hs : (Array.replicate k.size 0 : Buffer).size = k.size := Array.size_replicate
  apply decode_of_laid
  · apply laid_put
    rw [hs, List.length_singleton]
    omega
  · rw [Buffer.size_put, hs]

end Elem

end Pointwise
