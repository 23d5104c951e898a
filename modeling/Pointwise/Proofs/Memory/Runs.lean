import Pointwise.Buffer

/-!
# Runs of bytes in a buffer

`Buffer.put` puts a run of bytes in and `Buffer.bytesAt` takes one out. Here is what the one sees of
the other: a run that was put in comes out again, and every byte and run beside it stays.

* `put_append`   two runs put in one after the other;
* `getElem?_put_of_outside`, `getElem?_put_add`   the bytes beside and inside a run;
* `bytesAt_put_self`, `bytesAt_put_of_apart`   the runs, and `put_bytesAt` one that is put back;
* `bytesAt_put_flatMap`   one of many runs of equal length.
-/

namespace Pointwise

/-- Of runs of equal length, one with a smaller index ends where the other begins, or before. -/
theorem run_le_of_lt {i n : Nat} (h : i < n) (size : Nat) : i * size + size ≤ n * size := by
  rw [← Nat.succ_mul]
  exact Nat.mul_le_mul_right size h

section
variable {α β : Type} {g : α → List β} {size : Nat} (hg : ∀ x, (g x).length = size)
include hg

theorem length_flatMap_of_length (xs : List α) : (xs.flatMap g).length = xs.length * size := by
  induction xs with
  | nil => rw [List.length_nil, Nat.zero_mul]; rfl
  | cons x xs ih =>
    rw [List.flatMap_cons, List.length_append, hg, ih, List.length_cons, Nat.succ_mul, Nat.add_comm]

theorem take_drop_flatMap {xs : List α} {i : Nat} {x : α} (h : xs[i]? = some x) :
    ((xs.flatMap g).drop (i * size)).take size = g x := by
  induction xs generalizing i with
  | nil => exact nomatch h
  | cons y ys ih =>
    rw [List.flatMap_cons]
    cases i with
    | zero =>
      obtain rfl : y = x := Option.some.inj h
      rw [Nat.zero_mul, List.drop_zero, List.take_left' (hg y)]
    | succ i =>
      have hd : (i + 1) * size = (g y).length + i * size := by rw [hg, Nat.succ_mul, Nat.add_comm]
      rw [hd, List.drop_length_add_append]
      exact ih h

end

namespace Buffer

theorem put_cons (b : Buffer) (start : Nat) (x : UInt8) (bytes : List UInt8) :
    b.put start (x :: bytes) = put (b.setIfInBounds start x) (start + 1) bytes := rfl

theorem put_append (b : Buffer) (start : Nat) (xs ys : List UInt8) :
    b.put start (xs ++ ys) = (b.put start xs).put (start + xs.length) ys := by
  induction xs generalizing b start with
  | nil => rfl
  | cons x xs ih =>
    rw [List.cons_append, put_cons, ih, put_cons, List.length_cons]
    congr 1
    omega

theorem getElem?_put_of_outside (b : Buffer) (start : Nat) (bytes : List UInt8) {i : Nat}
    (h : i < start ∨ start + bytes.length ≤ i) : (b.put start bytes)[i]? = b[i]? := by
  induction bytes generalizing b start with
  | nil => rfl
  | cons x bytes ih =>
    rw [List.length_cons] at h
    rw [put_cons, ih (b.setIfInBounds start x) (start + 1) (by omega)]
    exact Array.getElem?_setIfInBounds_ne (by omega)

theorem getElem?_put_add {b : Buffer} {start : Nat} {bytes : List UInt8} {j : Nat}
    (fits : start + bytes.length ≤ b.size) (h : j < bytes.length) :
    (b.put start bytes)[start + j]? = bytes[j]? := by
  induction bytes generalizing b start j with
  | nil => exact absurd h (Nat.not_lt_zero j)
  | cons x bytes ih =>
    rw [List.length_cons] at fits h
    rw [put_cons]
    cases j with
    | zero =>
      rw [getElem?_put_of_outside (b.setIfInBounds start x) (start + 1) bytes (by omega)]
      exact Array.getElem?_setIfInBounds_self_of_lt (by omega)
    | succ j =>
      have fits' : start + 1 + bytes.length ≤ (b.setIfInBounds start x).size := by
        rw [Array.size_setIfInBounds]
        omega
      have e : start + (j + 1) = start + 1 + j := by omega
      rw [e, ih fits' (by omega), List.getElem?_cons_succ]

/-! ## runs taken out -/

theorem getElem?_bytesAt (b : Buffer) (start count j : Nat) :
    (b.bytesAt start count)[j]? = if j < count then b[start + j]? else none := by
  unfold bytesAt
  rw [Array.getElem?_toList, Array.getElem?_extract]
  by_cases h : j < count
  · rw [if_pos h]
    split
    · rfl
    · rw [Array.getElem?_eq_none (by omega)]
  · rw [if_neg h, if_neg (by omega)]

theorem bytesAt_congr {b d : Buffer} {start start' count : Nat}
    (h : ∀ j, j < count → b[start + j]? = d[start' + j]?) :
    b.bytesAt start count = d.bytesAt start' count := by
  apply List.ext_getElem?
  intro j
  rw [getElem?_bytesAt, getElem?_bytesAt]
  by_cases hj : j < count
  · rw [if_pos hj, if_pos hj, h j hj]
  · rw [if_neg hj, if_neg hj]

theorem bytesAt_put_self {b : Buffer} {start : Nat} {bytes : List UInt8}
    (fits : start + bytes.length ≤ b.size) :
    (b.put start bytes).bytesAt start bytes.length = bytes := by
  apply List.ext_getElem?
  intro j
  rw [getElem?_bytesAt]
  by_cases hj : j < bytes.length
  · rw [if_pos hj, getElem?_put_add fits hj]
  · rw [if_neg hj, List.getElem?_eq_none (by omega)]

theorem bytesAt_put_of_apart (b : Buffer) {start start' count : Nat} {bytes : List UInt8}
    (h : start' + count ≤ start ∨ start + bytes.length ≤ start') :
    (b.put start bytes).bytesAt start' count = b.bytesAt start' count :=
  bytesAt_congr fun j hj => getElem?_put_of_outside b start bytes (by omega)

theorem length_bytesAt {b : Buffer} {start count : Nat} (fits : start + count ≤ b.size) :
    (b.bytesAt start count).length = count := by
  unfold bytesAt
  rw [Array.length_toList, Array.size_extract]
  omega

/-- A run that is put back where it was taken changes nothing. -/
theorem put_bytesAt {b : Buffer} {start count : Nat} (fits : start + count ≤ b.size) :
    b.put start (b.bytesAt start count) = b := by
  have hlen := length_bytesAt fits
  apply Array.ext_getElem?
  intro n
  by_cases inside : start ≤ n ∧ n < start + count
  · obtain ⟨j, rfl⟩ := Nat.exists_eq_add_of_le inside.1
    rw [getElem?_put_add (by omega) (by omega), getElem?_bytesAt, if_pos (by omega)]
  · exact getElem?_put_of_outside b start _ (by omega)

theorem bytesAt_eq_take_drop (b : Buffer) {start count offset size : Nat}
    (h : offset + size ≤ count) :
    b.bytesAt (start + offset) size = ((b.bytesAt start count).drop offset).take size := by
  apply List.ext_getElem?
  intro j
  rw [getElem?_bytesAt, List.getElem?_take]
  by_cases hj : j < size
  · rw [if_pos hj, if_pos hj, List.getElem?_drop, getElem?_bytesAt, if_pos (by omega),
      Nat.add_assoc]
  · rw [if_neg hj, if_neg hj]

/-! ## many runs of equal length -/

section
variable {g : Nat → List UInt8} {size : Nat} (hg : ∀ i, (g i).length = size)
include hg

theorem put_flatMap_succ (b : Buffer) (start n : Nat) :
    b.put start ((List.range (n + 1)).flatMap g)
      = (b.put start ((List.range n).flatMap g)).put (start + n * size) (g n) := by
  rw [List.range_succ, List.flatMap_append, List.flatMap_singleton, put_append,
    length_flatMap_of_length hg, List.length_range]

theorem bytesAt_put_flatMap {b : Buffer} {start n i : Nat} (fits : start + n * size ≤ b.size)
    (hi : i < n) :
    (b.put start ((List.range n).flatMap g)).bytesAt (start + i * size) size = g i := by
  induction n with
  | zero => exact absurd hi (Nat.not_lt_zero i)
  | succ n ih =>
    rw [Nat.succ_mul] at fits
    rw [put_flatMap_succ hg]
    rcases Nat.lt_succ_iff_lt_or_eq.mp hi with hlt | rfl
    · have hle := run_le_of_lt hlt size
      rw [bytesAt_put_of_apart _ (by omega), ih (by omega) hlt]
    · have room : start + i * size + (g i).length
          ≤ (b.put start ((List.range i).flatMap g)).size := by
        rw [size_put, hg]
        omega
      have h := bytesAt_put_self room
      rw [hg] at h
      exact h

end

end Buffer

end Pointwise
