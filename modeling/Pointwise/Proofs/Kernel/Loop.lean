import Pointwise.Kernel.Loop
import Pointwise.Proofs.Element.Codec

/-!
# What a loop leaves in memory

A loop over `n` elements puts the bytes of its results, one after the other, where its outputs begin.
The results are those of the operands as they were before the loop, also where the first output
overwrites an operand: at each index the operands are read before the output is written, and what
was written lies behind (`peek_left_putOutput`, `peek_right_putOutput`).

* `Memory.Fits`   the elements of a loop lie in their buffers;
* `Body.first`, `Body.second`   the bytes of the results for one pair of elements;
* `step_eq`, `contiguous_eq`   one index, and the whole loop.
-/

namespace Pointwise

def Placement.output (place : Placement) : Nat :=
  match place.target with
  | .own => place.first
  | .left => place.left
  | .right => place.right

namespace Memory

def setOutput (mem : Memory) (t : Target) (b : Buffer) : Memory :=
  match t with
  | .own => { mem with first := b }
  | .left => { mem with left := b }
  | .right => { mem with right := b }

/-- The memory with bytes put in the first output, `i` bytes after its beginning. -/
def putOutput (mem : Memory) (place : Placement) (i : Nat) (bytes : List UInt8) : Memory :=
  mem.setOutput place.target ((mem.output place.target).put (place.output + i) bytes)

def putSecond (mem : Memory) (place : Placement) (i : Nat) (bytes : List UInt8) : Memory :=
  { mem with second := mem.second.put (place.second + i) bytes }

theorem output_setOutput (mem : Memory) (t : Target) (b : Buffer) :
    (mem.setOutput t b).output t = b := by
  cases t <;> rfl

theorem setOutput_setOutput (mem : Memory) (t : Target) (b c : Buffer) :
    (mem.setOutput t b).setOutput t c = mem.setOutput t c := by
  cases t <;> rfl

theorem setOutput_output (mem : Memory) (t : Target) : mem.setOutput t (mem.output t) = mem := by
  cases t <;> rfl

theorem putOutput_nil (mem : Memory) (place : Placement) : mem.putOutput place 0 [] = mem :=
  setOutput_output mem place.target

theorem putSecond_nil (mem : Memory) (place : Placement) (i : Nat) :
    mem.putSecond place i [] = mem := rfl

theorem size_left_putOutput (mem : Memory) (place : Placement) (i : Nat) (bytes : List UInt8) :
    (mem.putOutput place i bytes).left.size = mem.left.size := by
  unfold putOutput setOutput output
  cases place.target with
  | own => rfl
  | left => exact Buffer.size_put _ _ _
  | right => rfl

theorem size_right_putOutput (mem : Memory) (place : Placement) (i : Nat) (bytes : List UInt8) :
    (mem.putOutput place i bytes).right.size = mem.right.size := by
  unfold putOutput setOutput output
  cases place.target with
  | own => rfl
  | left => rfl
  | right => exact Buffer.size_put _ _ _

theorem size_output_putOutput (mem : Memory) (place : Placement) (i : Nat) (bytes : List UInt8) :
    ((mem.putOutput place i bytes).output place.target).size
      = (mem.output place.target).size := by
  unfold putOutput
  rw [output_setOutput, Buffer.size_put]

theorem second_putOutput (mem : Memory) (place : Placement) (i : Nat) (bytes : List UInt8) :
    (mem.putOutput place i bytes).second = mem.second := by
  unfold putOutput setOutput
  cases place.target <;> rfl

theorem putOutput_append (mem : Memory) (place : Placement) (xs ys : List UInt8) :
    (mem.putOutput place 0 xs).putOutput place xs.length ys = mem.putOutput place 0 (xs ++ ys) := by
  unfold putOutput
  rw [output_setOutput, setOutput_setOutput, Buffer.put_append, Nat.add_zero]

theorem putSecond_append (mem : Memory) (place : Placement) (xs ys : List UInt8) :
    (mem.putSecond place 0 xs).putSecond place xs.length ys = mem.putSecond place 0 (xs ++ ys) := by
  unfold putSecond
  rw [Buffer.put_append, Nat.add_zero]

theorem output_putSecond (mem : Memory) (place : Placement) (i : Nat) (bytes : List UInt8)
    (t : Target) : (mem.putSecond place i bytes).output t = mem.output t := by
  cases t <;> rfl

theorem size_second_putSecond (mem : Memory) (place : Placement) (i : Nat) (bytes : List UInt8) :
    (mem.putSecond place i bytes).second.size = mem.second.size :=
  Buffer.size_put _ _ _

theorem putSecond_putOutput (mem : Memory) (place : Placement) (i j : Nat) (xs ys : List UInt8) :
    (mem.putSecond place i xs).putOutput place j ys
      = (mem.putOutput place j ys).putSecond place i xs := by
  unfold putOutput putSecond setOutput output
  cases place.target <;> rfl

/-- An operand's element behind everything that was written over the operand. -/
theorem peek_left_putOutput (mem : Memory) (place : Placement) (k : Kind) {n : Nat}
    {bytes : List UInt8} (h : place.target = .left → bytes.length ≤ n * k.size) :
    Elem.peek k (mem.putOutput place 0 bytes).left place.left n
      = Elem.peek k mem.left place.left n := by
  unfold putOutput setOutput output Placement.output
  cases ht : place.target with
  | own => rfl
  | left =>
    have hb := h ht
    refine Elem.peek_congr (Buffer.bytesAt_put_of_apart _ (.inr ?_))
    show place.left + 0 + bytes.length ≤ place.left + n * k.size
    omega
  | right => rfl

theorem peek_right_putOutput (mem : Memory) (place : Placement) (k : Kind) {n : Nat}
    {bytes : List UInt8} (h : place.target = .right → bytes.length ≤ n * k.size) :
    Elem.peek k (mem.putOutput place 0 bytes).right place.right n
      = Elem.peek k mem.right place.right n := by
  unfold putOutput setOutput output Placement.output
  cases ht : place.target with
  | own => rfl
  | left => rfl
  | right =>
    have hb := h ht
    refine Elem.peek_congr (Buffer.bytesAt_put_of_apart _ (.inr ?_))
    show place.right + 0 + bytes.length ≤ place.right + n * k.size
    omega

theorem storeFirst?_eq_map (mem : Memory) (place : Placement) (k : Kind) (i : Nat) (x : Elem k) :
    mem.storeFirst? place k i x
      = (Elem.store? k (mem.output place.target) place.output i x).map
          (mem.setOutput place.target) := by
  unfold storeFirst? output Placement.output
  cases place.target <;> rfl

theorem storeFirst?_eq {mem : Memory} {place : Placement} {k : Kind} {i : Nat} (x : Elem k)
    (fits : place.output + (i + 1) * k.size ≤ (mem.output place.target).size) :
    mem.storeFirst? place k i x = some (mem.putOutput place (i * k.size) (Elem.encode k x)) := by
  rw [storeFirst?_eq_map, Elem.store?_eq_put x fits]
  rfl

theorem storeSecond?_eq {mem : Memory} {place : Placement} {k : Kind} {i : Nat} (x : Elem k)
    (fits : place.second + (i + 1) * k.size ≤ mem.second.size) :
    mem.storeSecond? place k i x = some (mem.putSecond place (i * k.size) (Elem.encode k x)) := by
  unfold storeSecond?
  rw [Elem.store?_eq_put x fits]
  rfl

end Memory

/-! ## one index -/

namespace Body
variable {left right result : Kind}

def value : Body left right result → Elem left → Elem right → Elem result
  | one f => f
  | two f => fun a b => (f a b).1

/-- The second result for a pair of elements, as a list: there may be none. -/
def other : Body left right result → Elem left → Elem right → List (Elem result)
  | one _ => fun _ _ => []
  | two f => fun a b => [(f a b).2]

def first (body : Body left right result) (a : Elem left) (b : Elem right) : List UInt8 :=
  Elem.encode result (body.value a b)

def second (body : Body left right result) (a : Elem left) (b : Elem right) : List UInt8 :=
  (body.other a b).flatMap (Elem.encode result)

def secondSize : Body left right result → Nat
  | one _ => 0
  | two _ => result.size

theorem length_first (body : Body left right result) (a : Elem left) (b : Elem right) :
    (body.first a b).length = result.size :=
  Elem.length_encode _ _

theorem second_two (f : Elem left → Elem right → Elem result × Elem result) (a : Elem left)
    (b : Elem right) : (two f).second a b = Elem.encode result (f a b).2 :=
  List.flatMap_singleton _ _

theorem length_second (body : Body left right result) (a : Elem left) (b : Elem right) :
    (body.second a b).length = body.secondSize := by
  cases body with
  | one f => rfl
  | two f => rw [second_two, Elem.length_encode]; rfl

/-- The elements of `n` indices lie in the buffers. -/
structure Fits (body : Body left right result) (place : Placement) (n : Nat) (mem : Memory) :
    Prop where
  left : place.left + n * left.size ≤ mem.left.size
  right : place.right + n * right.size ≤ mem.right.size
  first : place.output + n * result.size ≤ (mem.output place.target).size
  second : body.outputs = 2 → place.second + n * result.size ≤ mem.second.size

/-- An operand that is overwritten has elements as large as the results. -/
structure Aligned (left right result : Kind) (t : Target) : Prop where
  left : t = .left → result.size = left.size
  right : t = .right → result.size = right.size

theorem aligned_own (left right result : Kind) : Aligned left right result .own :=
  ⟨(fun h => nomatch h), (fun h => nomatch h)⟩

def pair (left right : Kind) (place : Placement) (mem : Memory) (i : Nat) : Elem left × Elem right :=
  (Elem.peek left mem.left place.left i, Elem.peek right mem.right place.right i)

theorem step_eq {body : Body left right result} {place : Placement} {mem : Memory} {i : Nat}
    (fits : body.Fits place (i + 1) mem) :
    body.step place mem i
      = some ((mem.putOutput place (i * result.size)
            (body.first (pair left right place mem i).1 (pair left right place mem i).2)).putSecond
          place (i * body.secondSize)
            (body.second (pair left right place mem i).1 (pair left right place mem i).2)) := by
  unfold step
  rw [Elem.load?_eq_peek fits.left, Elem.load?_eq_peek fits.right]
  cases body with
  | one f => exact Memory.storeFirst?_eq _ fits.first
  | two f =>
    show (Memory.storeFirst? _ _ _ _ _).bind _ = _
    rw [Memory.storeFirst?_eq _ fits.first, Option.bind_some]
    have room := fits.second rfl
    rw [← Memory.second_putOutput mem place (i * result.size)
      ((two f).first (pair left right place mem i).1 (pair left right place mem i).2)] at room
    rw [second_two]
    exact Memory.storeSecond?_eq _ room

/-! ## the whole loop -/

def firsts (body : Body left right result) (place : Placement) (mem : Memory) (n : Nat) :
    List UInt8 :=
  (List.range n).flatMap fun i =>
    body.first (pair left right place mem i).1 (pair left right place mem i).2

def seconds (body : Body left right result) (place : Placement) (mem : Memory) (n : Nat) :
    List UInt8 :=
  (List.range n).flatMap fun i =>
    body.second (pair left right place mem i).1 (pair left right place mem i).2

theorem firsts_succ (body : Body left right result) (place : Placement) (mem : Memory) (n : Nat) :
    body.firsts place mem (n + 1) = body.firsts place mem n
      ++ body.first (pair left right place mem n).1 (pair left right place mem n).2 := by
  unfold firsts
  rw [List.range_succ, List.flatMap_append, List.flatMap_singleton]

theorem seconds_succ (body : Body left right result) (place : Placement) (mem : Memory) (n : Nat) :
    body.seconds place mem (n + 1) = body.seconds place mem n
      ++ body.second (pair left right place mem n).1 (pair left right place mem n).2 := by
  unfold seconds
  rw [List.range_succ, List.flatMap_append, List.flatMap_singleton]

theorem length_firsts (body : Body left right result) (place : Placement) (mem : Memory) (n : Nat) :
    (body.firsts place mem n).length = n * result.size := by
  unfold firsts
  rw [length_flatMap_of_length (fun _ => body.length_first _ _), List.length_range]

theorem length_seconds (body : Body left right result) (place : Placement) (mem : Memory)
    (n : Nat) : (body.seconds place mem n).length = n * body.secondSize := by
  unfold seconds
  rw [length_flatMap_of_length (fun _ => body.length_second _ _), List.length_range]

theorem Fits.mono {body : Body left right result} {place : Placement} {mem : Memory} {m n : Nat}
    (h : m ≤ n) (fits : body.Fits place n mem) : body.Fits place m mem where
  left := Nat.le_trans (Nat.add_le_add_left (Nat.mul_le_mul_right _ h) _) fits.left
  right := Nat.le_trans (Nat.add_le_add_left (Nat.mul_le_mul_right _ h) _) fits.right
  first := Nat.le_trans (Nat.add_le_add_left (Nat.mul_le_mul_right _ h) _) fits.first
  second e := Nat.le_trans (Nat.add_le_add_left (Nat.mul_le_mul_right _ h) _) (fits.second e)

theorem Fits.put {body : Body left right result} {place : Placement} {mem : Memory} {n : Nat}
    (fits : body.Fits place n mem) (i j : Nat) (xs ys : List UInt8) :
    body.Fits place n ((mem.putOutput place i xs).putSecond place j ys) where
  left := by
    show _ ≤ (mem.putOutput place i xs).left.size
    rw [Memory.size_left_putOutput]
    exact fits.left
  right := by
    show _ ≤ (mem.putOutput place i xs).right.size
    rw [Memory.size_right_putOutput]
    exact fits.right
  first := by
    rw [Memory.output_putSecond, Memory.size_output_putOutput]
    exact fits.first
  second e := by
    rw [Memory.size_second_putSecond, Memory.second_putOutput]
    exact fits.second e

theorem pair_put {place : Placement} {mem : Memory} {n : Nat} {xs : List UInt8}
    (aligned : Aligned left right result place.target) (hx : xs.length = n * result.size)
    (ys : List UInt8) :
    pair left right place ((mem.putOutput place 0 xs).putSecond place 0 ys) n
      = pair left right place mem n := by
  refine Prod.ext (Memory.peek_left_putOutput mem place left fun e => ?_)
    (Memory.peek_right_putOutput mem place right fun e => ?_)
  · rw [aligned.left e] at hx
    exact Nat.le_of_eq hx
  · rw [aligned.right e] at hx
    exact Nat.le_of_eq hx

/-- **The loop puts down the results of the operands as it finds them.** -/
theorem contiguous_eq {body : Body left right result} {place : Placement} {n : Nat} {mem : Memory}
    (fits : body.Fits place n mem) (aligned : Aligned left right result place.target) :
    body.contiguous place n mem
      = some ((mem.putOutput place 0 (body.firsts place mem n)).putSecond place 0
          (body.seconds place mem n)) := by
  induction n with
  | zero =>
    show some mem = some ((mem.putOutput place 0 []).putSecond place 0 [])
    rw [Memory.putSecond_nil, Memory.putOutput_nil]
  | succ n ih =>
    -- all that is written before index `n` lies behind the operands there, so that `pair_put` applies
    have hx := body.length_firsts place mem n
    have hy := body.length_seconds place mem n
    rw [contiguous_succ, ih (fits.mono n.le_succ), Option.bind_some, step_eq (fits.put _ _ _ _),
      pair_put aligned hx, Memory.putSecond_putOutput, ← hx, ← hy, Memory.putOutput_append,
      Memory.putSecond_append, ← firsts_succ, ← seconds_succ]

theorem contiguous_own {body : Body left right result} {place : Placement} {n : Nat} {mem : Memory}
    (own : place.target = .own) (fits : body.Fits place n mem) :
    body.contiguous place n mem = some { mem with
      first := mem.first.put place.first (body.firsts place mem n)
      second := mem.second.put place.second (body.seconds place mem n) } := by
  have aligned : Aligned left right result place.target := by
    rw [own]
    exact aligned_own left right result
  rw [contiguous_eq fits aligned]
  unfold Memory.putOutput Memory.setOutput Memory.output Placement.output
  rw [own]
  rfl

/-! ## the outputs after the loop -/

theorem bytesAt_firsts (body : Body left right result) (place : Placement) (mem : Memory)
    {b : Buffer} {start n i : Nat} (fits : start + n * result.size ≤ b.size) (hi : i < n) :
    (b.put start (body.firsts place mem n)).bytesAt (start + i * result.size) result.size
      = body.first (pair left right place mem i).1 (pair left right place mem i).2 :=
  Buffer.bytesAt_put_flatMap (fun _ => body.length_first _ _) fits hi

theorem bytesAt_seconds (body : Body left right result) (place : Placement) (mem : Memory)
    {b : Buffer} {start n i : Nat} (fits : start + n * body.secondSize ≤ b.size) (hi : i < n) :
    (b.put start (body.seconds place mem n)).bytesAt (start + i * body.secondSize) body.secondSize
      = body.second (pair left right place mem i).1 (pair left right place mem i).2 :=
  Buffer.bytesAt_put_flatMap (fun _ => body.length_second _ _) fits hi

def values (body : Body left right result) (xs : List (Elem left)) (ys : List (Elem right)) :
    List (Elem result) :=
  List.zipWith body.value xs ys

def others (body : Body left right result) (xs : List (Elem left)) (ys : List (Elem right)) :
    List (Elem result) :=
  (List.zipWith body.other xs ys).flatten

section
variable {place : Placement} {mem : Memory} {xs : List (Elem left)} {ys : List (Elem right)}
  (hx : Elem.Laid left mem.left place.left xs) (hy : Elem.Laid right mem.right place.right ys)
  (hlen : ys.length = xs.length)
include hx hy hlen

theorem zipWith_of_laid {α : Type} (f : Elem left → Elem right → α) :
    List.zipWith f xs ys = (List.range xs.length).map fun i =>
      f (pair left right place mem i).1 (pair left right place mem i).2 := by
  apply List.ext_getElem?
  intro i
  rw [List.getElem?_map]
  by_cases hi : i < xs.length
  · obtain ⟨x, ex⟩ : ∃ x, xs[i]? = some x := ⟨_, List.getElem?_eq_getElem hi⟩
    obtain ⟨y, ey⟩ : ∃ y, ys[i]? = some y := ⟨_, List.getElem?_eq_getElem (hlen ▸ hi)⟩
    rw [List.getElem?_range hi, List.getElem?_zipWith, ex, ey]
    show some (f x y) = some (f (Elem.peek _ _ _ _) (Elem.peek _ _ _ _))
    rw [Elem.peek_of_laid hx ex, Elem.peek_of_laid hy ey]
  · rw [List.getElem?_eq_none (by rw [List.length_zipWith]; omega),
      List.getElem?_eq_none (by rw [List.length_range]; omega)]
    rfl

theorem firsts_of_laid (body : Body left right result) :
    body.firsts place mem xs.length = (body.values xs ys).flatMap (Elem.encode result) := by
  unfold firsts values
  rw [zipWith_of_laid hx hy hlen, List.flatMap_map]
  rfl

theorem seconds_of_laid (body : Body left right result) :
    body.seconds place mem xs.length = (body.others xs ys).flatMap (Elem.encode result) := by
  unfold seconds others
  rw [zipWith_of_laid hx hy hlen, ← List.flatMap_def, List.flatMap_assoc]
  rfl

end

end Body

end Pointwise
