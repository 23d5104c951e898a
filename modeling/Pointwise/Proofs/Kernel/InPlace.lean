import Pointwise.Proofs.Kernel.Effect

/-!
# Loops in place

A loop may write its first output over an operand, element by element.  It then comes to the same
bytes as with outputs apart from the operands: what it overwrites it has read before.

* `Placement.apart`, `Memory.withFirst`   the same call with a first output of its own;
* `Body.contiguousShared`   the loop when both operands are one buffer, so that a write over the one
  is seen through the other;
* `Body.InPlace`   what a loop over an operand leaves, and what it leaves alone;
* `builtin_in_place`   the loops of all builtin kernels.
-/

namespace Pointwise

/-- The first output in a buffer of its own, from the byte `start` on. -/
def Placement.apart (place : Placement) (start : Nat) : Placement :=
  { place with first := start, target := .own }

namespace Memory

def withFirst (mem : Memory) (b : Buffer) : Memory := { mem with first := b }

/-- The bytes at an index of the outputs, as many as asked for, wherever the first is written. -/
def outputsAt (mem : Memory) (place : Placement) (k : Kind) (outputs i : Nat) :
    List (List UInt8) :=
  [(mem.output place.target).bytesAt (place.output + i * k.size) k.size,
    mem.second.bytesAt (place.second + i * k.size) k.size].take outputs

/-- The operand that is overwritten seen through the other one as well. -/
def mirror (mem : Memory) (t : Target) : Memory :=
  match t with
  | .own => mem
  | .left => { mem with right := mem.left }
  | .right => { mem with left := mem.right }

theorem output_putOutput (mem : Memory) (place : Placement) (i : Nat) (bytes : List UInt8) :
    (mem.putOutput place i bytes).output place.target
      = (mem.output place.target).put (place.output + i) bytes :=
  output_setOutput mem place.target _

theorem output_putOutput_of_ne (mem : Memory) (place : Placement) (i : Nat) (bytes : List UInt8)
    {t : Target} (h : t ≠ place.target) : (mem.putOutput place i bytes).output t = mem.output t := by
  unfold putOutput
  generalize place.target = u at h ⊢
  cases t <;> cases u <;> first | rfl | exact absurd rfl h

theorem mirror_putOutput (mem : Memory) (place : Placement) (i : Nat) (bytes : List UInt8) :
    ((mem.mirror place.target).putOutput place i bytes).mirror place.target
      = (mem.putOutput place i bytes).mirror place.target := by
  unfold putOutput
  cases place.target <;> rfl

theorem mirror_putSecond (mem : Memory) (place : Placement) (i : Nat) (bytes : List UInt8)
    (t : Target) : (mem.putSecond place i bytes).mirror t = (mem.mirror t).putSecond place i bytes := by
  cases t <;> rfl

theorem output_mirror (mem : Memory) (t : Target) : (mem.mirror t).output t = mem.output t := by
  cases t <;> rfl

theorem second_mirror (mem : Memory) (t : Target) : (mem.mirror t).second = mem.second := by
  cases t <;> rfl

theorem mirror_of_eq {mem : Memory} (same : mem.left = mem.right) (t : Target) :
    mem.mirror t = mem := by
  obtain ⟨left, right, first, second⟩ := mem
  obtain rfl : left = right := same
  cases t <;> rfl

section
variable {mem : Memory}

theorem size_left_mirror (same : mem.left.size = mem.right.size) (t : Target) :
    (mem.mirror t).left.size = mem.left.size := by
  cases t with
  | own => rfl
  | left => rfl
  | right => exact same.symm

theorem size_right_mirror (same : mem.left.size = mem.right.size) (t : Target) :
    (mem.mirror t).right.size = mem.right.size := by
  cases t with
  | own => rfl
  | left => exact same
  | right => rfl

/-- What is written over one operand of two that are one buffer is seen through both. -/
theorem operands_mirror {place : Placement} (overwrites : place.target ≠ .own)
    (same : mem.left = mem.right) (xs : List UInt8) :
    ((mem.putOutput place 0 xs).mirror place.target).left = mem.left.put place.output xs ∧
      ((mem.putOutput place 0 xs).mirror place.target).right = mem.right.put place.output xs := by
  unfold putOutput Placement.output
  cases ht : place.target with
  | own => exact absurd ht overwrites
  | left =>
    rw [← same]
    exact ⟨rfl, rfl⟩
  | right =>
    rw [same]
    exact ⟨rfl, rfl⟩

end

end Memory

/-! ## both operands in one buffer -/

/-- Elements that are those written, or lie apart from them. -/
def SameOrApart (start size out outSize n : Nat) : Prop :=
  (start = out ∧ size = outSize) ∨ start + n * size ≤ out ∨ out + n * outSize ≤ start

/-- An element that is still to be read is not among those that were written. -/
theorem Elem.peek_put_of_sameOrApart {k : Kind} {start out outSize n i : Nat}
    (h : SameOrApart start k.size out outSize n) (hi : i < n) (b : Buffer) {bytes : List UInt8}
    (hb : bytes.length = i * outSize) : peek k (b.put out bytes) start i = peek k b start i := by
  have here := run_le_of_lt hi k.size
  have there : i * outSize ≤ n * outSize := Nat.mul_le_mul_right _ (Nat.le_of_lt hi)
  apply peek_congr
  apply Buffer.bytesAt_put_of_apart
  rw [hb]
  rcases h with ⟨rfl, rfl⟩ | before | behind
  · exact .inr (Nat.le_refl _)
  · exact .inl (by omega)
  · exact .inr (by omega)

namespace Body
variable {left right result : Kind}

/-- The loop's work on one index when both operands are one buffer. -/
def stepShared (body : Body left right result) (place : Placement) (mem : Memory) (i : Nat) :
    Option Memory :=
  (body.step place mem i).map fun mem => mem.mirror place.target

def contiguousShared (body : Body left right result) (place : Placement) (n : Nat) (mem : Memory) :
    Option Memory :=
  (List.range n).foldlM (body.stepShared place) mem

/-- Both operands lie in the buffer that is written, and neither is cut by what is written. -/
structure Shared (left right result : Kind) (place : Placement) (n : Nat) (mem : Memory) : Prop where
  overwrites : place.target ≠ .own
  same : mem.left = mem.right
  left : SameOrApart place.left left.size place.output result.size n
  right : SameOrApart place.right right.size place.output result.size n

theorem contiguousShared_succ (body : Body left right result) (place : Placement) (n : Nat)
    (mem : Memory) :
    body.contiguousShared place (n + 1) mem
      = (body.contiguousShared place n mem).bind fun mem => body.stepShared place mem n := by
  simp [contiguousShared, List.range_succ, List.foldlM_append]

theorem Fits.mirror {body : Body left right result} {place : Placement} {n : Nat} {mem : Memory}
    (fits : body.Fits place n mem) (same : mem.left.size = mem.right.size) :
    body.Fits place n (mem.mirror place.target) where
  left := by
    rw [Memory.size_left_mirror same]
    exact fits.left
  right := by
    rw [Memory.size_right_mirror same]
    exact fits.right
  first := by
    rw [Memory.output_mirror]
    exact fits.first
  second e := by
    rw [Memory.second_mirror]
    exact fits.second e

section
variable {body : Body left right result} {place : Placement} {mem : Memory} {n : Nat}

theorem pair_mirror {i : Nat} {xs : List UInt8} (shared : Shared left right result place n mem)
    (hi : i < n) (hx : xs.length = i * result.size) (ys : List UInt8) :
    pair left right place (((mem.putOutput place 0 xs).putSecond place 0 ys).mirror place.target) i
      = pair left right place mem i := by
  rw [Memory.mirror_putSecond]
  obtain ⟨el, er⟩ := Memory.operands_mirror shared.overwrites shared.same xs
  apply Prod.ext
  · show Elem.peek left ((mem.putOutput place 0 xs).mirror place.target).left _ i = _
    rw [el]
    exact Elem.peek_put_of_sameOrApart shared.left hi _ hx
  · show Elem.peek right ((mem.putOutput place 0 xs).mirror place.target).right _ i = _
    rw [er]
    exact Elem.peek_put_of_sameOrApart shared.right hi _ hx

/-- **A loop over a buffer that is both operands** puts down the same results once more. -/
theorem contiguousShared_eq (shared : Shared left right result place n mem)
    (fits : body.Fits place n mem) :
    body.contiguousShared place n mem
      = some (((mem.putOutput place 0 (body.firsts place mem n)).putSecond place 0
          (body.seconds place mem n)).mirror place.target) := by
  -- the first `m` indices, since the operands are clear of what all `n` of them write
  have upTo (m : Nat) (hm : m ≤ n) : body.contiguousShared place m mem
      = some (((mem.putOutput place 0 (body.firsts place mem m)).putSecond place 0
          (body.seconds place mem m)).mirror place.target) := by
    induction m with
    | zero =>
      show some mem = some (((mem.putOutput place 0 []).putSecond place 0 []).mirror _)
      rw [Memory.putSecond_nil, Memory.putOutput_nil, Memory.mirror_of_eq shared.same]
    | succ m ih =>
      have hx := body.length_firsts place mem m
      have hy := body.length_seconds place mem m
      have sizes : ((mem.putOutput place 0 (body.firsts place mem m)).putSecond place 0
          (body.seconds place mem m)).left.size = ((mem.putOutput place 0
          (body.firsts place mem m)).putSecond place 0 (body.seconds place mem m)).right.size := by
        show (mem.putOutput place 0 _).left.size = (mem.putOutput place 0 _).right.size
        rw [Memory.size_left_putOutput, Memory.size_right_putOutput, shared.same]
      rw [contiguousShared_succ, ih (Nat.le_of_succ_le hm), Option.bind_some]
      unfold stepShared
      rw [step_eq (((fits.mono hm).put _ _ _ _).mirror sizes), pair_mirror shared hm hx,
        Option.map_some, Memory.mirror_putSecond, Memory.mirror_putOutput,
        ← Memory.mirror_putSecond, Memory.putSecond_putOutput, ← hx, ← hy,
        Memory.putOutput_append, Memory.putSecond_append, ← firsts_succ, ← seconds_succ]
  exact upTo n (Nat.le_refl n)

end

/-! ## what is left behind -/

/-- After a loop over an operand, the buffer that was written and the second output hold what a loop
with a first output of its own makes of the operands as they were; nothing else has changed. -/
structure InPlace (body : Body left right result) (place : Placement) (n : Nat)
    (before after : Memory) : Prop where
  size : (after.output place.target).size = (before.output place.target).size
  outside : ∀ j, j < place.output ∨ place.output + n * result.size ≤ j →
    (after.output place.target)[j]? = (before.output place.target)[j]?
  others : ∀ t, t ≠ place.target → after.output t = before.output t
  apart : ∀ start b, start + n * result.size ≤ b.size → ∃ separate,
    body.contiguous (place.apart start) n (before.withFirst b) = some separate ∧
    (after.output place.target).bytesAt place.output (n * result.size)
      = separate.first.bytesAt start (n * result.size) ∧
    after.second = separate.second
  shared : Shared left right result place n before →
    body.contiguousShared place n before = some (after.mirror place.target)

section
variable {body : Body left right result} {place : Placement} {mem : Memory} {n : Nat}

theorem Fits.apart (fits : body.Fits place n mem) {start : Nat} {b : Buffer}
    (room : start + n * result.size ≤ b.size) :
    body.Fits (place.apart start) n (mem.withFirst b) :=
  ⟨fits.left, fits.right, room, fits.second⟩

theorem outputsAt_put (fits : body.Fits place n mem) {i : Nat} (hi : i < n) :
    ((mem.putOutput place 0 (body.firsts place mem n)).putSecond place 0
        (body.seconds place mem n)).outputsAt place result body.outputs i
      = ((body.value (pair left right place mem i).1 (pair left right place mem i).2)
          :: body.other (pair left right place mem i).1 (pair left right place mem i).2).map
          (Elem.encode result) := by
  have hfirst := body.bytesAt_firsts place mem fits.first hi
  unfold Memory.outputsAt
  rw [Memory.output_putSecond, Memory.output_putOutput, Nat.add_zero, hfirst]
  cases body with
  | one f => rfl
  | two f =>
    have hsecond := (two f).bytesAt_seconds place mem (fits.second rfl) hi
    rw [second_two] at hsecond
    rw [← Memory.second_putOutput mem place 0 ((two f).firsts place mem n)] at hsecond
    exact congrArg (fun bytes => [_, bytes]) hsecond

theorem inPlace_put (fits : body.Fits place n mem) :
    body.InPlace place n mem ((mem.putOutput place 0 (body.firsts place mem n)).putSecond place 0
      (body.seconds place mem n)) := by
  have length := body.length_firsts place mem n
  constructor
  case size => rw [Memory.output_putSecond, Memory.size_output_putOutput]
  case outside =>
    intro j hj
    rw [Memory.output_putSecond, Memory.output_putOutput, Nat.add_zero]
    rw [← length] at hj
    exact Buffer.getElem?_put_of_outside _ _ _ hj
  case others =>
    intro t ht
    rw [Memory.output_putSecond, Memory.output_putOutput_of_ne _ _ _ _ ht]
  case apart =>
    intro start b room
    refine ⟨_, contiguous_own rfl (fits.apart room), ?_, ?_⟩
    · have there : place.output + (body.firsts place mem n).length
          ≤ (mem.output place.target).size := by
        rw [length]
        exact fits.first
      have here : start + (body.firsts place mem n).length ≤ b.size := by
        rw [length]
        exact room
      rw [Memory.output_putSecond, Memory.output_putOutput, Nat.add_zero, ← length,
        Buffer.bytesAt_put_self there]
      exact (Buffer.bytesAt_put_self here).symm
    · show (mem.putOutput place 0 _).second.put _ _ = _
      rw [Memory.second_putOutput]
      rfl
  case shared => exact fun shared => contiguousShared_eq shared fits

/-- **The loop over an operand**: it leaves what the loop with outputs apart leaves, and at each index
the results of the operands as they were. -/
theorem exists_inPlace (fits : body.Fits place n mem)
    (aligned : Aligned left right result place.target) :
    ∃ after, body.contiguous place n mem = some after ∧ body.InPlace place n mem after ∧
      ∀ i < n, ∃ x y, Elem.load? left mem.left place.left i = some x ∧
        Elem.load? right mem.right place.right i = some y ∧
        after.outputsAt place result body.outputs i
          = (body.value x y :: body.other x y).map (Elem.encode result) := by
  refine ⟨_, contiguous_eq fits aligned, inPlace_put fits, fun i hi => ?_⟩
  have upTo := fits.mono hi
  exact ⟨_, _, Elem.load?_eq_peek upTo.left, Elem.load?_eq_peek upTo.right, outputsAt_put fits hi⟩

end

end Body

/-- **A builtin kernel works in place**: over an operand with elements as large as its results, it
computes its operation on the operands as they were. -/
theorem builtin_in_place {op : Operation} {b : Builtin} (hb : b ∈ builtins op) :
    ∃ (e : Entry) (action : Action e.common) (castLeft : Elem b.kernel.left → Elem e.common)
      (castRight : Elem b.kernel.right → Elem e.common),
      Promotion.lookup op.family b.kernel.left b.kernel.right = some e ∧
      op.action? e.common = some action ∧
      Elem.cast? b.kernel.left e.common = some castLeft ∧
      Elem.cast? b.kernel.right e.common = some castRight ∧
      ∀ (n : Nat) (place : Placement) (mem : Memory), b.kernel.body.Fits place n mem →
        Body.Aligned b.kernel.left b.kernel.right b.kernel.result place.target → ∃ after,
          b.kernel.body.contiguous place n mem = some after ∧
          b.kernel.body.InPlace place n mem after ∧
          ∀ i < n, ∃ x y, Elem.load? b.kernel.left mem.left place.left i = some x ∧
            Elem.load? b.kernel.right mem.right place.right i = some y ∧
            after.outputsAt place b.kernel.result op.outputs i
              = action.encodings (castLeft x) (castRight y) := by
  have outputs := outputs_of_mem_builtins hb
  obtain ⟨e, action, castLeft, castRight, hl, -, haction, hleft, hright, rfl⟩ :=
    mem_builtins_iff.mp hb
  refine ⟨e, action, castLeft, castRight, hl, haction, hleft, hright, ?_⟩
  intro n place mem fits aligned
  obtain ⟨after, run, inPlace, results⟩ := Body.exists_inPlace fits aligned
  refine ⟨after, run, inPlace, fun i hi => ?_⟩
  obtain ⟨x, y, hx, hy, h⟩ := results i hi
  refine ⟨x, y, hx, hy, ?_⟩
  rw [← outputs]
  exact h.trans (action.encodings_cast castLeft castRight x y)

/-- Truth values over the numbers that were compared, behind a byte that stays. -/
theorem less_uint8_in_place :
    ∃ b ∈ builtins .less, ∃ after,
      b.kernel.body.contiguous { left := 1, target := .left } 2 ⟨#[7, 1, 9, 7], #[2, 3], #[], #[]⟩
        = some after ∧
      b.kernel.body.InPlace { left := 1, target := .left } 2 ⟨#[7, 1, 9, 7], #[2, 3], #[], #[]⟩
        after ∧
      after.left = #[7, 1, 0, 7] := by
  have hb : Builtin.make .less
      ⟨.comparison, .unsigned .w8, .unsigned .w8, .unsigned .w8, .bool, .available⟩
      (.test BitVec.ult) (fun x => BitVec.ofInt 8 (BitVec.toNat x))
      (fun x => BitVec.ofInt 8 (BitVec.toNat x)) ∈ builtins .less :=
    mem_builtins_iff.mpr ⟨_, _, _, _, Promotion.lookup_eq_rule? _ _ _, rfl, rfl, rfl, rfl, rfl⟩
  obtain ⟨e, action, castLeft, castRight, -, -, -, -, h⟩ := builtin_in_place hb
  obtain ⟨after, run, inPlace, -⟩ := h 2 { left := 1, target := .left }
    ⟨#[7, 1, 9, 7], #[2, 3], #[], #[]⟩
    ⟨by decide, by decide, by decide, fun two => nomatch two⟩
    ⟨fun _ => rfl, fun right => nomatch right⟩
  have value : some after = some ⟨#[7, 1, 0, 7], #[2, 3], #[], #[]⟩ := run.symm.trans (by rfl)
  obtain rfl := Option.some.inj value
  exact ⟨_, hb, _, run, inPlace, rfl⟩

end Pointwise
