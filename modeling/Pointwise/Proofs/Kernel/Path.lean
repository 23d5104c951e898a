import Pointwise.Proofs.Kernel.Builtin
import Pointwise.Proofs.Kernel.Refusal
import Pointwise.Proofs.Kernel.Trace

/-!
# All ways to run a kernel agree

A kernel can be run on two lists of operands in four ways: checked on the lists, checked on each
pair, and unchecked on bytes, in one loop or in one call for each pair.  All four come to the same
results, `Body.values` and, where there is a second output, `Body.others`.

* `Body.Ready`   a memory in which the operands lie and the outputs have room;
* `Memory.written`   the memory with the results put where the outputs begin;
* `contiguous_of_ready`, `singles_of_ready`   the unchecked calls;
* `applySlices_eq`, `applyScalar_eq` and their duals   the checked ones.
-/

namespace Pointwise

/-- The memory with results put where the outputs begin, the first outputs in their own buffer. -/
def Memory.written (mem : Memory) (place : Placement) (k : Kind) (zs ws : List (Elem k)) : Memory :=
  { mem with
    first := mem.first.put place.first (zs.flatMap (Elem.encode k))
    second := mem.second.put place.second (ws.flatMap (Elem.encode k)) }

namespace Body
variable {left right result : Kind}

/-! ## one call for each pair -/

/-- Where the elements at an index begin. -/
def shift (left right result : Kind) (place : Placement) (i : Nat) : Placement where
  left := place.left + i * left.size
  right := place.right + i * right.size
  first := place.first + i * result.size
  second := place.second + i * result.size
  target := place.target

/-- The work on `n` pairs of elements, in one call for each. -/
def singles (body : Body left right result) (place : Placement) (n : Nat) (mem : Memory) :
    Option Memory :=
  (List.range n).foldlM (fun mem i => body.single (shift left right result place i) mem) mem

theorem single_shift (body : Body left right result) {place : Placement}
    (own : place.target = .own) (mem : Memory) (i : Nat) :
    body.single (shift left right result place i) mem = body.step place mem i := by
  -- an output over an operand would move by the size of the operand's elements, not by its own
  have hfirst : ∀ (mem : Memory) (z : Elem result),
      mem.storeFirst? (shift left right result place i) result 0 z
        = mem.storeFirst? place result i z := by
    intro mem z
    have ho : (shift left right result place i).output = place.output + i * result.size := by
      unfold Placement.output shift
      rw [own]
    rw [Memory.storeFirst?_eq_map, Memory.storeFirst?_eq_map, ho, Elem.store?_shift]
    rfl
  have hsecond : ∀ (mem : Memory) (z : Elem result),
      mem.storeSecond? (shift left right result place i) result 0 z
        = mem.storeSecond? place result i z := by
    intro mem z
    exact congrArg _ (Elem.store?_shift result mem.second place.second i z)
  unfold single step
  simp only [hfirst, hsecond]
  unfold shift
  rw [Elem.load?_shift, Elem.load?_shift]

theorem singles_eq (body : Body left right result) {place : Placement}
    (own : place.target = .own) (n : Nat) (mem : Memory) :
    body.singles place n mem = body.contiguous place n mem := by
  have h : (fun mem i => body.single (shift left right result place i) mem) = body.step place := by
    funext mem i
    exact body.single_shift own mem i
  unfold singles contiguous
  rw [h]

/-! ## unchecked calls -/

/-- The operands lie in the memory, and there is room for the results in buffers of their own. -/
structure Ready (body : Body left right result) (place : Placement) (mem : Memory)
    (xs : List (Elem left)) (ys : List (Elem right)) : Prop where
  own : place.target = .own
  fits : body.Fits place xs.length mem
  left : Elem.Laid left mem.left place.left xs
  right : Elem.Laid right mem.right place.right ys

theorem length_values (body : Body left right result) {xs : List (Elem left)}
    {ys : List (Elem right)} (hlen : ys.length = xs.length) :
    (body.values xs ys).length = xs.length := by
  unfold values
  rw [List.length_zipWith, hlen, Nat.min_self]

theorem others_one (f : Elem left → Elem right → Elem result) (xs : List (Elem left))
    (ys : List (Elem right)) : (one f).others xs ys = [] := by
  unfold others other
  induction xs generalizing ys with
  | nil => rfl
  | cons x xs ih =>
    cases ys with
    | nil => rfl
    | cons y ys => exact ih ys

theorem others_two (f : Elem left → Elem right → Elem result × Elem result) (xs : List (Elem left))
    (ys : List (Elem right)) :
    (two f).others xs ys = List.zipWith (fun x y => (f x y).2) xs ys := by
  unfold others other
  induction xs generalizing ys with
  | nil => rfl
  | cons x xs ih =>
    cases ys with
    | nil => rfl
    | cons y ys =>
      rw [List.zipWith_cons_cons, List.flatten_cons, ih, List.zipWith_cons_cons]
      rfl

/-- **The loop writes the results of the operands, whatever the outputs held.** -/
theorem contiguous_of_ready {body : Body left right result} {place : Placement} {mem : Memory}
    {xs : List (Elem left)} {ys : List (Elem right)} (h : body.Ready place mem xs ys)
    (hlen : ys.length = xs.length) :
    body.contiguous place xs.length mem
      = some (mem.written place result (body.values xs ys) (body.others xs ys)) := by
  rw [contiguous_own h.own h.fits, firsts_of_laid h.left h.right hlen,
    seconds_of_laid h.left h.right hlen]
  rfl

theorem singles_of_ready {body : Body left right result} {place : Placement} {mem : Memory}
    {xs : List (Elem left)} {ys : List (Elem right)} (h : body.Ready place mem xs ys)
    (hlen : ys.length = xs.length) :
    body.singles place xs.length mem
      = some (mem.written place result (body.values xs ys) (body.others xs ys)) := by
  rw [singles_eq body h.own, contiguous_of_ready h hlen]

theorem exists_other {body : Body left right result} (h : body.outputs = 2) :
    ∃ g : Elem left → Elem right → Elem result, (∀ x y, body.other x y = [g x y]) ∧
      ∀ xs ys, body.others xs ys = List.zipWith g xs ys := by
  cases body with
  | one f => exact nomatch h
  | two f => exact ⟨fun x y => (f x y).2, fun x y => rfl, others_two f⟩

theorem others_eq_nil {body : Body left right result} (h : body.outputs = 1)
    (xs : List (Elem left)) (ys : List (Elem right)) : body.others xs ys = [] := by
  cases body with
  | one f => exact others_one f xs ys
  | two f => exact nomatch h

theorem length_others {body : Body left right result} (h : body.outputs = 2)
    {xs : List (Elem left)} {ys : List (Elem right)} (hlen : ys.length = xs.length) :
    (body.others xs ys).length = xs.length := by
  obtain ⟨g, -, hg⟩ := exists_other h
  rw [hg, List.length_zipWith, hlen, Nat.min_self]

end Body

namespace Kernel

/-! ## checked calls -/

section
variable {k : Kernel} {xs : List (Elem k.left)} {ys : List (Elem k.right)}

/-- Buffers that hold the operands and no more, and outputs of the size of the results. -/
theorem ready_buffers (hlen : ys.length = xs.length) {first second : Buffer}
    (hfirst : first.size = xs.length * k.result.size)
    (hsecond : k.outputs = 2 → second.size = xs.length * k.result.size) :
    k.body.Ready {} ⟨Elem.toBuffer k.left xs, Elem.toBuffer k.right ys, first, second⟩ xs ys := by
  have hleft := Elem.size_toBuffer k.left xs
  have hright := Elem.size_toBuffer k.right ys
  rw [hlen] at hright
  refine ⟨rfl, ⟨?_, ?_, ?_, fun two => ?_⟩, Elem.laid_toBuffer k.left xs,
    Elem.laid_toBuffer k.right ys⟩
  · show 0 + xs.length * k.left.size ≤ (Elem.toBuffer k.left xs).size
    omega
  · show 0 + xs.length * k.right.size ≤ (Elem.toBuffer k.right ys).size
    omega
  · show 0 + xs.length * k.result.size ≤ first.size
    omega
  · show 0 + xs.length * k.result.size ≤ second.size
    have hs := hsecond two
    omega

theorem run_of_ready {mem : Memory} (h : k.body.Ready {} mem xs ys) (hlen : ys.length = xs.length) :
    k.run xs.length mem
      = mem.written {} k.result (k.body.values xs ys) (k.body.others xs ys) := by
  unfold run
  rw [Body.contiguous_of_ready h hlen]
  rfl

theorem applySlices_eq (hlen : ys.length = xs.length) (one : k.outputs = 1)
    {out : List (Elem k.result)} (hout : out.length = xs.length) :
    k.applySlices xs ys out = (.ok (), k.body.values xs ys) := by
  have checked : k.checkSlices k.left k.right k.result xs.length ys.length [out.length]
      = .ok () := by
    rw [checkSlices_eq_ok_iff, List.forall_mem_singleton]
    exact ⟨rfl, rfl, rfl, hlen, hout, one⟩
  have room : (Elem.toBuffer k.result out).size = xs.length * k.result.size := by
    rw [Elem.size_toBuffer, hout]
  have not_two : k.outputs = 2 → (#[] : Buffer).size = xs.length * k.result.size := by
    intro two
    rw [one] at two
    exact nomatch two
  unfold applySlices
  rw [checked]
  show (_, Elem.ofBuffer k.result xs.length (k.run xs.length _).first) = _
  rw [run_of_ready (ready_buffers hlen room not_two) hlen]
  exact congrArg _ (Elem.ofBuffer_put (k.body.length_values hlen) room)

theorem applySlicesDual_eq (hlen : ys.length = xs.length) (two : k.outputs = 2)
    {out0 out1 : List (Elem k.result)} (hout0 : out0.length = xs.length)
    (hout1 : out1.length = xs.length) :
    k.applySlicesDual xs ys out0 out1 = (.ok (), k.body.values xs ys, k.body.others xs ys) := by
  have checked : k.checkSlices k.left k.right k.result xs.length ys.length
      [out0.length, out1.length] = .ok () := by
    rw [checkSlices_eq_ok_iff, List.forall_mem_cons, List.forall_mem_singleton]
    exact ⟨rfl, rfl, rfl, hlen, ⟨hout0, hout1⟩, two⟩
  have room0 : (Elem.toBuffer k.result out0).size = xs.length * k.result.size := by
    rw [Elem.size_toBuffer, hout0]
  have room1 : (Elem.toBuffer k.result out1).size = xs.length * k.result.size := by
    rw [Elem.size_toBuffer, hout1]
  unfold applySlicesDual
  rw [checked]
  show (_, Elem.ofBuffer k.result xs.length (k.run xs.length _).first,
    Elem.ofBuffer k.result xs.length (k.run xs.length _).second) = _
  rw [run_of_ready (ready_buffers hlen room0 fun _ => room1) hlen]
  exact congrArg _ (Prod.ext (Elem.ofBuffer_put (k.body.length_values hlen) room0)
    (Elem.ofBuffer_put (Body.length_others two hlen) room1))

end

section
variable {k : Kernel} (x : Elem k.left) (y : Elem k.right)

theorem runSingle_scalarMemory :
    k.runSingle (scalarMemory k.result x y)
      = (scalarMemory k.result x y).written {} k.result [k.body.value x y] (k.body.other x y) := by
  have blank : (Array.replicate k.result.size 0 : Buffer).size = [x].length * k.result.size := by
    rw [Array.size_replicate, List.length_singleton, Nat.one_mul]
  have ready : k.body.Ready {} (scalarMemory k.result x y) [x] [y] :=
    ready_buffers rfl blank fun _ => blank
  have h := Body.contiguous_of_ready ready rfl
  rw [List.length_singleton, Body.contiguous_one] at h
  unfold runSingle
  rw [h]
  show Memory.written _ _ _ _ (k.body.other x y ++ []) = _
  rw [List.append_nil]
  rfl

theorem applyScalar_eq (one : k.outputs = 1) :
    k.applyScalar k.result x y = .ok (k.body.value x y) := by
  have checked : k.checkScalar k.left k.right k.result 1 = .ok () := by
    rw [checkScalar_eq_ok_iff]
    exact ⟨rfl, rfl, rfl, one⟩
  rw [applyScalar_eq_map, checked, runSingle_scalarMemory]
  exact congrArg Except.ok (Elem.decode_put_blank (k.body.value x y))

theorem applyScalarDual_eq (two : k.outputs = 2) {w : Elem k.result}
    (hw : k.body.other x y = [w]) :
    k.applyScalarDual k.result x y = .ok (k.body.value x y, w) := by
  have checked : k.checkScalar k.left k.right k.result 2 = .ok () := by
    rw [checkScalar_eq_ok_iff]
    exact ⟨rfl, rfl, rfl, two⟩
  rw [applyScalarDual_eq_map, checked, runSingle_scalarMemory, hw]
  exact congrArg Except.ok (Prod.ext (Elem.decode_put_blank (k.body.value x y)) (Elem.decode_put_blank w))

end

/-! ## all ways together -/

section
variable (k : Kernel) (xs : List (Elem k.left)) (ys : List (Elem k.right))

/-- The checked calls with one output come to `zs`, whatever the output held. -/
structure CheckedCalls (zs : List (Elem k.result)) : Prop where
  slices : ∀ out, out.length = xs.length → k.applySlices xs ys out = (.ok (), zs)
  scalar : ∀ (i : Nat) x y, xs[i]? = some x → ys[i]? = some y →
    ∃ z, zs[i]? = some z ∧ k.applyScalar k.result x y = .ok z

structure CheckedDualCalls (zs ws : List (Elem k.result)) : Prop where
  slices : ∀ out0 out1, out0.length = xs.length → out1.length = xs.length →
    k.applySlicesDual xs ys out0 out1 = (.ok (), zs, ws)
  scalar : ∀ (i : Nat) x y, xs[i]? = some x → ys[i]? = some y →
    ∃ z w, zs[i]? = some z ∧ ws[i]? = some w ∧ k.applyScalarDual k.result x y = .ok (z, w)

/-- The unchecked calls write the bytes of `zs` and `ws`, whatever the outputs held, and touch only
the elements that they are asked for. -/
structure UncheckedCalls (zs ws : List (Elem k.result)) : Prop where
  contiguous : ∀ place mem, k.body.Ready place mem xs ys →
    k.body.contiguous place xs.length mem = some (mem.written place k.result zs ws)
  singles : ∀ place mem, k.body.Ready place mem xs ys →
    k.body.singles place xs.length mem = some (mem.written place k.result zs ws)
  touched : ∀ place mem, ∃ accesses,
    (k.body.contiguousTraced place xs.length mem).Follows (k.body.contiguous place xs.length mem)
      accesses ∧
    ∀ a ∈ accesses, a.Within k.left k.right k.result place xs.length
  touchedSingle : ∀ place mem, ∃ accesses,
    (k.body.stepTraced place mem 0).Follows (k.body.single place mem) accesses ∧
    ∀ a ∈ accesses, a.Within k.left k.right k.result place 1

variable {k xs ys} (hlen : ys.length = xs.length)
include hlen

theorem checkedCalls (one : k.outputs = 1) : k.CheckedCalls xs ys (k.body.values xs ys) where
  slices out hout := applySlices_eq hlen one hout
  scalar i x y hx hy := by
    refine ⟨k.body.value x y, ?_, applyScalar_eq x y one⟩
    unfold Body.values
    rw [List.getElem?_zipWith, hx, hy]

theorem checkedDualCalls (two : k.outputs = 2) :
    k.CheckedDualCalls xs ys (k.body.values xs ys) (k.body.others xs ys) where
  slices out0 out1 hout0 hout1 := applySlicesDual_eq hlen two hout0 hout1
  scalar i x y hx hy := by
    obtain ⟨g, hother, hothers⟩ := Body.exists_other two
    refine ⟨k.body.value x y, g x y, ?_, ?_, applyScalarDual_eq x y two (hother x y)⟩
    · unfold Body.values
      rw [List.getElem?_zipWith, hx, hy]
    · rw [hothers, List.getElem?_zipWith, hx, hy]

theorem uncheckedCalls : k.UncheckedCalls xs ys (k.body.values xs ys) (k.body.others xs ys) where
  contiguous _ _ h := Body.contiguous_of_ready h hlen
  singles _ _ h := Body.singles_of_ready h hlen
  touched place mem :=
    ⟨k.body.accesses place xs.length, k.body.contiguousTraced_follows place xs.length mem,
      fun _ => Body.within_of_mem_accesses⟩
  touchedSingle place mem := by
    refine ⟨_, k.body.stepTraced_follows place mem 0, fun a ha => ?_⟩
    obtain ⟨role, -, rfl⟩ := List.mem_map.mp ha
    exact Body.within_access place Nat.zero_lt_one role

end

end Kernel

/-- **All ways to run a builtin kernel agree.**  The results `zs`, and for quotient and remainder
together also `ws`, depend on nothing but the operands. -/
theorem builtin_paths_agree {op : Operation} {b : Builtin} (hb : b ∈ builtins op)
    (xs : List (Elem b.kernel.left)) (ys : List (Elem b.kernel.right))
    (hlen : ys.length = xs.length) :
    ∃ zs ws : List (Elem b.kernel.result),
      zs.length = xs.length ∧ ws.length = (if op = .divmod then xs.length else 0) ∧
      (if op = .divmod then b.kernel.CheckedDualCalls xs ys zs ws
        else b.kernel.CheckedCalls xs ys zs) ∧
      b.kernel.UncheckedCalls xs ys zs ws := by
  have outputs := outputs_of_mem_builtins hb
  rw [Operation.outputs_eq] at outputs
  refine ⟨b.kernel.body.values xs ys, b.kernel.body.others xs ys, b.kernel.body.length_values hlen,
    ?_, ?_, Kernel.uncheckedCalls hlen⟩
  · by_cases h : op = .divmod
    · rw [if_pos h] at outputs ⊢
      exact Body.length_others outputs hlen
    · rw [if_neg h] at outputs ⊢
      rw [Body.others_eq_nil outputs, List.length_nil]
  · by_cases h : op = .divmod
    · rw [if_pos h] at outputs ⊢
      exact Kernel.checkedDualCalls hlen outputs
    · rw [if_neg h] at outputs ⊢
      exact Kernel.checkedCalls hlen outputs

theorem add_uint8_int8_paths :
    ∃ b ∈ builtins .add, ∃ (xs : List (Elem b.kernel.left)) (ys : List (Elem b.kernel.right)),
      ys.length = xs.length ∧ ∃ zs,
        zs.flatMap (Elem.encode b.kernel.result) = [0, 0, 44, 1, 127, 0] ∧
        b.kernel.CheckedCalls xs ys zs ∧ b.kernel.UncheckedCalls xs ys zs [] := by
  have hb : Builtin.make .add
      ⟨.arithmetic, .unsigned .w8, .signed .w8, .signed .w16, .signed .w16, .available⟩
      (.value BitVec.add) (fun x => BitVec.ofInt 16 (BitVec.toNat x))
      (fun x => BitVec.ofInt 16 (BitVec.toInt x)) ∈ builtins .add :=
    mem_builtins_iff.mpr ⟨_, _, _, _, Promotion.lookup_eq_rule? _ _ _, rfl, rfl, rfl, rfl, rfl⟩
  obtain ⟨zs, ws, -, hw, checked, unchecked⟩ := builtin_paths_agree hb
    [(1#8 : BitVec 8), 200#8, 255#8] [(255#8 : BitVec 8), 100#8, 128#8] rfl
  obtain rfl := List.eq_nil_of_length_eq_zero hw
  rw [if_neg (by decide)] at checked
  have value := checked.slices [0#16, 0#16, 0#16] rfl
  have hz : [0#16, 300#16, 127#16] = zs := congrArg Prod.snd value
  exact ⟨_, hb, [1#8, 200#8, 255#8], [255#8, 100#8, 128#8], rfl, zs, hz ▸ rfl, checked, unchecked⟩

end Pointwise
