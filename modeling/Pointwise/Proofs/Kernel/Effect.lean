import Pointwise.Proofs.Kernel.Builtin
import Pointwise.Proofs.Kernel.Loop

/-!
# What a builtin loop computes

The unchecked loop of a builtin kernel, with outputs apart from the operands: at every index the
outputs hold the bytes of the operation on the two operands, both cast to the common kind, and
beside those bytes nothing has changed.

* `Memory.resultsAt`   the bytes that the outputs hold at an index;
* `Body.Touches`   a memory that differs from another in the elements of the outputs only;
* `Action.encodings`   the bytes of what an operation gives;
* `builtin_contiguous`   the loops of all builtin kernels.
-/

namespace Pointwise

def Memory.resultsAt (mem : Memory) (place : Placement) (k : Kind) (outputs i : Nat) :
    List (List UInt8) :=
  [mem.first.bytesAt (place.first + i * k.size) k.size,
    mem.second.bytesAt (place.second + i * k.size) k.size].take outputs

namespace Body
variable {left right result : Kind}

/-- Two memories that differ in `n` elements of the outputs only, in buffers of their own. -/
structure Touches (body : Body left right result) (place : Placement) (n : Nat)
    (before after : Memory) : Prop where
  left : after.left = before.left
  right : after.right = before.right
  sizeFirst : after.first.size = before.first.size
  sizeSecond : after.second.size = before.second.size
  first : ∀ j, j < place.first ∨ place.first + n * result.size ≤ j →
    after.first[j]? = before.first[j]?
  second : ∀ j, j < place.second ∨ place.second + n * body.secondSize ≤ j →
    after.second[j]? = before.second[j]?

theorem touches_put (body : Body left right result) (place : Placement) (n : Nat) (mem : Memory) :
    body.Touches place n mem { mem with
      first := mem.first.put place.first (body.firsts place mem n)
      second := mem.second.put place.second (body.seconds place mem n) } where
  left := rfl
  right := rfl
  sizeFirst := Buffer.size_put _ _ _
  sizeSecond := Buffer.size_put _ _ _
  first j hj := by
    rw [← body.length_firsts place mem n] at hj
    exact Buffer.getElem?_put_of_outside _ _ _ hj
  second j hj := by
    rw [← body.length_seconds place mem n] at hj
    exact Buffer.getElem?_put_of_outside _ _ _ hj

theorem resultsAt_put {body : Body left right result} {place : Placement} {n : Nat} {mem : Memory}
    (own : place.target = .own) (fits : body.Fits place n mem) {i : Nat} (hi : i < n) :
    Memory.resultsAt { mem with
        first := mem.first.put place.first (body.firsts place mem n)
        second := mem.second.put place.second (body.seconds place mem n) }
      place result body.outputs i
      = ((body.value (pair left right place mem i).1 (pair left right place mem i).2)
          :: body.other (pair left right place mem i).1 (pair left right place mem i).2).map
          (Elem.encode result) := by
  have room := fits.first
  unfold Memory.output Placement.output at room
  rw [own] at room
  have hfirst := body.bytesAt_firsts place mem room hi
  cases body with
  | one f => exact congrArg (fun bytes => [bytes]) hfirst
  | two f =>
    have hsecond := (two f).bytesAt_seconds place mem (fits.second rfl) hi
    rw [second_two] at hsecond
    show [_, _] = [_, _]
    rw [hfirst]
    exact congrArg (fun bytes => [_, bytes]) hsecond

/-- **The loop with outputs of their own**: what it leaves at each index, and what it leaves
alone. -/
theorem exists_contiguous {body : Body left right result} {place : Placement} {n : Nat}
    {mem : Memory} (own : place.target = .own) (fits : body.Fits place n mem) :
    ∃ after, body.contiguous place n mem = some after ∧ body.Touches place n mem after ∧
      ∀ i < n, ∃ x y, Elem.load? left mem.left place.left i = some x ∧
        Elem.load? right mem.right place.right i = some y ∧
        after.resultsAt place result body.outputs i
          = (body.value x y :: body.other x y).map (Elem.encode result) := by
  refine ⟨_, contiguous_own own fits, body.touches_put place n mem, fun i hi => ?_⟩
  have fits' := fits.mono hi
  exact ⟨_, _, Elem.load?_eq_peek fits'.left, Elem.load?_eq_peek fits'.right,
    resultsAt_put own fits hi⟩

end Body

namespace Action

/-- The bytes of what an action gives, for one output after the other. -/
def encodings {k : Kind} : Action k → Elem k → Elem k → List (List UInt8)
  | value f, a, b => [Elem.encode k (f a b)]
  | test f, a, b => [Elem.encode .bool (f a b)]
  | pair f, a, b => [Elem.encode k (f a b).1, Elem.encode k (f a b).2]

theorem encodings_cast {k left right : Kind} (action : Action k) (castLeft : Elem left → Elem k)
    (castRight : Elem right → Elem k) (x : Elem left) (y : Elem right) :
    ((action.body castLeft castRight).value x y
        :: (action.body castLeft castRight).other x y).map (Elem.encode action.result)
      = action.encodings (castLeft x) (castRight y) := by
  cases action <;> rfl

end Action

/-- **The loop of a builtin kernel computes its operation in the common kind** and changes nothing
else.  The common kind is that of the promotion table, and both operands are cast to it. -/
theorem builtin_contiguous {op : Operation} {b : Builtin} (hb : b ∈ builtins op) :
    ∃ (e : Entry) (action : Action e.common) (castLeft : Elem b.kernel.left → Elem e.common)
      (castRight : Elem b.kernel.right → Elem e.common),
      Promotion.lookup op.family b.kernel.left b.kernel.right = some e ∧
      e.availability = .available ∧ b.kernel.result = e.result ∧
      op.action? e.common = some action ∧
      Elem.cast? b.kernel.left e.common = some castLeft ∧
      Elem.cast? b.kernel.right e.common = some castRight ∧
      ∀ (n : Nat) (place : Placement) (mem : Memory), place.target = .own →
        b.kernel.body.Fits place n mem → ∃ after,
          b.kernel.body.contiguous place n mem = some after ∧
          b.kernel.body.Touches place n mem after ∧
          ∀ i < n, ∃ x y, Elem.load? b.kernel.left mem.left place.left i = some x ∧
            Elem.load? b.kernel.right mem.right place.right i = some y ∧
            after.resultsAt place b.kernel.result op.outputs i
              = action.encodings (castLeft x) (castRight y) := by
  have outputs := outputs_of_mem_builtins hb
  obtain ⟨e, action, castLeft, castRight, hl, ha, haction, hleft, hright, rfl⟩ :=
    mem_builtins_iff.mp hb
  have result : action.result = e.result := by
    rw [Operation.result_of_action? haction, (Promotion.ofCell_of_lookup hl).result]
  refine ⟨e, action, castLeft, castRight, hl, ha, result, haction, hleft, hright, ?_⟩
  intro n place mem own fits
  obtain ⟨after, run, touches, results⟩ := Body.exists_contiguous own fits
  refine ⟨after, run, touches, fun i hi => ?_⟩
  obtain ⟨x, y, hx, hy, h⟩ := results i hi
  refine ⟨x, y, hx, hy, ?_⟩
  rw [← outputs]
  exact h.trans (action.encodings_cast castLeft castRight x y)

theorem divmod_int8_contiguous :
    ∃ b ∈ builtins .divmod, ∃ after,
      b.kernel.body.contiguous { left := 1 } 2 ⟨#[0, 7, 249], #[2, 2], #[9, 9, 9], #[9, 9]⟩
        = some after ∧
      b.kernel.body.Touches { left := 1 } 2 ⟨#[0, 7, 249], #[2, 2], #[9, 9, 9], #[9, 9]⟩ after ∧
      after.first = #[3, 252, 9] ∧ after.second = #[1, 1] := by
  have hb : Builtin.make .divmod
      ⟨.divmod, .signed .w8, .signed .w8, .signed .w8, .signed .w8, .available⟩
      (.pair Integer.divmodSigned) (fun x => BitVec.ofInt 8 (BitVec.toInt x))
      (fun x => BitVec.ofInt 8 (BitVec.toInt x)) ∈ builtins .divmod :=
    mem_builtins_iff.mpr ⟨_, _, _, _, Promotion.lookup_eq_rule? _ _ _, rfl, rfl, rfl, rfl, rfl⟩
  obtain ⟨e, action, castLeft, castRight, -, -, -, -, -, -, h⟩ := builtin_contiguous hb
  obtain ⟨after, run, touches, -⟩ := h 2 { left := 1 } ⟨#[0, 7, 249], #[2, 2], #[9, 9, 9], #[9, 9]⟩
    rfl ⟨by decide, by decide, by decide, fun _ => by decide⟩
  have value : some after = some ⟨#[0, 7, 249], #[2, 2], #[3, 252, 9], #[1, 1]⟩ :=
    run.symm.trans (by rfl)
  obtain rfl := Option.some.inj value
  exact ⟨_, hb, _, run, touches, rfl, rfl⟩

end Pointwise
