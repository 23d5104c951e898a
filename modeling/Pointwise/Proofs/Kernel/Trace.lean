import Pointwise.Proofs.Kernel.Loop

/-!
# The bytes that a loop touches

The loop once more, with a record of every run of bytes that it reads or writes.  Apart from the
record it is the loop itself (`contiguousTraced_follows`), and everything on record belongs to the
elements that the loop was asked for (`within_of_mem_accesses`).

* `Traced`   work with a record, `Traced.Follows` the work that it does and what it puts on record;
* `Traced.read`, `Traced.write`   `Buffer.read?` and `Buffer.write?` on record, and all else from them;
* `Body.stepTraced`, `Body.contiguousTraced`   one index, and the whole loop;
* `Access.Within`   an access inside the `n` elements of its buffer.
-/

namespace Pointwise

inductive Role
  | left | right | first | second
  deriving DecidableEq

def Role.kind (left right result : Kind) : Role → Kind
  | .left => left
  | .right => right
  | .first => result
  | .second => result

def Placement.start (place : Placement) : Role → Nat
  | .left => place.left
  | .right => place.right
  | .first => place.output
  | .second => place.second

structure Access where
  role : Role
  start : Nat
  count : Nat
  deriving DecidableEq

def Access.Within (left right result : Kind) (place : Placement) (n : Nat) (a : Access) : Prop :=
  place.start a.role ≤ a.start ∧
    a.start + a.count ≤ place.start a.role + n * (a.role.kind left right result).size

/-- Work that may be refused, with a record of the runs of bytes that it touches. -/
abbrev Traced : Type → Type := StateT (List Access) Option

namespace Traced

def touch (role : Role) (start count : Nat) : Traced Unit :=
  modify fun log => log ++ [⟨role, start, count⟩]

def read (role : Role) (b : Buffer) (start count : Nat) : Traced (List UInt8) := do
  touch role start count
  StateT.lift (b.read? start count)

def write (role : Role) (b : Buffer) (start : Nat) (bytes : List UInt8) : Traced Buffer := do
  touch role start bytes.length
  StateT.lift (b.write? start bytes)

def load (role : Role) (k : Kind) (b : Buffer) (start i : Nat) : Traced (Elem k) :=
  Elem.decode k <$> read role b (start + i * k.size) k.size

def store (role : Role) (k : Kind) (b : Buffer) (start i : Nat) (x : Elem k) : Traced Buffer :=
  write role b (start + i * k.size) (Elem.encode k x)

/-- Traced work comes out as `o`, and adds the given accesses to the record. -/
def Follows {α : Type} (t : Traced α) (o : Option α) (accesses : List Access) : Prop :=
  ∀ log, t.run log = o.map fun x => (x, log ++ accesses)

section
variable {α β : Type}

theorem follows_pure (x : α) : Follows (pure x) (some x) [] := by
  intro log
  show some (x, log) = some (x, log ++ [])
  rw [List.append_nil]

theorem Follows.bind {t : Traced α} {o : Option α} {xs : List Access} {f : α → Traced β}
    {g : α → Option β} {ys : List Access} (ht : Follows t o xs) (hf : ∀ x, Follows (f x) (g x) ys) :
    Follows (t >>= f) (o >>= g) (xs ++ ys) := by
  intro log
  rw [StateT.run_bind, ht log]
  cases o with
  | none => rfl
  | some x =>
    show (f x).run (log ++ xs) = (g x).map fun y => (y, log ++ (xs ++ ys))
    rw [hf x, List.append_assoc]

theorem Follows.map {t : Traced α} {o : Option α} {xs : List Access} (ht : Follows t o xs)
    (f : α → β) : Follows (f <$> t) (o.map f) xs := by
  intro log
  rw [StateT.run_map, ht log]
  cases o <;> rfl

theorem follows_foldlM {f : α → Nat → Traced α} {g : α → Nat → Option α} {xs : Nat → List Access}
    (h : ∀ a i, Follows (f a i) (g a i) (xs i)) (is : List Nat) (a : α) :
    Follows (is.foldlM f a) (is.foldlM g a) (is.flatMap xs) := by
  induction is generalizing a with
  | nil => exact follows_pure a
  | cons i is ih =>
    rw [List.foldlM_cons, List.foldlM_cons, List.flatMap_cons]
    exact (h a i).bind ih

end

theorem read_follows (role : Role) (b : Buffer) (start count : Nat) :
    Follows (read role b start count) (b.read? start count) [⟨role, start, count⟩] := by
  intro log
  show ((b.read? start count).bind fun bytes => some (bytes, log ++ [_])) = _
  cases b.read? start count <;> rfl

theorem write_follows (role : Role) (b : Buffer) (start : Nat) (bytes : List UInt8) :
    Follows (write role b start bytes) (b.write? start bytes) [⟨role, start, bytes.length⟩] := by
  intro log
  show ((b.write? start bytes).bind fun c => some (c, log ++ [_])) = _
  cases b.write? start bytes <;> rfl

theorem load_follows (role : Role) (k : Kind) (b : Buffer) (start i : Nat) :
    Follows (load role k b start i) (Elem.load? k b start i)
      [⟨role, start + i * k.size, k.size⟩] :=
  (read_follows role b _ _).map (Elem.decode k)

theorem store_follows (role : Role) (k : Kind) (b : Buffer) (start i : Nat) (x : Elem k) :
    Follows (store role k b start i x) (Elem.store? k b start i x)
      [⟨role, start + i * k.size, k.size⟩] := by
  have h := write_follows role b (start + i * k.size) (Elem.encode k x)
  rw [Elem.length_encode] at h
  exact h

def storeFirst (mem : Memory) (place : Placement) (k : Kind) (i : Nat) (x : Elem k) :
    Traced Memory :=
  mem.setOutput place.target <$> store .first k (mem.output place.target) place.output i x

def storeSecond (mem : Memory) (place : Placement) (k : Kind) (i : Nat) (x : Elem k) :
    Traced Memory :=
  (fun b => { mem with second := b }) <$> store .second k mem.second place.second i x

theorem storeFirst_follows (mem : Memory) (place : Placement) (k : Kind) (i : Nat) (x : Elem k) :
    Follows (storeFirst mem place k i x) (mem.storeFirst? place k i x)
      [⟨.first, place.output + i * k.size, k.size⟩] := by
  rw [Memory.storeFirst?_eq_map]
  exact (store_follows .first k _ _ i x).map _

theorem storeSecond_follows (mem : Memory) (place : Placement) (k : Kind) (i : Nat) (x : Elem k) :
    Follows (storeSecond mem place k i x) (mem.storeSecond? place k i x)
      [⟨.second, place.second + i * k.size, k.size⟩] :=
  (store_follows .second k _ _ i x).map _

end Traced

namespace Body
variable {left right result : Kind}

def roles : Body left right result → List Role
  | one _ => [.left, .right, .first]
  | two _ => [.left, .right, .first, .second]

def access (left right result : Kind) (place : Placement) (i : Nat) (role : Role) : Access :=
  ⟨role, place.start role + i * (role.kind left right result).size,
    (role.kind left right result).size⟩

def accesses (body : Body left right result) (place : Placement) (n : Nat) : List Access :=
  (List.range n).flatMap fun i => body.roles.map (access left right result place i)

def stepTraced (body : Body left right result) (place : Placement) (mem : Memory) (i : Nat) :
    Traced Memory := do
  let a ← Traced.load .left left mem.left place.left i
  let b ← Traced.load .right right mem.right place.right i
  match body with
  | one f => Traced.storeFirst mem place result i (f a b)
  | two f =>
    let mem ← Traced.storeFirst mem place result i (f a b).1
    Traced.storeSecond mem place result i (f a b).2

def contiguousTraced (body : Body left right result) (place : Placement) (n : Nat) (mem : Memory) :
    Traced Memory :=
  (List.range n).foldlM (body.stepTraced place) mem

theorem stepTraced_follows (body : Body left right result) (place : Placement) (mem : Memory)
    (i : Nat) :
    (body.stepTraced place mem i).Follows (body.step place mem i)
      (body.roles.map (access left right result place i)) := by
  have hleft := Traced.load_follows .left left mem.left place.left i
  have hright := Traced.load_follows .right right mem.right place.right i
  cases body with
  | one f =>
    refine hleft.bind fun a => hright.bind fun b => ?_
    exact Traced.storeFirst_follows mem place result i (f a b)
  | two f =>
    refine hleft.bind fun a => hright.bind fun b => ?_
    refine (Traced.storeFirst_follows mem place result i (f a b).1).bind fun mem => ?_
    exact Traced.storeSecond_follows mem place result i (f a b).2

/-- **The record belongs to the loop**: with it the loop does what it does without. -/
theorem contiguousTraced_follows (body : Body left right result) (place : Placement) (n : Nat)
    (mem : Memory) :
    (body.contiguousTraced place n mem).Follows (body.contiguous place n mem)
      (body.accesses place n) :=
  Traced.follows_foldlM (body.stepTraced_follows place) (List.range n) mem

theorem within_access (place : Placement) {i n : Nat} (h : i < n) (role : Role) :
    (access left right result place i role).Within left right result place n := by
  have hle := run_le_of_lt h (role.kind left right result).size
  refine ⟨Nat.le_add_right _ _, ?_⟩
  show place.start role + i * (role.kind left right result).size
      + (role.kind left right result).size
    ≤ place.start role + n * (role.kind left right result).size
  omega

theorem within_of_mem_accesses {body : Body left right result} {place : Placement} {n : Nat}
    {a : Access} (h : a ∈ body.accesses place n) : a.Within left right result place n := by
  obtain ⟨i, hi, ha⟩ := List.mem_flatMap.mp h
  obtain ⟨role, -, rfl⟩ := List.mem_map.mp ha
  exact within_access place (List.mem_range.mp hi) role

end Body

end Pointwise
