import Pointwise.Registry.Basic

/-!
# Runs of a registry

A `Call` asks one thing of a registry: a function to be created, filled or destroyed, or something
to be looked up. `Registry.perform` is what the call brings about, and `Registry.after` follows a
list of calls. A single function has calls of its own, `Overloads.Call`.

* `get?_create`, `get?_register`, `get?_destroy`   what each call makes of every name;
* `Call.effect`, `get?_perform_self`   what a call makes of its own name;
* `get?_perform_of_ne`   a call concerns no name but its own;
* `after_perform_of_error`   a call that fails leaves the registry as it was.
-/

namespace Pointwise

namespace Overloads

theorem add_of_room {f : Overloads} (k : Kernel) (h : f.kernels.size < f.capacity) :
    f.add k = {
      result := .ok ()
      after := { f with
        kernels := f.kernels.push k
        size_le := by rw [Array.size_push]; exact h } } :=
  dif_pos h

theorem add_of_full {f : Overloads} (k : Kernel) (h : f.capacity ≤ f.kernels.size) :
    f.add k = {
      result := .error (.capacityExceeded f.name f.capacity)
      after := f
      released := [k.signature] } :=
  dif_neg (Nat.not_lt.mpr h)

inductive Call
  | push (kernel : Kernel)
  | find (left right : Kind)
  | findExact (left right result : Kind)
  /-- its name, its capacity and all its kernels -/
  | read

def Call.Reply : Call → Type
  | push _ => Unit
  | find _ _ => Option Kernel
  | findExact _ _ _ => Option Kernel
  | read => Overloads

def perform (f : Overloads) : (call : Call) → Outcome Overloads call.Reply
  | .push k => f.add k
  | .find left right => { result := .ok (f.find? left right), after := f }
  | .findExact left right result => { result := .ok (f.findExact? left right result), after := f }
  | .read => { result := .ok f, after := f }

end Overloads

namespace Registry

inductive Call
  | create (name : String)
  | register (name : String) (kernel : Kernel)
  | destroy (name : String)
  | resolve (name : String) (left right : Kind)
  | get (name : String)

def Call.name : Call → String
  | create name => name
  | register name _ => name
  | destroy name => name
  | resolve name _ _ => name
  | get name => name

def Call.Reply : Call → Type
  | create _ => Overloads
  | register _ _ => Unit
  | destroy _ => Unit
  | resolve _ _ _ => Kernel
  | get _ => Option Overloads

def perform (r : Registry) : (call : Call) → Outcome Registry call.Reply
  | .create name => r.create name
  | .register name k => r.register name k
  | .destroy name => r.destroy name
  | .resolve name left right => { result := r.resolve name left right, after := r }
  | .get name => { result := .ok (r.get? name), after := r }

def after (r : Registry) (calls : List Call) : Registry :=
  calls.foldl (fun r call => (r.perform call).after) r

theorem after_cons (r : Registry) (call : Call) (calls : List Call) :
    r.after (call :: calls) = (r.perform call).after.after calls := rfl
theorem after_append (r : Registry) (a b : List Call) : r.after (a ++ b) = (r.after a).after b :=
  List.foldl_append
theorem after_concat (r : Registry) (calls : List Call) (call : Call) :
    r.after (calls ++ [call]) = ((r.after calls).perform call).after :=
  after_append r calls [call]

def log (r : Registry) : List Call → List Event
  | [] => []
  | call :: calls => (r.perform call).events ++ (r.perform call).after.log calls

theorem log_cons (r : Registry) (call : Call) (calls : List Call) :
    r.log (call :: calls) = (r.perform call).events ++ (r.perform call).after.log calls := rfl
theorem log_concat (r : Registry) (calls : List Call) (call : Call) :
    r.log (calls ++ [call]) = r.log calls ++ ((r.after calls).perform call).events := by
  induction calls generalizing r with
  | nil => exact List.append_nil _
  | cons first calls ih =>
    rw [List.cons_append, log_cons, ih, log_cons, List.append_assoc]
    rfl

/-! ## reading a name -/

theorem get?_empty (config : Config) (name : String) : (empty config).get? name = none :=
  Std.ExtTreeMap.getElem?_empty

theorem get?_put (r : Registry) (name other : String) (f : Overloads) :
    (r.put name f).get? other = if name = other then some f else r.get? other := by
  show (r.functions.insert name f)[other]? = _
  rw [Std.ExtTreeMap.getElem?_insert]
  simp only [Std.LawfulEqCmp.compare_eq_iff_eq]
  rfl

theorem get?_erase (r : Registry) (name other : String) :
    (r.erase name).get? other = if name = other then none else r.get? other := by
  show (r.functions.erase name)[other]? = _
  rw [Std.ExtTreeMap.getElem?_erase]
  simp only [Std.LawfulEqCmp.compare_eq_iff_eq]
  rfl

/-! ## what each call does, case by case -/

section
variable {r : Registry} {name : String} {f : Overloads}

theorem create_of_absent (h : r.get? name = none) :
    r.create name = {
      result := .ok (Overloads.empty name r.config.maxKernels)
      after := r.put name (Overloads.empty name r.config.maxKernels)
      events := [.created name r.config.maxKernels] } := by
  unfold create
  rw [h]

theorem create_of_present (h : r.get? name = some f) :
    r.create name = { result := .error (.duplicateFunction name), after := r } := by
  unfold create
  rw [h]

theorem register_of_absent (k : Kernel) (h : r.get? name = none) :
    r.register name k = {
      result := .error (.functionNotFound name)
      after := r
      released := [k.signature] } := by
  unfold register
  rw [h]

theorem register_of_room (k : Kernel) (h : r.get? name = some f)
    (room : f.kernels.size < f.capacity) :
    r.register name k = { result := .ok (), after := r.put name (f.add k).after } := by
  unfold register
  rw [h]
  dsimp only
  rw [Overloads.add_of_room k room]

theorem register_of_full (k : Kernel) (h : r.get? name = some f)
    (full : f.capacity ≤ f.kernels.size) :
    r.register name k = {
      result := .error (.capacityExceeded f.name f.capacity)
      after := r
      released := [k.signature]
      events := [.rejected name (.capacityExceeded f.name f.capacity)] } := by
  unfold register
  rw [h]
  dsimp only
  rw [Overloads.add_of_full k full]

theorem destroy_of_absent (h : r.get? name = none) :
    r.destroy name = { result := .error (.functionNotFound name), after := r } := by
  unfold destroy
  rw [h]

theorem destroy_of_present (h : r.get? name = some f) :
    r.destroy name = {
      result := .ok ()
      after := r.erase name
      released := f.signatures
      events := [.destroyed name f.size] } := by
  unfold destroy
  rw [h]

end

/-! ## which calls fail -/

section
variable (r : Registry) (name : String) (e : Error)

theorem create_eq_error_iff :
    (r.create name).result = .error e ↔
      (∃ f, r.get? name = some f) ∧ e = .duplicateFunction name := by
  cases h : r.get? name with
  | none =>
    rw [create_of_absent h]
    exact iff_of_false (fun he => nomatch he) (fun ⟨⟨f, hf⟩, _⟩ => nomatch hf)
  | some f =>
    rw [create_of_present h]
    constructor
    · intro he
      exact ⟨⟨f, rfl⟩, (Except.error.inj he).symm⟩
    · rintro ⟨-, rfl⟩
      rfl

theorem eq_empty_of_create_eq_ok {f : Overloads} (hf : (r.create name).result = .ok f) :
    f = Overloads.empty name r.config.maxKernels := by
  cases h : r.get? name with
  | none =>
    rw [create_of_absent h] at hf
    exact (Except.ok.inj hf).symm
  | some g =>
    rw [create_of_present h] at hf
    exact nomatch hf

theorem destroy_eq_error_iff :
    (r.destroy name).result = .error e ↔ r.get? name = none ∧ e = .functionNotFound name := by
  cases h : r.get? name with
  | none =>
    rw [destroy_of_absent h]
    constructor
    · intro he
      exact ⟨rfl, (Except.error.inj he).symm⟩
    · rintro ⟨-, rfl⟩
      rfl
  | some f =>
    rw [destroy_of_present h]
    exact iff_of_false (fun he => nomatch he) (fun ⟨hn, _⟩ => nomatch hn)

theorem resolve_eq_error_iff (left right : Kind) :
    r.resolve name left right = .error e ↔
      (r.get? name = none ∧ e = .functionNotFound name) ∨
      ((∃ f, r.get? name = some f ∧ f.find? left right = none) ∧
        e = .unsupportedOperand name left right) := by
  unfold resolve
  cases hf : r.get? name with
  | none =>
    constructor
    · intro he
      exact .inl ⟨rfl, (Except.error.inj he).symm⟩
    · rintro (⟨-, rfl⟩ | ⟨⟨f, hf, -⟩, -⟩)
      · rfl
      · exact nomatch hf
  | some f =>
    dsimp only
    cases hk : f.find? left right with
    | none =>
      constructor
      · intro he
        exact .inr ⟨⟨f, rfl, hk⟩, (Except.error.inj he).symm⟩
      · rintro (⟨hn, -⟩ | ⟨-, rfl⟩)
        · exact nomatch hn
        · rfl
    | some k =>
      refine iff_of_false (fun he => nomatch he) ?_
      rintro (⟨hn, -⟩ | ⟨⟨g, hg, hnone⟩, -⟩)
      · exact nomatch hn
      · obtain rfl := Option.some.inj hg
        rw [hk] at hnone
        exact nomatch hnone

/-- The error speaks of the function by the name and the capacity that it has itself. -/
theorem register_eq_error_iff (k : Kernel) :
    (r.register name k).result = .error e ↔
      (r.get? name = none ∧ e = .functionNotFound name) ∨
      ∃ f, r.get? name = some f ∧ f.kernels.size = f.capacity ∧
        e = .capacityExceeded f.name f.capacity := by
  cases h : r.get? name with
  | none =>
    rw [register_of_absent k h]
    constructor
    · intro he
      exact .inl ⟨rfl, (Except.error.inj he).symm⟩
    · rintro (⟨-, rfl⟩ | ⟨f, hf, -⟩)
      · rfl
      · exact nomatch hf
  | some f =>
    by_cases full : f.capacity ≤ f.kernels.size
    · rw [register_of_full k h full]
      constructor
      · intro he
        exact .inr ⟨f, rfl, Nat.le_antisymm f.size_le full, (Except.error.inj he).symm⟩
      · rintro (⟨hn, -⟩ | ⟨g, hg, -, rfl⟩)
        · exact nomatch hn
        · obtain rfl := Option.some.inj hg
          rfl
    · rw [register_of_room k h (Nat.lt_of_not_le full)]
      refine iff_of_false (fun he => nomatch he) ?_
      rintro (⟨hn, -⟩ | ⟨g, hg, hsize, -⟩)
      · exact nomatch hn
      · obtain rfl := Option.some.inj hg
        exact full (Nat.le_of_eq hsize.symm)

end

/-! ## what a call makes of every name -/

theorem get?_create (r : Registry) (name other : String) :
    (r.create name).after.get? other
      = if name = other then some ((r.get? name).getD (Overloads.empty name r.config.maxKernels))
        else r.get? other := by
  cases h : r.get? name with
  | none =>
    rw [create_of_absent h, Option.getD_none]
    exact get?_put r name other _
  | some f =>
    rw [create_of_present h, Option.getD_some]
    by_cases e : name = other
    · rw [if_pos e, ← e, h]
    · rw [if_neg e]

theorem get?_register (r : Registry) (name other : String) (k : Kernel) :
    (r.register name k).after.get? other
      = if name = other then (r.get? name).map fun f => (f.add k).after else r.get? other := by
  cases h : r.get? name with
  | none =>
    rw [register_of_absent k h, Option.map_none]
    by_cases e : name = other
    · rw [if_pos e, ← e, h]
    · rw [if_neg e]
  | some f =>
    rw [Option.map_some]
    rcases Nat.lt_or_ge f.kernels.size f.capacity with room | full
    · rw [register_of_room k h room]
      exact get?_put r name other _
    · rw [register_of_full k h full, Overloads.add_of_full k full]
      by_cases e : name = other
      · rw [if_pos e, ← e, h]
      · rw [if_neg e]

theorem get?_destroy (r : Registry) (name other : String) :
    (r.destroy name).after.get? other = if name = other then none else r.get? other := by
  cases h : r.get? name with
  | none =>
    rw [destroy_of_absent h]
    by_cases e : name = other
    · rw [if_pos e, ← e, h]
    · rw [if_neg e]
  | some f =>
    rw [destroy_of_present h]
    exact get?_erase r name other

/-- What a call makes of the function under its own name. -/
def Call.effect (capacity : Nat) : Call → Option Overloads → Option Overloads
  | create name, f => some (f.getD (Overloads.empty name capacity))
  | register _ k, f => f.map fun f => (f.add k).after
  | destroy _, _ => none
  | resolve _ _ _, f => f
  | get _, f => f

theorem get?_perform_self (r : Registry) (call : Call) :
    (r.perform call).after.get? call.name
      = call.effect r.config.maxKernels (r.get? call.name) := by
  cases call with
  | create name => exact (get?_create r name name).trans (if_pos rfl)
  | register name k => exact (get?_register r name name k).trans (if_pos rfl)
  | destroy name => exact (get?_destroy r name name).trans (if_pos rfl)
  | resolve name left right => rfl
  | get name => rfl

theorem get?_perform_of_ne (r : Registry) (call : Call) {other : String} (h : call.name ≠ other) :
    (r.perform call).after.get? other = r.get? other := by
  cases call with
  | create name => exact (get?_create r name other).trans (if_neg h)
  | register name k => exact (get?_register r name other k).trans (if_neg h)
  | destroy name => exact (get?_destroy r name other).trans (if_neg h)
  | resolve name left right => rfl
  | get name => rfl

/-! ## what no call changes -/

theorem config_perform (r : Registry) (call : Call) : (r.perform call).after.config = r.config := by
  cases call with
  | create name =>
    show (r.create name).after.config = r.config
    cases h : r.get? name with
    | none => rw [create_of_absent h]; rfl
    | some f => rw [create_of_present h]
  | register name k =>
    show (r.register name k).after.config = r.config
    cases h : r.get? name with
    | none => rw [register_of_absent k h]
    | some f =>
      rcases Nat.lt_or_ge f.kernels.size f.capacity with room | full
      · rw [register_of_room k h room]; rfl
      · rw [register_of_full k h full]
  | destroy name =>
    show (r.destroy name).after.config = r.config
    cases h : r.get? name with
    | none => rw [destroy_of_absent h]
    | some f => rw [destroy_of_present h]; rfl
  | resolve name left right => rfl
  | get name => rfl

theorem config_after (r : Registry) (calls : List Call) : (r.after calls).config = r.config := by
  induction calls generalizing r with
  | nil => rfl
  | cons call calls ih => rw [after_cons, ih, config_perform]

/-- A call that fails leaves the whole registry as it was. -/
theorem after_perform_of_error (r : Registry) (call : Call) {e : Error}
    (he : (r.perform call).result = .error e) : (r.perform call).after = r := by
  cases call with
  | create name =>
    change (r.create name).result = _ at he
    show (r.create name).after = r
    cases h : r.get? name with
    | none => rw [create_of_absent h] at he; cases he
    | some f => rw [create_of_present h]
  | register name k =>
    change (r.register name k).result = _ at he
    show (r.register name k).after = r
    cases h : r.get? name with
    | none => rw [register_of_absent k h]
    | some f =>
      rcases Nat.lt_or_ge f.kernels.size f.capacity with room | full
      · rw [register_of_room k h room] at he; cases he
      · rw [register_of_full k h full]
  | destroy name =>
    change (r.destroy name).result = _ at he
    show (r.destroy name).after = r
    cases h : r.get? name with
    | none => rw [destroy_of_absent h]
    | some f => rw [destroy_of_present h] at he; cases he
  | resolve name left right => rfl
  | get name => rfl

/-! ## names -/

theorem mem_names (r : Registry) (name : String) : name ∈ r.names ↔ ∃ f, r.get? name = some f := by
  show name ∈ r.functions.keys ↔ ∃ f, r.functions[name]? = some f
  rw [Std.ExtTreeMap.mem_keys, Std.ExtTreeMap.mem_iff_isSome_getElem?, Option.isSome_iff_exists]

theorem length_names (r : Registry) : r.names.length = r.size := Std.ExtTreeMap.length_keys

def nameBytes (name : String) : List UInt8 := name.toByteArray.data.toList

theorem lt_of_compare_bytes {a b : List UInt8} (h : compare a b = .lt) : a < b := by
  induction a generalizing b with
  | nil =>
    cases b with
    | nil => cases h
    | cons y ys => exact List.nil_lt_cons y ys
  | cons x xs ih =>
    cases b with
    | nil => cases h
    | cons y ys =>
      rw [List.compare_cons_cons, Ordering.then_eq_lt] at h
      rw [List.cons_lt_cons_iff]
      rcases h with h | ⟨h, h'⟩
      · exact .inl (Std.compare_eq_lt.mp h)
      · exact .inr ⟨Std.LawfulEqOrd.eq_of_compare h, ih h'⟩

theorem names_ascending (r : Registry) :
    r.names.Pairwise fun a b => nameBytes a < nameBytes b :=
  r.functions.ordered_keys.imp lt_of_compare_bytes

end Registry

end Pointwise
