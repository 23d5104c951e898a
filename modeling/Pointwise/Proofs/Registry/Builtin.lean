import Pointwise.Proofs.Kernel.Table
import Pointwise.Proofs.Registry.History
import Pointwise.Registry.Basic

/-!
# A registry with the builtin kernels

The registry is filled operation by operation.  As long as there is room, an operation gets its
function with all its kernels and no other function changes; the first operation without room ends
the construction.

* `Outcome.runAll_append`   a run of operations part by part;
* `Registry.Furnished`, `furnished_places`   what the operations with room make of a registry;
* `result_place_of_full`   how an operation without room fails;
* `Registry.Complete`, `withBuiltins_mirrors_table`   the outcome for every capacity;
* `withBuiltins_reachable`   the same registry is reached call by call.
-/

namespace Pointwise

/-! ## runs part by part -/

namespace Outcome
variable {σ α β γ : Type}

theorem bind_bind (o : Outcome σ α) (f : α → σ → Outcome σ β) (g : β → σ → Outcome σ γ) :
    (o.bind f).bind g = o.bind fun a s => (f a s).bind g := by
  obtain ⟨result, s, released, events⟩ := o
  cases result with
  | error e => rfl
  | ok a =>
    simp only [bind]
    cases (f a s).result with
    | error e => rfl
    | ok b => simp only [List.append_assoc]

theorem runAll_append (a b : List (σ → Outcome σ Unit)) (s : σ) :
    runAll (a ++ b) s = (runAll a s).bind fun _ t => runAll b t := by
  induction a generalizing s with
  | nil => simp [runAll_nil, bind]
  | cons act a ih =>
    rw [List.cons_append, runAll_cons, runAll_cons, bind_bind]
    congr 1
    funext _ t
    exact ih t

section
variable {o : Outcome σ α} {next : α → σ → Outcome σ β}

theorem result_bind_of_ok {a : α} (h : o.result = .ok a) :
    (o.bind next).result = (next a o.after).result := by
  simp only [bind, h]

theorem after_bind_of_ok {a : α} (h : o.result = .ok a) :
    (o.bind next).after = (next a o.after).after := by
  simp only [bind, h]

theorem result_bind_of_error {e : Error} (h : o.result = .error e) :
    (o.bind next).result = .error e := by
  simp only [bind, h]

theorem after_bind_of_error {e : Error} (h : o.result = .error e) :
    (o.bind next).after = o.after := by
  simp only [bind, h]

theorem events_bind_of_ok {a : α} (h : o.result = .ok a) :
    (o.bind next).events = o.events ++ (next a o.after).events := by
  simp only [bind, h]

theorem events_bind_of_error {e : Error} (h : o.result = .error e) :
    (o.bind next).events = o.events := by
  simp only [bind, h]

end

end Outcome

namespace Registry
open Outcome

/-! ## the kernels of one function -/

section
variable {r : Registry} {name : String} {capacity : Nat} {held : List Kernel}

theorem register_of_holding (k : Kernel)
    (h : r.get? name = some (Overloads.holding name capacity held)) (room : held.length < capacity) :
    (r.register name k).result = .ok () ∧ (r.register name k).after.get? name
      = some (Overloads.holding name capacity (held ++ [k])) := by
  have size := Overloads.size_holding name capacity held
  constructor
  · rw [register_of_room k h (by rw [size]; exact Nat.lt_of_le_of_lt (Nat.min_le_right _ _) room)]
  · rw [get?_register, if_pos rfl, h, Option.map_some, Overloads.after_add_holding]

theorem register_of_holding_full (k : Kernel)
    (h : r.get? name = some (Overloads.holding name capacity held)) (full : held.length = capacity) :
    (r.register name k).result = .error (.capacityExceeded name capacity) := by
  have size := Overloads.size_holding name capacity held
  rw [full, Nat.min_self] at size
  rw [register_of_full k h (Nat.le_of_eq size.symm)]
  rfl

/-- Kernels added one by one to a function that has room for all of them. -/
theorem runAll_register (kernels : List Kernel)
    (h : r.get? name = some (Overloads.holding name capacity held))
    (room : held.length + kernels.length ≤ capacity) :
    let o := runAll (kernels.map fun k r => r.register name k) r
    o.result = .ok () ∧ o.after.config = r.config ∧
      o.after.get? name = some (Overloads.holding name capacity (held ++ kernels)) ∧
      ∀ other, name ≠ other → o.after.get? other = r.get? other := by
  induction kernels generalizing r held with
  | nil =>
    rw [List.append_nil]
    exact ⟨rfl, rfl, h, fun _ _ => rfl⟩
  | cons k kernels ih =>
    rw [List.length_cons] at room
    obtain ⟨ok, next⟩ := register_of_holding k h (by omega)
    obtain ⟨result, config, inside, outside⟩ := ih next (by
      rw [List.length_append, List.length_singleton]
      omega)
    rw [List.append_assoc, List.singleton_append] at inside
    refine ⟨(result_bind_of_ok ok).trans result, ?_, ?_, fun other hn => ?_⟩
    · rw [List.map_cons, runAll_cons, after_bind_of_ok ok, config]
      exact config_perform r (.register name k)
    · rw [List.map_cons, runAll_cons, after_bind_of_ok ok, inside]
    · rw [List.map_cons, runAll_cons, after_bind_of_ok ok, outside other hn, get?_register,
        if_neg hn]

/-- The first kernel without room is refused, and that ends the run. -/
theorem runAll_register_of_full (kernels : List Kernel)
    (h : r.get? name = some (Overloads.holding name capacity held)) (le : held.length ≤ capacity)
    (more : capacity < held.length + kernels.length) :
    (runAll (kernels.map fun k r => r.register name k) r).result
      = .error (.capacityExceeded name capacity) := by
  induction kernels generalizing r held with
  | nil => exact absurd more (Nat.not_lt.mpr le)
  | cons k kernels ih =>
    rw [List.map_cons, runAll_cons]
    rcases Nat.lt_or_ge held.length capacity with room | full
    · obtain ⟨ok, next⟩ := register_of_holding k h room
      rw [result_bind_of_ok ok]
      refine ih next ?_ ?_
      · rw [List.length_append, List.length_singleton]
        omega
      · rw [List.length_append, List.length_singleton]
        rw [List.length_cons] at more
        omega
    · exact result_bind_of_error (register_of_holding_full k h (Nat.le_antisymm le full))

end

/-! ## one operation -/

/-- The function of an operation, and then its kernels. -/
def place (op : Operation) : List (Registry → Outcome Registry Unit) :=
  (fun r => (r.create op.name).discard) :: op.kernels.map fun k r => r.register op.name k

theorem setup_eq : setup = Operation.all.flatMap place := by
  unfold setup place Operation.kernels
  simp only [List.map_map, Function.comp_def]

/-- `s` is `r` with the functions of some operations, each with all its kernels. -/
structure Furnished (r : Registry) (ops : List Operation) (s : Registry) : Prop where
  config : s.config = r.config
  inside : ∀ op ∈ ops,
    s.get? op.name = some (Overloads.holding op.name r.config.maxKernels op.kernels)
  outside : ∀ name, (∀ op ∈ ops, op.name ≠ name) → s.get? name = r.get? name

section
variable {r : Registry} {op : Operation}

theorem create_of_new (h : r.get? op.name = none) :
    let o := (r.create op.name).discard
    o.result = .ok () ∧ o.after.config = r.config ∧
      o.after.get? op.name = some (Overloads.holding op.name r.config.maxKernels []) ∧
      ∀ other, op.name ≠ other → o.after.get? other = r.get? other := by
  unfold Outcome.discard
  rw [create_of_absent h]
  refine ⟨rfl, rfl, ?_, fun other hn => ?_⟩
  · rw [get?_put, if_pos rfl, Overloads.holding_nil]
  · rw [get?_put, if_neg hn]

theorem furnished_place (h : r.get? op.name = none)
    (fits : op.kernels.length ≤ r.config.maxKernels) :
    (runAll (place op) r).result = .ok () ∧ r.Furnished [op] (runAll (place op) r).after := by
  obtain ⟨ok, config, inside, outside⟩ := create_of_new h
  obtain ⟨ok', config', inside', outside'⟩ := runAll_register op.kernels inside (by
    rw [List.length_nil]
    omega)
  unfold place
  rw [runAll_cons, result_bind_of_ok ok, after_bind_of_ok ok]
  refine ⟨ok', config'.trans config, fun o ho => ?_, fun name hn => ?_⟩
  · obtain rfl := List.mem_singleton.mp ho
    exact inside'
  · have hn := hn op List.mem_cons_self
    exact (outside' name hn).trans (outside name hn)

theorem result_place_of_full (h : r.get? op.name = none)
    (more : r.config.maxKernels < op.kernels.length) :
    (runAll (place op) r).result = .error (.capacityExceeded op.name r.config.maxKernels) := by
  obtain ⟨ok, -, inside, -⟩ := create_of_new h
  unfold place
  rw [runAll_cons, result_bind_of_ok ok]
  refine runAll_register_of_full op.kernels inside (Nat.zero_le _) ?_
  rw [List.length_nil, Nat.zero_add]
  exact more

end

/-! ## operation by operation -/

theorem furnished_places {ops : List Operation} (distinct : (ops.map Operation.name).Nodup)
    {r : Registry} (new : ∀ op ∈ ops, r.get? op.name = none)
    (fits : ∀ op ∈ ops, op.kernels.length ≤ r.config.maxKernels) :
    (runAll (ops.flatMap place) r).result = .ok () ∧
      r.Furnished ops (runAll (ops.flatMap place) r).after := by
  induction ops generalizing r with
  | nil => exact ⟨rfl, rfl, fun op h => (nomatch h), fun _ _ => rfl⟩
  | cons op ops ih =>
    rw [List.map_cons, List.nodup_cons] at distinct
    have apart : ∀ o ∈ ops, op.name ≠ o.name := fun o ho e =>
      distinct.1 (e ▸ List.mem_map_of_mem ho)
    obtain ⟨ok, first⟩ := furnished_place (new op List.mem_cons_self) (fits op List.mem_cons_self)
    have kept {name : String} (hn : op.name ≠ name) :
        (runAll (place op) r).after.get? name = r.get? name :=
      first.outside name fun o ho => List.mem_singleton.mp ho ▸ hn
    obtain ⟨ok', rest⟩ := ih distinct.2 (r := (runAll (place op) r).after)
      (fun o ho => (kept (apart o ho)).trans (new o (List.mem_cons_of_mem _ ho)))
      (fun o ho => by
        rw [first.config]
        exact fits o (List.mem_cons_of_mem _ ho))
    rw [List.flatMap_cons, runAll_append, result_bind_of_ok ok, after_bind_of_ok ok]
    refine ⟨ok', rest.config.trans first.config, fun o ho => ?_, fun name hn => ?_⟩
    · rcases List.mem_cons.mp ho with rfl | ho
      · -- the other operations leave the function of this one alone
        rw [rest.outside o.name fun p hp e => apart p hp e.symm]
        exact first.inside o List.mem_cons_self
      · rw [rest.inside o ho, first.config]
    · rw [rest.outside name fun o ho => hn o (List.mem_cons_of_mem _ ho)]
      exact kept (hn op List.mem_cons_self)

theorem result_places_of_full {before rest : List Operation} {op : Operation}
    (distinct : ((before ++ op :: rest).map Operation.name).Nodup) {r : Registry}
    (new : ∀ o ∈ before ++ op :: rest, r.get? o.name = none)
    (fits : ∀ o ∈ before, o.kernels.length ≤ r.config.maxKernels)
    (more : r.config.maxKernels < op.kernels.length) :
    (runAll ((before ++ op :: rest).flatMap place) r).result
      = .error (.capacityExceeded op.name r.config.maxKernels) := by
  rw [List.map_append, List.map_cons, List.nodup_append'] at distinct
  obtain ⟨ok, made⟩ := furnished_places distinct.1
    (fun o ho => new o (List.mem_append_left _ ho)) fits
  have absent : (runAll (before.flatMap place) r).after.get? op.name = none := by
    rw [made.outside op.name fun o ho e => ?_]
    · exact new op (List.mem_append_right _ List.mem_cons_self)
    · exact distinct.2.2 (List.mem_map_of_mem ho) (e ▸ List.mem_cons_self)
  rw [List.flatMap_append, List.flatMap_cons, runAll_append, result_bind_of_ok ok, runAll_append]
  refine result_bind_of_error ?_
  rw [result_place_of_full absent (made.config ▸ more), made.config]

/-! ## all operations -/

theorem names_distinct : (Operation.all.map Operation.name).Nodup := by decide

theorem absent_of_empty (config : Config) (ops : List Operation) :
    ∀ op ∈ ops, (empty config).get? op.name = none := fun op _ => get?_empty config op.name

/-- The registry answers for a pair of kinds as the promotion table does: with a kernel for the entry,
or with the same refusal. -/
def Agrees (r : Registry) (op : Operation) (left right : Kind) : Prop :=
  (∃ e k, Promotion.resolve op left right = .ok e ∧ r.resolve op.name left right = .ok k ∧
    k.Serves op e) ∨
  (Promotion.resolve op left right = .error (.unsupportedOperand op.name left right) ∧
    r.resolve op.name left right = .error (.unsupportedOperand op.name left right))

/-- One function for each operation, one kernel in it for each available entry in the order of the
table, and for every pair of kinds the answer of the table. -/
structure Complete (r : Registry) (capacity : Nat) : Prop where
  names : r.names.Perm (Operation.all.map Operation.name)
  size : r.size = Operation.all.length
  function : ∀ op : Operation, ∃ f, r.get? op.name = some f ∧
    f.name = op.name ∧ f.capacity = capacity ∧
    List.Forall₂ (fun e k => k.Serves op e) (Promotion.available op.family) f.kernels.toList ∧
    f.kernels.toList.Pairwise fun k k' => k.left < k'.left ∨ k.left = k'.left ∧ k.right < k'.right
  agrees : ∀ op left right, r.Agrees op left right

theorem names_nodup (r : Registry) : r.names.Nodup := by
  refine (names_ascending r).imp ?_
  rintro name _ less rfl
  exact List.lt_irrefl _ less

section
variable {config : Config} {r : Registry} (h : (empty config).Furnished Operation.all r)
include h

theorem names_of_furnished : r.names.Perm (Operation.all.map Operation.name) := by
  rw [List.perm_ext_iff_of_nodup (names_nodup r) names_distinct]
  intro name
  rw [mem_names, List.mem_map]
  constructor
  · rintro ⟨f, hf⟩
    by_contra hn
    rw [h.outside name fun op hop e => hn ⟨op, hop, e⟩, get?_empty] at hf
    exact nomatch hf
  · rintro ⟨op, hop, rfl⟩
    exact ⟨_, h.inside op hop⟩

variable {op : Operation} (fits : (Promotion.available op.family).length ≤ config.maxKernels)
include fits

theorem function_of_furnished : ∃ f, r.get? op.name = some f ∧ f.name = op.name ∧
    f.capacity = config.maxKernels ∧ f.kernels.toList = op.kernels := by
  refine ⟨_, h.inside op op.mem_all, rfl, rfl, ?_⟩
  rw [Overloads.kernels_holding, List.take_of_length_le]
  rw [length_kernels]
  exact fits

theorem agrees_of_furnished (left right : Kind) : r.Agrees op left right := by
  obtain ⟨f, hf, -, -, kernels⟩ := function_of_furnished h fits
  have find : f.find? left right = op.kernels.find? fun k => k.takes left right := by
    rw [← kernels, Array.find?_toList]
    rfl
  unfold Agrees Registry.resolve
  rw [hf]
  dsimp only
  rw [find]
  rcases Promotion.resolve_cases op left right with ⟨e, he, rfl, rfl, hr⟩ | ⟨hn, hr⟩
  · obtain ⟨k, hk, serves⟩ := find?_kernels_eq_some he
    rw [hk]
    exact .inl ⟨e, k, hr, rfl, serves⟩
  · rw [find?_kernels_eq_none hn]
    exact .inr ⟨hr, rfl⟩

end

/-- What the registry holds determines what it answers. -/
theorem complete_of_furnished {config : Config} {r : Registry}
    (h : (empty config).Furnished Operation.all r)
    (fits : ∀ op : Operation, (Promotion.available op.family).length ≤ config.maxKernels) :
    r.Complete config.maxKernels where
  names := names_of_furnished h
  size := by
    rw [← length_names, (names_of_furnished h).length_eq, List.length_map]
  function op := by
    obtain ⟨f, hf, name, capacity, kernels⟩ := function_of_furnished h (fits op)
    exact ⟨f, hf, name, capacity, kernels ▸ forall₂_kernels op, kernels ▸ kernels_ascending op⟩
  agrees op left right := agrees_of_furnished h (fits op) left right

/-! ## the outcome -/

/-- The first operation with more available entries than a function may hold. -/
structure FirstOver (capacity : Nat) (op : Operation) : Prop where
  more : capacity < (Promotion.available op.family).length
  first : ∃ before rest, Operation.all = before ++ op :: rest ∧
    ∀ o ∈ before, (Promotion.available o.family).length ≤ capacity

theorem exists_firstOver {capacity : Nat} {op : Operation}
    (h : capacity < (Promotion.available op.family).length) : ∃ o, FirstOver capacity o := by
  let p (o : Operation) : Bool := decide (capacity < (Promotion.available o.family).length)
  obtain ⟨o, ho⟩ : ∃ o, Operation.all.find? p = some o := by
    rw [← Option.isSome_iff_exists, List.find?_isSome]
    exact ⟨op, op.mem_all, decide_eq_true h⟩
  obtain ⟨more, before, rest, split, fit⟩ := List.find?_eq_some_iff_append.mp ho
  refine ⟨o, of_decide_eq_true more, before, rest, split, fun x hx => ?_⟩
  have fit := fit x hx
  rw [Bool.not_eq_true', decide_eq_false_iff_not] at fit
  exact Nat.le_of_not_lt fit

theorem result_withBuiltins (config : Config) :
    (withBuiltins config).result = (runAll (Operation.all.flatMap place) (empty config)).result := by
  rw [← setup_eq]
  rfl

theorem after_withBuiltins (config : Config) :
    (withBuiltins config).after = (runAll (Operation.all.flatMap place) (empty config)).after := by
  rw [← setup_eq]
  rfl

theorem furnished_withBuiltins {config : Config}
    (fits : ∀ op : Operation, (Promotion.available op.family).length ≤ config.maxKernels) :
    (withBuiltins config).result = .ok () ∧
      (empty config).Furnished Operation.all (withBuiltins config).after := by
  have kernels : ∀ op ∈ Operation.all, op.kernels.length ≤ (empty config).config.maxKernels := by
    intro op _
    rw [length_kernels]
    exact fits op
  rw [result_withBuiltins, after_withBuiltins]
  exact furnished_places names_distinct (absent_of_empty config _) kernels

theorem withBuiltins_of_fits {config : Config}
    (fits : ∀ op : Operation, (Promotion.available op.family).length ≤ config.maxKernels) :
    (withBuiltins config).result = .ok () ∧
      (withBuiltins config).after.Complete config.maxKernels := by
  obtain ⟨ok, h⟩ := furnished_withBuiltins fits
  exact ⟨ok, complete_of_furnished h fits⟩

theorem withBuiltins_of_firstOver {config : Config} {op : Operation}
    (h : FirstOver config.maxKernels op) :
    (withBuiltins config).result = .error (.capacityExceeded op.name config.maxKernels) := by
  obtain ⟨more, before, rest, split, fits⟩ := h
  have distinct := names_distinct
  rw [result_withBuiltins]
  rw [split] at distinct ⊢
  refine result_places_of_full distinct (absent_of_empty config _) (fun o ho => ?_) ?_
  · rw [length_kernels]
    exact fits o ho
  · rw [length_kernels]
    exact more

theorem fits_of_withBuiltins {config : Config} (ok : (withBuiltins config).result = .ok ())
    (op : Operation) : (Promotion.available op.family).length ≤ config.maxKernels := by
  by_contra more
  obtain ⟨o, ho⟩ := exists_firstOver (Nat.lt_of_not_le more)
  rw [withBuiltins_of_firstOver ho] at ok
  cases ok

/-- Operations that do what calls do lead where calls lead, and report what they report. -/
theorem exists_calls_runAll {acts : List (Registry → Outcome Registry Unit)}
    (h : ∀ act ∈ acts, ∃ call, ∀ r, (act r).after = (r.perform call).after ∧
      (act r).events = (r.perform call).events) (r : Registry) :
    ∃ calls, (runAll acts r).after = r.after calls ∧ (runAll acts r).events = r.log calls := by
  induction acts generalizing r with
  | nil => exact ⟨[], rfl, rfl⟩
  | cons act acts ih =>
    obtain ⟨call, hcall⟩ := h act List.mem_cons_self
    obtain ⟨after, events⟩ := hcall r
    rw [runAll_cons]
    cases hr : (act r).result with
    | error e =>
      rw [after_bind_of_error hr, events_bind_of_error hr, after, events]
      exact ⟨[call], rfl, (List.append_nil _).symm⟩
    | ok _ =>
      obtain ⟨calls, after', events'⟩ := ih (fun a ha => h a (List.mem_cons_of_mem _ ha)) (act r).after
      rw [after_bind_of_ok hr, events_bind_of_ok hr, after', events', after, events]
      exact ⟨call :: calls, rfl, rfl⟩

/-- The builtin kernels are put in place by calls. -/
theorem exists_calls_setup (config : Config) :
    ∃ calls, (runAll setup (empty config)).after = (empty config).after calls ∧
      (runAll setup (empty config)).events = (empty config).log calls := by
  rw [setup_eq]
  refine exists_calls_runAll (fun act hact => ?_) (empty config)
  obtain ⟨op, -, hop⟩ := List.mem_flatMap.mp hact
  rcases List.mem_cons.mp hop with rfl | hk
  · exact ⟨.create op.name, fun r => ⟨rfl, rfl⟩⟩
  · obtain ⟨k, -, rfl⟩ := List.mem_map.mp hk
    exact ⟨.register op.name k, fun r => ⟨rfl, rfl⟩⟩

/-- What holds after any calls on an empty registry holds of a registry with the builtin kernels. -/
theorem withBuiltins_reachable (config : Config) :
    ∃ calls, (withBuiltins config).after = (empty config).after calls := by
  obtain ⟨calls, after, -⟩ := exists_calls_setup config
  exact ⟨calls, after⟩

/-- There is room for everything unless less is asked for. -/
theorem withBuiltins_default : (withBuiltins {}).result = .ok () := by
  refine (withBuiltins_of_fits fun op => ?_).1
  exact (Promotion.length_available_le op.family).trans (by decide)

/-- **A registry with the builtin kernels mirrors the promotion table**, if every function has room
for the entries of its family; otherwise the first operation without room is reported. -/
theorem withBuiltins_mirrors_table (config : Config) :
    ((withBuiltins config).result = .ok () ↔
      ∀ op : Operation, (Promotion.available op.family).length ≤ config.maxKernels) ∧
    ((withBuiltins config).result = .ok () →
      (withBuiltins config).after.Complete config.maxKernels) ∧
    ∀ e, (withBuiltins config).result = .error e ↔
      ∃ op, FirstOver config.maxKernels op ∧ e = .capacityExceeded op.name config.maxKernels := by
  by_cases fits : ∀ op : Operation, (Promotion.available op.family).length ≤ config.maxKernels
  · obtain ⟨ok, complete⟩ := withBuiltins_of_fits fits
    refine ⟨iff_of_true ok fits, fun _ => complete, fun e => ?_⟩
    rw [ok]
    refine iff_of_false (fun he => nomatch he) ?_
    rintro ⟨op, h, -⟩
    exact absurd (fits op) (Nat.not_le_of_lt h.more)
  · obtain ⟨op, more⟩ := not_forall.mp fits
    obtain ⟨o, ho⟩ := exists_firstOver (Nat.lt_of_not_le more)
    have failed := withBuiltins_of_firstOver ho
    refine ⟨?_, ?_, fun e => ?_⟩
    · rw [failed]
      exact iff_of_false (fun he => nomatch he) fits
    · rw [failed]
      exact fun he => nomatch he
    · constructor
      · intro he
        rw [failed] at he
        exact ⟨o, ho, (Except.error.inj he).symm⟩
      · rintro ⟨p, hp, rfl⟩
        exact withBuiltins_of_firstOver hp

theorem default_mirrors_table : (withBuiltins {}).result = .ok () ∧
    (withBuiltins {}).after.Complete defaultCapacity :=
  ⟨withBuiltins_default, (withBuiltins_mirrors_table {}).2.1 withBuiltins_default⟩

end Registry

end Pointwise
