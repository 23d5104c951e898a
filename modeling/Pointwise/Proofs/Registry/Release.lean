import Mathlib.Data.List.Nodup
import Pointwise.Proofs.Registry.Run

/-!
# Every signature is let go of once

A kernel that is offered is either held or let go of at once, and what is held is let go of later.
`Custody` states this balance for one call of any system, and `balance_run` carries it through runs
of any length; functions and registries are two such systems.

* `Custody.settled`   after every step what was offered is held or was let go of, and not both;
* `Overloads.due`, `Registry.due`   what one call lets go of;
* `signatures_settled`   both, for functions and registries, and what dropping them makes of it.
-/

namespace Pointwise

/-! ## systems that are offered kernels -/

/-- A system that is offered kernels, call by call, and lets go of them. One call neither loses nor
copies a signature. -/
structure Custody (σ κ : Type) where
  perform : σ → κ → Outcome σ Unit
  offers : κ → List Signature
  held : σ → List Signature
  /-- what is let go of together with the system itself -/
  drop : σ → List Signature
  drop_eq : ∀ s, drop s = held s
  balance : ∀ s call, (held s ++ offers call).Perm
    ((perform s call).released ++ held (perform s call).after)

namespace Custody
variable {σ κ : Type} (C : Custody σ κ)

def offered (calls : List κ) : List Signature := calls.flatMap C.offers

def run (s : σ) : List κ → σ × List Signature
  | [] => (s, [])
  | call :: calls =>
    let o := C.perform s call
    let (t, released) := run o.after calls
    (t, o.released ++ released)

theorem balance_run (s : σ) (calls : List κ) :
    (C.held s ++ C.offered calls).Perm ((C.run s calls).2 ++ C.held (C.run s calls).1) := by
  induction calls generalizing s with
  | nil => simp [offered, run]
  | cons call calls ih =>
    have step := (C.balance s call).append_right (C.offered calls)
    have rest := (ih (C.perform s call).after).append_left (C.perform s call).released
    rw [List.append_assoc, List.append_assoc] at step
    refine step.trans (rest.trans ?_)
    rw [← List.append_assoc]
    exact .refl _

/-- All that was offered was let go of or is held, and never twice or both. -/
structure Settled (s : σ) (calls : List κ) : Prop where
  balance : (C.offered calls).Perm ((C.run s calls).2 ++ C.held (C.run s calls).1)
  released_once : (C.run s calls).2.Nodup
  held_once : (C.held (C.run s calls).1).Nodup
  disjoint : (C.run s calls).2.Disjoint (C.held (C.run s calls).1)
  dropped : (C.offered calls).Perm ((C.run s calls).2 ++ C.drop (C.run s calls).1)

theorem settled {s : σ} (start : C.held s = []) {calls : List κ}
    (distinct : (C.offered calls).Nodup) : C.Settled s calls := by
  have balance := C.balance_run s calls
  rw [start, List.nil_append] at balance
  obtain ⟨hr, hh, hd⟩ := List.nodup_append'.mp (balance.nodup_iff.mp distinct)
  exact ⟨balance, hr, hh, hd, by rwa [C.drop_eq]⟩

theorem settled_of_prefix {s : σ} (start : C.held s = []) {calls past : List κ}
    (distinct : (C.offered calls).Nodup) (h : past <+: calls) : C.Settled s past := by
  obtain ⟨rest, rfl⟩ := h
  refine C.settled start ?_
  unfold offered at distinct ⊢
  rw [List.flatMap_append] at distinct
  exact (List.nodup_append'.mp distinct).1

end Custody

/-! ## one function -/

namespace Overloads

/-- What a call lets go of: a kernel that is refused. -/
def due (f : Overloads) : Call → List Signature
  | .push k =>
    match (f.add k).result with
    | .error _ => [k.signature]
    | .ok _ => []
  | _ => []

theorem released_perform (f : Overloads) (call : Call) :
    (f.perform call).released = f.due call := by
  cases call with
  | push k =>
    rcases Nat.lt_or_ge f.kernels.size f.capacity with room | full
    · simp [perform, due, add_of_room k room]
    · simp [perform, due, add_of_full k full]
  | find left right => rfl
  | findExact left right result => rfl
  | read => rfl

theorem signatures_add_of_room {f : Overloads} {k : Kernel} (room : f.kernels.size < f.capacity) :
    (f.add k).after.signatures = f.signatures ++ [k.signature] := by
  rw [add_of_room k room]
  unfold signatures
  simp

theorem balance_add (f : Overloads) (k : Kernel) :
    (f.signatures ++ [k.signature]).Perm ((f.add k).released ++ (f.add k).after.signatures) := by
  rcases Nat.lt_or_ge f.kernels.size f.capacity with room | full
  · rw [signatures_add_of_room room, add_of_room k room]
    exact .refl _
  · rw [add_of_full k full]
    exact List.perm_append_comm

def custody : Custody Overloads Call where
  perform f call := (f.perform call).discard
  offers
    | .push k => [k.signature]
    | _ => []
  held := signatures
  drop := signatures
  drop_eq _ := rfl
  balance f call := by
    cases call with
    | push k => exact balance_add f k
    | find left right => simp [perform, Outcome.discard]
    | findExact left right result => simp [perform, Outcome.discard]
    | read => simp [perform, Outcome.discard]

end Overloads

/-! ## a registry -/

namespace Registry
variable {r : Registry} {name : String} {f : Overloads}

/-- What a call lets go of: a kernel that is refused, and all that a destroyed function held. -/
def due (r : Registry) : Call → List Signature
  | .register name k =>
    match (r.register name k).result with
    | .error _ => [k.signature]
    | .ok _ => []
  | .destroy name =>
    match r.get? name with
    | some f => f.signatures
    | none => []
  | _ => []

theorem released_perform (r : Registry) (call : Call) : (r.perform call).released = r.due call := by
  cases call with
  | create name =>
    cases h : r.get? name with
    | none => simp [perform, due, create_of_absent h]
    | some f => simp [perform, due, create_of_present h]
  | register name k =>
    cases h : r.get? name with
    | none => simp [perform, due, register_of_absent k h]
    | some f =>
      rcases Nat.lt_or_ge f.kernels.size f.capacity with room | full
      · simp [perform, due, register_of_room k h room]
      · simp [perform, due, register_of_full k h full]
  | destroy name =>
    cases h : r.get? name with
    | none => simp [perform, due, destroy_of_absent h, h]
    | some f => simp [perform, due, destroy_of_present h, h]
  | resolve name left right => rfl
  | get name => rfl

/-! ### the signatures held -/

theorem mem_toList_iff (r : Registry) (name : String) (f : Overloads) :
    (name, f) ∈ r.functions.toList ↔ r.get? name = some f :=
  Std.ExtTreeMap.mem_toList_iff_getElem?_eq_some

theorem nodup_toList (r : Registry) : r.functions.toList.Nodup := by
  refine r.functions.distinct_keys_toList.imp ?_
  rintro a _ h rfl
  exact h Std.ReflCmp.compare_self

theorem ext_get? {r s : Registry} (config : r.config = s.config)
    (h : ∀ name, r.get? name = s.get? name) : r = s := by
  obtain ⟨rc, rf⟩ := r
  obtain ⟨sc, sf⟩ := s
  obtain rfl : rc = sc := config
  obtain rfl : rf = sf := Std.ExtTreeMap.ext_getElem? fun name => h name
  rfl

theorem erase_put (r : Registry) (name : String) (f : Overloads) :
    (r.put name f).erase name = r.erase name := by
  refine ext_get? rfl fun other => ?_
  rw [get?_erase, get?_erase, get?_put]
  split <;> rfl

theorem erase_of_absent (h : r.get? name = none) : r.erase name = r := by
  refine ext_get? rfl fun other => ?_
  rw [get?_erase]
  split
  · next e => rw [← e, h]
  · rfl

/-- A function and the rest of the registry hold what the registry holds. -/
theorem signatures_of_present (h : r.get? name = some f) :
    r.signatures.Perm (f.signatures ++ (r.erase name).signatures) := by
  have absent : (name, f) ∉ (r.erase name).functions.toList := by
    rw [mem_toList_iff, get?_erase, if_pos rfl]
    exact nofun
  have perm : r.functions.toList.Perm ((name, f) :: (r.erase name).functions.toList) := by
    rw [List.perm_ext_iff_of_nodup r.nodup_toList (List.nodup_cons.mpr ⟨absent, nodup_toList _⟩)]
    rintro ⟨other, g⟩
    rw [List.mem_cons, mem_toList_iff, mem_toList_iff, get?_erase, Prod.mk.injEq]
    by_cases e : name = other
    · subst e
      rw [h, if_pos rfl]
      simp [eq_comm]
    · rw [if_neg e]
      simp [Ne.symm e]
  exact perm.flatMap_right _

theorem signatures_put (r : Registry) (name : String) (f : Overloads) :
    (r.put name f).signatures.Perm (f.signatures ++ (r.erase name).signatures) := by
  have h : (r.put name f).get? name = some f := by
    rw [get?_put, if_pos rfl]
  rw [← erase_put r name f]
  exact signatures_of_present h

theorem signatures_empty (config : Config) : (empty config).signatures = [] := by
  simp [signatures, empty]

theorem mem_signatures_iff (r : Registry) (s : Signature) :
    s ∈ r.signatures ↔ ∃ name f, r.get? name = some f ∧ s ∈ f.signatures := by
  simp [signatures, ← mem_toList_iff]

theorem balance_create (r : Registry) (name : String) :
    r.signatures.Perm (r.create name).after.signatures := by
  cases h : r.get? name with
  | none =>
    have put := r.signatures_put name (.empty name r.config.maxKernels)
    rw [erase_of_absent h] at put
    rw [create_of_absent h]
    exact put.symm
  | some f =>
    rw [create_of_present h]

theorem balance_register (r : Registry) (name : String) (k : Kernel) :
    (r.signatures ++ [k.signature]).Perm
      ((r.register name k).released ++ (r.register name k).after.signatures) := by
  cases h : r.get? name with
  | none =>
    rw [register_of_absent k h]
    exact List.perm_append_comm
  | some f =>
    rcases Nat.lt_or_ge f.kernels.size f.capacity with room | full
    · have present := (signatures_of_present h).append_right [k.signature]
      have put := r.signatures_put name (f.add k).after
      rw [Overloads.signatures_add_of_room room] at put
      rw [register_of_room k h room]
      refine present.trans (.trans ?_ put.symm)
      rw [List.append_assoc, List.append_assoc]
      exact List.perm_append_comm.append_left _
    · rw [register_of_full k h full]
      exact List.perm_append_comm

theorem balance_destroy (r : Registry) (name : String) :
    r.signatures.Perm ((r.destroy name).released ++ (r.destroy name).after.signatures) := by
  cases h : r.get? name with
  | none =>
    rw [destroy_of_absent h]
    exact .refl _
  | some f =>
    rw [destroy_of_present h]
    exact signatures_of_present h

def custody : Custody Registry Call where
  perform r call := (r.perform call).discard
  offers
    | .register _ k => [k.signature]
    | _ => []
  held := signatures
  drop r := r.clear.released
  drop_eq _ := rfl
  balance r call := by
    cases call with
    | create name =>
      have released : (r.create name).released = [] := r.released_perform (.create name)
      simpa [perform, Outcome.discard, released] using balance_create r name
    | register name k => exact balance_register r name k
    | destroy name => simpa [perform, Outcome.discard] using balance_destroy r name
    | resolve name left right => simp [perform, Outcome.discard]
    | get name => simp [perform, Outcome.discard]

end Registry

theorem Registry.after_eq_run (r : Registry) (calls : List Call) :
    r.after calls = (custody.run r calls).1 := by
  induction calls generalizing r with
  | nil => rfl
  | cons call calls ih => exact ih _

/-- **Every signature that is offered is let go of once, when nothing holds it any more.** -/
theorem signatures_settled (config : Config) {calls : List Registry.Call}
    (distinct : (Registry.custody.offered calls).Nodup) (name : String) (capacity : Nat)
    {requests : List Overloads.Call}
    (distinct_requests : (Overloads.custody.offered requests).Nodup) :
    (∀ past, past <+: calls → Registry.custody.Settled (.empty config) past) ∧
    (∀ past, past <+: requests → Overloads.custody.Settled (.empty name capacity) past) ∧
    (∀ r call, (Registry.custody.perform r call).released = r.due call) ∧
    (∀ f request, (Overloads.custody.perform f request).released = f.due request) := by
  have none_held : Registry.custody.held (.empty config) = [] := Registry.signatures_empty config
  refine ⟨fun past h => ?_, fun past h => ?_, Registry.released_perform, Overloads.released_perform⟩
  · exact Registry.custody.settled_of_prefix none_held distinct h
  · exact Overloads.custody.settled_of_prefix rfl distinct_requests h

/-- A kernel with nothing but a label to tell it by. -/
def Kernel.labelled (label : String) : Kernel :=
  ⟨.bool, .bool, .bool, .one fun x _ => x, .label label⟩

/-- Three kernels are offered, to no function, to one that keeps it until the end, and to one
without room. -/
theorem three_signatures_settled :
    Registry.custody.Settled (.empty ⟨1⟩)
      [.register "add" (.labelled "early"), .create "add", .register "add" (.labelled "kept"),
        .register "add" (.labelled "late"), .destroy "add", .create "add"] ∧
    Overloads.custody.Settled (.empty "add" 1)
      [.push (.labelled "kept"), .read, .push (.labelled "late")] := by
  have distinct : (Registry.custody.offered
      [.register "add" (.labelled "early"), .create "add", .register "add" (.labelled "kept"),
        .register "add" (.labelled "late"), .destroy "add", .create "add"]).Nodup := by
    decide
  have distinct_requests : (Overloads.custody.offered
      [.push (.labelled "kept"), .read, .push (.labelled "late")]).Nodup := by
    decide
  have settled := signatures_settled ⟨1⟩ distinct "add" 1 distinct_requests
  exact ⟨settled.1 _ (List.prefix_refl _), settled.2.1 _ (List.prefix_refl _)⟩

end Pointwise
