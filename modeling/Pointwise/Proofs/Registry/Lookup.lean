import Pointwise.Proofs.Registry.History

/-!
# What a lookup finds stays found

The kernels of a function only ever grow at the end, until the function is destroyed.  So the first
kernel that suits a lookup stays the first, whatever comes after it; and where none suits, the first
suitable kernel that is accepted is found from then on.

* `Registry.accepted`   the kernels that a run adds to a name;
* `kernels_after`, `mem_kernels_after`   what a run makes of the kernels of a function;
* `Registry.FirstMatch`, `firstMatch`   what this means for a lookup;
* `Registry.Earlier`, `earlier_kernels`   kernels stand in the order in which they were accepted;
* `lookups_stable`   the two lookups, by a pair of kinds and with a kind of result.
-/

namespace Pointwise

namespace Registry

/-! ## the kernels that a run adds -/

/-- The kernel that a call adds to a name, if it offers one and that is accepted. -/
def acceptedBy (r : Registry) (name : String) : Call → List Kernel
  | .register n k =>
    if n = name then
      match (r.register n k).result with
      | .ok () => [k]
      | .error _ => []
    else []
  | _ => []

/-- The kernels that calls add to a name, in order. -/
def accepted (r : Registry) (name : String) : List Call → List Kernel
  | [] => []
  | call :: calls => r.acceptedBy name call ++ (r.perform call).after.accepted name calls

section
variable {r : Registry} {name : String} {f : Overloads} {call : Call}

theorem acceptedBy_of_ne (h : call.name ≠ name) : r.acceptedBy name call = [] := by
  cases call with
  | register n k => exact if_neg h
  | _ => rfl

theorem acceptedBy_register {k : Kernel} (h : (r.register name k).result = .ok ()) :
    r.acceptedBy name (.register name k) = [k] := by
  refine (if_pos rfl).trans ?_
  rw [h]

theorem acceptedBy_register_of_error {k : Kernel} {e : Error}
    (h : (r.register name k).result = .error e) :
    r.acceptedBy name (.register name k) = [] := by
  refine (if_pos rfl).trans ?_
  rw [h]

/-- A call adds nothing, or it is a registration that succeeds. -/
theorem acceptedBy_cases (r : Registry) (name : String) (call : Call) :
    r.acceptedBy name call = [] ∨ ∃ k, call = .register name k ∧
      (r.register name k).result = .ok () ∧ r.acceptedBy name call = [k] := by
  by_cases hn : call.name = name
  · subst hn
    cases call with
    | register name k =>
      cases h : (r.register name k).result with
      | error e => exact .inl (acceptedBy_register_of_error h)
      | ok _ => exact .inr ⟨k, rfl, h, acceptedBy_register h⟩
    | _ => exact .inl rfl
  · exact .inl (acceptedBy_of_ne hn)

/-- A kernel goes to the end of the function, if it is accepted. -/
theorem kernels_add (k : Kernel) (h : r.get? name = some f) :
    (f.add k).after.kernels.toList
      = f.kernels.toList ++ r.acceptedBy name (.register name k) := by
  rcases Nat.lt_or_ge f.kernels.size f.capacity with room | full
  · rw [acceptedBy_register (by rw [register_of_room k h room]), Overloads.add_of_room k room]
    exact Array.toList_push
  · rw [acceptedBy_register_of_error (by rw [register_of_full k h full]),
      Overloads.add_of_full k full, List.append_nil]

/-- A function that is not destroyed keeps its kernels, and a new one goes to the end. -/
theorem kernels_perform (h : r.get? name = some f) (kept : call ≠ .destroy name) :
    ∃ g, (r.perform call).after.get? name = some g ∧
      g.kernels.toList = f.kernels.toList ++ r.acceptedBy name call := by
  by_cases hn : call.name = name
  · subst hn
    rw [get?_perform_self, h]
    cases call with
    | create name => exact ⟨f, rfl, (List.append_nil _).symm⟩
    | register name k => exact ⟨(f.add k).after, rfl, kernels_add k h⟩
    | destroy name => exact absurd rfl kept
    | resolve name left right => exact ⟨f, rfl, (List.append_nil _).symm⟩
    | get name => exact ⟨f, rfl, (List.append_nil _).symm⟩
  · rw [get?_perform_of_ne r call hn, acceptedBy_of_ne hn]
    exact ⟨f, h, (List.append_nil _).symm⟩

/-- A name without a function gets one without kernels. -/
theorem kernels_perform_of_absent {g : Overloads} (h : r.get? name = none)
    (hg : (r.perform call).after.get? name = some g) : g.kernels.toList = [] := by
  by_cases hn : call.name = name
  · subst hn
    rw [get?_perform_self, h] at hg
    cases call with
    | create name =>
      obtain rfl := Option.some.inj hg
      rfl
    | _ => exact nomatch hg
  · rw [get?_perform_of_ne r call hn, h] at hg
    exact nomatch hg

theorem ne_destroy_of_present {g : Overloads}
    (hg : (r.perform call).after.get? name = some g) : call ≠ .destroy name := by
  rintro rfl
  exact nomatch (get?_perform_self r (.destroy name)).symm.trans hg

theorem mem_kernels_perform {g : Overloads} {k : Kernel}
    (hg : (r.perform call).after.get? name = some g) (hk : k ∈ g.kernels.toList) :
    (∃ f, r.get? name = some f ∧ k ∈ f.kernels.toList) ∨ k ∈ r.acceptedBy name call := by
  cases h : r.get? name with
  | none =>
    rw [kernels_perform_of_absent h hg] at hk
    exact nomatch hk
  | some f =>
    obtain ⟨g', hg', kernels⟩ := kernels_perform h (ne_destroy_of_present hg)
    obtain rfl := Option.some.inj (hg'.symm.trans hg)
    rw [kernels, List.mem_append] at hk
    exact hk.imp (fun hk => ⟨f, rfl, hk⟩) id

end

section
variable {r : Registry} {name : String}

/-- Along a run that does not destroy the function, its kernels grow by the accepted ones. -/
theorem kernels_after {calls : List Call} {f : Overloads} (h : r.get? name = some f)
    (kept : .destroy name ∉ calls) : ∃ g, (r.after calls).get? name = some g ∧
      g.kernels.toList = f.kernels.toList ++ r.accepted name calls := by
  induction calls generalizing r f with
  | nil => exact ⟨f, h, (List.append_nil _).symm⟩
  | cons call calls ih =>
    obtain ⟨hc, hcs⟩ := not_or.mp (List.mem_cons.not.mp kept)
    obtain ⟨g, hg, kernels⟩ := kernels_perform h (Ne.symm hc)
    obtain ⟨g', hg', kernels'⟩ := ih hg hcs
    refine ⟨g', hg', ?_⟩
    rw [kernels', kernels, List.append_assoc]
    rfl

/-- Along any run a function holds no kernel that was not there or accepted on the way. -/
theorem mem_kernels_after {calls : List Call} {g : Overloads} {k : Kernel}
    (hg : (r.after calls).get? name = some g) (hk : k ∈ g.kernels.toList) :
    (∃ f, r.get? name = some f ∧ k ∈ f.kernels.toList) ∨ k ∈ r.accepted name calls := by
  induction calls generalizing r with
  | nil => exact .inl ⟨g, hg, hk⟩
  | cons call calls ih =>
    rw [accepted, List.mem_append]
    rcases ih hg with ⟨f, hf, hkf⟩ | later
    · rcases mem_kernels_perform hf hkf with before | now
      · exact .inl before
      · exact .inr (.inl now)
    · exact .inr (.inr later)

/-! ## the first match -/

def Finds (r : Registry) (name : String) (p : Kernel → Bool) (k : Kernel) : Prop :=
  ∃ f, r.get? name = some f ∧ f.kernels.find? p = some k

def Misses (r : Registry) (name : String) (p : Kernel → Bool) : Prop :=
  ∃ f, r.get? name = some f ∧ f.kernels.find? p = none

/-- A lookup finds the first kernel with the property: what is found stays until the function is
destroyed, nothing is found before a kernel with the property is accepted, and the first one is found
from then on. -/
structure FirstMatch (r : Registry) (name : String) (p : Kernel → Bool)
    (found : Registry → Kernel → Prop) (missed : Registry → Prop) : Prop where
  lasts : ∀ k calls, found r k → .destroy name ∉ calls → found (r.after calls) k
  awaits : ∀ calls, missed r → (∀ k ∈ r.accepted name calls, p k = false) →
    (∀ k, ¬ found (r.after calls) k) ∧ (.destroy name ∉ calls → missed (r.after calls))
  arrives : ∀ before k later, missed r → (∀ k' ∈ r.accepted name before, p k' = false) →
    ((r.after before).register name k).result = .ok () → p k = true → .destroy name ∉ later →
    found (r.after (before ++ .register name k :: later)) k

variable {p : Kernel → Bool}

theorem finds_after {calls : List Call} {k : Kernel} (h : r.Finds name p k)
    (kept : .destroy name ∉ calls) : (r.after calls).Finds name p k := by
  obtain ⟨f, hf, hk⟩ := h
  obtain ⟨g, hg, kernels⟩ := kernels_after hf kept
  refine ⟨g, hg, ?_⟩
  rw [← Array.find?_toList] at hk ⊢
  rw [kernels, List.find?_append, hk, Option.some_or]

/-- Neither what was there nor what came later has the property. -/
theorem find?_eq_none_after {calls : List Call} (h : r.Misses name p)
    (none : ∀ k ∈ r.accepted name calls, p k = false) {g : Overloads}
    (hg : (r.after calls).get? name = some g) : g.kernels.find? p = .none := by
  obtain ⟨f, hf, hn⟩ := h
  rw [← Array.find?_toList, List.find?_eq_none] at hn ⊢
  intro k hk
  rcases mem_kernels_after hg hk with ⟨f', hf', hkf⟩ | later
  · obtain rfl := Option.some.inj (hf.symm.trans hf')
    exact hn k hkf
  · rw [none k later]
    exact Bool.false_ne_true

theorem misses_after {calls : List Call} (h : r.Misses name p)
    (none : ∀ k ∈ r.accepted name calls, p k = false) (kept : .destroy name ∉ calls) :
    (r.after calls).Misses name p := by
  obtain ⟨f, hf, -⟩ := id h
  obtain ⟨g, hg, -⟩ := kernels_after hf kept
  exact ⟨g, hg, find?_eq_none_after h none hg⟩

theorem not_finds_after {calls : List Call} (h : r.Misses name p)
    (none : ∀ k ∈ r.accepted name calls, p k = false) (k : Kernel) :
    ¬ (r.after calls).Finds name p k := by
  rintro ⟨g, hg, hk⟩
  rw [find?_eq_none_after h none hg] at hk
  exact nomatch hk

/-- A kernel that is accepted while no other has the property becomes the first. -/
theorem finds_after_register {before : List Call} {k : Kernel} (h : r.Misses name p)
    (none : ∀ k ∈ r.accepted name before, p k = false)
    (ok : ((r.after before).register name k).result = .ok ()) (hp : p k = true) :
    (r.after (before ++ [.register name k])).Finds name p k := by
  rw [after_concat]
  cases hf : (r.after before).get? name with
  | none =>
    rw [register_of_absent k hf] at ok
    exact nomatch ok
  | some f =>
    have kept : Call.register name k ≠ .destroy name := nofun
    obtain ⟨g, hg, kernels⟩ := kernels_perform hf kept
    have miss := find?_eq_none_after h none hf
    refine ⟨g, hg, ?_⟩
    rw [← Array.find?_toList] at miss ⊢
    rw [kernels, List.find?_append, miss, Option.none_or, acceptedBy_register ok,
      List.find?_cons_of_pos hp]

theorem firstMatch (r : Registry) (name : String) (p : Kernel → Bool) :
    r.FirstMatch name p (fun r k => r.Finds name p k) fun r => r.Misses name p where
  lasts _ _ h kept := finds_after h kept
  awaits _ h none := ⟨not_finds_after h none, misses_after h none⟩
  arrives before k later h none ok hp kept := by
    rw [← List.singleton_append, ← List.append_assoc, after_append]
    exact finds_after (finds_after_register h none ok hp) kept

end

/-! ## earlier kernels -/

/-- The kernel was accepted under the name at some point of the calls. -/
def Registered (config : Config) (calls : List Call) (name : String) (k : Kernel) : Prop :=
  ∃ past rest, calls = past ++ .register name k :: rest ∧ Succeeds config past (.register name k)

/-- The kernel `k` was accepted under the name when `k'` had been before. -/
def Earlier (config : Config) (calls : List Call) (name : String) (k' k : Kernel) : Prop :=
  ∃ past rest, calls = past ++ .register name k :: rest ∧
    Succeeds config past (.register name k) ∧ Registered config past name k'

section
variable {config : Config} {calls : List Call} {name : String} {k k' : Kernel}

theorem Registered.concat (h : Registered config calls name k) (call : Call) :
    Registered config (calls ++ [call]) name k := by
  obtain ⟨past, rest, rfl, ok⟩ := h
  refine ⟨past, rest ++ [call], ?_, ok⟩
  rw [List.append_assoc, List.cons_append]

theorem Earlier.concat (h : Earlier config calls name k' k) (call : Call) :
    Earlier config (calls ++ [call]) name k' k := by
  obtain ⟨past, rest, rfl, ok, before⟩ := h
  refine ⟨past, rest ++ [call], ?_, ok, before⟩
  rw [List.append_assoc, List.cons_append]

/-- The kernels of a function stand in the order in which they were accepted. -/
theorem earlier_kernels {f : Overloads} (h : ((empty config).after calls).get? name = some f) :
    (∀ k ∈ f.kernels.toList, Registered config calls name k) ∧
      f.kernels.toList.Pairwise (Earlier config calls name) := by
  induction calls using List.reverseRecOn generalizing f with
  | nil =>
    rw [show (empty config).after [] = empty config from rfl, get?_empty] at h
    exact nomatch h
  | append_singleton calls call ih =>
    rw [after_concat] at h
    cases hb : ((empty config).after calls).get? name with
    | none =>
      rw [kernels_perform_of_absent hb h]
      exact ⟨fun k hk => (nomatch hk), .nil⟩
    | some b =>
      obtain ⟨before, earlier⟩ := ih hb
      obtain ⟨g, hg, kernels⟩ := kernels_perform hb (ne_destroy_of_present h)
      obtain rfl := Option.some.inj (hg.symm.trans h)
      have registered := fun k hk => (before k hk).concat call
      have earlier := earlier.imp fun h => h.concat call
      rcases acceptedBy_cases ((empty config).after calls) name call with hn | ⟨k, rfl, ok, hk⟩
      · rw [kernels, hn, List.append_nil]
        exact ⟨registered, earlier⟩
      · rw [kernels, hk]
        constructor
        · intro k' hk'
          rcases List.mem_append.mp hk' with old | new
          · exact registered k' old
          · obtain rfl := List.mem_singleton.mp new
            exact ⟨calls, [], rfl, (), ok⟩
        · refine List.pairwise_append.mpr ⟨earlier, List.pairwise_singleton _ _, ?_⟩
          intro k' hk' k'' hk''
          obtain rfl := List.mem_singleton.mp hk''
          exact ⟨calls, [], rfl, ⟨(), ok⟩, before k' hk'⟩

end

/-! ## both lookups -/

section
variable {r : Registry} {name : String} {left right result : Kind} {k : Kernel}

theorem resolve_eq_ok_iff :
    r.resolve name left right = .ok k ↔ r.Finds name (fun k => k.takes left right) k := by
  constructor
  · intro h
    unfold resolve at h
    split at h
    · exact nomatch h
    · next f hf =>
      split at h
      · next k' hk =>
        obtain rfl := Except.ok.inj h
        exact ⟨f, hf, hk⟩
      · exact nomatch h
  · rintro ⟨f, hf, hk⟩
    unfold resolve
    rw [hf]
    dsimp only
    rw [show f.find? left right = some k from hk]

theorem resolve_eq_unsupported_iff :
    r.resolve name left right = .error (.unsupportedOperand name left right) ↔
      r.Misses name fun k => k.takes left right := by
  rw [resolve_eq_error_iff]
  constructor
  · rintro (⟨-, e⟩ | ⟨miss, -⟩)
    · exact nomatch e
    · exact miss
  · exact fun miss => .inr ⟨miss, rfl⟩

theorem firstMatch_resolve (r : Registry) (name : String) (left right : Kind) :
    r.FirstMatch name (fun k => k.takes left right)
      (fun r k => r.resolve name left right = .ok k)
      fun r => r.resolve name left right = .error (.unsupportedOperand name left right) := by
  simp only [resolve_eq_ok_iff, resolve_eq_unsupported_iff]
  exact firstMatch r name _

/-- A lookup that asks for more finds the same kernel or a later one. -/
theorem find?_of_findExact? {config : Config} {calls : List Call} {f : Overloads}
    (hf : ((empty config).after calls).get? name = some f)
    (hk : f.findExact? left right result = some k) :
    ∃ k', f.find? left right = some k' ∧ (k' = k ∨ Earlier config calls name k' k) := by
  unfold Overloads.findExact? at hk
  unfold Overloads.find?
  rw [← Array.find?_toList] at hk ⊢
  have held := List.mem_of_find?_eq_some hk
  have both := List.find?_some hk
  have takes : k.takes left right = true := ((Bool.and_eq_true _ _).mp both).1
  obtain ⟨k', hk'⟩ : ∃ k', f.kernels.toList.find? (fun k => k.takes left right) = some k' := by
    rw [← Option.isSome_iff_exists, List.find?_isSome]
    exact ⟨k, held, takes⟩
  refine ⟨k', hk', ?_⟩
  obtain ⟨-, before, rest, split, none⟩ := List.find?_eq_some_iff_append.mp hk'
  have order := (earlier_kernels hf).2
  rw [split] at held order
  rcases List.mem_append.mp held with early | late
  · -- a kernel before the first match does not take the pair
    have refused := none k early
    rw [takes] at refused
    exact nomatch refused
  · rcases List.mem_cons.mp late with rfl | late
    · exact .inl rfl
    · have order := (List.pairwise_append.mp order).2.1
      exact .inr ((List.pairwise_cons.mp order).1 k late)

end

/-- **What a lookup finds stays found**, and what it looks for is found as soon as it is there; a
lookup with a kind of result finds no earlier kernel than one without. -/
theorem lookups_stable (r : Registry) (name : String) (left right : Kind) :
    r.FirstMatch name (fun k => k.takes left right)
      (fun r k => r.resolve name left right = .ok k)
      (fun r => r.resolve name left right = .error (.unsupportedOperand name left right)) ∧
    ∀ result, r.FirstMatch name (fun k => k.takes left right && k.result == result)
      (fun r k => ∃ f, r.get? name = some f ∧ f.findExact? left right result = some k)
      (fun r => ∃ f, r.get? name = some f ∧ f.findExact? left right result = none) ∧
    ∀ config calls f k, r = (empty config).after calls → r.get? name = some f →
      f.findExact? left right result = some k →
      ∃ k', f.find? left right = some k' ∧ (k' = k ∨ Earlier config calls name k' k) := by
  refine ⟨firstMatch_resolve r name left right, fun result => ⟨firstMatch r name _, ?_⟩⟩
  rintro config calls f k rfl hf hk
  exact find?_of_findExact? hf hk

/-- A second kernel for the same pair of kinds is accepted, but the first one answers. -/
theorem first_of_two_answers : ∃ k k' : Kernel, ∃ r : Registry,
    k.signature ≠ k'.signature ∧ k'.takes .bool .bool = true ∧
    r.resolve "f" .bool .bool = .ok k ∧ (r.register "f" k').result = .ok () ∧
    (r.after [.register "f" k']).resolve "f" .bool .bool = .ok k := by
  let both : Kernel := ⟨.bool, .bool, .bool, .one fun a b => and a b, .label "both"⟩
  let either : Kernel := ⟨.bool, .bool, .bool, .one fun a b => or a b, .label "either"⟩
  let r := (empty {}).after [.create "f", .register "f" both]
  have held : r.get? "f" = some (Overloads.holding "f" defaultCapacity [both]) :=
    (get?_after {} _ "f").trans (by simp [offered, track])
  have found : r.resolve "f" .bool .bool = .ok both := resolve_eq_ok_iff.mpr ⟨_, held, rfl⟩
  have lasts := (lookups_stable r "f" .bool .bool).1.lasts both [.register "f" either] found
  refine ⟨both, either, r, by decide, rfl, found, ?_, lasts (by simp)⟩
  rw [register_of_room either held (by decide)]

end Registry

end Pointwise
