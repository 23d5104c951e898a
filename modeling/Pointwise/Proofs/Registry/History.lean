import Mathlib.Data.List.Induction
import Pointwise.Proofs.Registry.Run

/-!
# A registry is what its history says

Which functions a registry holds, with which kernels, and how it answers the next call are read off
the calls made so far, name by name. A name is present iff its last successful creation was not
followed by a successful destruction, and then it holds the kernels offered to it since, as many as
there is room for.

* `offered`   the plain map from names to the kernels offered since their creation;
* `get?_after`   the registry after any calls is that map, cut off at the capacity;
* `offered_eq_some_iff`   the map in terms of the last creation;
* `registry_of_history`   both, with names, size and the answers to every next call.
-/

namespace Pointwise

/-- The function of a name with the kernels offered to it, as many as there is room for. -/
def Overloads.holding (name : String) (capacity : Nat) (kernels : List Kernel) : Overloads :=
  ⟨name, capacity, (kernels.take capacity).toArray, by
    rw [List.size_toArray]
    exact List.length_take_le capacity kernels⟩

namespace Overloads

theorem eq_of_fields {f g : Overloads} (hn : f.name = g.name) (hc : f.capacity = g.capacity)
    (hk : f.kernels.toList = g.kernels.toList) : f = g := by
  obtain ⟨n, c, ks, _⟩ := f
  obtain ⟨n', c', ks', _⟩ := g
  obtain rfl : n = n' := hn
  obtain rfl : c = c' := hc
  obtain rfl : ks = ks' := Array.toList_inj.mp hk
  rfl

theorem kernels_holding (name : String) (capacity : Nat) (kernels : List Kernel) :
    (holding name capacity kernels).kernels.toList = kernels.take capacity := rfl

theorem size_holding (name : String) (capacity : Nat) (kernels : List Kernel) :
    (holding name capacity kernels).kernels.size = min capacity kernels.length := by
  show (kernels.take capacity).toArray.size = _
  rw [List.size_toArray, List.length_take]

theorem holding_nil (name : String) (capacity : Nat) :
    holding name capacity [] = empty name capacity :=
  eq_of_fields rfl rfl List.take_nil

theorem after_add_holding (name : String) (capacity : Nat) (kernels : List Kernel) (k : Kernel) :
    ((holding name capacity kernels).add k).after = holding name capacity (kernels ++ [k]) := by
  have hs := size_holding name capacity kernels
  by_cases h : capacity ≤ kernels.length
  · have full : capacity ≤ (holding name capacity kernels).kernels.size := by omega
    rw [add_of_full k full]
    refine eq_of_fields rfl rfl ?_
    rw [kernels_holding, kernels_holding, List.take_append_of_le_length h]
  · have room : (holding name capacity kernels).kernels.size < capacity := by omega
    rw [add_of_room k room]
    refine eq_of_fields rfl rfl ?_
    show ((holding name capacity kernels).kernels.push k).toList = (kernels ++ [k]).take capacity
    rw [Array.toList_push, kernels_holding, List.take_of_length_le (by omega),
      List.take_of_length_le (by rw [List.length_append, List.length_singleton]; omega)]

end Overloads

namespace Registry

/-! ## the map -/

/-- What a call makes of the kernels offered to a name since its creation, `none` standing for an
absent name. -/
def track (name : String) (offers : Option (List Kernel)) : Call → Option (List Kernel)
  | .create n => if n = name then some (offers.getD []) else offers
  | .register n k => if n = name then offers.map (· ++ [k]) else offers
  | .destroy n => if n = name then none else offers
  | .resolve _ _ _ => offers
  | .get _ => offers

/-- The kernels offered to a name since its creation. -/
def offered (name : String) (calls : List Call) : Option (List Kernel) :=
  calls.foldl (track name) none

theorem offered_concat (name : String) (calls : List Call) (call : Call) :
    offered name (calls ++ [call]) = track name (offered name calls) call :=
  List.foldl_append

theorem get?_perform {r : Registry} {name : String} {offers : Option (List Kernel)} (call : Call)
    (h : r.get? name = offers.map (Overloads.holding name r.config.maxKernels)) :
    (r.perform call).after.get? name
      = (track name offers call).map (Overloads.holding name r.config.maxKernels) := by
  by_cases hn : call.name = name
  · subst hn
    rw [get?_perform_self, h]
    cases call with
    | create name =>
      show some _ = (if name = name then some (offers.getD []) else _).map _
      rw [if_pos rfl, Option.map_some, ← Overloads.holding_nil]
      cases offers <;> rfl
    | register name k =>
      show (offers.map _).map _ = (if name = name then offers.map _ else _).map _
      rw [if_pos rfl, Option.map_map, Option.map_map]
      refine congrArg (offers.map ·) (funext fun ks => ?_)
      exact Overloads.after_add_holding name _ ks k
    | destroy name =>
      show none = (if name = name then none else _).map _
      rw [if_pos rfl, Option.map_none]
    | resolve name left right => rfl
    | get name => rfl
  · rw [get?_perform_of_ne r call hn, h]
    cases call with
    | create n => exact congrArg _ (if_neg hn).symm
    | register n k => exact congrArg _ (if_neg hn).symm
    | destroy n => exact congrArg _ (if_neg hn).symm
    | resolve n left right => rfl
    | get n => rfl

/-- After any calls the registry is the map, cut off at the capacity. -/
theorem get?_after (config : Config) (calls : List Call) (name : String) :
    ((empty config).after calls).get? name
      = (offered name calls).map (Overloads.holding name config.maxKernels) := by
  induction calls using List.reverseRecOn with
  | nil => exact get?_empty config name
  | append_singleton calls call ih =>
    have hc : ((empty config).after calls).config = config := config_after (empty config) calls
    have held : ((empty config).after calls).get? name = (offered name calls).map
        (Overloads.holding name ((empty config).after calls).config.maxKernels) := by
      rw [hc]
      exact ih
    have h := get?_perform call held
    rw [hc] at h
    rw [after_concat, offered_concat, h]

/-! ## the last creation -/

/-- The call succeeds in the registry that the calls before it lead to. -/
def Succeeds (config : Config) (past : List Call) (call : Call) : Prop :=
  ∃ v, (((empty config).after past).perform call).result = .ok v

/-- The last successful creation of the name stands between `past` and `since`. -/
structure LastCreated (config : Config) (name : String) (past since : List Call) : Prop where
  created : Succeeds config past (.create name)
  latest : ∀ p s, since = p ++ .create name :: s →
    ¬ Succeeds config (past ++ .create name :: p) (.create name)

/-- A destruction of the name succeeds after its creation between `past` and `since`. -/
def DestroyedSince (config : Config) (name : String) (past since : List Call) : Prop :=
  ∃ p s, since = p ++ .destroy name :: s ∧
    Succeeds config (past ++ .create name :: p) (.destroy name)

def offers (name : String) (calls : List Call) : List Kernel :=
  calls.filterMap fun
    | .register n k => if n = name then some k else none
    | _ => none

theorem offers_concat (name : String) (calls : List Call) (call : Call) :
    offers name (calls ++ [call]) = offers name calls ++ offers name [call] :=
  List.filterMap_append

theorem succeeds_create_iff (config : Config) (past : List Call) (name : String) :
    Succeeds config past (.create name) ↔ offered name past = none := by
  have h := get?_after config past name
  show (∃ v, (((empty config).after past).create name).result = .ok v) ↔ _
  cases ho : offered name past with
  | none =>
    rw [ho] at h
    rw [create_of_absent h]
    exact iff_of_true ⟨_, rfl⟩ rfl
  | some ks =>
    rw [ho] at h
    rw [create_of_present h]
    exact iff_of_false (fun ⟨v, hv⟩ => nomatch hv) (fun e => nomatch e)

theorem succeeds_destroy_iff (config : Config) (past : List Call) (name : String) :
    Succeeds config past (.destroy name) ↔ offered name past ≠ none := by
  have h := get?_after config past name
  show (∃ v, (((empty config).after past).destroy name).result = .ok v) ↔ _
  cases ho : offered name past with
  | none =>
    rw [ho] at h
    rw [destroy_of_absent h]
    exact iff_of_false (fun ⟨v, hv⟩ => nomatch hv) (fun e => e rfl)
  | some ks =>
    rw [ho] at h
    rw [destroy_of_present h]
    exact iff_of_true ⟨_, rfl⟩ (fun e => nomatch e)

theorem track_create_none (name : String) : track name none (.create name) = some [] :=
  if_pos rfl

theorem track_none {name : String} {call : Call} (h : call ≠ .create name) :
    track name none call = none := by
  cases call with
  | create n => exact if_neg fun e => h (congrArg Call.create e)
  | register n k => exact ite_self none
  | destroy n => exact ite_self none
  | resolve n left right => rfl
  | get n => rfl

theorem track_destroy (name : String) (kernels : Option (List Kernel)) :
    track name kernels (.destroy name) = none := if_pos rfl

theorem track_some {name : String} {call : Call} (ks : List Kernel) (h : call ≠ .destroy name) :
    track name (some ks) call = some (ks ++ offers name [call]) := by
  cases call with
  | create n => simp [track, offers]
  | register n k => by_cases e : n = name <;> simp [track, offers, e]
  | destroy n =>
    have e : n ≠ name := fun e => h (congrArg Call.destroy e)
    simp [track, offers, e]
  | resolve n left right => simp [track, offers]
  | get n => simp [track, offers]

section
variable {config : Config} {name : String} {past since : List Call} {call : Call}

theorem LastCreated.init (h : LastCreated config name past (since ++ [call])) :
    LastCreated config name past since := by
  refine ⟨h.created, fun p s e => h.latest p (s ++ [call]) ?_⟩
  rw [e, List.append_assoc, List.cons_append]

theorem DestroyedSince.concat (h : DestroyedSince config name past since) :
    DestroyedSince config name past (since ++ [call]) := by
  obtain ⟨p, s, e, hs⟩ := h
  refine ⟨p, s ++ [call], ?_, hs⟩
  rw [e, List.append_assoc, List.cons_append]

theorem split_concat {p s : List Call} {c : Call} (h : since ++ [call] = p ++ c :: s) :
    (since = p ∧ call = c) ∨ ∃ s', since = p ++ c :: s' := by
  cases s using List.reverseRecOn with
  | nil =>
    obtain ⟨h1, h2⟩ := List.append_inj' h rfl
    exact .inl ⟨h1, (List.cons.inj h2).1⟩
  | append_singleton s' d =>
    rw [← List.cons_append, ← List.append_assoc] at h
    exact .inr ⟨s', (List.append_inj' h rfl).1⟩

theorem LastCreated.concat (h : LastCreated config name past since)
    (hc : call = .create name → offered name (past ++ .create name :: since) ≠ none) :
    LastCreated config name past (since ++ [call]) := by
  refine ⟨h.created, fun p s e => ?_⟩
  rcases split_concat e with ⟨rfl, hcall⟩ | ⟨s', e'⟩
  · rw [succeeds_create_iff]
    exact hc hcall
  · exact h.latest p s' e'

theorem not_destroyedSince_concat (h : ¬ DestroyedSince config name past since)
    (hc : call ≠ .destroy name) : ¬ DestroyedSince config name past (since ++ [call]) := by
  rintro ⟨p, s, e, hs⟩
  rcases split_concat e with ⟨rfl, hcall⟩ | ⟨s', e'⟩
  · exact hc hcall
  · exact h ⟨p, s', e', hs⟩

end

theorem offered_of_lastCreated {config : Config} {name : String} {past since : List Call}
    (hl : LastCreated config name past since) (hd : ¬ DestroyedSince config name past since) :
    offered name (past ++ .create name :: since) = some (offers name since) := by
  induction since using List.reverseRecOn with
  | nil =>
    have hp := (succeeds_create_iff config past name).mp hl.created
    rw [offered_concat, hp, track_create_none]
    rfl
  | append_singleton since call ih =>
    have h := ih hl.init fun h => hd h.concat
    have hcall : call ≠ .destroy name := by
      rintro rfl
      refine hd ⟨since, [], rfl, (succeeds_destroy_iff config _ name).mpr ?_⟩
      rw [h]
      exact Option.some_ne_none _
    rw [← List.cons_append, ← List.append_assoc, offered_concat, h, track_some _ hcall,
      ← offers_concat]

theorem lastCreated_nil {config : Config} {name : String} {past : List Call}
    (h : offered name past = none) : LastCreated config name past [] := by
  refine ⟨(succeeds_create_iff config past name).mpr h, fun p s e => ?_⟩
  exact absurd e (by simp)

theorem not_destroyedSince_nil (config : Config) (name : String) (past : List Call) :
    ¬ DestroyedSince config name past [] := by
  rintro ⟨p, s, e, -⟩
  exact absurd e (by simp)

theorem exists_lastCreated_of_offered {config : Config} {name : String} {calls : List Call}
    {ks : List Kernel} (h : offered name calls = some ks) :
    ∃ past since, calls = past ++ .create name :: since ∧ LastCreated config name past since ∧
      ¬ DestroyedSince config name past since ∧ ks = offers name since := by
  induction calls using List.reverseRecOn generalizing ks with
  | nil => exact nomatch h
  | append_singleton calls call ih =>
    rw [offered_concat] at h
    cases ho : offered name calls with
    | none =>
      -- only its creation brings in a name that is absent
      rw [ho] at h
      have hcall : call = .create name := by
        by_contra hne
        rw [track_none hne] at h
        exact nomatch h
      rw [hcall, track_create_none] at h
      refine ⟨calls, [], ?_, lastCreated_nil ho, not_destroyedSince_nil config name calls, ?_⟩
      · rw [hcall]
      · exact (Option.some.inj h).symm
    | some ks' =>
      rw [ho] at h
      have hcall : call ≠ .destroy name := by
        rintro rfl
        rw [track_destroy] at h
        exact nomatch h
      obtain ⟨past, since, rfl, hl, hd, rfl⟩ := ih ho
      rw [track_some _ hcall, ← offers_concat] at h
      refine ⟨past, since ++ [call], ?_, ?_, not_destroyedSince_concat hd hcall, ?_⟩
      · rw [List.append_assoc, List.cons_append]
      · refine hl.concat fun _ => ?_
        rw [ho]
        exact Option.some_ne_none _
      · exact (Option.some.inj h).symm

/-- The map in terms of the last creation. -/
theorem offered_eq_some_iff (config : Config) (name : String) (calls : List Call)
    (ks : List Kernel) :
    offered name calls = some ks ↔
      ∃ past since, calls = past ++ .create name :: since ∧ LastCreated config name past since ∧
        ¬ DestroyedSince config name past since ∧ ks = offers name since := by
  constructor
  · exact exists_lastCreated_of_offered
  · rintro ⟨past, since, rfl, hl, hd, rfl⟩
    exact offered_of_lastCreated hl hd

/-! ## the registry after any calls -/

/-- The registry holds what the calls made so far say of every name. -/
structure Records (r : Registry) (config : Config) (calls : List Call) : Prop where
  present : ∀ name, (∃ f, r.get? name = some f) ↔
    ∃ past since, calls = past ++ .create name :: since ∧ LastCreated config name past since ∧
      ¬ DestroyedSince config name past since
  function : ∀ name past since, calls = past ++ .create name :: since →
    LastCreated config name past since → ¬ DestroyedSince config name past since →
    ∃ f, r.get? name = some f ∧ f.name = name ∧ f.capacity = config.maxKernels ∧
      f.kernels.toList = (offers name since).take config.maxKernels
  ascending : r.names.Pairwise fun a b => nameBytes a < nameBytes b
  listed : ∀ name, name ∈ r.names ↔ ∃ f, r.get? name = some f
  counted : r.size = r.names.length

/-- The registry answers a call by what it holds under the name of the call. -/
def Answers (r : Registry) (capacity : Nat) : Call → Prop
  | .create n =>
    (∀ e, (r.create n).result = .error e ↔
      (∃ f, r.get? n = some f) ∧ e = .duplicateFunction n) ∧
    ∀ f, (r.create n).result = .ok f → f = Overloads.empty n capacity
  | .register n k => ∀ e, (r.register n k).result = .error e ↔
      (r.get? n = none ∧ e = .functionNotFound n) ∨
      ((∃ f, r.get? n = some f ∧ f.kernels.size = capacity) ∧ e = .capacityExceeded n capacity)
  | .destroy n => ∀ e, (r.destroy n).result = .error e ↔
      r.get? n = none ∧ e = .functionNotFound n
  | .resolve n left right => ∀ e, r.resolve n left right = .error e ↔
      (r.get? n = none ∧ e = .functionNotFound n) ∨
      ((∃ f, r.get? n = some f ∧ f.find? left right = none) ∧
        e = .unsupportedOperand n left right)
  | .get n => (r.perform (.get n)).result = .ok (r.get? n)

theorem records_after (config : Config) (calls : List Call) :
    ((empty config).after calls).Records config calls where
  present name := by
    rw [get?_after]
    constructor
    · rintro ⟨f, hf⟩
      obtain ⟨ks, hks, -⟩ := Option.map_eq_some_iff.mp hf
      obtain ⟨past, since, e, hl, hd, -⟩ := (offered_eq_some_iff config name calls ks).mp hks
      exact ⟨past, since, e, hl, hd⟩
    · rintro ⟨past, since, rfl, hl, hd⟩
      rw [offered_of_lastCreated hl hd]
      exact ⟨_, rfl⟩
  function name past since e hl hd := by
    subst e
    rw [get?_after, offered_of_lastCreated hl hd]
    exact ⟨_, rfl, rfl, rfl, rfl⟩
  ascending := names_ascending _
  listed := mem_names _
  counted := (length_names _).symm

theorem answers_of_holding {r : Registry} {capacity : Nat} {call : Call}
    {kernels : Option (List Kernel)} (hc : r.config.maxKernels = capacity)
    (h : r.get? call.name = kernels.map (Overloads.holding call.name capacity)) :
    r.Answers capacity call := by
  subst hc
  cases call with
  | create n => exact ⟨r.create_eq_error_iff n, fun f => r.eq_empty_of_create_eq_ok n⟩
  | register n k =>
    -- what the function says of itself is what the registry knows of it
    have held : ∀ f, r.get? n = some f → f.name = n ∧ f.capacity = r.config.maxKernels := by
      intro f hf
      rw [show r.get? n = _ from h] at hf
      obtain ⟨ks, -, rfl⟩ := Option.map_eq_some_iff.mp hf
      exact ⟨rfl, rfl⟩
    intro e
    rw [register_eq_error_iff]
    refine or_congr_right ?_
    constructor
    · rintro ⟨f, hf, hsize, rfl⟩
      obtain ⟨hname, hcapacity⟩ := held f hf
      rw [hname, hcapacity]
      exact ⟨⟨f, hf, hsize.trans hcapacity⟩, rfl⟩
    · rintro ⟨⟨f, hf, hsize⟩, rfl⟩
      obtain ⟨hname, hcapacity⟩ := held f hf
      refine ⟨f, hf, hsize.trans hcapacity.symm, ?_⟩
      rw [hname, hcapacity]
  | destroy n => exact r.destroy_eq_error_iff n
  | resolve n left right => exact fun e => r.resolve_eq_error_iff n e left right
  | get n => rfl

theorem answers_after (config : Config) (calls : List Call) (call : Call) :
    ((empty config).after calls).Answers config.maxKernels call := by
  refine answers_of_holding ?_ (get?_after config calls call.name)
  rw [config_after]
  rfl

/-- **A registry is what its history says.**  After any calls on an empty registry, every name
stands as its last creation and what came after it decide, the next call is answered accordingly,
and it changes nothing if it fails and no other name in any case. -/
theorem registry_of_history (config : Config) (calls : List Call) (call : Call) :
    ((empty config).after calls).Records config calls ∧
    ((empty config).after calls).Answers config.maxKernels call ∧
    (∀ e, (((empty config).after calls).perform call).result = .error e →
      (empty config).after (calls ++ [call]) = (empty config).after calls) ∧
    ∀ other, call.name ≠ other →
      ((empty config).after (calls ++ [call])).get? other
        = ((empty config).after calls).get? other := by
  rw [after_concat]
  exact ⟨records_after config calls, answers_after config calls call,
    fun e => after_perform_of_error _ call, fun other => get?_perform_of_ne _ call⟩

end Registry

end Pointwise
