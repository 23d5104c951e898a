import Pointwise.Proofs.Registry.Builtin
import Pointwise.Proofs.Registry.Lookup
import Pointwise.Proofs.Registry.Release

/-!
# The log of a registry

A registry logs every creation and every destruction that succeeds and every kernel that is refused
for want of room, and nothing else.  The number of kernels that go with a function is that of the
registrations accepted since its creation.

* `Registry.Logs`, `logs_iff`   the lines of one call after the calls before it;
* `Registry.Logged`, `logged_iff`   the lines of a list of calls;
* `Registry.kernelCount`, `kernelCount_of_furnished`   the kernels of all functions together;
* `log_of_history`   the log of an empty registry and of one with the builtin kernels.
-/

namespace Pointwise

def Event.line (e : Event) : Level × String := (e.level, e.message)

namespace Registry

/-! ## the lines that the history asks for -/

def Fails (config : Config) (past : List Call) (call : Call) (e : Error) : Prop :=
  (((empty config).after past).perform call).result = .error e

/-- The kernels accepted under a name in the calls after its creation. -/
def acceptedSince (config : Config) (name : String) (past since : List Call) : List Kernel :=
  ((empty config).after (past ++ [.create name])).accepted name since

/-- The lines that a call logs after the calls before it. -/
inductive Logs (config : Config) (past : List Call) : Call → List (Level × String) → Prop
  | created {name} (ok : Succeeds config past (.create name)) :
    Logs config past (.create name)
      [(.debug, "Created function " ++ name ++ " with capacity " ++ toString config.maxKernels)]
  | notCreated {name} (no : ¬ Succeeds config past (.create name)) :
    Logs config past (.create name) []
  | rejected {name k n c} (full : Fails config past (.register name k) (.capacityExceeded n c)) :
    Logs config past (.register name k)
      [(.warn, "Rejected kernel for " ++ name ++ ": " ++ (Error.capacityExceeded n c).message)]
  | notRejected {name k}
      (no : ∀ n c, ¬ Fails config past (.register name k) (.capacityExceeded n c)) :
    Logs config past (.register name k) []
  | destroyed {name before since} (ok : Succeeds config past (.destroy name))
      (split : past = before ++ .create name :: since) (last : LastCreated config name before since) :
    Logs config past (.destroy name)
      [(.debug, "Destroyed function " ++ name ++ " ("
        ++ toString (acceptedSince config name before since).length ++ " kernels)")]
  | notDestroyed {name} (no : ¬ Succeeds config past (.destroy name)) :
    Logs config past (.destroy name) []
  | resolve {name left right} : Logs config past (.resolve name left right) []
  | get {name} : Logs config past (.get name) []

/-- The lines that calls on an empty registry log, call by call. -/
inductive Logged (config : Config) : List Call → List (Level × String) → Prop
  | nil : Logged config [] []
  | concat {past call lines more} (before : Logged config past lines)
      (now : Logs config past call more) : Logged config (past ++ [call]) (lines ++ more)

/-! ## the kernels of a function that is destroyed -/

section
variable {config : Config} {name : String} {past since : List Call}

theorem succeeds_create_iff_absent :
    Succeeds config past (.create name) ↔ ((empty config).after past).get? name = none := by
  rw [succeeds_create_iff, get?_after, Option.map_eq_none_iff]

theorem succeeds_destroy_iff_present :
    Succeeds config past (.destroy name) ↔ ∃ f, ((empty config).after past).get? name = some f := by
  rw [succeeds_destroy_iff, get?_after, ← Option.isSome_iff_exists, Option.isSome_map,
    Option.isSome_iff_ne_none]

theorem LastCreated.of_append {p s : List Call} (h : LastCreated config name past (p ++ s)) :
    LastCreated config name past p := by
  refine ⟨h.created, fun p' s' e => h.latest p' (s' ++ s) ?_⟩
  rw [e, List.append_assoc, List.cons_append]

/-- Between two creations that succeed one after the other, the first is not the last. -/
theorem not_lastCreated_of_later {p s : List Call}
    (h : LastCreated config name past (p ++ .create name :: s)) :
    ¬ LastCreated config name (past ++ .create name :: p) s :=
  fun later => h.latest p s rfl later.created

/-- There is one last creation. -/
theorem LastCreated.unique {past' since' : List Call} (h : LastCreated config name past since)
    (h' : LastCreated config name past' since')
    (e : past ++ .create name :: since = past' ++ .create name :: since') :
    past = past' ∧ since = since' := by
  rcases List.append_eq_append_iff.mp e with ⟨t, rfl, et⟩ | ⟨t, rfl, et⟩
  · cases t with
    | nil => exact ⟨(List.append_nil _).symm, (List.cons.inj et).2⟩
    | cons c t =>
      obtain ⟨rfl, rfl⟩ := List.cons.inj et
      exact absurd h' (not_lastCreated_of_later h)
  · cases t with
    | nil => exact ⟨List.append_nil _, (List.cons.inj et).2.symm⟩
    | cons c t =>
      obtain ⟨rfl, rfl⟩ := List.cons.inj et
      exact absurd h (not_lastCreated_of_later h')

/-- A call that would destroy the function has not been made. -/
theorem destroy_not_mem (hl : LastCreated config name past since)
    (hd : ¬ DestroyedSince config name past since) : .destroy name ∉ since := by
  intro hm
  obtain ⟨p, s, rfl⟩ := List.append_of_mem hm
  refine hd ⟨p, s, rfl, (succeeds_destroy_iff config _ name).mpr ?_⟩
  rw [offered_of_lastCreated hl.of_append fun ⟨p', s', e, hs⟩ => ?_]
  · exact Option.some_ne_none _
  · exact hd ⟨p', s' ++ .destroy name :: s, by rw [e, List.append_assoc, List.cons_append], hs⟩

/-- A function holds the kernels accepted since its creation. -/
theorem kernels_of_lastCreated (hl : LastCreated config name past since)
    (hd : ¬ DestroyedSince config name past since) :
    ∃ f, ((empty config).after (past ++ .create name :: since)).get? name = some f ∧
      f.kernels.toList = acceptedSince config name past since := by
  have created : ((empty config).after (past ++ [.create name])).get? name
      = some (Overloads.holding name config.maxKernels []) := by
    rw [get?_after, offered_concat, (succeeds_create_iff config past name).mp hl.created,
      track_create_none]
    rfl
  obtain ⟨f, hf, kernels⟩ := kernels_after created (destroy_not_mem hl hd)
  rw [Overloads.kernels_holding, List.take_nil, List.nil_append] at kernels
  rw [← after_append, List.append_assoc, List.singleton_append] at hf
  exact ⟨f, hf, kernels⟩

/-- A function that can be destroyed has a last creation, and what it holds was accepted since. -/
theorem exists_lastCreated_of_present {f : Overloads}
    (hf : ((empty config).after past).get? name = some f) :
    ∃ before since, past = before ++ .create name :: since ∧ LastCreated config name before since ∧
      f.size = (acceptedSince config name before since).length := by
  have held := hf
  rw [get?_after] at held
  obtain ⟨ks, hks, -⟩ := Option.map_eq_some_iff.mp held
  obtain ⟨before, since, rfl, hl, hd, -⟩ := (offered_eq_some_iff config name past ks).mp hks
  obtain ⟨g, hg, kernels⟩ := kernels_of_lastCreated hl hd
  obtain rfl := Option.some.inj (hf.symm.trans hg)
  refine ⟨before, since, rfl, hl, ?_⟩
  rw [← kernels, Array.length_toList]
  rfl

end

/-! ## one call -/

section
variable {config : Config} {past : List Call}

theorem logs_create_iff {name : String} {lines : List (Level × String)} :
    Logs config past (.create name) lines ↔
      lines = (((empty config).after past).create name).events.map Event.line := by
  cases h : ((empty config).after past).get? name with
  | none =>
    have ok := succeeds_create_iff_absent.mpr h
    have capacity : ((empty config).after past).config.maxKernels = config.maxKernels := by
      rw [config_after]
      rfl
    rw [create_of_absent h, capacity]
    constructor
    · intro hl
      cases hl with
      | created => rfl
      | notCreated no => exact absurd ok no
    · rintro rfl
      exact .created ok
  | some f =>
    have no : ¬ Succeeds config past (.create name) := by
      rw [succeeds_create_iff_absent, h]
      exact Option.some_ne_none f
    rw [create_of_present h]
    constructor
    · intro hl
      cases hl with
      | created ok => exact absurd ok no
      | notCreated => rfl
    · rintro rfl
      exact .notCreated no

theorem logs_register_iff {name : String} {k : Kernel} {lines : List (Level × String)} :
    Logs config past (.register name k) lines ↔
      lines = (((empty config).after past).register name k).events.map Event.line := by
  have silent (quiet : (((empty config).after past).register name k).events = [])
      (no : ∀ n c, ¬ Fails config past (.register name k) (.capacityExceeded n c)) :
      Logs config past (.register name k) lines ↔
        lines = (((empty config).after past).register name k).events.map Event.line := by
    rw [quiet]
    constructor
    · intro hl
      cases hl with
      | rejected full => exact absurd full (no _ _)
      | notRejected => rfl
    · rintro rfl
      exact .notRejected no
  cases h : ((empty config).after past).get? name with
  | none =>
    refine silent (by rw [register_of_absent k h]) fun n c full => ?_
    exact nomatch (congrArg Outcome.result (register_of_absent k h)).symm.trans full
  | some f =>
    rcases Nat.lt_or_ge f.kernels.size f.capacity with room | full
    · refine silent (by rw [register_of_room k h room]) fun n c full => ?_
      exact nomatch (congrArg Outcome.result (register_of_room k h room)).symm.trans full
    · have refused := congrArg Outcome.result (register_of_full k h full)
      rw [register_of_full k h full]
      constructor
      · intro hl
        cases hl with
        | rejected again =>
          obtain ⟨rfl, rfl⟩ := Error.capacityExceeded.inj (Except.error.inj (again.symm.trans refused))
          rfl
        | notRejected no => exact absurd refused (no _ _)
      · rintro rfl
        exact .rejected refused

theorem logs_destroy_iff {name : String} {lines : List (Level × String)} :
    Logs config past (.destroy name) lines ↔
      lines = (((empty config).after past).destroy name).events.map Event.line := by
  cases h : ((empty config).after past).get? name with
  | none =>
    have no : ¬ Succeeds config past (.destroy name) := by
      rw [succeeds_destroy_iff_present, h]
      exact fun ⟨f, hf⟩ => nomatch hf
    rw [destroy_of_absent h]
    constructor
    · intro hl
      cases hl with
      | destroyed ok => exact absurd ok no
      | notDestroyed => rfl
    · rintro rfl
      exact .notDestroyed no
  | some f =>
    have ok := succeeds_destroy_iff_present.mpr ⟨f, h⟩
    obtain ⟨before, since, split, last, size⟩ := exists_lastCreated_of_present h
    rw [destroy_of_present h, size]
    constructor
    · intro hl
      cases hl with
      | destroyed _ split' last' =>
        obtain ⟨rfl, rfl⟩ := last'.unique last (split'.symm.trans split)
        rfl
      | notDestroyed no => exact absurd ok no
    · rintro rfl
      exact .destroyed ok split last

theorem logs_iff {call : Call} {lines : List (Level × String)} : Logs config past call lines ↔
    lines = (((empty config).after past).perform call).events.map Event.line := by
  cases call with
  | create name => exact logs_create_iff
  | register name k => exact logs_register_iff
  | destroy name => exact logs_destroy_iff
  | resolve name left right =>
    constructor
    · intro hl
      cases hl
      rfl
    · rintro rfl
      exact .resolve
  | get name =>
    constructor
    · intro hl
      cases hl
      rfl
    · rintro rfl
      exact .get

end

/-! ## a list of calls -/

theorem logged_log (config : Config) (calls : List Call) :
    Logged config calls (((empty config).log calls).map Event.line) := by
  induction calls using List.reverseRecOn with
  | nil => exact .nil
  | append_singleton calls call ih =>
    rw [log_concat, List.map_append]
    exact .concat ih (logs_iff.mpr rfl)

theorem logged_iff {config : Config} {calls : List Call} {lines : List (Level × String)} :
    Logged config calls lines ↔ lines = ((empty config).log calls).map Event.line := by
  constructor
  · intro h
    induction h with
    | nil => rfl
    | concat before now ih => rw [ih, logs_iff.mp now, log_concat, List.map_append]
  · rintro rfl
    exact logged_log config calls

/-! ## the summary of the builtin kernels -/

def kernelCount (r : Registry) : Nat := (r.functions.toList.map fun (_, f) => f.size).sum

theorem functions_of_furnished {config : Config} {r : Registry}
    (h : (empty config).Furnished Operation.all r) : r.functions.toList.Perm
      (Operation.all.map fun op =>
        (op.name, Overloads.holding op.name config.maxKernels op.kernels)) := by
  have distinct : (Operation.all.map fun op =>
      (op.name, Overloads.holding op.name config.maxKernels op.kernels)).Nodup := by
    refine .of_map Prod.fst ?_
    rw [List.map_map]
    exact names_distinct
  rw [List.perm_ext_iff_of_nodup r.nodup_toList distinct]
  rintro ⟨name, f⟩
  rw [mem_toList_iff, List.mem_map]
  constructor
  · intro hf
    have named := (names_of_furnished h).mem_iff.mp ((mem_names r name).mpr ⟨f, hf⟩)
    obtain ⟨op, hop, rfl⟩ := List.mem_map.mp named
    obtain rfl := Option.some.inj (hf.symm.trans (h.inside op hop))
    exact ⟨op, hop, rfl⟩
  · rintro ⟨op, hop, e⟩
    obtain ⟨rfl, rfl⟩ := Prod.mk.inj e
    exact h.inside op hop

theorem kernelCount_of_furnished {config : Config} {r : Registry}
    (h : (empty config).Furnished Operation.all r)
    (fits : ∀ op : Operation, (Promotion.available op.family).length ≤ config.maxKernels) :
    r.kernelCount = allBuiltins.length := by
  unfold kernelCount allBuiltins
  rw [((functions_of_furnished h).map _).sum_eq, List.map_map, List.length_flatMap]
  refine congrArg List.sum (List.map_congr_left fun op _ => ?_)
  have room : op.kernels.length ≤ config.maxKernels := (length_kernels op).trans_le (fits op)
  show (Overloads.holding op.name config.maxKernels op.kernels).kernels.size = _
  rw [Overloads.size_holding, min_eq_right room]
  exact List.length_map _

/-- The lines that end the construction of a registry: one about all that it holds, if it succeeds. -/
def summary (o : Outcome Registry Unit) : List (Level × String) :=
  match o.result with
  | .ok () => [(.debug, "Registered " ++ toString o.after.kernelCount ++ " builtin kernels across "
      ++ toString o.after.size ++ " functions")]
  | .error _ => []

theorem events_withBuiltins_of_ok {config : Config} (ok : (withBuiltins config).result = .ok ()) :
    (withBuiltins config).events
      = .opened config.maxKernels :: (Outcome.runAll setup (empty config)).events
        ++ [.completed (withBuiltins config).after.kernelCount (withBuiltins config).after.size] := by
  have fits := fits_of_withBuiltins ok
  rw [kernelCount_of_furnished (furnished_withBuiltins fits).2 fits]
  unfold withBuiltins at ok ⊢
  dsimp only at ok ⊢
  rw [ok]

theorem events_withBuiltins_of_error {config : Config} {e : Error}
    (he : (withBuiltins config).result = .error e) : (withBuiltins config).events
      = .opened config.maxKernels :: (Outcome.runAll setup (empty config)).events := by
  unfold withBuiltins at he ⊢
  dsimp only at he ⊢
  rw [he]
  exact List.append_nil _

/-- No call reports that all builtin kernels are in place. -/
theorem completed_not_mem_perform (r : Registry) (call : Call) (t m : Nat) :
    .completed t m ∉ (r.perform call).events := by
  cases call with
  | create name =>
    show _ ∉ (r.create name).events
    cases h : r.get? name with
    | none => simp [create_of_absent h]
    | some f => simp [create_of_present h]
  | register name k =>
    show _ ∉ (r.register name k).events
    cases h : r.get? name with
    | none => simp [register_of_absent k h]
    | some f =>
      rcases Nat.lt_or_ge f.kernels.size f.capacity with room | full
      · simp [register_of_room k h room]
      · simp [register_of_full k h full]
  | destroy name =>
    show _ ∉ (r.destroy name).events
    cases h : r.get? name with
    | none => simp [destroy_of_absent h]
    | some f => simp [destroy_of_present h]
  | resolve name left right => exact List.not_mem_nil
  | get name => exact List.not_mem_nil

theorem completed_not_mem_log (r : Registry) (calls : List Call) (t m : Nat) :
    .completed t m ∉ r.log calls := by
  induction calls generalizing r with
  | nil => exact List.not_mem_nil
  | cons call calls ih =>
    rw [log_cons, List.mem_append]
    exact not_or.mpr ⟨completed_not_mem_perform r call t m, ih _⟩

/-- The whole log of a construction. -/
theorem lines_withBuiltins (config : Config) :
    ∃ calls lines, (withBuiltins config).after = (empty config).after calls ∧
      Logged config calls lines ∧ (withBuiltins config).events.map Event.line
        = (.span, "with_builtins_config max_kernels=" ++ toString config.maxKernels) :: lines
          ++ summary (withBuiltins config) := by
  obtain ⟨calls, after, events⟩ := exists_calls_setup config
  refine ⟨calls, _, after, logged_log config calls, ?_⟩
  unfold summary
  cases result : (withBuiltins config).result with
  | ok _ =>
    rw [events_withBuiltins_of_ok result, events, List.map_append, List.map_cons]
    rfl
  | error e =>
    rw [events_withBuiltins_of_error result, events, List.map_cons]
    exact (List.append_nil _).symm

theorem completed_mem_iff (config : Config) (t m : Nat) :
    .completed t m ∈ (withBuiltins config).events ↔ (withBuiltins config).result = .ok () ∧
      t = (withBuiltins config).after.kernelCount ∧ m = (withBuiltins config).after.size := by
  obtain ⟨calls, -, events⟩ := exists_calls_setup config
  have before := completed_not_mem_log (empty config) calls t m
  cases result : (withBuiltins config).result with
  | ok _ => simp [events_withBuiltins_of_ok result, events, before]
  | error e => simp [events_withBuiltins_of_error result, events, before]

/-- **The log of a registry is what its history says**: the creations and destructions that succeed
and the kernels refused for want of room, in order.  The construction of a registry with the builtin
kernels ends with a summary of all that it holds iff it succeeds. -/
theorem log_of_history (config : Config) :
    (∀ calls lines, Logged config calls lines ↔
      lines = ((empty config).log calls).map Event.line) ∧
    (∃ calls lines, (withBuiltins config).after = (empty config).after calls ∧
      Logged config calls lines ∧ (withBuiltins config).events.map Event.line
        = (.span, "with_builtins_config max_kernels=" ++ toString config.maxKernels) :: lines
          ++ summary (withBuiltins config)) ∧
    ∀ t m, .completed t m ∈ (withBuiltins config).events ↔ (withBuiltins config).result = .ok () ∧
      t = (withBuiltins config).after.kernelCount ∧ m = (withBuiltins config).after.size :=
  ⟨fun _ _ => logged_iff, lines_withBuiltins config, completed_mem_iff config⟩

end Registry

end Pointwise
