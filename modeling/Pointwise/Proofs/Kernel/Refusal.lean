import Pointwise.Kernel.Basic

/-!
# Which calls are refused, and why

A checked call meets a list of checks in a fixed order: the kinds of the left operand, the right
operand and the result, the length of the right operand, those of the outputs, and the number of
outputs. It succeeds iff all are met, and otherwise reports the first that is not and writes
nothing.

* `Check`, `FirstUnmet`   checks in order, and the error of the first that is not met;
* `checkSlices_eq`, `checkScalar_eq`   what the calls check, as such lists;
* `calls_report_first_unmet`   the four calls.
-/

namespace Pointwise

/-- Something that a call has to get right, and the error if it does not. -/
structure Check where
  met : Bool
  error : Error

namespace Check

def runAll : List Check → Except Error Unit
  | [] => .ok ()
  | c :: checks => if c.met then runAll checks else .error c.error

def FirstUnmet (checks : List Check) (e : Error) : Prop :=
  ∃ before c later, checks = before ++ c :: later ∧ (∀ d ∈ before, d.met = true) ∧
    c.met = false ∧ c.error = e

theorem runAll_nil : runAll [] = .ok () := rfl
theorem runAll_cons (c : Check) (checks : List Check) :
    runAll (c :: checks) = if c.met then runAll checks else .error c.error := rfl

theorem runAll_append (a b : List Check) :
    runAll (a ++ b) = (runAll a).bind fun _ => runAll b := by
  induction a with
  | nil => rfl
  | cons c a ih =>
    rw [List.cons_append, runAll_cons, runAll_cons]
    cases c.met with
    | true => exact ih
    | false => rfl

theorem runAll_cons_bind (c : Check) (checks : List Check) :
    runAll (c :: checks) = (runAll [c]).bind fun _ => runAll checks := runAll_append [c] checks

theorem runAll_eq_ok_iff (checks : List Check) :
    runAll checks = .ok () ↔ ∀ c ∈ checks, c.met = true := by
  induction checks with
  | nil => simp [runAll_nil]
  | cons c checks ih =>
    rw [runAll_cons, List.forall_mem_cons]
    cases hc : c.met with
    | true => simpa using ih
    | false => simp

theorem runAll_eq_error_iff (checks : List Check) (e : Error) :
    runAll checks = .error e ↔ FirstUnmet checks e := by
  induction checks with
  | nil =>
    refine iff_of_false (fun h => nomatch h) ?_
    rintro ⟨before, c, later, h, -⟩
    exact absurd h (by simp)
  | cons c checks ih =>
    rw [runAll_cons]
    cases hc : c.met with
    | false =>
      constructor
      · intro h
        exact ⟨[], c, checks, rfl, (fun d hd => nomatch hd), hc, Except.error.inj h⟩
      · rintro ⟨before, d, later, h, hb, hd, rfl⟩
        cases before with
        | nil =>
          obtain rfl := (List.cons.inj h).1
          rfl
        | cons c' before =>
          obtain rfl := (List.cons.inj h).1
          rw [hb c List.mem_cons_self] at hc
          exact nomatch hc
    | true =>
      refine ih.trans ⟨?_, ?_⟩
      · rintro ⟨before, d, later, rfl, hb, hd, he⟩
        refine ⟨c :: before, d, later, rfl, ?_, hd, he⟩
        exact List.forall_mem_cons.mpr ⟨hc, hb⟩
      · rintro ⟨before, d, later, h, hb, hd, he⟩
        cases before with
        | nil =>
          obtain rfl := (List.cons.inj h).1
          rw [hc] at hd
          exact nomatch hd
        | cons c' before =>
          exact ⟨before, d, later, (List.cons.inj h).2,
            fun x hx => hb x (List.mem_cons_of_mem _ hx), hd, he⟩

end Check

namespace Kernel

/-! ## what a call has to get right -/

def kindChecks (k : Kernel) (left right result : Kind) : List Check :=
  [⟨decide (left = k.left), .kindMismatch k.left left⟩,
    ⟨decide (right = k.right), .kindMismatch k.right right⟩,
    ⟨decide (result = k.result), .kindMismatch k.result result⟩]

/-- The right operand and every output are as long as the left operand. -/
def lengthChecks (length right : Nat) (outputs : List Nat) : List Check :=
  ⟨decide (right = length), .sizeMismatch "right operand" length right⟩
    :: outputs.map fun n => ⟨decide (n = length), .sizeMismatch "output" length n⟩

def outputCheck (k : Kernel) (provided : Nat) : Check :=
  ⟨decide (k.outputs = provided), .arityMismatch k.outputs provided⟩

def sliceChecks (k : Kernel) (left right result : Kind) (length rightLength : Nat)
    (outputs : List Nat) : List Check :=
  k.kindChecks left right result ++ lengthChecks length rightLength outputs
    ++ [k.outputCheck outputs.length]

def scalarChecks (k : Kernel) (left right result : Kind) (provided : Nat) : List Check :=
  k.kindChecks left right result ++ [k.outputCheck provided]

theorem checkKind_eq (expected actual : Kind) :
    checkKind expected actual
      = Check.runAll [⟨decide (actual = expected), .kindMismatch expected actual⟩] := by
  unfold checkKind
  rw [Check.runAll_cons]
  by_cases h : expected = actual
  · rw [if_pos h, if_pos (decide_eq_true h.symm)]
    rfl
  · rw [if_neg h, if_neg (by simpa using Ne.symm h)]

theorem checkKinds_eq (k : Kernel) (left right result : Kind) :
    k.checkKinds left right result = Check.runAll (k.kindChecks left right result) := by
  have h : k.kindChecks left right result
      = [⟨decide (left = k.left), .kindMismatch k.left left⟩]
        ++ ([⟨decide (right = k.right), .kindMismatch k.right right⟩]
          ++ [⟨decide (result = k.result), .kindMismatch k.result result⟩]) := rfl
  rw [h, Check.runAll_append, Check.runAll_append, ← checkKind_eq, ← checkKind_eq, ← checkKind_eq]
  rfl

theorem checkLength_eq (what : String) (expected actual : Nat) :
    checkLength what expected actual
      = Check.runAll [⟨decide (actual = expected), .sizeMismatch what expected actual⟩] := by
  unfold checkLength
  rw [Check.runAll_cons]
  by_cases h : actual = expected
  · rw [if_pos h, if_pos (decide_eq_true h)]
    rfl
  · rw [if_neg h, if_neg (by simpa using h)]

theorem checkLengths_eq (length right : Nat) (outputs : List Nat) :
    checkLengths length right outputs = Check.runAll (lengthChecks length right outputs) := by
  have ho : outputs.forM (checkLength "output" length)
      = Check.runAll (outputs.map fun n => ⟨decide (n = length), .sizeMismatch "output" length n⟩) := by
    induction outputs with
    | nil => rfl
    | cons n outputs ih =>
      rw [List.map_cons, Check.runAll_cons_bind, ← checkLength_eq, ← ih]
      rfl
  unfold lengthChecks
  rw [Check.runAll_cons_bind, ← checkLength_eq, ← ho]
  rfl

theorem checkOutputs_eq (k : Kernel) (provided : Nat) :
    k.checkOutputs provided = Check.runAll [k.outputCheck provided] := by
  unfold checkOutputs outputCheck
  rw [Check.runAll_cons]
  by_cases h : k.outputs = provided
  · rw [if_pos h, if_pos (decide_eq_true h)]
    rfl
  · rw [if_neg h, if_neg (by simpa using h)]

theorem checkSlices_eq (k : Kernel) (left right result : Kind) (length rightLength : Nat)
    (outputs : List Nat) :
    k.checkSlices left right result length rightLength outputs
      = Check.runAll (k.sliceChecks left right result length rightLength outputs) := by
  unfold sliceChecks
  rw [Check.runAll_append, Check.runAll_append, ← checkKinds_eq, ← checkLengths_eq,
    ← checkOutputs_eq]
  unfold checkSlices
  cases k.checkKinds left right result <;> rfl

theorem checkScalar_eq (k : Kernel) (left right result : Kind) (provided : Nat) :
    k.checkScalar left right result provided
      = Check.runAll (k.scalarChecks left right result provided) := by
  unfold scalarChecks
  rw [Check.runAll_append, ← checkKinds_eq, ← checkOutputs_eq]
  rfl

theorem checkSlices_eq_ok_iff (k : Kernel) (left right result : Kind) (length rightLength : Nat)
    (outputs : List Nat) :
    k.checkSlices left right result length rightLength outputs = .ok () ↔
      left = k.left ∧ right = k.right ∧ result = k.result ∧ rightLength = length ∧
        (∀ n ∈ outputs, n = length) ∧ k.outputs = outputs.length := by
  rw [checkSlices_eq, Check.runAll_eq_ok_iff]
  unfold sliceChecks kindChecks lengthChecks outputCheck
  simp only [List.forall_mem_append, List.forall_mem_cons, List.forall_mem_map, decide_eq_true_eq,
    and_assoc]
  simp

theorem checkScalar_eq_ok_iff (k : Kernel) (left right result : Kind) (provided : Nat) :
    k.checkScalar left right result provided = .ok () ↔
      left = k.left ∧ right = k.right ∧ result = k.result ∧ k.outputs = provided := by
  rw [checkScalar_eq, Check.runAll_eq_ok_iff]
  unfold scalarChecks kindChecks outputCheck
  simp

/-! ## the four calls -/

section
variable (k : Kernel) {left right result : Kind} (a : List (Elem left)) (b : List (Elem right))

theorem applySlices_fst (out : List (Elem result)) :
    (k.applySlices a b out).1 = k.checkSlices left right result a.length b.length [out.length] := by
  unfold applySlices
  cases k.checkSlices left right result a.length b.length [out.length] <;> rfl

theorem applySlicesDual_fst (out0 out1 : List (Elem result)) :
    (k.applySlicesDual a b out0 out1).1
      = k.checkSlices left right result a.length b.length [out0.length, out1.length] := by
  unfold applySlicesDual
  cases k.checkSlices left right result a.length b.length [out0.length, out1.length] <;> rfl

theorem applySlices_report (out : List (Elem result)) :
    ((k.applySlices a b out).1 = .ok () ↔
      left = k.left ∧ right = k.right ∧ result = k.result ∧ b.length = a.length ∧
        out.length = a.length ∧ k.outputs = 1) ∧
    (∀ e, (k.applySlices a b out).1 = .error e ↔
      Check.FirstUnmet (k.sliceChecks left right result a.length b.length [out.length]) e) ∧
    ((k.applySlices a b out).1 = .ok () ∨ (k.applySlices a b out).2 = out) := by
  refine ⟨?_, fun e => ?_, ?_⟩
  · rw [applySlices_fst, checkSlices_eq_ok_iff, List.forall_mem_singleton, List.length_singleton]
  · rw [applySlices_fst, checkSlices_eq, Check.runAll_eq_error_iff]
  · rw [applySlices_fst]
    unfold applySlices
    cases k.checkSlices left right result a.length b.length [out.length] with
    | ok _ => exact .inl rfl
    | error e => exact .inr rfl

theorem applySlicesDual_report (out0 out1 : List (Elem result)) :
    ((k.applySlicesDual a b out0 out1).1 = .ok () ↔
      left = k.left ∧ right = k.right ∧ result = k.result ∧ b.length = a.length ∧
        out0.length = a.length ∧ out1.length = a.length ∧ k.outputs = 2) ∧
    (∀ e, (k.applySlicesDual a b out0 out1).1 = .error e ↔
      Check.FirstUnmet
        (k.sliceChecks left right result a.length b.length [out0.length, out1.length]) e) ∧
    ((k.applySlicesDual a b out0 out1).1 = .ok () ∨
      (k.applySlicesDual a b out0 out1).2 = (out0, out1)) := by
  refine ⟨?_, fun e => ?_, ?_⟩
  · rw [applySlicesDual_fst, checkSlices_eq_ok_iff, List.forall_mem_cons,
      List.forall_mem_singleton, and_assoc]
    rfl
  · rw [applySlicesDual_fst, checkSlices_eq, Check.runAll_eq_error_iff]
  · rw [applySlicesDual_fst]
    unfold applySlicesDual
    cases k.checkSlices left right result a.length b.length [out0.length, out1.length] with
    | ok _ => exact .inl rfl
    | error e => exact .inr rfl

end

/-! Checked values: a call on one pair gives a value as soon as its checks are met. -/

theorem exists_map_eq_ok_iff {α : Type} (c : Except Error Unit) (f : Unit → α) :
    (∃ v, c.map f = .ok v) ↔ c = .ok () := by
  cases c with
  | ok _ => exact iff_of_true ⟨_, rfl⟩ rfl
  | error e => exact iff_of_false (fun ⟨v, h⟩ => nomatch h) (fun h => nomatch h)

theorem map_eq_error_iff {α : Type} (c : Except Error Unit) (f : Unit → α) (e : Error) :
    c.map f = .error e ↔ c = .error e := by
  cases c with
  | ok _ => exact iff_of_false (fun h => nomatch h) (fun h => nomatch h)
  | error e' =>
    constructor
    · exact fun h => congrArg _ (Except.error.inj h)
    · exact fun h => congrArg _ (Except.error.inj h)

section
variable (k : Kernel) {left right : Kind} (result : Kind) (x : Elem left) (y : Elem right)

theorem applyScalar_eq_map :
    k.applyScalar result x y = (k.checkScalar left right result 1).map fun _ =>
      Elem.decode result (k.runSingle (scalarMemory result x y)).first.toList := by
  unfold applyScalar
  cases k.checkScalar left right result 1 <;> rfl

theorem applyScalarDual_eq_map :
    k.applyScalarDual result x y = (k.checkScalar left right result 2).map fun _ =>
      (Elem.decode result (k.runSingle (scalarMemory result x y)).first.toList,
        Elem.decode result (k.runSingle (scalarMemory result x y)).second.toList) := by
  unfold applyScalarDual
  cases k.checkScalar left right result 2 <;> rfl

theorem applyScalar_report :
    ((∃ z, k.applyScalar result x y = .ok z) ↔
      left = k.left ∧ right = k.right ∧ result = k.result ∧ k.outputs = 1) ∧
    ∀ e, k.applyScalar result x y = .error e ↔
      Check.FirstUnmet (k.scalarChecks left right result 1) e := by
  rw [applyScalar_eq_map, exists_map_eq_ok_iff, checkScalar_eq_ok_iff]
  refine ⟨Iff.rfl, fun e => ?_⟩
  rw [map_eq_error_iff, checkScalar_eq, Check.runAll_eq_error_iff]

theorem applyScalarDual_report :
    ((∃ z, k.applyScalarDual result x y = .ok z) ↔
      left = k.left ∧ right = k.right ∧ result = k.result ∧ k.outputs = 2) ∧
    ∀ e, k.applyScalarDual result x y = .error e ↔
      Check.FirstUnmet (k.scalarChecks left right result 2) e := by
  rw [applyScalarDual_eq_map, exists_map_eq_ok_iff, checkScalar_eq_ok_iff]
  refine ⟨Iff.rfl, fun e => ?_⟩
  rw [map_eq_error_iff, checkScalar_eq, Check.runAll_eq_error_iff]

end

/-- **A checked call succeeds iff every check is met, and reports the first that is not.**  The
kinds, lengths and numbers of outputs are whatever the caller has; a call on sequences that fails
leaves all its outputs as they were. -/
theorem calls_report_first_unmet (k : Kernel) {left right result : Kind} (a : List (Elem left))
    (b : List (Elem right)) (x : Elem left) (y : Elem right) (out out0 out1 : List (Elem result)) :
    (((k.applySlices a b out).1 = .ok () ↔
        left = k.left ∧ right = k.right ∧ result = k.result ∧ b.length = a.length ∧
          out.length = a.length ∧ k.outputs = 1) ∧
      (∀ e, (k.applySlices a b out).1 = .error e ↔
        Check.FirstUnmet (k.sliceChecks left right result a.length b.length [out.length]) e) ∧
      ((k.applySlices a b out).1 = .ok () ∨ (k.applySlices a b out).2 = out)) ∧
    (((k.applySlicesDual a b out0 out1).1 = .ok () ↔
        left = k.left ∧ right = k.right ∧ result = k.result ∧ b.length = a.length ∧
          out0.length = a.length ∧ out1.length = a.length ∧ k.outputs = 2) ∧
      (∀ e, (k.applySlicesDual a b out0 out1).1 = .error e ↔
        Check.FirstUnmet
          (k.sliceChecks left right result a.length b.length [out0.length, out1.length]) e) ∧
      ((k.applySlicesDual a b out0 out1).1 = .ok () ∨
        (k.applySlicesDual a b out0 out1).2 = (out0, out1))) ∧
    (((∃ z, k.applyScalar result x y = .ok z) ↔
        left = k.left ∧ right = k.right ∧ result = k.result ∧ k.outputs = 1) ∧
      ∀ e, k.applyScalar result x y = .error e ↔
        Check.FirstUnmet (k.scalarChecks left right result 1) e) ∧
    ((∃ z, k.applyScalarDual result x y = .ok z) ↔
        left = k.left ∧ right = k.right ∧ result = k.result ∧ k.outputs = 2) ∧
      ∀ e, k.applyScalarDual result x y = .error e ↔
        Check.FirstUnmet (k.scalarChecks left right result 2) e :=
  ⟨k.applySlices_report a b out, k.applySlicesDual_report a b out0 out1,
    k.applyScalar_report result x y, k.applyScalarDual_report result x y⟩

end Kernel

end Pointwise
