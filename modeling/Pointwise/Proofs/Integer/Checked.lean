import Pointwise.Kind
import Pointwise.Proofs.Integer.FloorDivision

/-!
# No step of a division fails

The divisions once more, over steps that go on record and over steps that are checked. Every step on
record is defined: nothing is divided by zero, the least number is not divided by minus one, and each
exact result fits the width. Checked steps fail nowhere else, and so the checked divisions have a result
for all operands, the same as the wrapping ones.

* `Step.Defined`   a step with a divisor that is not zero and with room for its exact result;
* `fits_tdiv_iff`   the one quotient without room;
* `Steps.Answers`   checked steps give what wrapping ones give, wherever they are defined;
* `Steps.recorded`, `Safe`   work over defined steps only, on record and checked;
* `divmod_takes_defined_steps`   the divisions.
-/

namespace Pointwise

namespace Integer
variable {w : Nat}

/-- How words are read as integers, and the bounds of those that they can be. -/
structure Reading (w : Nat) where
  value : BitVec w → ℤ
  low : ℤ
  high : ℤ

def Reading.unsigned (w : Nat) : Reading w := ⟨fun a => a.toNat, 0, 2 ^ w⟩

def Reading.signed (w : Nat) : Reading w := ⟨BitVec.toInt, -2 ^ (w - 1), 2 ^ (w - 1)⟩

def Reading.Fits (r : Reading w) (i : ℤ) : Prop := r.low ≤ i ∧ i < r.high

inductive Step (w : Nat)
  | quotient (a b : BitVec w)
  | remainder (a b : BitVec w)
  | add (a b : BitVec w)
  | sub (a b : BitVec w)
  | neg (a : BitVec w)

/-- The divisor is not zero and the exact result fits; a remainder needs room for its quotient. -/
def Step.Defined (r : Reading w) : Step w → Prop
  | quotient a b => r.value b ≠ 0 ∧ r.Fits ((r.value a).tdiv (r.value b))
  | remainder a b => r.value b ≠ 0 ∧ r.Fits ((r.value a).tdiv (r.value b))
  | add a b => r.Fits (r.value a + r.value b)
  | sub a b => r.Fits (r.value a - r.value b)
  | neg a => r.Fits (-r.value a)

/-! ### room for a result -/

section
variable {a b : BitVec w} {n : Nat} {i : ℤ}

theorem ofNat?_eq_some_iff : ofNat? n = some a ↔ a.toNat = n := by
  unfold ofNat?
  rw [Option.ite_none_right_eq_some, Option.some_inj]
  constructor
  · rintro ⟨fits, rfl⟩
    exact fits
  · rintro rfl
    rw [BitVec.ofNat_toNat, BitVec.setWidth_eq]
    exact ⟨rfl, rfl⟩

theorem ofInt?_eq_some_iff : ofInt? i = some a ↔ a.toInt = i := by
  unfold ofInt?
  rw [Option.ite_none_right_eq_some, Option.some_inj]
  constructor
  · rintro ⟨fits, rfl⟩
    exact fits
  · rintro rfl
    rw [BitVec.ofInt_toInt]
    exact ⟨rfl, rfl⟩

theorem ofInt?_of_fits (hw : 0 < w) (h : (Reading.signed w).Fits i) :
    ofInt? i = some (BitVec.ofInt w i) := by
  obtain ⟨low, high⟩ : -2 ^ (w - 1) ≤ i ∧ i < 2 ^ (w - 1) := h
  have power : (2 : ℤ) ^ w = 2 * 2 ^ (w - 1) := by
    rw [← pow_succ', Nat.sub_add_cancel hw]
  rw [ofInt?_eq_some_iff, BitVec.toInt_ofInt]
  exact Int.bmod_eq_of_le (by push_cast; omega) (by push_cast; omega)

theorem fits_tdiv_unsigned (a b : BitVec w) :
    (Reading.unsigned w).Fits ((a.toNat : ℤ).tdiv b.toNat) := by
  rw [← Int.ofNat_tdiv]
  have less : a.toNat / b.toNat < 2 ^ w := Nat.lt_of_le_of_lt (Nat.div_le_self _ _) a.isLt
  refine ⟨Int.natCast_nonneg _, ?_⟩
  show ((a.toNat / b.toNat : Nat) : ℤ) < 2 ^ w
  exact_mod_cast less

/-- Of all quotients only that of the least number by minus one does not fit. -/
theorem fits_tdiv_iff (hw : 0 < w) :
    (Reading.signed w).Fits (a.toInt.tdiv b.toInt) ↔ ¬ (a = BitVec.intMin w ∧ b = -1) := by
  constructor
  · rintro ⟨-, high⟩ ⟨rfl, rfl⟩
    have least : (BitVec.intMin w).toInt = -2 ^ (w - 1) := BitVec.toInt_intMin_of_pos hw
    have minus : (-1 : BitVec w).toInt = -1 := by
      simp [BitVec.neg_one_eq_allOnes, BitVec.toInt_allOnes, hw]
    rw [least, minus, Int.tdiv_neg, Int.tdiv_one, Int.neg_neg] at high
    exact lt_irrefl _ high
  · intro h
    rw [← BitVec.toInt_sdiv_of_ne_or_ne a b (not_and_or.mp h)]
    exact ⟨BitVec.le_toInt _, BitVec.toInt_lt⟩

end

/-! ### checked steps -/

/-- Checked steps give what other steps give, wherever they are defined. -/
structure Steps.Answers (r : Reading w) (checked : Steps w Option) (s : Steps w Id) : Prop where
  quotient {a b} : (Step.quotient a b).Defined r → checked.quotient a b = some (s.quotient a b)
  remainder {a b} : (Step.remainder a b).Defined r → checked.remainder a b = some (s.remainder a b)
  add {a b} : (Step.add a b).Defined r → checked.add a b = some (s.add a b)
  sub {a b} : (Step.sub a b).Defined r → checked.sub a b = some (s.sub a b)
  neg {a} : (Step.neg a).Defined r → checked.neg a = some (s.neg a)

theorem answers_unsigned (w : Nat) :
    Steps.Answers (.unsigned w) .checkedUnsigned .wrappingUnsigned := by
  constructor
  case quotient =>
    rintro a b ⟨hb, -⟩
    refine (if_neg (mt natCast_toNat_eq_zero_iff.mpr hb)).trans ?_
    exact ofNat?_eq_some_iff.mpr BitVec.toNat_udiv
  case remainder =>
    rintro a b ⟨hb, -⟩
    refine (if_neg (mt natCast_toNat_eq_zero_iff.mpr hb)).trans ?_
    exact ofNat?_eq_some_iff.mpr BitVec.toNat_umod
  case add =>
    rintro a b ⟨-, high⟩
    have high : (a.toNat : ℤ) + b.toNat < 2 ^ w := high
    exact ofNat?_eq_some_iff.mpr (BitVec.toNat_add_of_lt (by exact_mod_cast high))
  case sub =>
    rintro a b ⟨low, -⟩
    have low : (0 : ℤ) ≤ a.toNat - b.toNat := low
    have le : b ≤ a := BitVec.le_def.mpr (by omega)
    refine (if_neg (Nat.not_lt.mpr le)).trans ?_
    exact ofNat?_eq_some_iff.mpr (BitVec.toNat_sub_of_le le)
  case neg =>
    rintro a ⟨low, -⟩
    have low : (0 : ℤ) ≤ -(a.toNat : ℤ) := low
    obtain rfl : a = 0 := natCast_toNat_eq_zero_iff.mp (by omega)
    exact congrArg some (BitVec.neg_zero (n := w)).symm

theorem answers_signed (hw : 0 < w) :
    Steps.Answers (.signed w) .checkedSigned .wrappingSigned := by
  constructor
  case quotient =>
    rintro a b ⟨hb, fits⟩
    refine (if_neg (mt toInt_eq_zero_iff.mpr hb)).trans (ofInt?_eq_some_iff.mpr ?_)
    exact BitVec.toInt_sdiv_of_ne_or_ne a b (not_and_or.mp ((fits_tdiv_iff hw).mp fits))
  case remainder =>
    rintro a b ⟨hb, fits⟩
    have taken := not_or.mpr ⟨mt toInt_eq_zero_iff.mpr hb, (fits_tdiv_iff hw).mp fits⟩
    exact (if_neg taken).trans (ofInt?_eq_some_iff.mpr (BitVec.toInt_srem a b))
  case add =>
    intro a b fits
    refine (ofInt?_of_fits hw fits).trans (congrArg some ?_)
    show BitVec.ofInt w (a.toInt + b.toInt) = a + b
    rw [BitVec.ofInt_add, BitVec.ofInt_toInt, BitVec.ofInt_toInt]
  case sub =>
    intro a b fits
    refine (ofInt?_of_fits hw fits).trans (congrArg some ?_)
    show BitVec.ofInt w (a.toInt - b.toInt) = a - b
    rw [sub_eq_add_neg, BitVec.ofInt_add, BitVec.ofInt_neg, BitVec.ofInt_toInt, BitVec.ofInt_toInt,
      BitVec.sub_eq_add_neg]
  case neg =>
    intro a fits
    refine (ofInt?_of_fits hw fits).trans (congrArg some ?_)
    show BitVec.ofInt w (-a.toInt) = -a
    rw [BitVec.ofInt_neg, BitVec.ofInt_toInt]

/-! ### steps on record -/

abbrev Recorded (w : Nat) : Type → Type := StateM (List (Step w))

def Recorded.note (step : Step w) (answer : BitVec w) : Recorded w (BitVec w) := do
  modify fun record => record ++ [step]
  return answer

def Steps.recorded (s : Steps w Id) : Steps w (Recorded w) where
  quotient a b := Recorded.note (.quotient a b) (s.quotient a b)
  remainder a b := Recorded.note (.remainder a b) (s.remainder a b)
  add a b := Recorded.note (.add a b) (s.add a b)
  sub a b := Recorded.note (.sub a b) (s.sub a b)
  neg a := Recorded.note (.neg a) (s.neg a)

/-- Work on record and the same work over checked steps: both come to `x`, and every step that goes on
record is defined. -/
structure Safe {α : Type} (r : Reading w) (t : Recorded w α) (o : Option α) (x : α) : Prop where
  record : ∃ steps, (∀ log, t.run log = (x, log ++ steps)) ∧ ∀ step ∈ steps, step.Defined r
  checked : o = some x

section
variable {α β : Type} {r : Reading w}

theorem safe_pure (x : α) : Safe r (pure x) (some x) x where
  record := ⟨[], fun log => Prod.ext rfl (List.append_nil log).symm, fun _ h => nomatch h⟩
  checked := rfl

theorem Safe.bind {t : Recorded w α} {o : Option α} {x : α} {f : α → Recorded w β}
    {g : α → Option β} {y : β} (ht : Safe r t o x) (hf : Safe r (f x) (g x) y) :
    Safe r (t >>= f) (o >>= g) y := by
  obtain ⟨⟨xs, run, defined⟩, rfl⟩ := ht
  obtain ⟨⟨ys, run', defined'⟩, checked⟩ := hf
  refine ⟨⟨xs ++ ys, fun log => ?_, fun step hs => ?_⟩, checked⟩
  · rw [StateT.run_bind, run log]
    show (f x).run (log ++ xs) = _
    rw [run', List.append_assoc]
  · exact (List.mem_append.mp hs).elim (defined step) (defined' step)

theorem Safe.ite {c : Prop} [Decidable c] {t u : Recorded w α} {o p : Option α} {x y : α}
    (h : c → Safe r t o x) (h' : ¬ c → Safe r u p y) :
    Safe r (if c then t else u) (if c then o else p) (if c then x else y) := by
  by_cases hc : c
  · simp only [if_pos hc]
    exact h hc
  · simp only [if_neg hc]
    exact h' hc

theorem safe_note {step : Step w} {o : Option (BitVec w)} {answer : BitVec w}
    (defined : step.Defined r) (h : o = some answer) :
    Safe r (Recorded.note step answer) o answer where
  record := ⟨[step], fun _ => rfl, fun _ hs => List.mem_singleton.mp hs ▸ defined⟩
  checked := h

end

theorem safe_divmodUnsigned (a b : BitVec w) :
    Safe (.unsigned w) (divmodUnsignedWith (.recorded .wrappingUnsigned) a b)
      (divmodUnsignedWith .checkedUnsigned a b) (divmodUnsigned a b) := by
  refine Safe.ite (fun _ => safe_pure _) fun hb => ?_
  have quotient : (Step.quotient a b).Defined (.unsigned w) :=
    ⟨mt natCast_toNat_eq_zero_iff.mp hb, fits_tdiv_unsigned a b⟩
  have remainder : (Step.remainder a b).Defined (.unsigned w) := quotient
  refine (safe_note quotient ((answers_unsigned w).quotient quotient)).bind ?_
  refine (safe_note remainder ((answers_unsigned w).remainder remainder)).bind ?_
  exact safe_pure _

section
variable (hw : 1 < w) (a b : BitVec w)
include hw

theorem safe_overflowsWith : Safe (.signed w) (overflowsWith (.recorded .wrappingSigned) a b)
    (overflowsWith .checkedSigned a b) (overflowsWith .wrappingSigned a b).run := by
  refine Safe.ite (fun _ => ?_) fun _ => safe_pure _
  have minus : (Step.neg 1).Defined (.signed w) := by
    have hm : (2 : ℤ) ≤ 2 ^ (w - 1) := le_self_pow₀ (by decide) (by omega)
    show -2 ^ (w - 1) ≤ -(1 : BitVec w).toInt ∧ -(1 : BitVec w).toInt < 2 ^ (w - 1)
    rw [toInt_one hw]
    omega
  refine (safe_note minus ((answers_signed (by omega)).neg minus)).bind ?_
  exact safe_pure _

theorem safe_divmodSigned : Safe (.signed w) (divmodSignedWith (.recorded .wrappingSigned) a b)
    (divmodSignedWith .checkedSigned a b) (divmodSigned a b) := by
  have answers := answers_signed (w := w) (by omega)
  refine Safe.ite (fun _ => safe_pure _) fun hb => ?_
  refine (safe_overflowsWith hw a b).bind (Safe.ite (fun _ => safe_pure _) fun ho => ?_)
  rw [overflowsWith_wrapping, decide_eq_true_eq] at ho
  have hquot : (a.sdiv b).toInt = a.toInt.tdiv b.toInt :=
    BitVec.toInt_sdiv_of_ne_or_ne a b (not_and_or.mp ho)
  have quotient : (Step.quotient a b).Defined (.signed w) :=
    ⟨mt toInt_eq_zero_iff.mp hb, (fits_tdiv_iff (by omega)).mpr ho⟩
  have remainder : (Step.remainder a b).Defined (.signed w) := quotient
  refine (safe_note quotient (answers.quotient quotient)).bind ?_
  refine (safe_note remainder (answers.remainder remainder)).bind ?_
  refine Safe.ite (fun hc => ?_) fun _ => safe_pure _
  obtain ⟨below, above⟩ := corrected_fits hw hb hc
  have sub : (Step.sub (a.sdiv b) 1).Defined (.signed w) := by
    show -2 ^ (w - 1) ≤ (a.sdiv b).toInt - (1 : BitVec w).toInt ∧
      (a.sdiv b).toInt - (1 : BitVec w).toInt < 2 ^ (w - 1)
    rw [hquot, toInt_one hw]
    exact below
  have add : (Step.add (a.srem b) b).Defined (.signed w) := by
    show -2 ^ (w - 1) ≤ (a.srem b).toInt + b.toInt ∧ (a.srem b).toInt + b.toInt < 2 ^ (w - 1)
    rw [BitVec.toInt_srem]
    exact above
  refine (safe_note sub (answers.sub sub)).bind ?_
  refine (safe_note add (answers.add add)).bind ?_
  exact safe_pure _

end

/-- **No step of a division fails**: at every width and for all operands, the divisions take only
steps that are defined, and so give over checked steps what they give over wrapping ones. -/
theorem divmod_takes_defined_steps (w : Width) (a b : BitVec w.bits) :
    (∃ steps, (divmodUnsignedWith (.recorded .wrappingUnsigned) a b).run []
        = (divmodUnsigned a b, steps) ∧ ∀ step ∈ steps, step.Defined (.unsigned w.bits)) ∧
    (∃ steps, (divmodSignedWith (.recorded .wrappingSigned) a b).run []
        = (divmodSigned a b, steps) ∧ ∀ step ∈ steps, step.Defined (.signed w.bits)) ∧
    divmodUnsignedWith .checkedUnsigned a b = some (divmodUnsigned a b) ∧
    divmodSignedWith .checkedSigned a b = some (divmodSigned a b) := by
  have wide : 1 < w.bits := by cases w <;> decide
  obtain ⟨⟨us, unsigned, unsignedDefined⟩, unsignedChecked⟩ := safe_divmodUnsigned a b
  obtain ⟨⟨ss, signed, signedDefined⟩, signedChecked⟩ := safe_divmodSigned wide a b
  exact ⟨⟨us, unsigned [], unsignedDefined⟩, ⟨ss, signed [], signedDefined⟩, unsignedChecked,
    signedChecked⟩

/-- The steps of `-7` over `2`, which truncates to `-3` and is corrected once. -/
example : ((divmodSignedWith (.recorded .wrappingSigned) (-7 : BitVec 8) 2).run []).2
    = [.quotient (-7) 2, .remainder (-7) 2, .sub (-3) 1, .add (-1) 2] := by rfl

end Integer

end Pointwise
