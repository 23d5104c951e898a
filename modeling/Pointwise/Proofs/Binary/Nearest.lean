import Mathlib.Algebra.Order.Field.Basic
import Mathlib.Tactic.Linarith
import Pointwise.Proofs.Binary.Quanta

/-!
# What rounding to nearest is

Rounding finds the magnitude that differs least from the exact one; of two that differ as much, the
one of even rank.  Ranks and significands are even together, a binade having an even number of them.

* `Format.Nearest`   a rank is that of the nearest magnitude, said without rounding;
* `nearest_spec`   rounding finds it;
* `Nearest.lt_of_lt_mid`, `Nearest.gt_of_mid_lt`   what is nearer to one of two magnitudes is not
  rounded to the other, nor past it;
* `relative_error`   how far an integer of quanta is rounded;
* `Binary.RoundsTo`   the number that a rational is rounded to, with its sign.
-/

namespace Pointwise

/-! ### integers -/

section
variable {n d : Nat}

theorem roundHalfEven_cases (n d : Nat) :
    (roundHalfEven n d = n / d ∧ 2 * (n % d) ≤ d ∧ (2 * (n % d) = d → Even (n / d))) ∨
      (roundHalfEven n d = n / d + 1 ∧ d ≤ 2 * (n % d) ∧ (2 * (n % d) = d → Even (n / d + 1))) := by
  unfold roundHalfEven
  split
  · exact .inl ⟨rfl, by omega, by omega⟩
  · split
    · exact .inr ⟨rfl, by omega, by omega⟩
    · rcases Nat.mod_two_eq_zero_or_one (n / d) with even | odd
      · exact .inl ⟨by omega, by omega, fun _ => Nat.even_iff.mpr even⟩
      · exact .inr ⟨by omega, by omega, fun _ => Nat.even_iff.mpr (by omega)⟩

/-- A multiple is one of the two beside a number, or further away. -/
theorem multiple_cases (i q d : Nat) :
    i * d + d ≤ q * d ∨ i = q ∨ i = q + 1 ∨ q * d + 2 * d ≤ i * d := by
  rcases Nat.lt_or_ge i q with less | ge
  · left
    have := Nat.mul_le_mul_right d less
    rwa [Nat.succ_mul] at this
  · rcases Nat.lt_or_ge (q + 1) i with more | le
    · right; right; right
      have := Nat.mul_le_mul_right d more
      rw [Nat.succ_mul, Nat.succ_mul] at this
      omega
    · omega

theorem two_mul_sub_roundHalfEven_le (hd : 0 < d) :
    2 * ((n : ℤ) - (roundHalfEven n d * d : Nat)).natAbs ≤ d := by
  have split := Nat.div_add_mod n d
  have below := Nat.mod_lt n hd
  rw [Nat.mul_comm] at split
  rcases roundHalfEven_cases n d with ⟨value, small, -⟩ | ⟨value, large, -⟩
  · rw [value]
    omega
  · rw [value, Nat.succ_mul (n / d)]
    omega

/-- No multiple is nearer, and none as near but for an even one beside it. -/
theorem roundHalfEven_nearest (hd : 0 < d) (i : Nat) :
    ((n : ℤ) - (roundHalfEven n d * d : Nat)).natAbs ≤ ((n : ℤ) - (i * d : Nat)).natAbs ∧
      (((n : ℤ) - (roundHalfEven n d * d : Nat)).natAbs = ((n : ℤ) - (i * d : Nat)).natAbs →
        i = roundHalfEven n d ∨ Even (roundHalfEven n d)) := by
  have split := Nat.div_add_mod n d
  have below := Nat.mod_lt n hd
  rw [Nat.mul_comm] at split
  rcases roundHalfEven_cases n d with ⟨value, small, even⟩ | ⟨value, large, even⟩
  · rw [value]
    rcases multiple_cases i (n / d) d with far | rfl | rfl | far
    · exact ⟨by omega, fun tie => by omega⟩
    · exact ⟨by omega, fun _ => .inl rfl⟩
    · rw [Nat.succ_mul]
      exact ⟨by omega, fun tie => .inr (even (by omega))⟩
    · exact ⟨by omega, fun tie => by omega⟩
  · rw [value, Nat.succ_mul]
    rcases multiple_cases i (n / d) d with far | rfl | rfl | far
    · exact ⟨by omega, fun tie => by omega⟩
    · exact ⟨by omega, fun tie => .inr (even (by omega))⟩
    · rw [Nat.succ_mul]
      exact ⟨by omega, fun _ => .inl rfl⟩
    · exact ⟨by omega, fun tie => by omega⟩

end

namespace Format
variable (f : Format)

/-- A rank whose magnitude is nearest to so many quanta, and even if another one is as near. -/
structure Nearest (q : ℚ) (k : Nat) : Prop where
  le (l : Nat) : |q - f.quanta k| ≤ |q - f.quanta l|
  even (l : Nat) : |q - f.quanta k| = |q - f.quanta l| → l = k ∨ Even k

theorem even_binade : Even f.binade := by
  have h := f.fraction_pos
  rw [binade_eq]
  exact (Nat.even_pow.mpr ⟨even_two, h.ne'⟩)

/-! ### magnitudes in a spacing -/

theorem quanta_place_of_le {s m : Nat} (hm : m ≤ 2 * f.binade) (h : s = 0 ∨ f.binade ≤ m) :
    f.quanta (s * f.binade + m) = m * 2 ^ s := by
  rcases Nat.lt_or_eq_of_le hm with less | rfl
  · exact f.quanta_place less h
  · have e : s * f.binade + 2 * f.binade = (s + 1 + 1) * f.binade + 0 := by ring
    rw [e, f.quanta_binade _ f.binade_pos, Nat.pow_succ']
    ring

/-- Magnitudes from a whole binade of a spacing upwards are multiples of the spacing. -/
theorem exists_multiple {s l : Nat} (h : s = 0 ∨ (s + 1) * f.binade ≤ l) :
    ∃ i, f.quanta l = i * 2 ^ s := by
  rcases h with rfl | h
  · exact ⟨f.quanta l, by rw [Nat.pow_zero, Nat.mul_one]⟩
  · have hb : f.binade ≤ l := by
      rw [Nat.succ_mul] at h
      omega
    obtain ⟨t, j, hj, rfl⟩ := f.exists_place hb
    have le : s ≤ t := by
      by_contra less
      have := Nat.mul_le_mul_right f.binade (Nat.lt_of_not_le less)
      rw [Nat.succ_mul] at this h
      rw [Nat.succ_mul] at h
      omega
    obtain ⟨e, rfl⟩ := Nat.exists_eq_add_of_le le
    refine ⟨(f.binade + j) * 2 ^ e, ?_⟩
    rw [f.quanta_binade _ hj, Nat.pow_add]
    ring

/-- Smaller magnitudes lie below a whole binade of the spacing. -/
theorem quanta_lt_of_lt {s l : Nat} (h : l < (s + 1) * f.binade) :
    f.quanta l < f.binade * 2 ^ s := by
  have less := f.quanta_strictMono h
  rwa [← Nat.add_zero ((s + 1) * f.binade), f.quanta_binade s f.binade_pos, Nat.add_zero] at less

/-! ### rounding finds the nearest -/

section
variable {n d : Nat} (hd : 0 < d)
include hd

/-- The significand of the rounded quotient, in units of the spacing. -/
theorem significand_bounds :
    roundHalfEven n (d * 2 ^ f.shift n d) ≤ 2 * f.binade ∧
      (f.shift n d = 0 ∨ f.binade * (d * 2 ^ f.shift n d) ≤ n) ∧
      (f.shift n d = 0 ∨ f.binade ≤ roundHalfEven n (d * 2 ^ f.shift n d)) := by
  have unit : 0 < d * 2 ^ f.shift n d := Nat.mul_pos hd (Nat.two_pow_pos _)
  refine ⟨roundHalfEven_le (Nat.le_of_lt (f.lt_spacing hd)), ?_⟩
  rcases Nat.eq_zero_or_pos (f.shift n d) with none | some
  · exact ⟨.inl none, .inl none⟩
  · have below : f.binade * (d * 2 ^ f.shift n d) ≤ n := by
      have le := (Nat.le_div_iff_mul_le hd).mp (f.binade_le_div some)
      calc f.binade * (d * 2 ^ f.shift n d) = f.binade * 2 ^ f.shift n d * d := by ring
        _ ≤ n := le
    exact ⟨.inr below,
      .inr (((Nat.le_div_iff_mul_le unit).mpr below).trans (div_le_roundHalfEven _ _))⟩

theorem quanta_nearest :
    f.quanta (f.nearest n d) = roundHalfEven n (d * 2 ^ f.shift n d) * 2 ^ f.shift n d := by
  obtain ⟨most, -, least⟩ := f.significand_bounds hd (n := n)
  rw [nearest_eq_shift, f.quanta_place_of_le most least]

theorem quanta_nearest_mul : f.quanta (f.nearest n d) * d
    = roundHalfEven n (d * 2 ^ f.shift n d) * (d * 2 ^ f.shift n d) := by
  rw [f.quanta_nearest hd]
  ring

theorem nearest_closest (l : Nat) :
    ((n : ℤ) - (f.quanta (f.nearest n d) * d : Nat)).natAbs
        ≤ ((n : ℤ) - (f.quanta l * d : Nat)).natAbs ∧
      (((n : ℤ) - (f.quanta (f.nearest n d) * d : Nat)).natAbs
          = ((n : ℤ) - (f.quanta l * d : Nat)).natAbs →
        l = f.nearest n d ∨ Even (f.nearest n d)) := by
  have unit : 0 < d * 2 ^ f.shift n d := Nat.mul_pos hd (Nat.two_pow_pos _)
  obtain ⟨most, below, least⟩ := f.significand_bounds hd (n := n)
  rw [f.quanta_nearest_mul hd]
  by_cases small : f.shift n d = 0 ∨ (f.shift n d + 1) * f.binade ≤ l
  · obtain ⟨i, hi⟩ := f.exists_multiple small
    have multiple : f.quanta l * d = i * (d * 2 ^ f.shift n d) := by
      rw [hi]
      ring
    rw [multiple]
    obtain ⟨le, even⟩ := roundHalfEven_nearest unit i (n := n)
    refine ⟨le, fun tie => (even tie).imp (fun same => ?_) fun even => ?_⟩
    · apply f.quanta_strictMono.injective
      rw [f.quanta_nearest hd, hi, same]
    · rw [nearest_eq_shift]
      exact (f.even_binade.mul_left _).add even
  · -- the spacing is finer there, but the whole binade in between is nearer
    obtain ⟨some, less⟩ := not_or.mp small
    have gap := Nat.mul_lt_mul_of_pos_right (f.quanta_lt_of_lt (Nat.lt_of_not_le less)) hd
    have binade := below.resolve_left some
    have e : f.binade * 2 ^ f.shift n d * d = f.binade * (d * 2 ^ f.shift n d) := by ring
    rw [e] at gap
    obtain ⟨le, -⟩ := roundHalfEven_nearest unit f.binade (n := n)
    constructor <;> omega

/-- **Rounding finds the nearest magnitude.** -/
theorem nearest_spec : f.Nearest ((n : ℚ) / d) (f.nearest n d) := by
  have pos : (0 : ℚ) < d := Nat.cast_pos.mpr hd
  have distance (l : Nat) : |(n : ℚ) / d - f.quanta l|
      = (((n : ℤ) - (f.quanta l * d : Nat)).natAbs : ℚ) / d := by
    rw [Nat.cast_natAbs, Int.cast_abs, ← abs_of_pos pos, ← abs_div, abs_of_pos pos]
    congr 1
    push_cast
    field_simp
  constructor
  case le =>
    intro l
    rw [distance, distance]
    exact div_le_div_of_nonneg_right (Nat.cast_le.mpr (f.nearest_closest hd l).1) pos.le
  case even =>
    intro l tie
    rw [distance, distance, div_left_inj' pos.ne', Nat.cast_inj] at tie
    exact (f.nearest_closest hd l).2 tie

end

/-- An integer of quanta keeps its value but for one part in twice a binade. -/
theorem relative_error (n : Nat) :
    2 * f.binade * ((n : ℤ) - f.quanta (f.nearest n 1)).natAbs ≤ n := by
  have unit : 0 < 1 * 2 ^ f.shift n 1 := Nat.mul_pos Nat.one_pos (Nat.two_pow_pos _)
  obtain ⟨-, below, -⟩ := f.significand_bounds Nat.one_pos (n := n)
  have quanta := f.quanta_nearest_mul Nat.one_pos (n := n)
  have half := two_mul_sub_roundHalfEven_le (n := n) unit
  rw [Nat.mul_one] at quanta
  rw [← quanta] at half
  rcases below with none | below
  · rw [none, Nat.pow_zero] at half
    have exact : ((n : ℤ) - f.quanta (f.nearest n 1)).natAbs = 0 := by omega
    rw [exact, Nat.mul_zero]
    exact Nat.zero_le n
  · calc 2 * f.binade * ((n : ℤ) - f.quanta (f.nearest n 1)).natAbs
        = f.binade * (2 * ((n : ℤ) - f.quanta (f.nearest n 1)).natAbs) := by ring
      _ ≤ f.binade * (1 * 2 ^ f.shift n 1) := Nat.mul_le_mul_left _ half
      _ ≤ n := below

/-! ### what is nearer -/

namespace Nearest
variable {f : Format} {q : ℚ} {k l m : Nat} (h : f.Nearest q k)
include h

/-- What is nearer to the first of two magnitudes is rounded below the second. -/
theorem lt_of_lt_mid (lm : l < m) (mid : 2 * q < f.quanta l + f.quanta m) : k < m := by
  have order : (f.quanta l : ℚ) < f.quanta m := Nat.cast_lt.mpr (f.quanta_strictMono lm)
  have le := h.le l
  by_contra past
  have far : (f.quanta m : ℚ) ≤ f.quanta k :=
    Nat.cast_le.mpr (f.quanta_strictMono.monotone (Nat.le_of_not_lt past))
  rw [abs_of_nonpos (by linarith), le_abs] at le
  rcases le with le | le <;> linarith

/-- What is nearer to the second of two magnitudes is rounded above the first. -/
theorem gt_of_mid_lt (lm : l < m) (mid : f.quanta l + f.quanta m < 2 * q) : l < k := by
  have order : (f.quanta l : ℚ) < f.quanta m := Nat.cast_lt.mpr (f.quanta_strictMono lm)
  have le := h.le m
  by_contra past
  have far : (f.quanta k : ℚ) ≤ f.quanta l :=
    Nat.cast_le.mpr (f.quanta_strictMono.monotone (Nat.le_of_not_lt past))
  rw [abs_of_nonneg (by linarith), le_abs] at le
  rcases le with le | le <;> linarith

/-- Halfway to the next magnitude, an even one is the nearest. -/
theorem le_of_le_mid (even : Even l) (mid : 2 * q ≤ f.quanta l + f.quanta (l + 1)) : k ≤ l := by
  rcases mid.lt_or_eq with less | tie
  · exact Nat.le_of_lt_succ (h.lt_of_lt_mid (Nat.lt_succ_self l) less)
  · have order : (f.quanta l : ℚ) < f.quanta (l + 1) :=
      Nat.cast_lt.mpr (f.quanta_strictMono (Nat.lt_succ_self l))
    have le := h.le l
    by_contra past
    have far : (f.quanta (l + 1) : ℚ) ≤ f.quanta k :=
      Nat.cast_le.mpr (f.quanta_strictMono.monotone (Nat.lt_of_not_le past))
    have right : |q - f.quanta k| = f.quanta k - q := by
      rw [abs_of_nonpos (by linarith)]
      ring
    have left : |q - f.quanta l| = q - f.quanta l := abs_of_nonneg (by linarith)
    rw [right, left] at le
    have next : f.quanta k = f.quanta (l + 1) := by
      have : (f.quanta k : ℚ) = f.quanta (l + 1) := by linarith
      exact_mod_cast this
    obtain rfl := f.quanta_strictMono.injective next
    rcases h.even l (by rw [right, left]; linarith) with same | even'
    · omega
    · exact (Nat.even_add_one.mp even') even

end Nearest

/-! ### the magnitudes beside a magnitude -/

variable (f : Format)

/-- Neighbouring magnitudes are neighbouring significands. -/
theorem exists_step (k : Nat) : ∃ m t, m < 2 * f.binade ∧ f.quanta k = m * 2 ^ t ∧
    f.quanta (k + 1) = (m + 1) * 2 ^ t := by
  have hb := f.binade_pos
  rcases Nat.lt_or_ge k f.binade with small | large
  · have next := f.quanta_place_of_le (s := 0) (m := k + 1) (by omega) (.inl rfl)
    rw [Nat.zero_mul, Nat.zero_add] at next
    exact ⟨k, 0, by omega, by rw [f.quanta_of_lt small, Nat.pow_zero, Nat.mul_one], next⟩
  · obtain ⟨t, j, hj, rfl⟩ := f.exists_place large
    have place : (t + 1) * f.binade + j + 1 = t * f.binade + (f.binade + j + 1) := by ring
    refine ⟨f.binade + j, t, by omega, f.quanta_binade t hj, ?_⟩
    rw [place]
    exact f.quanta_place_of_le (by omega) (.inr (by omega))

/-- A magnitude is at most twice a binade of steps. -/
theorem quanta_succ_le (k : Nat) :
    f.quanta (k + 1) ≤ 2 * f.binade * (f.quanta (k + 1) - f.quanta k) := by
  obtain ⟨m, t, hm, value, next⟩ := f.exists_step k
  rw [value, next, ← Nat.sub_mul, Nat.add_sub_cancel_left, Nat.one_mul]
  exact Nat.mul_le_mul_right _ hm

section
variable {f} {n d l m : Nat} (hd : 0 < d)
include hd

theorem nearest_lt (lm : l < m) (mid : 2 * n < (f.quanta l + f.quanta m) * d) :
    f.nearest n d < m := by
  refine (f.nearest_spec hd).lt_of_lt_mid lm ?_
  rw [← mul_div_assoc, div_lt_iff₀ (Nat.cast_pos.mpr hd)]
  exact_mod_cast mid

theorem lt_nearest (lm : l < m) (mid : (f.quanta l + f.quanta m) * d < 2 * n) :
    l < f.nearest n d := by
  refine (f.nearest_spec hd).gt_of_mid_lt lm ?_
  rw [← mul_div_assoc, lt_div_iff₀ (Nat.cast_pos.mpr hd)]
  exact_mod_cast mid

theorem nearest_le_of_even (even : Even l)
    (mid : 2 * n ≤ (f.quanta l + f.quanta (l + 1)) * d) : f.nearest n d ≤ l := by
  refine (f.nearest_spec hd).le_of_le_mid even ?_
  rw [← mul_div_assoc, div_le_iff₀ (Nat.cast_pos.mpr hd)]
  exact_mod_cast mid

theorem le_nearest (h : f.quanta m * d ≤ n) : m ≤ f.nearest n d := by
  cases m with
  | zero => exact Nat.zero_le _
  | succ l =>
    have less := Nat.mul_lt_mul_of_pos_right (f.quanta_strictMono l.lt_add_one) hd
    refine lt_nearest hd l.lt_add_one ?_
    rw [Nat.add_mul]
    omega

end

end Format

namespace Binary
variable {f : Format}

/-- The number that a rational is rounded to: of the rank that is nearest, infinite if that is past
the largest magnitude, and of the same sign unless it is zero. -/
def RoundsTo (q : ℚ) (x : Binary f) : Prop :=
  ∃ s k, x = ofRank s k ∧ f.Nearest (|q| * f.unit) k ∧ 0 ≤ (signed s 1 : ℤ) * q

theorem signed_one_mul (s : Bool) (n : Nat) : signed s 1 * signed s n = n := by
  cases s with
  | false => exact Int.one_mul _
  | true => exact Int.neg_mul_neg 1 n |>.trans (Int.one_mul _)

/-- What is rounded is a quotient of naturals, counted in quanta. -/
theorem roundsTo_round (s : Bool) (n : Nat) {d : Nat} (hd : 0 < d) :
    (round s n d : Binary f).RoundsTo ((signed s n : ℤ) / (d : ℚ) / f.unit) := by
  have hu : (0 : ℚ) < f.unit := Nat.cast_pos.mpr f.unit_pos
  have hd' : (0 : ℚ) < d := Nat.cast_pos.mpr hd
  have magnitude : |((signed s n : ℤ) : ℚ)| = n := by
    rw [← Int.cast_abs, Int.abs_eq_natAbs, natAbs_signed, Int.cast_natCast]
  refine ⟨s, f.nearest n d, rfl, ?_, ?_⟩
  · rw [abs_div, abs_div, magnitude, abs_of_pos hd', abs_of_pos hu, div_mul_cancel₀ _ hu.ne']
    exact f.nearest_spec hd
  · rw [← mul_div_assoc, ← mul_div_assoc, ← Int.cast_mul, signed_one_mul, Int.cast_natCast]
    positivity

/-- A finite number is what its value is rounded to. -/
theorem roundsTo_of_isFinite {x : Binary f} (hx : x.isFinite = true) :
    x.RoundsTo ((x.quanta : ℚ) / f.unit) := by
  obtain ⟨s, k, hk, rfl⟩ := exists_finite hx
  have rounds := roundsTo_round (f := f) s (f.quanta k * 1) Nat.one_pos
  rwa [round_quanta s hk Nat.one_pos, Nat.mul_one, Nat.cast_one, div_one] at rounds

theorem roundsTo_ofQuanta (s : Bool) (z : ℤ) :
    (ofQuanta s z 1 : Binary f).RoundsTo ((z : ℚ) / f.unit) := by
  unfold ofQuanta
  by_cases h0 : z = 0
  · rw [if_pos h0, round_zero, h0]
    have rounds := roundsTo_of_isFinite (x := (zero s : Binary f)) rfl
    rwa [quanta_zero] at rounds
  · have rounds := roundsTo_round (f := f) (decide (z < 0)) z.natAbs Nat.one_pos
    rw [signed_natAbs, Nat.cast_one, div_one] at rounds
    rwa [if_neg h0]

end Binary

end Pointwise
