import Mathlib.Order.Monotone.Basic
import Mathlib.Tactic.Ring
import Pointwise.Binary.Format

/-!
# The magnitudes of a format

A magnitude is a number of quanta. Ranks count the magnitudes of a format in increasing order, and
the magnitudes of ranks are exactly the numbers of quanta with few enough significant bits.
Rounding leaves them as they are.

* `quanta_binade`   the magnitude at a place of a binade;
* `quanta_strictMono`   ranks order as their magnitudes do;
* `exists_significand`, `exists_quanta`   magnitudes in terms of significant bits;
* `nearest_quanta`   a magnitude of the format is the one nearest to itself.
-/

namespace Pointwise

namespace Format
variable (f : Format)

theorem binade_eq : f.binade = 2 ^ f.fractionBits := Nat.one_shiftLeft _
theorem unit_eq : f.unit = 2 ^ f.scale := Nat.one_shiftLeft _

/-! ### ranks and binades -/

theorem quanta_of_lt {k : Nat} (h : k < f.binade) : f.quanta k = k := if_pos h

theorem quanta_binade (t : Nat) {j : Nat} (h : j < f.binade) :
    f.quanta ((t + 1) * f.binade + j) = (f.binade + j) * 2 ^ t := by
  have hb : ¬ (t + 1) * f.binade + j < f.binade := by
    have : 1 * f.binade ≤ (t + 1) * f.binade := Nat.mul_le_mul_right _ (by omega)
    omega
  have hm : ((t + 1) * f.binade + j) % f.binade = j := by
    rw [Nat.mul_comm, Nat.mul_add_mod, Nat.mod_eq_of_lt h]
  have hd : ((t + 1) * f.binade + j) / f.binade = t + 1 := by
    rw [Nat.mul_comm, Nat.mul_add_div f.binade_pos, Nat.div_eq_of_lt h, Nat.add_zero]
  show (if _ then _ else _) = _
  rw [if_neg hb, hm, hd, Nat.add_sub_cancel, Nat.shiftLeft_eq]

/-- Every rank past the first binade lies at a place of a further one. -/
theorem exists_place {k : Nat} (h : f.binade ≤ k) :
    ∃ t j, j < f.binade ∧ k = (t + 1) * f.binade + j := by
  have hq : 0 < k / f.binade := Nat.div_pos h f.binade_pos
  refine ⟨k / f.binade - 1, k % f.binade, Nat.mod_lt _ f.binade_pos, ?_⟩
  rw [Nat.sub_add_cancel hq, Nat.mul_comm, Nat.div_add_mod]

theorem quanta_lt_succ (k : Nat) : f.quanta k < f.quanta (k + 1) := by
  have hb := f.binade_pos
  rcases Nat.lt_or_ge (k + 1) f.binade with hlt | hge
  · rw [f.quanta_of_lt hlt, f.quanta_of_lt (by omega)]
    omega
  · rcases Nat.lt_or_ge k f.binade with hk | hk
    · -- the last rank of the first binade
      have e : k + 1 = (0 + 1) * f.binade + 0 := by omega
      rw [f.quanta_of_lt hk, e, f.quanta_binade 0 hb]
      omega
    · obtain ⟨t, j, hj, rfl⟩ := f.exists_place hk
      have ht := Nat.two_pow_pos t
      rw [f.quanta_binade t hj]
      rcases Nat.lt_or_ge (j + 1) f.binade with hj' | hj'
      · rw [Nat.add_assoc, f.quanta_binade t hj']
        exact Nat.mul_lt_mul_of_pos_right (by omega) ht
      · -- the carry into the next binade
        have e : (t + 1) * f.binade + j + 1 = (t + 1 + 1) * f.binade + 0 := by
          rw [Nat.succ_mul (t + 1)]
          omega
        rw [e, f.quanta_binade (t + 1) hb, Nat.pow_succ', Nat.add_zero, ← Nat.mul_assoc]
        exact Nat.mul_lt_mul_of_pos_right (by omega) ht

theorem quanta_strictMono : StrictMono f.quanta := strictMono_nat_of_lt_succ f.quanta_lt_succ

theorem quanta_top : f.quanta f.top = 2 ^ (f.fractionBits + (1 <<< f.exponentBits - 2)) := by
  have he : 2 ≤ 1 <<< f.exponentBits := by
    have h : 2 ^ 1 ≤ 2 ^ f.exponentBits := Nat.pow_le_pow_right (by decide) f.exponentBits_pos
    rw [Nat.one_shiftLeft]
    omega
  have e : f.top = (1 <<< f.exponentBits - 2 + 1) * f.binade + 0 := by
    show (1 <<< f.exponentBits - 1) * f.binade = _
    rw [Nat.add_zero]
    congr 1
    omega
  rw [e, f.quanta_binade _ f.binade_pos, Nat.add_zero, binade_eq, ← Nat.pow_add]

/-! ### significant bits -/

theorem exists_significand (k : Nat) : ∃ m t, m < 2 * f.binade ∧ f.quanta k = m * 2 ^ t := by
  rcases Nat.lt_or_ge k f.binade with hk | hk
  · refine ⟨k, 0, by omega, ?_⟩
    rw [f.quanta_of_lt hk, Nat.pow_zero, Nat.mul_one]
  · obtain ⟨t, j, hj, rfl⟩ := f.exists_place hk
    exact ⟨f.binade + j, t, by omega, f.quanta_binade t hj⟩

theorem exists_quanta {m : Nat} (hm : m < 2 * f.binade) (t : Nat) :
    ∃ k, f.quanta k = m * 2 ^ t := by
  induction t generalizing m with
  | zero =>
    rw [Nat.pow_zero, Nat.mul_one]
    rcases Nat.lt_or_ge m f.binade with hlt | hge
    · exact ⟨m, f.quanta_of_lt hlt⟩
    · refine ⟨(0 + 1) * f.binade + (m - f.binade), ?_⟩
      rw [f.quanta_binade 0 (by omega), Nat.pow_zero]
      omega
  | succ t ih =>
    rcases Nat.lt_or_ge m f.binade with hlt | hge
    · -- a zero at the end of the significand takes up one doubling
      obtain ⟨k, hk⟩ := ih (m := 2 * m) (by omega)
      refine ⟨k, ?_⟩
      rw [hk, Nat.pow_succ]
      ring
    · refine ⟨(t + 1 + 1) * f.binade + (m - f.binade), ?_⟩
      rw [f.quanta_binade (t + 1) (by omega)]
      congr 1
      omega

/-! ### rounding -/

theorem log2_shift {m t b : Nat} (h1 : 2 ^ b ≤ m) (h2 : m < 2 * 2 ^ b) :
    Nat.log2 (m * 2 ^ t) = b + t := by
  have hp := Nat.two_pow_pos b
  have h0 : m * 2 ^ t ≠ 0 := Nat.mul_ne_zero (by omega) (Nat.two_pow_pos t).ne'
  rw [Nat.log2_eq_iff h0]
  constructor
  · rw [Nat.pow_add]
    exact Nat.mul_le_mul_right _ h1
  · rw [Nat.add_right_comm, Nat.pow_add, Nat.pow_succ']
    exact Nat.mul_lt_mul_of_pos_right h2 (Nat.two_pow_pos t)

theorem roundHalfEven_mul {d : Nat} (q : Nat) (hd : 0 < d) : roundHalfEven (q * d) d = q := by
  unfold roundHalfEven
  rw [Nat.mul_mod_left, if_pos (by omega), Nat.mul_div_cancel _ hd]

theorem nearest_eq (n d : Nat) :
    f.nearest n d = (Nat.log2 (n / d) - f.fractionBits) * f.binade
      + roundHalfEven n (d <<< (Nat.log2 (n / d) - f.fractionBits)) := rfl

theorem nearest_quanta (k : Nat) {d : Nat} (hd : 0 < d) : f.nearest (f.quanta k * d) d = k := by
  rw [nearest_eq, Nat.mul_div_cancel _ hd]
  rcases Nat.lt_or_ge k f.binade with hk | hk
  · have hs : Nat.log2 k - f.fractionBits = 0 := by
      by_cases h0 : k = 0
      · rw [h0, Nat.log2_zero, Nat.zero_sub]
      · have : Nat.log2 k < f.fractionBits := by
          rw [Nat.log2_lt h0, ← binade_eq]
          exact hk
        omega
    rw [f.quanta_of_lt hk, hs, Nat.zero_mul, Nat.zero_add, Nat.shiftLeft_zero,
      roundHalfEven_mul k hd]
  · obtain ⟨t, j, hj, rfl⟩ := f.exists_place hk
    have hlog : Nat.log2 ((f.binade + j) * 2 ^ t) = f.fractionBits + t := by
      rw [binade_eq] at hj ⊢
      exact log2_shift (by omega) (by omega)
    have e : (f.binade + j) * 2 ^ t * d = (f.binade + j) * (d * 2 ^ t) := by ring
    rw [f.quanta_binade t hj, hlog, Nat.add_sub_cancel_left, Nat.shiftLeft_eq, e,
      roundHalfEven_mul _ (Nat.mul_pos hd (Nat.two_pow_pos t))]
    ring

end Format

end Pointwise
