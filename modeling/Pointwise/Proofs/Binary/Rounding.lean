import Pointwise.Binary.Arithmetic
import Pointwise.Proofs.Binary.Number

/-!
# Bounds on rounded results

Rounding does not pass a magnitude of the format: what lies below one is rounded to that or to one
below it.  So a result overflows only if the exact result is above the largest magnitude.

* `Format.nearest_le`   rounding stays below the magnitudes above;
* `exists_div_of_le`, `exists_mul_of_le_unit`   a quotient by a number at least as large, and
  products with it;
* `sign_of_isInfinite_add`   only numbers of one sign have a sum that overflows;
* `isNaN_div`   a quotient by anything but zero is undefined for two infinities only.
-/

namespace Pointwise

theorem div_le_roundHalfEven (n d : Nat) : n / d ≤ roundHalfEven n d := by
  unfold roundHalfEven
  split
  · exact Nat.le_refl _
  · split
    · exact Nat.le_succ _
    · exact Nat.le_add_right _ _

theorem roundHalfEven_le {n d q : Nat} (h : n ≤ q * d) : roundHalfEven n d ≤ q := by
  rcases Nat.eq_zero_or_pos d with rfl | hd
  · obtain rfl : n = 0 := Nat.le_zero.mp h
    rw [roundHalfEven_zero]
    exact Nat.zero_le q
  · have hq : n / d ≤ q := Nat.div_le_of_le_mul (Nat.mul_comm q d ▸ h)
    have split := Nat.div_add_mod n d
    unfold roundHalfEven
    rcases Nat.eq_or_lt_of_le hq with rfl | less
    · -- nothing is left to round
      rw [Nat.mul_comm] at h
      rw [if_pos (by omega)]
    · have bit : n / d % 2 < 2 := Nat.mod_lt _ (by decide)
      repeat' split
      all_goals omega

namespace Format
variable (f : Format)

/-- The spacing that a quotient is rounded to, as a power of two. -/
def shift (n d : Nat) : Nat := Nat.log2 (n / d) - f.fractionBits

theorem nearest_eq_shift (n d : Nat) :
    f.nearest n d = f.shift n d * f.binade + roundHalfEven n (d * 2 ^ f.shift n d) := by
  rw [nearest_eq, Nat.shiftLeft_eq]
  rfl

theorem quanta_place {s m : Nat} (hm : m < 2 * f.binade) (h : s = 0 ∨ f.binade ≤ m) :
    f.quanta (s * f.binade + m) = m * 2 ^ s := by
  rcases Nat.lt_or_ge m f.binade with small | large
  · rcases h with rfl | large
    · rw [Nat.zero_mul, Nat.zero_add, f.quanta_of_lt small, Nat.pow_zero, Nat.mul_one]
    · omega
  · have e : s * f.binade + m = (s + 1) * f.binade + (m - f.binade) := by
      rw [Nat.succ_mul]
      omega
    rw [e, f.quanta_binade s (by omega), Nat.add_sub_cancel' large]

section
variable {n d : Nat}

/-- In units of its spacing a quotient takes one significand. -/
theorem lt_spacing (hd : 0 < d) : n < 2 * f.binade * (d * 2 ^ f.shift n d) := by
  have less : n / d < 2 * f.binade * 2 ^ f.shift n d := by
    rw [binade_eq, ← Nat.pow_succ', ← Nat.pow_add]
    refine Nat.lt_of_lt_of_le Nat.lt_log2_self (Nat.pow_le_pow_right (by decide) ?_)
    unfold shift
    omega
  have le := Nat.lt_mul_of_div_lt less hd
  calc n < _ := le
    _ = _ := by ring

/-- Where the spacing is more than one quantum, a whole binade lies below the quotient. -/
theorem binade_le_div (h : 0 < f.shift n d) : f.binade * 2 ^ f.shift n d ≤ n / d := by
  have large : f.fractionBits < Nat.log2 (n / d) := by
    unfold shift at h
    omega
  have hq : n / d ≠ 0 := by
    intro e
    rw [e, Nat.log2_zero] at large
    omega
  have hs : f.fractionBits + f.shift n d = Nat.log2 (n / d) := by
    unfold shift
    omega
  rw [binade_eq, ← Nat.pow_add, hs]
  exact Nat.log2_self_le hq

/-- **Rounding does not pass a magnitude above.** -/
theorem nearest_le {k : Nat} (h : n ≤ f.quanta k * d) : f.nearest n d ≤ k := by
  rcases Nat.eq_zero_or_pos d with rfl | hd
  · obtain rfl : n = 0 := Nat.le_zero.mp h
    rw [f.nearest_zero]
    exact Nat.zero_le k
  rw [nearest_eq_shift]
  have hk : n / d ≤ f.quanta k := Nat.div_le_of_le_mul (Nat.mul_comm _ d ▸ h)
  rcases Nat.lt_or_ge k ((f.shift n d + 2) * f.binade) with below | above
  · -- the magnitude has the spacing of the quotient or a finer one, and then it is exact
    have low : f.shift n d = 0 ∨ (f.shift n d + 1) * f.binade ≤ k := by
      rcases Nat.eq_zero_or_pos (f.shift n d) with none | some
      · exact .inl none
      · refine .inr (f.quanta_strictMono.le_iff_le.mp ?_)
        rw [← Nat.add_zero (_ * _), f.quanta_binade _ f.binade_pos, Nat.add_zero]
        exact (f.binade_le_div some).trans hk
    obtain ⟨m, rfl⟩ : ∃ m, k = f.shift n d * f.binade + m := by
      refine Nat.exists_eq_add_of_le ?_
      rcases low with none | low
      · rw [none, Nat.zero_mul]
        exact Nat.zero_le k
      · rw [Nat.succ_mul] at low
        omega
    rw [Nat.add_mul] at below
    rw [Nat.succ_mul] at low
    rw [f.quanta_place (by omega) (low.imp_right (by omega))] at h
    refine Nat.add_le_add_left (roundHalfEven_le ?_) _
    calc n ≤ _ := h
      _ = _ := by ring
  · have most := roundHalfEven_le (Nat.le_of_lt (f.lt_spacing (n := n) hd))
    rw [Nat.add_mul] at above
    exact (Nat.add_le_add_left most _).trans above

theorem nearest_pos (hd : 0 < d) (h : d ≤ n) : 0 < f.nearest n d := by
  rw [nearest_eq_shift]
  rcases Nat.eq_zero_or_pos (f.shift n d) with none | some
  · have := div_le_roundHalfEven n (d * 2 ^ f.shift n d)
    rw [none, Nat.pow_zero, Nat.mul_one] at this ⊢
    have := Nat.div_pos h hd
    omega
  · exact Nat.add_pos_left (Nat.mul_pos some f.binade_pos) _

end

/-- Twice a magnitude is a magnitude, were there no largest one. -/
theorem exists_quanta_double (k : Nat) : ∃ l, f.quanta l = f.quanta k + f.quanta k := by
  obtain ⟨m, t, hm, hk⟩ := f.exists_significand k
  obtain ⟨l, hl⟩ := f.exists_quanta hm (t + 1)
  refine ⟨l, ?_⟩
  rw [hl, hk]
  ring

end Format

namespace Binary
variable {f : Format} {s t : Bool} {j k : Nat} (hj : j < f.top) (hk : k < f.top)

/-! ### products and quotients -/

theorem exists_round_of_le (s : Bool) {n d : Nat} (h : n ≤ f.quanta k * d) (hk : k < f.top) :
    ∃ l, ∃ hl : l < f.top, round s n d = finite s l hl ∧ l ≤ k := by
  have le := f.nearest_le h
  have hl := Nat.lt_of_le_of_lt le hk
  exact ⟨_, hl, dif_pos hl, le⟩

/-- A quotient by a number at least as large is at most one. -/
theorem exists_div_of_le (h0 : 0 < k) (le : j ≤ k) : ∃ l, ∃ hl : l < f.top,
    (finite s j hj).div (finite t k hk) = finite (s ^^ t) l hl ∧ f.quanta l ≤ f.unit := by
  have hb := f.binade_pos
  obtain ⟨one, hone, e⟩ := f.exists_rank_of_le (n := 1) (by omega)
  rw [Nat.one_mul] at e
  have bound : f.quanta j * f.unit ≤ f.quanta one * f.quanta k := by
    rw [← e, Nat.mul_comm]
    exact Nat.mul_le_mul_left _ (f.quanta_strictMono.monotone le)
  obtain ⟨l, hl, value, small⟩ := exists_round_of_le (s ^^ t) bound hone
  refine ⟨l, hl, (if_neg h0.ne').trans value, ?_⟩
  rw [e]
  exact f.quanta_strictMono.monotone small

/-- A product with a number of at most one is no larger than the other factor. -/
theorem exists_mul_of_le_unit (le : f.quanta k ≤ f.unit) : ∃ l, ∃ hl : l < f.top,
    (finite s j hj).mul (finite t k hk) = finite (s ^^ t) l hl ∧ l ≤ j :=
  exists_round_of_le (s ^^ t) (Nat.mul_le_mul_left _ le) hj

/-! ### sums -/

theorem add_of_sign_eq :
    (finite s j hj).add (finite s k hk) = round s (f.quanta j + f.quanta k) 1 := by
  show ofQuanta (s && s) (signed s (f.quanta j) + signed s (f.quanta k)) 1 = _
  rw [Bool.and_self]
  unfold ofQuanta
  cases s with
  | false =>
    rw [signed_false, signed_false, ← Int.natCast_add, Int.natAbs_natCast,
      decide_eq_false (by omega)]
    split
    · next h => rw [Int.natCast_eq_zero.mp h]
    · rfl
  | true =>
    rw [signed_true, signed_true, ← Int.neg_add, ← Int.natCast_add, Int.natAbs_neg,
      Int.natAbs_natCast]
    split
    · next h => rw [Int.natCast_eq_zero.mp (Int.neg_eq_zero.mp h)]
    · next h => rw [decide_eq_true (by omega)]

theorem exists_rank_of_doubled (doubled : ((finite t k hk).add (finite t k hk)).isFinite = true) :
    ∃ m < f.top, f.quanta m = f.quanta k + f.quanta k := by
  obtain ⟨m, hm⟩ := f.exists_quanta_double k
  refine ⟨m, ?_, hm⟩
  have rank := f.nearest_quanta m Nat.one_pos
  rw [Nat.mul_one] at rank
  rw [add_of_sign_eq hk hk, ← hm] at doubled
  unfold round ofRank at doubled
  rw [rank] at doubled
  by_contra no
  rw [dif_neg no] at doubled
  cases doubled

/-- Twice a magnitude is a magnitude, so that a smaller sum is not rounded past it. -/
theorem nearest_lt_top_of_doubled (le : j ≤ k)
    (doubled : ((finite t k hk).add (finite t k hk)).isFinite = true) :
    f.nearest (f.quanta k + f.quanta j) 1 < f.top := by
  obtain ⟨m, room, hm⟩ := exists_rank_of_doubled hk doubled
  have less := f.quanta_strictMono.monotone le
  exact Nat.lt_of_le_of_lt (f.nearest_le (by omega)) room

theorem isFinite_ofQuanta {z : ℤ} (h : z.natAbs ≤ f.quanta k) (hk : k < f.top) (s : Bool) :
    (ofQuanta s z 1 : Binary f).isFinite = true := by
  rw [← Nat.mul_one (f.quanta k)] at h
  unfold ofQuanta
  split
  · rw [round_zero]
    rfl
  · obtain ⟨l, hl, value, -⟩ := exists_round_of_le (decide (z < 0)) h hk
    rw [value]
    rfl

/-- Numbers of different signs do not overflow. -/
theorem isFinite_add_of_sign_ne (h : s ≠ t) :
    ((finite s j hj).add (finite t k hk)).isFinite = true := by
  have larger (m : Nat) (hjm : j ≤ m) (hkm : k ≤ m) (hm : m < f.top) :
      ((finite s j hj).add (finite t k hk)).isFinite = true := by
    have jm := f.quanta_strictMono.monotone hjm
    have km := f.quanta_strictMono.monotone hkm
    refine isFinite_ofQuanta ?_ hm (s && t)
    cases s <;> cases t <;> simp only [signed_true, signed_false] <;> first | omega | exact absurd rfl h
  rcases Nat.le_total j k with le | le
  · exact larger k le (Nat.le_refl k) hk
  · exact larger j (Nat.le_refl j) le hj

section
variable {x y : Binary f}

theorem exists_finite (h : x.isFinite = true) : ∃ s k, ∃ hk : k < f.top, x = finite s k hk := by
  cases x with
  | nan s => cases h
  | infinite s => cases h
  | finite s k hk => exact ⟨s, k, hk, rfl⟩

theorem sign_of_isInfinite_add (hx : x.isFinite = true) (hy : y.isFinite = true)
    (h : (x.add y).isInfinite = true) : x.isNegative = y.isNegative := by
  obtain ⟨s, j, hj, rfl⟩ := exists_finite hx
  obtain ⟨t, k, hk, rfl⟩ := exists_finite hy
  by_contra ne
  obtain ⟨u, l, hl, value⟩ := exists_finite (isFinite_add_of_sign_ne hj hk (s := s) (t := t) ne)
  rw [value] at h
  cases h

/-! ### what is undefined -/

theorem isNaN_ofRank (s : Bool) (k : Nat) : (ofRank s k : Binary f).isNaN = false := by
  unfold ofRank
  split <;> rfl

theorem isNaN_add (hx : x.isFinite = true) (hy : y.isFinite = true) : (x.add y).isNaN = false := by
  obtain ⟨s, j, hj, rfl⟩ := exists_finite hx
  obtain ⟨t, k, hk, rfl⟩ := exists_finite hy
  show (ofQuanta _ _ 1).isNaN = false
  unfold ofQuanta round
  split <;> exact isNaN_ofRank _ _

/-- A quotient by anything but zero is undefined for two infinities only. -/
theorem isNaN_div (hx : x.isNaN = false) (s : Bool) {k : Nat} (h0 : 0 < k) :
    (x.div (ofRank s k)).isNaN = (x.isInfinite && (ofRank s k : Binary f).isInfinite) := by
  unfold ofRank
  split
  · next hk =>
    cases x with
    | nan t => cases hx
    | infinite t => rfl
    | finite t j hj =>
      show (if k = 0 then _ else round (t ^^ s) _ _ : Binary f).isNaN = false
      rw [if_neg h0.ne']
      exact isNaN_ofRank _ _
  · cases x with
    | nan t => cases hx
    | infinite t => rfl
    | finite t j hj => rfl

end

end Binary

end Pointwise
