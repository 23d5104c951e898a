import Mathlib.Data.EReal.Basic
import Mathlib.Data.Rat.Cast.Order
import Mathlib.Tactic.FieldSimp
import Mathlib.Tactic.NormNum
import Pointwise.Binary.Basic
import Pointwise.Proofs.Binary.Magnitude

/-!
# The numbers that floating-point numbers are

`Binary.number x` is what `x` stands for, whatever its format: an exact rational with its sign, so
that the zeros stay apart, an infinity, or nothing at all.

* `number_injective`   a format has one representation for each number;
* `number_convert`   a format within another converts without loss;
* `number_ofInt`   integers of at most one significand are exact;
* `le_iff`, `lt_iff`, `eq_iff`   the relations of a format are those of the extended real line.
-/

namespace Pointwise

/-- A real number and its sign, or one of the values beside the real numbers. -/
inductive Number
  | nan
  | infinite (negative : Bool)
  | finite (negative : Bool) (value : ℚ)
  deriving DecidableEq

namespace Number

/-- An integer; zero is positive. -/
def ofInt (i : ℤ) : Number := finite (decide (i < 0)) i

/-- Position on the extended real line, the two zeros at one place. -/
noncomputable def place? : Number → Option EReal
  | nan => none
  | infinite s => some (if s then ⊥ else ⊤)
  | finite _ v => some ((v : ℝ) : EReal)

theorem ofInt_injective {i j : ℤ} (h : ofInt i = ofInt j) : i = j := by
  injection h with _ hv
  exact_mod_cast hv

theorem place?_eq_none_iff {x : Number} : x.place? = none ↔ x = nan := by
  cases x <;> simp [place?]

theorem place?_ofInt (i : ℤ) : (ofInt i).place? = some ((i : ℝ) : EReal) := by
  show some (((i : ℚ) : ℝ) : EReal) = _
  rw [Rat.cast_intCast]

end Number

/-! ### one format within another -/

structure Format.Within (f g : Format) : Prop where
  fraction : f.fractionBits ≤ g.fractionBits
  exponent : f.exponentBits ≤ g.exponentBits

namespace Format
variable {f g : Format}

theorem one_shiftLeft_exponentBits (f : Format) :
    1 <<< f.exponentBits = 2 * 1 <<< (f.exponentBits - 1) := by
  have h : f.exponentBits - 1 + 1 = f.exponentBits := Nat.sub_add_cancel f.exponentBits_pos
  rw [Nat.one_shiftLeft, Nat.one_shiftLeft, ← Nat.pow_succ', Nat.succ_eq_add_one, h]

theorem quanta_eq_zero_iff {k : Nat} : f.quanta k = 0 ↔ k = 0 := by
  have h := f.quanta_strictMono.injective.eq_iff (a := k) (b := 0)
  rwa [f.quanta_zero] at h

theorem Within.shift (h : Within f g) :
    f.scale ≤ g.scale ∧ f.quanta f.top * 2 ^ (g.scale - f.scale) ≤ g.quanta g.top := by
  obtain ⟨hf, he⟩ := h
  have hx : 1 <<< (f.exponentBits - 1) ≤ 1 <<< (g.exponentBits - 1) := by
    rw [Nat.one_shiftLeft, Nat.one_shiftLeft]
    exact Nat.pow_le_pow_right (by decide) (by omega)
  have hfe := f.one_shiftLeft_exponentBits
  have hge := g.one_shiftLeft_exponentBits
  have hfw := f.exponent_wide
  have hfp := f.fraction_pos
  have hs : f.scale ≤ g.scale := by
    unfold scale
    omega
  refine ⟨hs, ?_⟩
  rw [quanta_top, quanta_top, ← Nat.pow_add]
  refine Nat.pow_le_pow_right (by decide) ?_
  unfold scale
  omega

/-- Every finite magnitude of the one format is one of the other. -/
theorem Within.exists_rank (h : Within f g) {k : Nat} (hk : k < f.top) :
    ∃ l < g.top, f.quanta k * g.unit = g.quanta l * f.unit := by
  obtain ⟨hs, htop⟩ := h.shift
  obtain ⟨m, t, hm, hq⟩ := f.exists_significand k
  have hb : f.binade ≤ g.binade := by
    rw [binade_eq, binade_eq]
    exact Nat.pow_le_pow_right (by decide) h.fraction
  obtain ⟨l, hl⟩ := g.exists_quanta (m := m) (by omega) (t + (g.scale - f.scale))
  have e : g.quanta l = f.quanta k * 2 ^ (g.scale - f.scale) := by
    rw [hl, hq, Nat.pow_add, Nat.mul_assoc]
  refine ⟨l, ?_, ?_⟩
  · apply g.quanta_strictMono.lt_iff_lt.mp
    rw [e]
    refine Nat.lt_of_lt_of_le ?_ htop
    exact Nat.mul_lt_mul_of_pos_right (f.quanta_strictMono hk) (Nat.two_pow_pos _)
  · have hu : g.unit = 2 ^ (g.scale - f.scale) * f.unit := by
      rw [unit_eq, unit_eq, ← Nat.pow_add, Nat.sub_add_cancel hs]
    rw [e, hu, Nat.mul_assoc]

/-- Every integer of at most one significand is a magnitude. -/
theorem exists_rank_of_le (f : Format) {n : Nat} (hn : n ≤ 2 * f.binade) :
    ∃ l < f.top, n * f.unit = f.quanta l := by
  have hw := f.exponent_wide
  have he := f.one_shiftLeft_exponentBits
  have hp := f.fraction_pos
  have hlt : n * f.unit < f.quanta f.top := by
    refine Nat.lt_of_le_of_lt (Nat.mul_le_mul_right _ hn) ?_
    rw [quanta_top, binade_eq, unit_eq, ← Nat.pow_succ', ← Nat.pow_add]
    refine Nat.pow_lt_pow_right (by decide) ?_
    unfold scale
    omega
  obtain ⟨l, hl⟩ : ∃ l, f.quanta l = n * f.unit := by
    rw [unit_eq]
    rcases Nat.lt_or_eq_of_le hn with hlt | rfl
    · exact f.exists_quanta hlt f.scale
    · have hb : f.binade < 2 * f.binade := by
        have := f.binade_pos
        omega
      obtain ⟨l, hl⟩ := f.exists_quanta hb (f.scale + 1)
      refine ⟨l, ?_⟩
      rw [hl, Nat.pow_succ]
      ring
  refine ⟨l, ?_, hl.symm⟩
  apply f.quanta_strictMono.lt_iff_lt.mp
  rw [hl]
  exact hlt

end Format

namespace Binary
variable {f g : Format}

/-- What a floating-point number stands for. -/
def number : Binary f → Number
  | nan _ => .nan
  | infinite s => .infinite s
  | finite s k _ => .finite s ((signed s (f.quanta k) : ℤ) / (f.unit : ℚ))

theorem number_zero : (zero false : Binary f).number = .ofInt 0 := by
  show Number.finite false (((f.quanta 0 : Nat) : ℤ) / (f.unit : ℚ))
    = Number.finite false ((0 : ℤ) : ℚ)
  rw [f.quanta_zero]
  simp

theorem unit_ne_zero (f : Format) : (f.unit : ℚ) ≠ 0 := Nat.cast_ne_zero.mpr f.unit_pos.ne'

theorem number_eq_nan_iff {x : Binary f} : x.number = .nan ↔ x.isNaN = true := by
  cases x <;> simp [number, isNaN]

theorem signed_injective (s : Bool) {m n : Nat} (h : signed s m = signed s n) : m = n := by
  cases s with
  | false => exact Int.ofNat.inj h
  | true => exact Int.ofNat.inj (Int.neg_inj.mp h)

/-- A format has one representation for each number. -/
theorem number_injective {x y : Binary f} (hx : x.isNaN = false) (h : x.number = y.number) :
    x = y := by
  cases x with
  | nan s => cases hx
  | infinite s =>
    cases y with
    | infinite t =>
      obtain rfl := Number.infinite.inj h
      rfl
    | nan t => cases h
    | finite t k hk => cases h
  | finite s j hj =>
    cases y with
    | nan t => cases h
    | infinite t => cases h
    | finite t k hk =>
      obtain ⟨rfl, hv⟩ := Number.finite.inj h
      rw [div_left_inj' (unit_ne_zero f), Int.cast_inj] at hv
      obtain rfl := f.quanta_strictMono.injective (signed_injective s hv)
      rfl

/-! ### exact results -/

theorem round_quanta (s : Bool) {k : Nat} (hk : k < f.top) {d : Nat} (hd : 0 < d) :
    round s (f.quanta k * d) d = finite s k hk := by
  unfold round ofRank
  rw [f.nearest_quanta k hd, dif_pos hk]

/-- A format within another converts without loss. -/
theorem number_convert (h : f.Within g) (x : Binary f) : (x.convert g).number = x.number := by
  cases x with
  | nan s => rfl
  | infinite s => rfl
  | finite s k hk =>
    obtain ⟨l, hl, e⟩ := h.exists_rank hk
    show (round s (f.quanta k * g.unit) f.unit : Binary g).number = _
    rw [e, round_quanta s hl f.unit_pos]
    show Number.finite s _ = Number.finite s _
    congr 1
    rw [div_eq_div_iff (unit_ne_zero g) (unit_ne_zero f)]
    have eq : (f.quanta k : ℚ) * g.unit = g.quanta l * f.unit := by exact_mod_cast e
    cases s <;> simp [signed, eq]

theorem signed_natAbs (i : ℤ) : signed (decide (i < 0)) i.natAbs = i := by
  rcases Int.lt_or_le i 0 with h | h
  · rw [decide_eq_true h, signed_true]
    omega
  · rw [decide_eq_false (Int.not_lt.mpr h), signed_false]
    omega

theorem signed_mul (s : Bool) (m n : Nat) : signed s (m * n) = signed s m * n := by
  cases s with
  | false => exact Int.natCast_mul m n
  | true =>
    rw [signed_true, signed_true, Int.natCast_mul, Int.neg_mul]

theorem ofInt_eq_finite {i : ℤ} {l : Nat} (hl : l < f.top)
    (e : i.natAbs * f.unit = f.quanta l) :
    (ofInt i : Binary f) = finite (decide (i < 0)) l hl := by
  have hu : 0 < (f.unit : ℤ) := Int.natCast_pos.mpr f.unit_pos
  unfold ofInt ofQuanta
  by_cases h0 : i = 0
  · subst h0
    rw [Int.natAbs_zero, Nat.zero_mul] at e
    obtain rfl := Format.quanta_eq_zero_iff.mp e.symm
    rw [Int.zero_mul, if_pos rfl]
    exact round_zero false 1
  · have hn : (i * (f.unit : ℤ)).natAbs = f.quanta l * 1 := by
      rw [Int.natAbs_mul, Int.natAbs_natCast, e, Nat.mul_one]
    have hneg : decide (i * (f.unit : ℤ) < 0) = decide (i < 0) := by
      rw [decide_eq_decide, mul_neg_iff]
      omega
    rw [if_neg (Int.mul_ne_zero h0 hu.ne'), hn, hneg, round_quanta _ hl Nat.one_pos]

/-- Integers of at most one significand are exact. -/
theorem number_ofInt {i : ℤ} (hi : i.natAbs ≤ 2 * f.binade) :
    (ofInt i : Binary f).number = .ofInt i := by
  obtain ⟨l, hl, e⟩ := f.exists_rank_of_le hi
  rw [ofInt_eq_finite hl e]
  show Number.finite _ ((signed (decide (i < 0)) (f.quanta l) : ℤ) / (f.unit : ℚ)) = _
  rw [← e, signed_mul, signed_natAbs, Int.cast_mul, Int.cast_natCast,
    mul_div_cancel_right₀ _ (unit_ne_zero f)]
  rfl

/-! ### order -/

theorem signed_quanta_le_iff (f : Format) (s t : Bool) (j k : Nat) :
    signed s (f.quanta j) ≤ signed t (f.quanta k) ↔ signed s j ≤ signed t k := by
  have hjk : f.quanta j ≤ f.quanta k ↔ j ≤ k := f.quanta_strictMono.le_iff_le
  have hkj : f.quanta k ≤ f.quanta j ↔ k ≤ j := f.quanta_strictMono.le_iff_le
  have hj : f.quanta j = 0 ↔ j = 0 := Format.quanta_eq_zero_iff
  have hk : f.quanta k = 0 ↔ k = 0 := Format.quanta_eq_zero_iff
  cases s <;> cases t <;> simp only [signed_true, signed_false] <;> omega

theorem abs_signed_lt {n m : Nat} (s : Bool) (h : n < m) :
    -(m : ℤ) < signed s n ∧ signed s n < m := by
  cases s <;> simp only [signed_true, signed_false] <;> omega

/-- Positions among the ranks are ordered as the places on the extended real line are. -/
theorem order_le_iff {x y : Binary f} {a b : ℤ} {p q : EReal} (ha : x.order? = some a)
    (hb : y.order? = some b) (hp : x.number.place? = some p) (hq : y.number.place? = some q) :
    a ≤ b ↔ p ≤ q := by
  have htop := f.top_pos
  cases x with
  | nan s => cases ha
  | infinite s =>
    obtain rfl := Option.some.inj ha
    obtain rfl := Option.some.inj hp
    cases y with
    | nan t => cases hb
    | infinite t =>
      obtain rfl := Option.some.inj hb
      obtain rfl := Option.some.inj hq
      cases s <;> cases t <;> simp [signed, htop.ne']
    | finite t k hk =>
      obtain rfl := Option.some.inj hb
      obtain rfl := Option.some.inj hq
      obtain ⟨h1, h2⟩ := abs_signed_lt t hk
      cases s with
      | false => exact iff_of_false (Int.not_le.mpr h2) (not_le_of_gt (EReal.coe_lt_top _))
      | true => exact iff_of_true (Int.le_of_lt h1) bot_le
  | finite s j hj =>
    obtain rfl := Option.some.inj ha
    obtain rfl := Option.some.inj hp
    cases y with
    | nan t => cases hb
    | infinite t =>
      obtain rfl := Option.some.inj hb
      obtain rfl := Option.some.inj hq
      obtain ⟨h1, h2⟩ := abs_signed_lt s hj
      cases t with
      | false => exact iff_of_true (Int.le_of_lt h2) le_top
      | true => exact iff_of_false (Int.not_le.mpr h1) (not_le_of_gt (EReal.bot_lt_coe _))
    | finite t k hk =>
      obtain rfl := Option.some.inj hb
      obtain rfl := Option.some.inj hq
      have hu : (0 : ℚ) < f.unit := Nat.cast_pos.mpr f.unit_pos
      rw [EReal.coe_le_coe_iff, Rat.cast_le, div_le_div_iff_of_pos_right hu, Int.cast_le,
        signed_quanta_le_iff]

theorem exists_order {x : Binary f} {p : EReal} (hp : x.number.place? = some p) :
    ∃ a, x.order? = some a := by
  cases x with
  | nan s => cases hp
  | infinite s => exact ⟨_, rfl⟩
  | finite s k hk => exact ⟨_, rfl⟩

section
variable {x y : Binary f} {p q : EReal}

theorem le_iff (hp : x.number.place? = some p) (hq : y.number.place? = some q) :
    le x y = true ↔ p ≤ q := by
  obtain ⟨a, ha⟩ := exists_order hp
  obtain ⟨b, hb⟩ := exists_order hq
  unfold le related
  rw [ha, hb, ← order_le_iff ha hb hp hq]
  exact decide_eq_true_iff

theorem lt_iff (hp : x.number.place? = some p) (hq : y.number.place? = some q) :
    lt x y = true ↔ p < q := by
  obtain ⟨a, ha⟩ := exists_order hp
  obtain ⟨b, hb⟩ := exists_order hq
  unfold lt related
  rw [ha, hb, ← not_le, ← order_le_iff hb ha hq hp, Int.not_le]
  exact decide_eq_true_iff

theorem eq_iff (hp : x.number.place? = some p) (hq : y.number.place? = some q) :
    eq x y = true ↔ p = q := by
  obtain ⟨a, ha⟩ := exists_order hp
  obtain ⟨b, hb⟩ := exists_order hq
  have h : a = b ↔ p = q := by
    rw [Int.le_antisymm_iff, order_le_iff ha hb hp hq, order_le_iff hb ha hq hp, le_antisymm_iff]
  unfold eq related
  rw [ha, hb, ← h]
  exact decide_eq_true_iff

theorem related_of_place_none {r : ℤ → ℤ → Bool}
    (h : x.number.place? = none ∨ y.number.place? = none) : related r x y = false := by
  simp only [Number.place?_eq_none_iff, number_eq_nan_iff] at h
  unfold related
  cases x <;> cases y <;> simp_all [isNaN, order?]

end

end Binary

end Pointwise
