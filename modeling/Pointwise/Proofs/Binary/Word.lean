import Pointwise.Binary.Basic

/-!
# Words of floating-point numbers

Every number is read back from the word that stores it, and the word has one bit beside those of
the magnitude. The other way round a NaN keeps no more than its sign.

* `ofWord_toWord`   a number from its own word;
* `Format.IsNaN`, `toWord_ofWord`   a word from its own number, unless it is a NaN.
-/

namespace Pointwise

namespace Format
variable (f : Format)

theorem one_shiftLeft_magnitudeBits : 1 <<< f.magnitudeBits = (1 <<< f.exponentBits) * f.binade := by
  rw [magnitudeBits, binade, Nat.one_shiftLeft, Nat.one_shiftLeft, Nat.one_shiftLeft, Nat.pow_add]

theorem top_add_binade : f.top + f.binade = 1 <<< f.magnitudeBits := by
  have h : 0 < 1 <<< f.exponentBits := by
    rw [Nat.one_shiftLeft]
    exact Nat.two_pow_pos _
  rw [one_shiftLeft_magnitudeBits, top, ← Nat.succ_mul]
  congr 1
  omega

theorem half_binade_lt : 1 <<< (f.fractionBits - 1) < f.binade := by
  have h := f.fraction_pos
  rw [binade, Nat.one_shiftLeft, Nat.one_shiftLeft]
  exact Nat.pow_lt_pow_right (by decide) (by omega)

theorem half_binade_pos : 0 < 1 <<< (f.fractionBits - 1) := by
  rw [Nat.one_shiftLeft]
  exact Nat.two_pow_pos _

/-- The word of a not-a-number has a magnitude above that of the infinity. -/
def IsNaN (w : Nat) : Prop := f.top < w % 1 <<< f.magnitudeBits

end Format

namespace Binary
variable {f : Format}

theorem magnitude_lt (x : Binary f) : x.magnitude < 1 <<< f.magnitudeBits := by
  have ht := f.top_add_binade
  have hb := f.binade_pos
  have hh := f.half_binade_lt
  cases x with
  | nan s => show f.top + 1 <<< (f.fractionBits - 1) < _; omega
  | infinite s => show f.top < _; omega
  | finite s k hk => show k < _; omega

theorem ofMagnitude_magnitude (x : Binary f) : ofMagnitude x.isNegative x.magnitude = x := by
  have hh := f.half_binade_pos
  cases x with
  | nan s => exact if_pos (Nat.lt_add_of_pos_right hh)
  | infinite s =>
    refine (if_neg (Nat.lt_irrefl _)).trans ?_
    exact dif_neg (Nat.lt_irrefl _)
  | finite s k hk =>
    refine (if_neg (Nat.lt_asymm hk)).trans ?_
    exact dif_pos hk

theorem testBit_toWord (x : Binary f) : x.toWord.testBit f.magnitudeBits = x.isNegative := by
  have hm := x.magnitude_lt
  rw [Nat.one_shiftLeft] at hm
  unfold toWord
  cases x.isNegative with
  | false => rw [Bool.toNat_false, Nat.zero_shiftLeft, Nat.zero_add, Nat.testBit_lt_two_pow hm]
  | true =>
    rw [Bool.toNat_true, Nat.one_shiftLeft, Nat.testBit_two_pow_add_eq, Nat.testBit_lt_two_pow hm]
    rfl

theorem toWord_mod (x : Binary f) : x.toWord % 1 <<< f.magnitudeBits = x.magnitude := by
  have hm := x.magnitude_lt
  rw [Nat.one_shiftLeft] at hm
  unfold toWord
  rw [Nat.shiftLeft_eq, Nat.one_shiftLeft, Nat.mul_comm, Nat.mul_add_mod, Nat.mod_eq_of_lt hm]

theorem ofWord_toWord (x : Binary f) : ofWord x.toWord = x := by
  unfold ofWord
  rw [testBit_toWord, toWord_mod, ofMagnitude_magnitude]

theorem toWord_lt (x : Binary f) : x.toWord < 1 <<< (f.magnitudeBits + 1) := by
  have hm := x.magnitude_lt
  have hs : x.isNegative.toNat <<< f.magnitudeBits ≤ 1 <<< f.magnitudeBits := by
    rw [Nat.shiftLeft_eq, Nat.shiftLeft_eq]
    exact Nat.mul_le_mul_right _ (Bool.toNat_le _)
  have h2 : 1 <<< (f.magnitudeBits + 1) = 1 <<< f.magnitudeBits + 1 <<< f.magnitudeBits := by
    rw [Nat.one_shiftLeft, Nat.one_shiftLeft, Nat.pow_succ, Nat.mul_two]
  unfold toWord
  omega

/-! ### words read and stored again -/

theorem isNaN_toWord (s : Bool) : f.IsNaN (nan s : Binary f).toWord := by
  have hh := f.half_binade_pos
  show f.top < _
  rw [toWord_mod]
  show f.top < f.top + 1 <<< (f.fractionBits - 1)
  omega

theorem ofWord_of_isNaN {w : Nat} (h : f.IsNaN w) :
    (ofWord w : Binary f) = nan (w.testBit f.magnitudeBits) :=
  if_pos h

theorem toWord_ofMagnitude {s : Bool} {m : Nat} (h : m ≤ f.top) :
    (ofMagnitude s m : Binary f).toWord = s.toNat <<< f.magnitudeBits + m := by
  unfold ofMagnitude ofRank
  rw [if_neg (Nat.not_lt.mpr h)]
  split
  · rfl
  · have hm : f.top = m := by omega
    rw [← hm]
    rfl

/-- A word other than a NaN's comes back from the number it stores. -/
theorem toWord_ofWord {w : Nat} (hw : w < 1 <<< (f.magnitudeBits + 1)) (h : ¬ f.IsNaN w) :
    (ofWord w : Binary f).toWord = w := by
  rw [Nat.one_shiftLeft, Nat.pow_succ] at hw
  have sign : w / 2 ^ f.magnitudeBits < 2 := Nat.div_lt_of_lt_mul hw
  unfold ofWord
  rw [toWord_ofMagnitude (Nat.not_lt.mp h), Nat.toNat_testBit, Nat.mod_eq_of_lt sign,
    Nat.shiftLeft_eq, Nat.one_shiftLeft, Nat.mul_comm, Nat.div_add_mod]

end Binary

end Pointwise
