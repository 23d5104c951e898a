/-!
# Binary floating-point formats

A format is given by the width of its fraction and of its exponent. All magnitudes of a format,
from zero to infinity, are counted by their *rank*: rank 0 is zero, rank 1 the smallest positive
number, and infinity comes last, at `Format.top`. The rank is also the word that stores the
magnitude.

Every finite magnitude is a multiple of the smallest positive one, the *quantum*. `Format.quanta`
counts the quanta in the magnitude of a given rank, and `2 ^ Format.scale` quanta make one.

`roundHalfEven n d` is the integer nearest to `n / d`, the even one of two equally near.
`Format.nearest` rounds a magnitude of `n / d` quanta to the rank of the nearest magnitude of a
format: it fixes the spacing in the binade of the quotient and rounds once to a multiple of it. A
carry into the next binade needs no care, because ranks run on from one binade to the next.
-/

namespace Pointwise

/-- A binary floating-point format. -/
structure Format where
  fractionBits : Nat
  exponentBits : Nat
  fraction_pos : 0 < fractionBits
  /-- every integer of as many bits as the significand is far below the largest number -/
  exponent_wide : fractionBits + 1 < 1 <<< (exponentBits - 1)

namespace Format

def half : Format := ⟨10, 5, by decide, by decide⟩
def single : Format := ⟨23, 8, by decide, by decide⟩
def double : Format := ⟨52, 11, by decide, by decide⟩

variable (f : Format)

/-- Bits of a stored magnitude. -/
def magnitudeBits : Nat := f.exponentBits + f.fractionBits

/-- Ranks in a binade, the numbers between two neighbouring powers of two. -/
def binade : Nat := 1 <<< f.fractionBits

/-- The rank of infinity. -/
def top : Nat := (1 <<< f.exponentBits - 1) * f.binade

/-- The number one is two to this power times the quantum. -/
def scale : Nat := 1 <<< (f.exponentBits - 1) + f.fractionBits - 2

/-- The number one in quanta. -/
def unit : Nat := 1 <<< f.scale

/-- The magnitude of a rank in quanta: equally spaced through the first two binades, twice as wide
in every further one. -/
def quanta (rank : Nat) : Nat :=
  if rank < f.binade then rank
  else (f.binade + rank % f.binade) <<< (rank / f.binade - 1)

theorem binade_pos : 0 < f.binade := by
  rw [binade, Nat.one_shiftLeft]
  exact Nat.two_pow_pos _

theorem unit_pos : 0 < f.unit := by
  rw [unit, Nat.one_shiftLeft]
  exact Nat.two_pow_pos _

theorem exponentBits_pos : 0 < f.exponentBits := by
  have h := f.fraction_pos
  have hw := f.exponent_wide
  by_cases he : f.exponentBits = 0
  · simp [he] at hw
  · omega

theorem top_pos : 0 < f.top := by
  have h : 2 ^ 1 ≤ 2 ^ f.exponentBits := Nat.pow_le_pow_right (by decide) f.exponentBits_pos
  refine Nat.mul_pos ?_ f.binade_pos
  rw [Nat.one_shiftLeft]
  omega

theorem quanta_zero : f.quanta 0 = 0 := if_pos f.binade_pos

end Format

/-! ## rounding to nearest -/

/-- The integer nearest to a quotient, the even one on a tie. -/
def roundHalfEven (n d : Nat) : Nat :=
  if 2 * (n % d) < d then n / d
  else if d < 2 * (n % d) then n / d + 1
  else n / d + n / d % 2

/-- The rank of the magnitude nearest to `n / d` quanta, were there no largest one. -/
def Format.nearest (f : Format) (n d : Nat) : Nat :=
  let shift := Nat.log2 (n / d) - f.fractionBits
  shift * f.binade + roundHalfEven n (d <<< shift)

theorem roundHalfEven_zero (d : Nat) : roundHalfEven 0 d = 0 := by
  by_cases h : 0 < d
  · simp [roundHalfEven, h]
  · have h0 : d = 0 := by omega
    subst h0
    rfl

theorem Format.nearest_zero (f : Format) (d : Nat) : f.nearest 0 d = 0 := by
  simp [nearest, roundHalfEven_zero, Nat.log2_zero]

end Pointwise
