import Pointwise.Proofs.Element.Arithmetic
import Pointwise.Proofs.Promotion.Exact

/-!
# Casts of integers one after another

A cast between integer kinds goes to the one integer of the target that is congruent. A second cast
comes to the same as a direct one, if the kind in between is at least as wide as the last one or has the
integer in its range. A common kind has room for both operands, and so they come back from it as they
were.

* `Kind.wrap_wrap`   one reduction after another;
* `Elem.exists_casts`   one cast after another, and the direct one;
* `Elem.ComesBack`   a cast that can be undone;
* `integer_casts_compose`   casts between any three kinds, and to the common kinds and back.
-/

namespace Pointwise

/-- The reduction to a kind does not see one before it that is at least as wide, or that changes
nothing. -/
theorem Kind.wrap_wrap {b c : Kind} (hb : b.isInteger = true) (hc : c.isInteger = true) {i : ℤ}
    (h : c.size ≤ b.size ∨ i ∈ b.range) : c.wrap (b.wrap i) = c.wrap i := by
  rcases h with narrow | mem
  · have dvd : (2 : ℤ) ^ (8 * c.size) ∣ 2 ^ (8 * b.size) :=
      pow_dvd_pow 2 (Nat.mul_le_mul_left 8 narrow)
    have first : b.wrap i ≡ i [ZMOD 2 ^ (8 * c.size)] := (wrap_congruent hb i).of_dvd dvd
    have second : c.wrap (b.wrap i) ≡ b.wrap i [ZMOD 2 ^ (8 * c.size)] := wrap_congruent hc _
    exact (isResidue_iff hc).mp ⟨wrap_mem_range hc _, second.trans first⟩
  · rw [wrap_of_mem_range mem]

namespace Elem
variable {a b c : Kind}

/-- Casts from one kind over a second to a third, and the direct cast. -/
theorem exists_casts (ha : a.isInteger = true) (hb : b.isInteger = true) (hc : c.isInteger = true) :
    ∃ (first : Elem a → Elem b) (second : Elem b → Elem c) (direct : Elem a → Elem c),
      cast? a b = some first ∧ cast? b c = some second ∧ cast? a c = some direct ∧
      ∀ x i, int? a x = some i → int? b (first x) = some (b.wrap i) ∧
        int? c (direct x) = some (c.wrap i) ∧
        (c.size ≤ b.size ∨ i ∈ b.range → second (first x) = direct x) := by
  obtain ⟨first, hfirst, exactFirst⟩ := exists_cast_int ha hb
  obtain ⟨second, hsecond, exactSecond⟩ := exists_cast_int hb hc
  obtain ⟨direct, hdirect, exactDirect⟩ := exists_cast_int ha hc
  refine ⟨first, second, direct, hfirst, hsecond, hdirect, fun x i hx => ?_⟩
  have reduced := exactFirst x i hx
  refine ⟨reduced, exactDirect x i hx, fun h => ?_⟩
  have twice := exactSecond (first x) (b.wrap i) reduced
  rw [Kind.wrap_wrap hb hc h] at twice
  exact int?_injective twice (exactDirect x i hx)

def ComesBack (source target : Kind) : Prop :=
  ∃ (cast : Elem source → Elem target) (back : Elem target → Elem source),
    cast? source target = some cast ∧ cast? target source = some back ∧ ∀ x, back (cast x) = x

theorem comesBack_of_fits {s t : Kind} (ht : t.isInteger = true) (h : s.fits t = true) :
    ComesBack s t := by
  have hs := Kind.isInteger_of_fits h ht
  obtain ⟨cast, back, self, hcast, hback, -, exact⟩ := exists_casts hs ht hs
  refine ⟨cast, back, hcast, hback, fun x => ?_⟩
  obtain ⟨i, hi⟩ := exists_int? hs x
  obtain ⟨-, direct, same⟩ := exact x i hi
  have mem := int?_mem_range hi
  rw [Kind.wrap_of_mem_range mem] at direct
  calc back (cast x) = self x := same (.inr (range_subset_of_fits hs ht h mem))
    _ = x := int?_injective direct hi

end Elem

/-- **Casts between integer kinds compose**: a cast gives the one congruent integer of its target, and
over a kind in between it is still the direct cast, unless that kind is the narrower one and does not
hold the integer. The operands of an available entry with an integer common kind come back from it. -/
theorem integer_casts_compose {a b c : Kind} (ha : a.isInteger = true) (hb : b.isInteger = true)
    (hc : c.isInteger = true) :
    (∃ (first : Elem a → Elem b) (second : Elem b → Elem c) (direct : Elem a → Elem c),
      Elem.cast? a b = some first ∧ Elem.cast? b c = some second ∧ Elem.cast? a c = some direct ∧
      ∀ x, ∃ i, Elem.int? a x = some i ∧
        (∀ j, Elem.int? b (first x) = some j ↔ b.IsResidue i j) ∧
        (c.size ≤ b.size ∨ i ∈ b.range → second (first x) = direct x)) ∧
    ∀ {family : Family} {e : Entry}, e ∈ Promotion.available family → e.common.isInteger = true →
      Elem.ComesBack e.left e.common ∧ Elem.ComesBack e.right e.common := by
  constructor
  · obtain ⟨first, second, direct, hfirst, hsecond, hdirect, exact⟩ := Elem.exists_casts ha hb hc
    refine ⟨first, second, direct, hfirst, hsecond, hdirect, fun x => ?_⟩
    obtain ⟨i, hi⟩ := Elem.exists_int? ha x
    obtain ⟨reduced, -, same⟩ := exact x i hi
    refine ⟨i, hi, fun j => ?_, same⟩
    rw [reduced, Option.some_inj, Kind.isResidue_iff hb]
    exact eq_comm
  · intro family e he integer
    obtain ⟨left, right⟩ := Promotion.fits_of_mem_available he
    exact ⟨Elem.comesBack_of_fits integer left, Elem.comesBack_of_fits integer right⟩

/-- A negative number goes over a wide unsigned kind, where it is a large one, to a narrower signed kind
as it would directly. -/
theorem cast_int8_uint32_int16 :
    (∃ (first : Elem (.signed .w8) → Elem (.unsigned .w32))
      (second : Elem (.unsigned .w32) → Elem (.signed .w16))
      (direct : Elem (.signed .w8) → Elem (.signed .w16)),
      Elem.cast? (.signed .w8) (.unsigned .w32) = some first ∧
      Elem.cast? (.unsigned .w32) (.signed .w16) = some second ∧
      Elem.cast? (.signed .w8) (.signed .w16) = some direct ∧
      Elem.int? (.unsigned .w32) (first (BitVec.ofInt 8 (-5))) = some (2 ^ 32 - 5) ∧
      second (first (BitVec.ofInt 8 (-5))) = direct (BitVec.ofInt 8 (-5))) ∧
    ∃ e ∈ Promotion.available .arithmetic, e.left = .unsigned .w8 ∧ e.right = .signed .w8 ∧
      e.common = .signed .w16 ∧
      Elem.ComesBack e.left e.common ∧ Elem.ComesBack e.right e.common := by
  have he : (⟨.arithmetic, .unsigned .w8, .signed .w8, .signed .w16, .signed .w16, .available⟩ :
      Entry) ∈ Promotion.available .arithmetic :=
    Promotion.mem_available_iff.mpr ⟨Promotion.lookup_eq_rule? _ _ _, rfl⟩
  obtain ⟨⟨first, second, direct, hfirst, hsecond, hdirect, exact⟩, comesBack⟩ :=
    integer_casts_compose (a := .signed .w8) (b := .unsigned .w32) (c := .signed .w16) rfl rfl rfl
  obtain ⟨i, hi, residue, same⟩ := exact (BitVec.ofInt 8 (-5))
  obtain rfl : -5 = i := Option.some.inj hi
  refine ⟨⟨first, second, direct, hfirst, hsecond, hdirect, ?_, same (.inl (by decide))⟩,
    _, he, rfl, rfl, rfl, comesBack he rfl⟩
  exact (residue _).mpr ⟨⟨by decide, by decide⟩, by decide⟩

end Pointwise
