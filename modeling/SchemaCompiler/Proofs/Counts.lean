import Mathlib.Data.Nat.Log
import SchemaCompiler.Proofs.Meaning

/-!
# Comparing counts of records

A procedure compares the number of records with a snapshot the way it compares any numbers, after
rounding both to doubles. Rounding keeps what is representable apart from anything above it, so
the comparison is exact as long as the snapshot is below `2^53`.
-/

namespace SchemaCompiler

namespace Double

theorem spacing_pos (x : Nat) : 0 < spacing x := Nat.pow_pos (by decide)

theorem le_divNearest (x d : Nat) : x / d ≤ divNearest x d := by
  unfold divNearest
  dsimp only
  split
  · exact Nat.le_refl _
  · exact Nat.le_succ _

/-- A number of units that is representable is not passed when a larger one is rounded. -/
theorem le_nearest {x y : Nat} (hy : spacing y ∣ y) (hle : y ≤ x) : y ≤ nearest x 1 := by
  have hround : x / spacing x * spacing x ≤ nearest x 1 := by
    simp only [nearest, Nat.div_one, Nat.one_mul]
    exact Nat.mul_le_mul_right _ (le_divNearest _ _)
  refine Nat.le_trans ?_ hround
  have hlog : y.log2 ≤ x.log2 := by
    rw [Nat.log2_eq_log_two, Nat.log2_eq_log_two]
    exact Nat.log_mono_right hle
  -- Either both numbers have the same spacing, or a power of two stands between them.
  rcases Nat.eq_or_lt_of_le hlog with hsame | hbelow
  · rw [spacing, hsame] at hy
    obtain ⟨k, hk⟩ := hy
    have hkx : k ≤ x / spacing x := by
      rw [Nat.le_div_iff_mul_le (spacing_pos x), Nat.mul_comm]
      exact hk ▸ hle
    rw [hk, Nat.mul_comm]
    exact Nat.mul_le_mul_right _ hkx
  · have hx : x ≠ 0 := fun h => by simp [h] at hbelow
    have hpower : spacing x ∣ Nat.pow 2 x.log2 := Nat.pow_dvd_pow 2 (Nat.sub_le _ _)
    obtain ⟨k, hk⟩ := hpower
    have hkx : k ≤ x / spacing x := by
      rw [Nat.le_div_iff_mul_le (spacing_pos x), Nat.mul_comm, ← hk]
      exact Nat.log2_self_le hx
    calc y ≤ Nat.pow 2 (y.log2 + 1) := Nat.le_of_lt Nat.lt_log2_self
      _ ≤ Nat.pow 2 x.log2 := Nat.pow_le_pow_right (by decide) hbelow
      _ = k * spacing x := by rw [hk, Nat.mul_comm]
      _ ≤ x / spacing x * spacing x := Nat.mul_le_mul_right _ hkx

theorem nearest_of_dvd {y : Nat} (hy : spacing y ∣ y) : nearest y 1 = y := by
  have hmod : y % spacing y = 0 := Nat.mod_eq_zero_of_dvd hy
  simp only [nearest, divNearest, Nat.div_one, Nat.one_mul, hmod, Nat.mul_zero, spacing_pos, true_or,
    if_true]
  exact Nat.div_mul_cancel hy

/-- Multiples of a power of two by numbers up to `2^53` are representable. -/
theorem spacing_dvd {m : Nat} (hm : m ≤ 9007199254740992) (e : Nat) :
    spacing (m * Nat.pow 2 e) ∣ m * Nat.pow 2 e := by
  have hpower : 9007199254740992 * Nat.pow 2 e = Nat.pow 2 (53 + e) := (Nat.pow_add 2 53 e).symm
  rcases Nat.eq_or_lt_of_le hm with rfl | hlt
  · rw [hpower, spacing]
    exact Nat.pow_dvd_pow 2 ((Nat.sub_le _ _).trans (Nat.le_of_eq Nat.log2_two_pow))
  · rcases Nat.eq_zero_or_pos m with rfl | hpos
    · rw [Nat.zero_mul]
      exact Nat.dvd_zero _
    · have hunit : 0 < Nat.pow 2 e := Nat.pow_pos (by decide)
      have hbound : m * Nat.pow 2 e < Nat.pow 2 (53 + e) :=
        hpower ▸ Nat.mul_lt_mul_of_pos_right hlt hunit
      have hlog : (m * Nat.pow 2 e).log2 < 53 + e :=
        (Nat.log2_lt (Nat.mul_pos hpos hunit).ne').mpr hbound
      exact Nat.dvd_mul_left_of_dvd (Nat.pow_dvd_pow 2 (by omega)) m

theorem exists_one_eq : ∃ e, one = Nat.pow 2 e := ⟨_, rfl⟩

theorem one_pos : 0 < one := by
  obtain ⟨e, he⟩ := exists_one_eq
  exact he ▸ Nat.pow_pos (by decide)

theorem spacing_dvd_whole {m : Nat} (hm : m ≤ 9007199254740992) :
    spacing (m * one) ∣ m * one := by
  obtain ⟨e, he⟩ := exists_one_eq
  exact he ▸ spacing_dvd hm e

theorem value_ofInt (n : Nat) : (ofInt n).value = nearest (n * one) 1 := by
  have hsign : ¬ (n : Int) < 0 := by omega
  simp [ofInt, value, hsign]

end Double

/-- Counts below this number are compared exactly. -/
def Run.exactCounts : Nat := 9007199254740992

open Double in
/-- A snapshot is equal to a later count only if nothing was added. -/
theorem Run.sameCount_iff {n before : Nat} (hbound : before < exactCounts)
    (hle : before ≤ n) : sameCount n before = true ↔ n = before := by
  have hvalues : sameCount n before =
      ((nearest (n * one) 1 : Int) == (nearest (before * one) 1 : Int)) := by
    rw [← value_ofInt, ← value_ofInt]
    rfl
  have hbefore : nearest (before * one) 1 = before * one :=
    nearest_of_dvd (spacing_dvd_whole hbound.le)
  rw [hvalues, hbefore, beq_iff_eq, Int.natCast_inj]
  constructor
  · intro heq
    by_contra hne
    have hnext : (before + 1) * one ≤ nearest (n * one) 1 :=
      le_nearest (spacing_dvd_whole hbound) (Nat.mul_le_mul_right one (by omega))
    rw [Nat.add_mul, Nat.one_mul] at hnext
    have hone := one_pos
    omega
  · rintro rfl
    exact hbefore

end SchemaCompiler
