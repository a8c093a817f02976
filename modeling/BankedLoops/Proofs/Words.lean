import Mathlib.Algebra.Ring.Nat
import BankedLoops.Word

/-!
# Widths and powers of two

How many bits a number takes, and what shifting and masking by a power of two compute.
-/

namespace BankedLoops

theorem Word.capacity_eq (bits : Nat) : Word.capacity bits = 2 ^ bits := rfl

theorem Word.capacity_pos (bits : Nat) : 0 < Word.capacity bits :=
  Nat.two_pow_pos bits

theorem Word.capacity_le {a b : Nat} (le : a ≤ b) : Word.capacity a ≤ Word.capacity b :=
  Nat.pow_le_pow_right Nat.zero_lt_two le

theorem Word.capacity_add (a b : Nat) :
    Word.capacity (a + b) = Word.capacity a * Word.capacity b :=
  Nat.pow_add 2 a b

theorem Word.capacity_succ (bits : Nat) :
    Word.capacity (bits + 1) = Word.capacity bits + Word.capacity bits := by
  simp only [Word.capacity_eq, Nat.pow_succ]
  omega

theorem bitsNeeded_pos (n : Nat) : 0 < bitsNeeded n := by
  unfold bitsNeeded
  split <;> omega

theorem lt_capacity_bitsNeeded (n : Nat) : n < Word.capacity (bitsNeeded n) := by
  unfold bitsNeeded
  split
  · next zero =>
    subst zero
    decide
  · exact Nat.lt_log2_self

/-- `bitsNeeded n` is the least positive width that holds `n`. -/
theorem bitsNeeded_le_iff {n width : Nat} (positive : 0 < width) :
    bitsNeeded n ≤ width ↔ n < Word.capacity width := by
  constructor
  · intro le
    exact Nat.lt_of_lt_of_le (lt_capacity_bitsNeeded n) (Word.capacity_le le)
  · intro lt
    unfold bitsNeeded
    split
    · exact positive
    · next nonzero =>
      exact (Nat.log2_lt nonzero).mpr lt

theorem bitsNeeded_mono {a b : Nat} (le : a ≤ b) : bitsNeeded a ≤ bitsNeeded b :=
  (bitsNeeded_le_iff (bitsNeeded_pos b)).mpr (Nat.lt_of_le_of_lt le (lt_capacity_bitsNeeded b))

theorem eq_capacity_of_isPowerOfTwo {n : Nat} (power : isPowerOfTwo n = true) :
    n = Word.capacity n.log2 := by
  simpa [isPowerOfTwo] using power

theorem pos_of_isPowerOfTwo {n : Nat} (power : isPowerOfTwo n = true) : 0 < n := by
  rw [eq_capacity_of_isPowerOfTwo power]
  exact Word.capacity_pos _

/-- Masking by a power of two less one keeps the remainder. -/
theorem land_of_isPowerOfTwo {n : Nat} (power : isPowerOfTwo n = true) (v : Nat) :
    v &&& (n - 1) = v % n := by
  have same := eq_capacity_of_isPowerOfTwo power
  rw [Word.capacity_eq] at same
  rw [same, Nat.and_two_pow_sub_one_eq_mod]

end BankedLoops
