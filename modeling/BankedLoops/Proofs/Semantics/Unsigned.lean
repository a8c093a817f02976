import BankedLoops.Proofs.Semantics.Value
import BankedLoops.Proofs.Words

/-!
# Unsigned operations

Operations on unsigned operands are those of natural numbers, as long as their type has room for
the result.
-/

namespace BankedLoops

namespace Semantics

theorem toInt_unsigned (width v : Nat) : toInt false width v = v := by
  simp [toInt]

theorem pattern_of_lt {width v : Nat} (lt : v < Word.capacity width) : pattern width v = v := by
  unfold pattern
  rw [← Int.natCast_emod, Nat.mod_eq_of_lt lt, Int.toNat_natCast]

theorem pattern_lt (width : Nat) (n : Int) : pattern width n < Word.capacity width := by
  have positive : (0 : Int) < Word.capacity width := Int.natCast_pos.mpr (Word.capacity_pos width)
  have below := Int.emod_lt_of_pos n positive
  have above := Int.emod_nonneg n (Int.ne_of_gt positive)
  unfold pattern
  omega

theorem operand_unsigned {width v : Nat} {ty : Ty} (unsigned : ty.isSigned = false)
    (lt : v < Word.capacity width) : operand false width ty v = v := by
  rw [operand, unsigned, toInt_unsigned, toInt_unsigned, pattern_of_lt lt]

/-- An operation on unsigned operands that keep to their types is the exact one. -/
theorem result_unsigned {op : BinOp} {ty l r : Ty} {a b : Nat} (left : l.isSigned = false)
    (right : r.isSigned = false) (leftFits : a < Word.capacity l.width)
    (rightFits : b < Word.capacity r.width) :
    result op ty l r a b = exact op (workWidth ty l r) a b := by
  have leftWork : l.width ≤ workWidth ty l r := by
    unfold workWidth
    omega
  have rightWork : r.width ≤ workWidth ty l r := by
    unfold workWidth
    omega
  have leftLt := Nat.lt_of_lt_of_le leftFits (Word.capacity_le leftWork)
  have rightLt := Nat.lt_of_lt_of_le rightFits (Word.capacity_le rightWork)
  simp only [result, left, right, Bool.or_self, operand_unsigned left leftLt,
    operand_unsigned right rightLt]

theorem operation_eq_pattern (product : FixedProduct) (op : BinOp) {ty : Ty} (l r : Ty) (a b : Nat)
    (whole : ty.frac? = none) :
    operation product op ty l r a b = pattern ty.width (result op ty l r a b) := by
  unfold operation
  split
  · cases whole
  · rfl

/-- Where the result is a number that its type holds, it is the value and nothing wraps. -/
theorem operation_of_result (product : FixedProduct) {op : BinOp} {ty l r : Ty} {a b n : Nat}
    (whole : ty.frac? = none) (unsigned : ty.isSigned = false)
    (same : result op ty l r a b = n) (fits : n < Word.capacity ty.width) :
    operation product op ty l r a b = n ∧ wraps op ty l r a b = false := by
  refine ⟨?_, ?_⟩
  · rw [operation_eq_pattern product op l r a b whole, same, pattern_of_lt fits]
  · simp only [wraps, same, unsigned, toInt_unsigned, pattern_of_lt fits, bne_self_eq_false]

/-- Where nothing wraps, the value is the result. -/
theorem result_of_not_wraps (product : FixedProduct) {op : BinOp} {ty l r : Ty} {a b : Nat}
    (whole : ty.frac? = none) (unsigned : ty.isSigned = false)
    (fits : wraps op ty l r a b = false) :
    result op ty l r a b = operation product op ty l r a b := by
  rw [operation_eq_pattern product op l r a b whole]
  simp only [wraps, unsigned, toInt_unsigned, bne_eq_false_iff_eq] at fits
  exact fits.symm

theorem operation_lt (product : FixedProduct) (op : BinOp) (ty l r : Ty) (a b : Nat) :
    operation product op ty l r a b < Word.capacity ty.width := by
  unfold operation
  split <;> exact pattern_lt _ _

/-! ### Numbers that stand for themselves -/

/-- A natural number that is a value of the type and is read back as itself. -/
structure Represents (ty : Ty) (v : Nat) : Prop where
  fits : v < Word.capacity ty.width
  plain : toInt ty.isSigned ty.width v = v

theorem Represents.of_unsigned {ty : Ty} {v : Nat} (unsigned : ty.isSigned = false)
    (fits : v < Word.capacity ty.width) : Represents ty v where
  fits := fits
  plain := by rw [unsigned, toInt_unsigned]

/-- The sign bit of a signed number that is not negative is clear. -/
theorem Represents.lt_half {ty : Ty} {v : Nat} (represents : Represents ty v)
    (signed : ty.isSigned = true) : v < Word.capacity (ty.width - 1) := by
  have plain := represents.plain
  have positive := Word.capacity_pos ty.width
  rw [signed] at plain
  unfold toInt at plain
  split at plain
  · omega
  · next clear =>
    rw [not_and] at clear
    exact Nat.lt_of_not_le (clear rfl)

theorem operand_of_represents {signed : Bool} {width v : Nat} {ty : Ty}
    (represents : Represents ty v) (room : v < Word.capacity width)
    (half : signed = true → v < Word.capacity (width - 1)) : operand signed width ty v = v := by
  rw [operand, represents.plain, pattern_of_lt room, toInt, if_neg]
  rintro ⟨isSigned, negative⟩
  have := half isSigned
  omega

/-- The bits of an operand are those of the number, however the operator reads them. -/
theorem pattern_operand {width v : Nat} {ty : Ty} (signed : Bool) (represents : Represents ty v)
    (room : v < Word.capacity width) : pattern width (operand signed width ty v) = v := by
  rw [operand, represents.plain, pattern_of_lt room, toInt]
  split
  · rw [pattern, Int.sub_emod_right, ← pattern]
    exact pattern_of_lt room
  · exact pattern_of_lt room

end Semantics

end BankedLoops
