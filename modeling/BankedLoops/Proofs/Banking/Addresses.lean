import Mathlib.Data.List.Forall2
import BankedLoops.Proofs.Banking.Rules
import BankedLoops.Proofs.Semantics.Run
import BankedLoops.Proofs.Semantics.Unsigned

/-!
# Arithmetic on indices

The operations that split an index into a bank number and an offset are wide enough for their
results: shifting, masking, scaling and adding up compute quotients, remainders, products and sums
of natural numbers, and no operation wraps.
-/

namespace BankedLoops

namespace Banking

open Semantics

/-- The value of an expression over leaves with values, where none of the operations that join the
leaves wraps. -/
inductive Computes (m : Machine) (run : Semantics.Env) (s : State) (index : Bool)
    (leaf : TypedExpr → Prop) : TypedExpr → Nat → Prop where
  | leaf {e : TypedExpr} {v : Nat} (given : leaf e) (value : eval m run s index e = .ok v) :
      Computes m run s index leaf e v
  | lit (n : Nat) : Computes m run s index leaf (.lit n) n
  | binop {ty : Ty} {op : BinOp} {lhs rhs : TypedExpr} {a b : Nat}
      (left : Computes m run s index leaf lhs a) (right : Computes m run s index leaf rhs b)
      (unwrapped : wraps op ty lhs.ty rhs.ty a b = false) :
      Computes m run s index leaf (.binop ty op lhs rhs)
        (operation m.product op ty lhs.ty rhs.ty a b)

theorem Computes.eval_eq {m : Machine} {run : Semantics.Env} {s : State} {index : Bool}
    {leaf : TypedExpr → Prop} {e : TypedExpr} {v : Nat} (computes : Computes m run s index leaf e v) :
    eval m run s index e = .ok v := by
  induction computes with
  | leaf _ value => exact value
  | lit n => rfl
  | binop _ _ unwrapped left right =>
    simp only [eval, left, right, ok_bind, unwrapped, Bool.and_false, Bool.false_eq_true, if_false]

/-- An expression that computes a number of its type. -/
structure Denotes (m : Machine) (run : Semantics.Env) (s : State) (index : Bool)
    (leaf : TypedExpr → Prop) (e : TypedExpr) (v : Nat) : Prop where
  computes : Computes m run s index leaf e v
  represents : Represents e.ty v

theorem workWidth_le (ty l r : Ty) :
    ty.width ≤ workWidth ty l r ∧ l.width ≤ workWidth ty l r ∧ r.width ≤ workWidth ty l r := by
  unfold workWidth
  omega

namespace Denotes

variable {m : Machine} {run : Semantics.Env} {s : State} {index : Bool} {leaf : TypedExpr → Prop}
  {e lhs rhs : TypedExpr} {v a b : Nat}

theorem lit (n : Nat) : Denotes m run s index leaf (.lit n) n where
  computes := .lit n
  represents := .of_unsigned rfl (lt_capacity_bitsNeeded n)

/-- An operation whose result its type holds. -/
theorem binop {op : BinOp} {width n : Nat} (left : Denotes m run s index leaf lhs a)
    (right : Denotes m run s index leaf rhs b)
    (same : result op (.ubit width) lhs.ty rhs.ty a b = n) (fits : n < Word.capacity width) :
    Denotes m run s index leaf (.binop (.ubit width) op lhs rhs) n where
  computes := by
    obtain ⟨value, unwrapped⟩ := operation_of_result m.product rfl rfl same fits
    rw [← value]
    exact .binop left.computes right.computes unwrapped
  represents := .of_unsigned rfl fits

/-- An operator reads its operands as the numbers they are, unless the sign bit of one of them is
set. -/
theorem result_eq {op : BinOp} {ty : Ty} (left : Denotes m run s index leaf lhs a)
    (right : Denotes m run s index leaf rhs b)
    (half : (lhs.ty.isSigned || rhs.ty.isSigned) = true →
      a < Word.capacity (workWidth ty lhs.ty rhs.ty - 1) ∧
        b < Word.capacity (workWidth ty lhs.ty rhs.ty - 1)) :
    result op ty lhs.ty rhs.ty a b = exact op (workWidth ty lhs.ty rhs.ty) a b := by
  obtain ⟨_, leftWide, rightWide⟩ := workWidth_le ty lhs.ty rhs.ty
  have leftRoom := Nat.lt_of_lt_of_le left.represents.fits (Word.capacity_le leftWide)
  have rightRoom := Nat.lt_of_lt_of_le right.represents.fits (Word.capacity_le rightWide)
  simp only [result, operand_of_represents left.represents leftRoom fun signed => (half signed).1,
    operand_of_represents right.represents rightRoom fun signed => (half signed).2]

/-- Beside a literal only the other operand can be signed, and then its sign bit is clear. -/
theorem lt_half {n : Nat} (left : Denotes m run s index leaf lhs a)
    (signed : (lhs.ty.isSigned || (TypedExpr.lit n).ty.isSigned) = true) :
    a < Word.capacity (lhs.ty.width - 1) := by
  rw [show (TypedExpr.lit n).ty.isSigned = false from rfl, Bool.or_false] at signed
  exact left.represents.lt_half signed

theorem sub {start width : Nat} (idx : Denotes m run s index leaf lhs a) (le : start ≤ a)
    (wide : lhs.ty.width ≤ width) :
    Denotes m run s index leaf (.binop (.ubit width) .sub lhs (.lit start)) (a - start) := by
  refine idx.binop (lit start) ?_ ?_
  · rw [idx.result_eq (lit start)]
    · simp only [exact]
      omega
    · intro signed
      have wider := (workWidth_le (.ubit width) lhs.ty (TypedExpr.lit start).ty).2.1
      have room := Nat.lt_of_lt_of_le (idx.lt_half signed)
        (Word.capacity_le (Nat.sub_le_sub_right wider 1))
      exact ⟨room, Nat.lt_of_le_of_lt le room⟩
  · exact Nat.lt_of_le_of_lt (Nat.sub_le a start)
      (Nat.lt_of_lt_of_le idx.represents.fits (Word.capacity_le wide))

theorem add (left : Denotes m run s index leaf lhs a) (right : Denotes m run s index leaf rhs b)
    (added : widened .add lhs rhs = .ok e) : Denotes m run s index leaf e (a + b) := by
  obtain rfl : e = .binop (.ubit (max lhs.ty.width rhs.ty.width + 1)) .add lhs rhs :=
    eq_of_widened added
  have leftRoom := Nat.lt_of_lt_of_le left.represents.fits
    (Word.capacity_le (Nat.le_max_left lhs.ty.width rhs.ty.width))
  have rightRoom := Nat.lt_of_lt_of_le right.represents.fits
    (Word.capacity_le (Nat.le_max_right lhs.ty.width rhs.ty.width))
  refine left.binop right ?_ ?_
  · rw [left.result_eq right]
    · simp only [exact]
      omega
    · -- The sum has one bit more than either summand, so both sign bits are clear.
      intro _
      have work : workWidth (.ubit (max lhs.ty.width rhs.ty.width + 1)) lhs.ty rhs.ty - 1 =
          max lhs.ty.width rhs.ty.width := by
        unfold workWidth
        rw [Ty.ubit, Ty.width]
        omega
      rw [work]
      exact ⟨leftRoom, rightRoom⟩
  · rw [Word.capacity_succ]
    omega

theorem mul (left : Denotes m run s index leaf lhs a) (stride : Nat) :
    Denotes m run s index leaf (.binop (.ubit (lhs.ty.width + bitsNeeded stride)) .mul lhs (.lit stride))
      (a * stride) := by
  show Denotes m run s index leaf
    (.binop (.ubit (lhs.ty.width + (TypedExpr.lit stride).ty.width)) .mul lhs (.lit stride)) _
  have strideFits : stride < Word.capacity (TypedExpr.lit stride).ty.width :=
    lt_capacity_bitsNeeded stride
  obtain ⟨(wide : lhs.ty.width + (TypedExpr.lit stride).ty.width ≤ _), leftWide, _⟩ := workWidth_le
    (.ubit (lhs.ty.width + (TypedExpr.lit stride).ty.width)) lhs.ty (TypedExpr.lit stride).ty
  refine left.binop (lit stride) ?_ ?_
  · by_cases zero : a = 0
    · -- A signed type without bits holds only zero; there the sign bit of the stride may be set.
      subst zero
      have room := Nat.lt_of_lt_of_le left.represents.fits (Word.capacity_le leftWide)
      simp only [result, operand_of_represents left.represents room fun _ => Word.capacity_pos _,
        exact, Nat.zero_mul, Int.natCast_zero, Int.zero_mul]
    · rw [left.result_eq (lit stride)]
      · simp only [exact]
        exact (Int.natCast_mul a stride).symm
      · intro signed
        have half := left.lt_half signed
        have positive : lhs.ty.width - 1 ≠ 0 := by
          intro none
          rw [none, Word.capacity_eq, Nat.pow_zero] at half
          omega
        exact ⟨Nat.lt_of_lt_of_le half (Word.capacity_le (by omega)),
          Nat.lt_of_lt_of_le strideFits (Word.capacity_le (by omega))⟩
  · rw [Word.capacity_add]
    exact Nat.mul_lt_mul'' left.represents.fits strideFits

/-- A signed operand reads as itself beside a literal. -/
theorem operand_left {ty : Ty} {n : Nat} (left : Denotes m run s index leaf lhs a) :
    operand (lhs.ty.isSigned || (TypedExpr.lit n).ty.isSigned)
      (workWidth ty lhs.ty (TypedExpr.lit n).ty) lhs.ty a = a := by
  have wide := (workWidth_le ty lhs.ty (TypedExpr.lit n).ty).2.1
  refine operand_of_represents left.represents
    (Nat.lt_of_lt_of_le left.represents.fits (Word.capacity_le wide)) ?_
  intro signed
  exact Nat.lt_of_lt_of_le (left.lt_half signed) (Word.capacity_le (Nat.sub_le_sub_right wide 1))

/-- The bits of a literal operand are those of the number. -/
theorem pattern_right (ty : Ty) (n : Nat) (signed : Bool) :
    pattern (workWidth ty lhs.ty (TypedExpr.lit n).ty) (operand signed
      (workWidth ty lhs.ty (TypedExpr.lit n).ty) (TypedExpr.lit n).ty n) = n := by
  have wide := (workWidth_le ty lhs.ty (TypedExpr.lit n).ty).2.2
  exact pattern_operand signed (.of_unsigned rfl (lt_capacity_bitsNeeded n))
    (Nat.lt_of_lt_of_le (lt_capacity_bitsNeeded n) (Word.capacity_le wide))

theorem shr (left : Denotes m run s index leaf lhs a) (shift : Nat) :
    Denotes m run s index leaf (.binop (.ubit lhs.ty.width) .shr lhs (.lit shift))
      (a / Word.capacity shift) := by
  refine left.binop (lit shift) ?_ ?_
  · simp only [result, exact, left.operand_left, pattern_right]
    exact (Int.natCast_ediv a _).symm
  · exact Nat.lt_of_le_of_lt (Nat.div_le_self _ _) left.represents.fits

theorem bitAnd {width mask : Nat} (left : Denotes m run s index leaf lhs a)
    (fits : a &&& mask < Word.capacity width) :
    Denotes m run s index leaf (.binop (.ubit width) .bitAnd lhs (.lit mask)) (a &&& mask) := by
  refine left.binop (lit mask) ?_ fits
  have wide := (workWidth_le (.ubit width) lhs.ty (TypedExpr.lit mask).ty).2.1
  have room := Nat.lt_of_lt_of_le left.represents.fits (Word.capacity_le wide)
  simp only [result, exact, pattern_operand _ left.represents room, pattern_right]

/-! ### Offsets and bank numbers -/

/-- The offset of an index from the beginning of its bank. -/
theorem staticOffset {start : Nat} {offset : TypedExpr} (idx : Denotes m run s index leaf e v)
    (le : start ≤ v) (addressed : staticOffset e start = .ok offset) :
    Computes m run s index leaf offset (v - start) := by
  obtain ⟨_, _, rfl, _, rfl⟩ | ⟨rfl, rfl⟩ | rfl := staticOffset_cases addressed
  · cases idx.computes.eval_eq
    exact .lit _
  · exact idx.computes
  · exact (idx.sub le (Nat.le_refl _)).computes

theorem quotient {length : Nat} {bank : TypedExpr} (idx : Denotes m run s index leaf e v)
    (power : isPowerOfTwo length = true) (divided : QuotientAs e length bank) :
    Denotes m run s index leaf bank (v / length) := by
  have length_eq := eq_capacity_of_isPowerOfTwo power
  cases divided with
  | whole unit =>
    rw [unit, Word.capacity_eq, Nat.pow_zero] at length_eq
    rw [length_eq, Nat.div_one]
    exact idx
  | shifted =>
    have shifted := idx.shr length.log2
    rwa [← length_eq] at shifted

/-- The bank of an index, scaled by its stride. -/
theorem bankTerm {length stride : Nat} {term : TypedExpr} (idx : Denotes m run s index leaf e v)
    (power : isPowerOfTwo length = true) (chosen : bankTerm e length stride = .ok term) :
    Denotes m run s index leaf term (v / length * stride) := by
  obtain ⟨bank, divided, ⟨rfl, rfl⟩ | rfl⟩ := bankTerm_ok chosen
  · rw [Nat.mul_one]
    exact idx.quotient power divided
  · have product := (idx.quotient power divided).mul stride
    rwa [divided.width] at product

/-- The offset of an index in its bank. -/
theorem maskedOffset {length : Nat} {offset : TypedExpr} (idx : Denotes m run s index leaf e v)
    (power : isPowerOfTwo length = true) (masked : maskedOffset e length = .ok offset) :
    Computes m run s index leaf offset (v % length) := by
  obtain ⟨rfl, rfl⟩ | ⟨_, rfl⟩ := maskedOffset_cases masked
  · rw [Nat.mod_one]
    exact .lit 0
  · rw [← land_of_isPowerOfTwo power]
    exact (idx.bitAnd (Nat.lt_of_le_of_lt Nat.and_le_left idx.represents.fits)).computes

theorem foldl_add {terms : List TypedExpr} {vs : List Nat} {total : TypedExpr}
    (first : Denotes m run s index leaf e v) (all : List.Forall₂ (Denotes m run s index leaf) terms vs)
    (summed : terms.foldlM (widened .add) e = .ok total) : Denotes m run s index leaf total (v + vs.sum) := by
  induction all generalizing e v with
  | nil =>
    cases summed
    exact first
  | cons next _ ih =>
    rw [List.foldlM_cons, bind_ok_iff] at summed
    obtain ⟨_, added, rest⟩ := summed
    rw [List.sum_cons, ← Nat.add_assoc]
    exact ih (first.add next added) rest

/-- The flat bank number. -/
theorem selector {base : Nat} {terms : List TypedExpr} {vs : List Nat} {flat : TypedExpr}
    (all : List.Forall₂ (Denotes m run s index leaf) terms vs) (summed : selector base terms = .ok flat) :
    Denotes m run s index leaf flat (base + vs.sum) := by
  obtain ⟨rfl, rfl⟩ | ⟨_, _, sum, rfl, folded, last⟩ := selector_cases summed
  · cases all
    exact lit base
  · cases all with
    | cons first rest =>
      have total := foldl_add first rest folded
      rw [List.sum_cons, Nat.add_comm base]
      rcases last with ⟨rfl, rfl⟩ | added
      · exact total
      · exact total.add (lit base) added

/-- The bank number of a rotated array: the flat one moved on by the register. -/
theorem rotated {r : Rotation} {ty : Ty} {flat : TypedExpr} {turn : Nat}
    (power : isPowerOfTwo r.banks = true) (typed : r.ty = .ok ty)
    (select : Denotes m run s index leaf flat v)
    (register : Denotes m run s index leaf (.var ty r.register) turn)
    (turned : rotated (some r) flat = .ok e) :
    Denotes m run s index leaf e ((v + turn) % r.banks) := by
  obtain ⟨⟨⟩, _⟩ | ⟨_, _, sum, ⟨⟩, again, added, wrapped⟩ := rotated_cases turned
  cases typed.symm.trans again
  obtain ⟨_, again, rfl⟩ := Rotation.eq_of_wrap wrapped
  cases typed.symm.trans again
  cases Rotation.eq_of_ty typed
  rw [← land_of_isPowerOfTwo power]
  exact (select.add register added).bitAnd (Nat.lt_of_le_of_lt Nat.and_le_right (lt_capacity_bitsNeeded _))

end Denotes

end Banking

end BankedLoops
