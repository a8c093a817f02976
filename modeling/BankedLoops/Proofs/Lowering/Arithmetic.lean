import BankedLoops.Proofs.Lowering.Expressions
import BankedLoops.Proofs.Netlist.Execution
import BankedLoops.Proofs.Semantics.Unsigned
import BankedLoops.Proofs.Typing.Operands
import Mathlib.Data.Int.ModEq

/-!
# Arithmetic of operators

The library computes on patterns of the width at which an operator is wired, after its operands were
brought to that width. The result is the operation of the language at the annotated width.
-/

namespace BankedLoops

namespace Semantics

/-! ### Patterns -/

theorem pattern_eq_of_modEq {width : Nat} {m n : Int} (same : m ≡ n [ZMOD Word.capacity width]) :
    pattern width m = pattern width n :=
  congrArg Int.toNat same

theorem toInt_modEq (signed : Bool) (width v : Nat) :
    toInt signed width v ≡ v [ZMOD Word.capacity width] := by
  unfold toInt
  split
  · exact Int.sub_emod_right _ _
  · rfl

theorem pattern_modEq (width : Nat) (n : Int) : pattern width n ≡ n [ZMOD Word.capacity width] := by
  have positive : (0 : Int) < Word.capacity width := Int.natCast_pos.mpr (Word.capacity_pos width)
  unfold pattern
  rw [Int.toNat_of_nonneg (Int.emod_nonneg n (Int.ne_of_gt positive))]
  exact Int.mod_modEq _ _

theorem capacity_dvd {a b : Nat} (le : a ≤ b) : (Word.capacity a : Int) ∣ Word.capacity b :=
  Int.natCast_dvd_natCast.mpr (Nat.pow_dvd_pow 2 le)

/-- A pattern stands for a number with that pattern. -/
theorem pattern_toInt {width v : Nat} (signed : Bool) (lt : v < Word.capacity width) :
    pattern width (toInt signed width v) = v :=
  (pattern_eq_of_modEq (toInt_modEq signed width v)).trans (pattern_of_lt lt)

theorem toInt_inj {width a b : Nat} (signed : Bool) (left : a < Word.capacity width)
    (right : b < Word.capacity width) : toInt signed width a = toInt signed width b ↔ a = b := by
  constructor
  · intro same
    rw [← pattern_toInt signed left, same, pattern_toInt signed right]
  · rintro rfl
    rfl

theorem pattern_bit (b : Bool) : pattern 1 (b.toNat : Nat) = b.toNat := by
  cases b <;> rfl

/-- The bits of a value of type `ty` at another width: its sign is kept. -/
def resized (width : Nat) (ty : Ty) (v : Nat) : Nat := pattern width (toInt ty.isSigned ty.width v)

theorem resized_lt (width : Nat) (ty : Ty) (v : Nat) : resized width ty v < Word.capacity width :=
  pattern_lt _ _

theorem resized_unsigned {ty : Ty} (unsigned : ty.isSigned = false) (width v : Nat) :
    resized width ty v = pattern width v := by
  rw [resized, unsigned, toInt_unsigned]

theorem resized_self {ty : Ty} {v : Nat} (lt : v < Word.capacity ty.width) :
    resized ty.width ty v = v :=
  pattern_toInt ty.isSigned lt

/-- What stands for a number inside of a range keeps it at every width that has the range. -/
theorem resized_of_toInt {ty : Ty} {v n width : Nat} (same : toInt ty.isSigned ty.width v = n)
    (lt : n < Word.capacity width) : resized width ty v = n := by
  rw [resized, same, pattern_of_lt lt]

end Semantics

namespace Lowering

open Library (Part)
open Semantics

/-! ### Adapters -/

theorem adapterOf_apply {width v : Nat} (target : Nat) (signed : Bool)
    (lt : v < Word.capacity width) :
    (adapterOf width target signed).apply width target v = pattern target (toInt signed width v) := by
  unfold adapterOf
  split
  · next narrower =>
    exact (pattern_eq_of_modEq
      ((toInt_modEq signed width v).of_dvd (capacity_dvd (Nat.le_of_lt narrower)))).symm
  · cases signed with
    | true => rfl
    | false =>
      have wider : v < Word.capacity target :=
        Nat.lt_of_lt_of_le lt (Word.capacity_le (by omega))
      rw [toInt_unsigned, pattern_of_lt wider]
      rfl

/-! ### Operators -/

/-- What the part of an operator computes. -/
def operate (product : FixedProduct) (op : BinOp) (width : Nat) (signed : Bool) (frac : Option Nat)
    (a b : Nat) : Nat :=
  match frac, fixedOperation? op with
  | some frac, some fixed => fixed.apply product width frac a b
  | _, _ => (integerOperation op signed).apply width a b

/-- The library on patterns of one width, and the operation on the numbers that they stand for. -/
theorem apply_integerOperation {op : BinOp} {width a b : Nat} (signed : Bool)
    (left : a < Word.capacity width) (right : b < Word.capacity width)
    (bits : op.isLogical = true → width = 1) :
    (integerOperation op signed).apply width a b =
      pattern (if op.isComparison then 1 else width)
        (exact op width (toInt signed width a) (toInt signed width b)) := by
  have modA := toInt_modEq signed width a
  have modB := toInt_modEq signed width b
  have shift := pattern_toInt signed right
  have bit {n : Nat} (below : n < Word.capacity 1) : n = 0 ∨ n = 1 :=
    Nat.le_one_iff_eq_zero_or_eq_one.mp (Nat.lt_succ_iff.mp below)
  cases op with
  | add => exact (pattern_eq_of_modEq (modA.add modB)).symm
  | sub => exact (pattern_eq_of_modEq (modA.sub modB)).symm
  | mul => exact (pattern_eq_of_modEq (modA.mul modB)).symm
  | lt => cases signed <;> simp [integerOperation, exact, Library.Operation.apply, BinOp.isComparison,
      toInt_unsigned, pattern_bit]
  | le => cases signed <;> simp [integerOperation, exact, Library.Operation.apply, BinOp.isComparison,
      toInt_unsigned, pattern_bit]
  | gt => cases signed <;> simp [integerOperation, exact, Library.Operation.apply, BinOp.isComparison,
      toInt_unsigned, pattern_bit]
  | ge => cases signed <;> simp [integerOperation, exact, Library.Operation.apply, BinOp.isComparison,
      toInt_unsigned, pattern_bit]
  | eq => simp [integerOperation, exact, Library.Operation.apply, BinOp.isComparison,
      toInt_inj signed left right, pattern_bit]
  | ne => simp [integerOperation, exact, Library.Operation.apply, BinOp.isComparison,
      toInt_inj signed left right, pattern_bit]
  | and =>
    obtain rfl := bits rfl
    obtain ⟨rfl | rfl, rfl | rfl⟩ := And.intro (bit left) (bit right) <;> cases signed <;> rfl
  | or =>
    obtain rfl := bits rfl
    obtain ⟨rfl | rfl, rfl | rfl⟩ := And.intro (bit left) (bit right) <;> cases signed <;> rfl
  | shl =>
    simp only [integerOperation, exact, Library.Operation.apply, shift]
    exact (pattern_eq_of_modEq (modA.mul_right _)).symm
  | shr =>
    cases signed with
    | true =>
      simp only [integerOperation, exact, Library.Operation.apply, shift]
      rfl
    | false =>
      have small : a / Word.capacity b < Word.capacity width :=
        Nat.lt_of_le_of_lt (Nat.div_le_self _ _) left
      simp only [integerOperation, exact, Library.Operation.apply, toInt_unsigned, pattern_of_lt right]
      exact (pattern_of_lt small).symm
  | bitAnd =>
    simp only [integerOperation, exact, Library.Operation.apply, shift, pattern_toInt signed left]
    exact (pattern_of_lt (Nat.and_lt_two_pow _ right)).symm

/-- Where an operator works at the width of its language operation, the library computes it. -/
theorem apply_eq_operation (product : FixedProduct) {op : BinOp} {ty l r : Ty} {width : Nat} (a b : Nat)
    (work : workWidth ty l r = width) (out : ty.width = if op.isComparison then 1 else width)
    (bits : op.isLogical = true → width = 1) (whole : op = .mul → ty.frac? = none) :
    (integerOperation op (l.isSigned || r.isSigned)).apply width (resized width l a)
      (resized width r b) = operation product op ty l r a b := by
  have value : operation product op ty l r a b = pattern ty.width (result op ty l r a b) := by
    unfold operation
    split
    · cases whole rfl
    · rfl
  rw [apply_integerOperation _ (resized_lt ..) (resized_lt ..) bits, value, out]
  simp only [result, work, operand, resized]

theorem not_test {op : BinOp} (numeric : op.isArithmetic = true ∨ op.isBitwise = true) :
    op.isComparison = false ∧ op.isLogical = false := by
  cases op <;> simp_all [BinOp.isArithmetic, BinOp.isBitwise, BinOp.isComparison, BinOp.isLogical]

theorem operate_eq_operation (product : FixedProduct) {op : BinOp} {ty l r : Ty} {a b : Nat}
    (numeric : op.isArithmetic = true ∨ op.isBitwise = true) (work : workWidth ty l r = ty.width)
    (fixed : ∀ width frac, ty = .fix width frac →
      resized width l a = a ∧ resized width r b = b) :
    operate product op ty.width (l.isSigned || r.isSigned) (if op.isArithmetic then ty.frac? else none)
      (resized ty.width l a) (resized ty.width r b) = operation product op ty l r a b := by
  obtain ⟨notComparison, notLogical⟩ := not_test numeric
  have out : ty.width = if op.isComparison then 1 else ty.width := by simp [notComparison]
  have bits : op.isLogical = true → ty.width = 1 := by simp [notLogical]
  cases isFixed : ty.frac? with
  | none =>
    have none : (if op.isArithmetic then (none : Option Nat) else none) = none := ite_self _
    rw [none]
    exact apply_eq_operation product a b work out bits fun _ => isFixed
  | some frac =>
    by_cases isProduct : op = .mul
    · cases ty <;> cases isFixed
      subst isProduct
      obtain ⟨left, right⟩ := fixed _ _ rfl
      show pattern _ (product _ _ _ _) = pattern _ _
      rw [Ty.width, left, right]
    · have sum : operate product op ty.width (l.isSigned || r.isSigned)
          (if op.isArithmetic then some frac else none) (resized ty.width l a) (resized ty.width r b) =
          operate product op ty.width (l.isSigned || r.isSigned) none (resized ty.width l a)
            (resized ty.width r b) := by
        cases op <;> first | rfl | exact absurd rfl isProduct
      rw [sum]
      exact apply_eq_operation product a b work out bits fun same => absurd same isProduct

/-- Tests work at the larger width of their operands. -/
theorem operate_eq_test (product : FixedProduct) {op : BinOp} {l r : Ty} {a b : Nat}
    (test : op.isComparison = true) (left : a < Word.capacity l.width)
    (right : b < Word.capacity r.width) :
    operate product op (max l.width r.width) (l.isSigned || r.isSigned) none
      (resized (max l.width r.width) l a) (resized (max l.width r.width) r b) =
      operation product op .bool l r a b := by
  have notLogical : op.isLogical = true → max l.width r.width = 1 := by
    cases op <;> simp_all [BinOp.isComparison, BinOp.isLogical]
  rcases Nat.eq_zero_or_pos (max l.width r.width) with zero | positive
  · -- without bits both operands are zero at every width
    obtain ⟨isLeft, isRight⟩ : l.width = 0 ∧ r.width = 0 := by omega
    rw [isLeft] at left
    rw [isRight] at right
    obtain rfl : a = 0 := Nat.lt_one_iff.mp left
    obtain rfl : b = 0 := Nat.lt_one_iff.mp right
    have none (width : Nat) (ty : Ty) (empty : ty.width = 0) : resized width ty 0 = 0 := by
      simp [resized, empty, toInt, Word.capacity, pattern]
    have work : workWidth .bool l r = 1 := by simp [workWidth, isLeft, isRight, Ty.width]
    rw [zero, none 0 l isLeft, none 0 r isRight, operation_eq_pattern product op l r 0 0 rfl, result, work,
      operand, operand, ← resized, ← resized, none 1 l isLeft, none 1 r isRight]
    generalize (l.isSigned || r.isSigned) = signed
    cases op <;> cases signed <;> rfl
  · refine apply_eq_operation product a b ?_ ?_ notLogical fun _ => rfl
    · simp only [workWidth, Ty.width]
      omega
    · rw [if_pos test]
      rfl

theorem operate_eq_unsigned (product : FixedProduct) {op : BinOp} {l r : Ty} {width a b : Nat}
    (numeric : op.isArithmetic = true ∨ op.isBitwise = true) (leftTy : l.isSigned = false)
    (rightTy : r.isSigned = false) (left : a < Word.capacity l.width)
    (right : b < Word.capacity r.width) (holds : op = .bitAnd ∨ a < Word.capacity width)
    (narrow : b < Word.capacity width) :
    operate product op width false none (pattern width a) (pattern width b) =
      operation product op (.ubit width) l r a b := by
  rw [operation_eq_pattern product op l r a b rfl,
    result_unsigned leftTy rightTy left right, Ty.ubit, Ty.width]
  have work : ∀ v, v < Word.capacity l.width ∨ v < Word.capacity r.width →
      v < Word.capacity (workWidth (.bit width false) l r) := by
    rintro v (lt | lt) <;> refine Nat.lt_of_lt_of_le lt (Word.capacity_le ?_) <;>
      simp only [workWidth] <;> omega
  have wide := pattern_of_lt (work b (.inr right))
  rcases holds with rfl | fits
  · rw [pattern_of_lt narrow]
    simp only [operate, integerOperation, Library.Operation.apply, exact, wide,
      pattern_of_lt (work a (.inl left))]
    have cut : pattern width (a &&& b : Nat) = (a &&& b) % Word.capacity width := rfl
    rw [cut, Word.capacity_eq, Nat.and_mod_two_pow, Nat.mod_eq_of_lt (show b < 2 ^ width from narrow)]
    rfl
  · have same : exact op width a b = exact op (workWidth (.bit width false) l r) a b := by
      cases op <;> first | rfl | simp [exact, wide, pattern_of_lt narrow, pattern_of_lt fits,
        pattern_of_lt (work a (.inl left))]
    rw [pattern_of_lt fits, pattern_of_lt narrow, ← same]
    refine (apply_integerOperation false fits narrow (by simp [(not_test numeric).2])).trans ?_
    rw [toInt_unsigned, toInt_unsigned, if_neg (by simp [(not_test numeric).1])]

theorem operatorWidths_of_numeric {op : BinOp} (numeric : op.isArithmetic = true ∨ op.isBitwise = true)
    (ty l r : Ty) : (operatorWidths op ty l r).1 = ty.width := by
  simp [operatorWidths, (not_test numeric).1, (not_test numeric).2]

theorem operate_eq_checked (product : FixedProduct) {op : BinOp} {ty l r : Ty} {a b : Nat}
    (typed : binopType op l r = .ok ty) (computed : ∀ n, ty ≠ .static n)
    (left : a < Word.capacity l.width) (right : b < Word.capacity r.width) :
    let width := (operatorWidths op ty l r).1
    operate product op width (l.isSigned || r.isSigned) (if op.isArithmetic then ty.frac? else none)
      (resized width l a) (resized width r b) = operation product op ty l r a b := by
  have tested (test : op.isComparison = true) :
      let width := (operatorWidths op .bool l r).1
      operate product op width (l.isSigned || r.isSigned)
        (if op.isArithmetic then Ty.bool.frac? else none) (resized width l a) (resized width r b) =
        operation product op .bool l r a b := by
    have width : (operatorWidths op .bool l r).1 = max l.width r.width := by
      simp [operatorWidths, test]
    dsimp only
    rw [width, show Ty.bool.frac? = none from rfl, ite_self]
    exact operate_eq_test product test left right
  cases binopType_cases typed with
  | logical family isLeft isRight =>
    have comparison : op.isComparison = false := by
      cases op <;> first | rfl | cases family
    have width : (operatorWidths op .bool l r).1 = 1 := by
      simp [operatorWidths, comparison, family]
    subst isLeft isRight
    dsimp only
    rw [width, show Ty.bool.frac? = none from rfl, ite_self]
    exact apply_eq_operation product a b rfl (by rw [comparison]; rfl) (fun _ => rfl) fun _ => rfl
  | boolEq family _ _ => exact tested family
  | comparison family _ => exact tested family
  | folded => exact absurd rfl (computed _)
  | numeric family _ joined =>
    dsimp only
    rw [operatorWidths_of_numeric family]
    rcases numericJoin_cases joined with ⟨w, v, f, rfl, rfl, rfl⟩ | ⟨_, _, rfl⟩
    · refine operate_eq_operation product family ?_ ?_
      · simp [workWidth, Ty.width]
      · intro width frac same
        cases same
        rw [resized_unsigned rfl, resized_unsigned rfl]
        exact ⟨pattern_of_lt (Nat.lt_of_lt_of_le left (Word.capacity_le (Nat.le_max_left ..))),
          pattern_of_lt (Nat.lt_of_lt_of_le right (Word.capacity_le (Nat.le_max_right ..)))⟩
    · refine operate_eq_operation product family (by simp [workWidth, Ty.width]) ?_
      intro width frac same
      cases same

/-- Every operation of a program over physical memories is computed at its annotated width. -/
theorem Operates.operate_eq (product : FixedProduct) {op : BinOp} {ty : Ty} {lhs rhs : TypedExpr}
    {a b : Nat} (operates : Operates op ty lhs rhs) (computed : ∀ n, ty ≠ .static n)
    (left : a < Word.capacity lhs.ty.width) (right : b < Word.capacity rhs.ty.width)
    (literal : ∀ n, rhs = .lit n → b < Word.capacity (operatorWidths op ty lhs.ty rhs.ty).1) :
    let width := (operatorWidths op ty lhs.ty rhs.ty).1
    operate product op width (lhs.ty.isSigned || rhs.ty.isSigned)
      (if op.isArithmetic then ty.frac? else none) (resized width lhs.ty a) (resized width rhs.ty b) =
      operation product op ty lhs.ty rhs.ty a b := by
  cases operates with
  | folded => exact absurd rfl (computed _)
  | checked typed _ => exact operate_eq_checked product typed computed left right
  | @unsigned width _ _ numeric leftTy rightTy holds narrow =>
    rw [operatorWidths_of_numeric numeric, Ty.ubit, Ty.width] at literal
    dsimp only
    rw [operatorWidths_of_numeric numeric, leftTy.2, rightTy.2, resized_unsigned leftTy.2,
      resized_unsigned rightTy.2, show (Ty.ubit width).frac? = none from rfl, ite_self]
    refine operate_eq_unsigned product numeric leftTy.2 rightTy.2 left right ?_ ?_
    · exact holds.imp_right fun le => Nat.lt_of_lt_of_le left (Word.capacity_le le)
    · rcases narrow with le | ⟨n, isLiteral⟩
      · exact Nat.lt_of_lt_of_le right (Word.capacity_le le)
      · exact literal n isLiteral

/-- The result of an operator has the bits and the sign of its type. -/
theorem Operates.yields {op : BinOp} {ty : Ty} {lhs rhs : TypedExpr} (operates : Operates op ty lhs rhs)
    (computed : ∀ n, ty ≠ .static n) : (operatorWidths op ty lhs.ty rhs.ty).2 = ty.width ∧
      (!op.isComparison && !op.isLogical && ty.isSigned) = ty.isSigned := by
  have numeric (family : op.isArithmetic = true ∨ op.isBitwise = true) :
      (operatorWidths op ty lhs.ty rhs.ty).2 = ty.width ∧
        (!op.isComparison && !op.isLogical && ty.isSigned) = ty.isSigned := by
    obtain ⟨comparison, logical⟩ := not_test family
    simp [operatorWidths, comparison, logical]
  have tested (test : op.isComparison = true ∨ op.isLogical = true) (isBool : ty = .bool) :
      (operatorWidths op ty lhs.ty rhs.ty).2 = ty.width ∧
        (!op.isComparison && !op.isLogical && ty.isSigned) = ty.isSigned := by
    subst isBool
    refine ⟨?_, Bool.and_false _⟩
    rw [operatorWidths]
    split
    · rfl
    · next comparison => rw [if_pos (test.resolve_left comparison), Ty.width]
  cases operates with
  | folded => exact absurd rfl (computed _)
  | checked typed _ =>
    cases binopType_cases typed with
    | logical family => exact tested (.inr family) rfl
    | boolEq family => exact tested (.inl family) rfl
    | comparison family => exact tested (.inl family) rfl
    | folded => exact absurd rfl (computed _)
    | numeric family => exact numeric family
  | unsigned family => exact numeric family

/-- What was folded while checking is the operation at its own width. -/
theorem operation_folded (product : FixedProduct) {op : BinOp} {a b n : Nat}
    (value : foldStatic op a b = some n) (word : n < Word.capacity Word.sizeBits) :
    operation product op (.static n) (.static a) (.static b) a b = n := by
  have leftFits : a < Word.capacity (workWidth (.static n) (.static a) (.static b)) :=
    Nat.lt_of_lt_of_le (lt_capacity_bitsNeeded a) (Word.capacity_le (by simp [workWidth, Ty.width]))
  have rightFits : b < Word.capacity (workWidth (.static n) (.static a) (.static b)) :=
    Nat.lt_of_lt_of_le (lt_capacity_bitsNeeded b) (Word.capacity_le (by simp [workWidth, Ty.width]))
  have leftKept := pattern_of_lt leftFits
  have rightKept := pattern_of_lt rightFits
  rw [operation_eq_pattern product op _ _ a b rfl,
    result_unsigned rfl rfl (lt_capacity_bitsNeeded a) (lt_capacity_bitsNeeded b)]
  have kept := pattern_of_lt (lt_capacity_bitsNeeded n)
  have same : exact op (workWidth (.static n) (.static a) (.static b)) a b ≡ n
      [ZMOD Word.capacity (bitsNeeded n)] := by
    cases op <;> simp only [foldStatic, Option.ite_none_right_eq_some, Option.some.injEq,
      reduceCtorEq] at value
    · rw [← value.2]
      exact Int.natCast_add a b ▸ .refl _
    · rw [← value.2, Int.ofNat_sub value.1]
      exact .refl _
    · rw [← value.2]
      exact Int.natCast_mul a b ▸ .refl _
    · -- the shifted number is cut to a word, of which the folded one needs no more bits
      have narrow : bitsNeeded n ≤ Word.sizeBits := (bitsNeeded_le_iff (by decide)).mpr word
      have cut : ((a * Word.capacity b : Nat) : Int) ≡ n [ZMOD Word.capacity Word.sizeBits] := by
        rw [← value.2, Int.natCast_mod]
        exact (Int.mod_modEq _ _).symm
      simpa [exact, rightKept] using cut.of_dvd (capacity_dvd narrow)
    · simp only [exact, rightKept]
      rw [← value.2]
      exact Int.natCast_ediv a _ ▸ .refl _
    · simp only [exact, leftKept, rightKept]
      rw [← value]
  exact (pattern_eq_of_modEq same).trans kept

/-! ### Stored values -/

theorem assignable_cases {src dst : Ty} (fits : assignable src dst = true) :
    src = dst ∨ (src.isSigned = false ∧ src.width ≤ dst.width) := by
  unfold assignable at fits
  rw [Bool.or_eq_true, beq_iff_eq] at fits
  refine fits.imp_right fun converted => ?_
  split at converted
  · next n width signed =>
    have wide : bitsNeeded n + signed.toNat ≤ width := of_decide_eq_true converted
    exact ⟨rfl, Nat.le_of_add_right_le wide⟩
  · next width => exact ⟨rfl, Nat.le_of_eq (eq_of_beq converted).symm⟩
  · cases converted

theorem resized_of_assignable {src dst : Ty} (fits : assignable src dst = true) {v : Nat}
    (lt : v < Word.capacity src.width) : resized dst.width src v = v := by
  rcases assignable_cases fits with rfl | ⟨unsigned, narrow⟩
  · exact resized_self lt
  · rw [resized_unsigned unsigned,
      pattern_of_lt (Nat.lt_of_lt_of_le lt (Word.capacity_le narrow))]

/-- A reduction combines at the width of its target. -/
theorem operate_eq_reduction (product : FixedProduct) {op : BinOp} {ty value : Ty} {old v : Nat}
    (arithmetic : op.isArithmetic = true) (fits : assignable value ty = true)
    (left : old < Word.capacity ty.width) (right : v < Word.capacity value.width) :
    operate product op ty.width ty.isSigned ty.frac? old v = operation product op ty ty value old v := by
  have kept := resized_of_assignable fits right
  have work : workWidth ty ty value = ty.width := by
    rcases assignable_cases fits with rfl | ⟨_, narrow⟩ <;> simp only [workWidth] <;> omega
  have sign : (ty.isSigned || value.isSigned) = ty.isSigned := by
    rcases assignable_cases fits with rfl | ⟨unsigned, _⟩
    · exact Bool.or_self _
    · rw [unsigned, Bool.or_false]
  have computed := @operate_eq_operation product op ty ty value old v (.inl arithmetic) work (by
    rintro width frac rfl
    exact ⟨resized_self left, kept⟩)
  rwa [sign, if_pos arithmetic, resized_self left, kept] at computed

end Lowering

end BankedLoops
