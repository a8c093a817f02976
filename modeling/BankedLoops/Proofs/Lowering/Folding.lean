import Mathlib.Data.Int.Bitwise
import BankedLoops.Proofs.Lowering.Growth
import BankedLoops.Proofs.Typing.Operands

/-!
# Constant folding

An operation on literals is a literal, of the value that it has over the integers, and an operation
whose value is not a word is refused. Only a shift to the left is not held to that: it keeps the low
bits of its value, so the statements ask that no shift has others.
-/

namespace BankedLoops

/-! ### Trees of literals -/

/-- The operation over the integers. -/
def BinOp.onIntegers (op : BinOp) (a b : Int) : Int :=
  match op with
  | .add => a + b
  | .sub => a - b
  | .mul => a * b
  | .shl => a * 2 ^ b.toNat
  | .shr => a / 2 ^ b.toNat
  | .bitAnd => Int.land a b
  | _ => 0

namespace Expr

/-- A tree of integer literals under operators that fold. -/
inductive IsLiteral : Expr → Prop where
  | int {n : Nat} (word : n < Word.capacity Word.sizeBits) : IsLiteral (.int n)
  | binop {op : BinOp} {lhs rhs : Expr} (numeric : op.isArithmetic = true ∨ op.isBitwise = true)
      (left : lhs.IsLiteral) (right : rhs.IsLiteral) : IsLiteral (.binop op lhs rhs)

/-- The value of a tree of literals over the integers. -/
def integer : Expr → Int
  | .int n => n
  | .binop op lhs rhs => op.onIntegers lhs.integer rhs.integer
  | _ => 0

/-- An operation with all operations below it, and its literals. -/
def subterms : Expr → List Expr
  | .binop op lhs rhs => .binop op lhs rhs :: (lhs.subterms ++ rhs.subterms)
  | e => [e]

end Expr

/-- An integer that a word of the size of a literal holds. -/
def InWord (v : Int) : Prop := 0 ≤ v ∧ v < Word.capacity Word.sizeBits

/-- A shift by less than the bits of a word; the other operators are not shifts. -/
def BinOp.Short (op : BinOp) (amount : Int) : Prop :=
  op = .shl ∨ op = .shr → amount < Word.sizeBits

/-- A shift of a word to the left moves no bit out of it. -/
def BinOp.Keeps (op : BinOp) (a b : Int) : Prop :=
  op = .shl → InWord a → InWord b → op.Short b → InWord (op.onIntegers a b)

instance (v : Int) : Decidable (InWord v) := inferInstanceAs (Decidable (_ ∧ _))

instance (op : BinOp) (amount : Int) : Decidable (op.Short amount) :=
  inferInstanceAs (Decidable (_ → _))

instance (op : BinOp) (a b : Int) : Decidable (op.Keeps a b) :=
  inferInstanceAs (Decidable (_ → _ → _ → _ → _))

theorem inWord_natCast {n : Nat} : InWord n ↔ n < Word.capacity Word.sizeBits := by
  unfold InWord
  omega

/-! ### One operation -/

/-- Two words fold exactly if the value of the operation is a word, and then to that value. -/
theorem foldStatic_eq_some_iff {op : BinOp} {a b n : Nat}
    (numeric : op.isArithmetic = true ∨ op.isBitwise = true) (left : InWord a) (right : InWord b)
    (keeps : op.Keeps a b) :
    foldStatic op a b = some n ↔
      op.Short b ∧ InWord (op.onIntegers a b) ∧ op.onIntegers a b = n := by
  have small := inWord_natCast.mp left
  have power (k : Nat) : ((2 : Int) ^ k) = (Word.capacity k : Nat) := by
    rw [Word.capacity_eq, Nat.cast_pow, Nat.cast_ofNat]
  have long (op : BinOp) (other : ¬ (op = .shl ∨ op = .shr)) : op.Short b := fun is => absurd is other
  cases op with
  | add =>
    simp only [foldStatic, BinOp.onIntegers, Word.fits_iff, Option.ite_none_right_eq_some,
      Option.some.injEq, long .add (by simp), true_and, ← Nat.cast_add, inWord_natCast,
      Nat.cast_inj]
  | mul =>
    simp only [foldStatic, BinOp.onIntegers, Word.fits_iff, Option.ite_none_right_eq_some,
      Option.some.injEq, long .mul (by simp), true_and, ← Nat.cast_mul, inWord_natCast,
      Nat.cast_inj]
  | sub =>
    simp only [foldStatic, BinOp.onIntegers, Option.ite_none_right_eq_some, Option.some.injEq,
      long .sub (by simp), true_and, InWord]
    omega
  | shl =>
    have short : BinOp.Short .shl b ↔ b < Word.sizeBits := by simp [BinOp.Short]
    simp only [foldStatic, BinOp.onIntegers, Option.ite_none_right_eq_some, Option.some.injEq, short,
      power, Int.toNat_natCast, ← Nat.cast_mul, inWord_natCast, Nat.cast_inj]
    refine and_congr_right fun less => ?_
    have inside := keeps rfl left right (short.mpr less)
    simp only [BinOp.onIntegers, power, Int.toNat_natCast, ← Nat.cast_mul, inWord_natCast] at inside
    rw [Nat.mod_eq_of_lt inside, iff_and_self]
    exact fun _ => inside
  | shr =>
    have short : BinOp.Short .shr b ↔ b < Word.sizeBits := by simp [BinOp.Short]
    have inside : a / Word.capacity b < Word.capacity Word.sizeBits :=
      Nat.lt_of_le_of_lt (Nat.div_le_self ..) small
    simp only [foldStatic, BinOp.onIntegers, Option.ite_none_right_eq_some, Option.some.injEq, short,
      power, Int.toNat_natCast, ← Int.natCast_div, inWord_natCast, Nat.cast_inj, inside, true_and]
  | bitAnd =>
    have inside : a &&& b < Word.capacity Word.sizeBits := Nat.lt_of_le_of_lt Nat.and_le_left small
    have land : Int.land a b = (a &&& b : Nat) := rfl
    simp only [foldStatic, BinOp.onIntegers, Option.some.injEq, long .bitAnd (by simp), land,
      inWord_natCast, Nat.cast_inj, inside, true_and]
  | _ => rcases numeric with family | family <;> cases family

/-! ### Trees of operations -/

namespace Expr

/-- The shift that the tree is, if it is one, is by less than the bits of a word. -/
def Short : Expr → Prop
  | .binop op _ rhs => op.Short rhs.integer
  | _ => True

instance : (e : Expr) → Decidable e.Short
  | .binop op _ rhs => inferInstanceAs (Decidable (op.Short rhs.integer))
  | .int _ | .bool _ | .var _ | .access .. | .app .. => inferInstanceAs (Decidable True)

/-- The shift to the left that the tree is, if it is one, keeps its bits. -/
def KeepsBits : Expr → Prop
  | .binop op lhs rhs => op.Keeps lhs.integer rhs.integer
  | _ => True

instance : (e : Expr) → Decidable e.KeepsBits
  | .binop op lhs rhs => inferInstanceAs (Decidable (op.Keeps lhs.integer rhs.integer))
  | .int _ | .bool _ | .var _ | .access .. | .app .. => inferInstanceAs (Decidable True)

/-- No shift to the left in the tree loses bits. -/
def Keeps (e : Expr) : Prop := ∀ sub ∈ e.subterms, sub.KeepsBits

instance (e : Expr) : Decidable e.Keeps := inferInstanceAs (Decidable (∀ sub ∈ e.subterms, _))

/-- Every value in the tree is a word, and every shift is by less than the bits of one. -/
def Folds (e : Expr) : Prop := ∀ sub ∈ e.subterms, InWord sub.integer ∧ sub.Short

instance (e : Expr) : Decidable e.Folds := inferInstanceAs (Decidable (∀ sub ∈ e.subterms, _))

theorem mem_subterms_self (e : Expr) : e ∈ e.subterms := by
  cases e with
  | binop op lhs rhs => exact List.mem_cons_self
  | _ => exact List.mem_singleton.mpr rfl

theorem keeps_binop {op : BinOp} {lhs rhs : Expr} :
    (binop op lhs rhs).Keeps ↔ op.Keeps lhs.integer rhs.integer ∧ lhs.Keeps ∧ rhs.Keeps := by
  simp only [Keeps, subterms, List.forall_mem_cons, List.forall_mem_append, KeepsBits]

theorem folds_binop {op : BinOp} {lhs rhs : Expr} :
    (binop op lhs rhs).Folds ↔
      (InWord (op.onIntegers lhs.integer rhs.integer) ∧ op.Short rhs.integer) ∧
        lhs.Folds ∧ rhs.Folds := by
  simp only [Folds, subterms, List.forall_mem_cons, List.forall_mem_append, Short, integer]

end Expr

open Lowering in
/-- A typed tree that is one constant in hardware. -/
def TypedExpr.IsConstant (n : Nat) (typed : TypedExpr) : Prop :=
  ∀ s low pos width W, lowerExpr s low pos width W typed = do return (← constant width n, W)

theorem binopType_static {op : BinOp} (numeric : op.isArithmetic = true ∨ op.isBitwise = true)
    (a b : Nat) :
    binopType op (.static a) (.static b) = match foldStatic op a b with
      | some n => .ok (.static n)
      | none => .error (.unrepresentable op a b) := by
  cases op <;> first | rfl | rcases numeric with family | family <;> cases family

/-- The checker folds a tree of literals to its integer if it folds, and refuses it if it does not. -/
theorem checkExpr_literal {e : Expr} (tree : e.IsLiteral) (keeps : e.Keeps) (ctx : Typing.Context)
    (env : Typing.Env) (stmt : String) :
    (e.Folds ∧ ∃ typed n, Typing.checkExpr ctx env stmt e = .ok typed ∧ typed.ty = .static n ∧
      e.integer = n ∧ typed.IsConstant n) ∨
    (¬ e.Folds ∧
      ∃ fault, Typing.checkExpr ctx env stmt e = refuse (.mismatch stmt (.operands fault))) := by
  induction tree with
  | @int n word =>
    refine .inl ⟨?_, .lit n, n, rfl, rfl, rfl, fun _ _ _ _ _ => rfl⟩
    exact List.forall_mem_singleton.mpr ⟨inWord_natCast.mpr word, trivial⟩
  | @binop op lhs rhs numeric _ _ ihLeft ihRight =>
    obtain ⟨kept, keepsLeft, keepsRight⟩ := Expr.keeps_binop.mp keeps
    rw [Expr.folds_binop, Typing.checkExpr]
    rcases ihLeft keepsLeft with
      ⟨foldsLeft, left, a, checkedLeft, tyLeft, isLeft, _⟩ | ⟨stuck, fault, refused⟩
    swap
    · exact .inr ⟨fun folds => stuck folds.2.1, fault, by rw [refused]; rfl⟩
    rcases ihRight keepsRight with
      ⟨foldsRight, right, b, checkedRight, tyRight, isRight, _⟩ | ⟨stuck, fault, refused⟩
    swap
    · exact .inr ⟨fun folds => stuck folds.2.2, fault, by rw [checkedLeft, refused]; rfl⟩
    have wordLeft := (foldsLeft lhs lhs.mem_subterms_self).1
    have wordRight := (foldsRight rhs rhs.mem_subterms_self).1
    rw [isLeft] at wordLeft kept
    rw [isRight] at wordRight kept
    rw [checkedLeft, checkedRight, ok_bind, ok_bind, tyLeft, tyRight, binopType_static numeric,
      Expr.integer, isLeft, isRight]
    have folded (n : Nat) := foldStatic_eq_some_iff (n := n) numeric wordLeft wordRight kept
    cases value : foldStatic op a b with
    | some n =>
      obtain ⟨short, word, same⟩ := (folded n).mp value
      exact .inl ⟨⟨⟨word, short⟩, foldsLeft, foldsRight⟩, _, n, rfl, rfl, same, fun _ _ _ _ _ => rfl⟩
    | none =>
      refine .inr ⟨?_, _, rfl⟩
      rintro ⟨⟨word, short⟩, _⟩
      obtain ⟨n, same⟩ := Int.eq_ofNat_of_zero_le word.1
      rw [(folded n).mpr ⟨short, word, same⟩] at value
      cases value

/-- Where no shift to the left loses bits, a tree of literals that is accepted has the type and the
constant of its value over the integers. A value that is not a word, in the tree or of it, is
refused; and nothing else is, unless it shifts by a word's width. -/
theorem folding_exact {e : Expr} (tree : e.IsLiteral) (keeps : e.Keeps) (ctx : Typing.Context)
    (env : Typing.Env) (stmt : String) :
    (∀ typed n, Typing.checkExpr ctx env stmt e = .ok typed → typed.ty = .static n →
      e.integer = n ∧ typed.IsConstant n) ∧
    ((∃ sub ∈ e.subterms, sub.integer < 0 ∨ Word.capacity Word.sizeBits ≤ sub.integer) →
      ∃ fault, Typing.checkExpr ctx env stmt e = refuse (.mismatch stmt (.operands fault))) ∧
    (e.Folds → ∃ typed n, Typing.checkExpr ctx env stmt e = .ok typed ∧ typed.ty = .static n) := by
  rcases checkExpr_literal tree keeps ctx env stmt with
    ⟨folds, typed, n, checked, isStatic, value, constant⟩ | ⟨stuck, fault, refused⟩
  · refine ⟨?_, ?_, fun _ => ⟨typed, n, checked, isStatic⟩⟩
    · intro other m accepted same
      rw [checked] at accepted
      cases accepted
      rw [isStatic] at same
      cases same
      exact ⟨value, constant⟩
    · rintro ⟨sub, member, outside⟩
      have inside := (folds sub member).1
      unfold InWord at inside
      omega
  · refine ⟨?_, fun _ => ⟨fault, refused⟩, fun folds => absurd folds stuck⟩
    intro typed n accepted
    rw [refused] at accepted
    cases accepted

/-- `2 * 4611686018427387904` is the greatest power of two in a word; twice that is refused. -/
theorem folding_exact_top :
    (∃ typed, Typing.checkExpr ⟨[], false⟩ {} "" (.binop .mul (.int 2) (.binop .shl (.int 1) (.int 62))) =
      .ok typed ∧ typed.ty = .static 9223372036854775808 ∧ typed.IsConstant 9223372036854775808) ∧
    ∃ fault, Typing.checkExpr ⟨[], false⟩ {} "" (.binop .mul (.int 4) (.binop .shl (.int 1) (.int 62))) =
      refuse (.mismatch "" (.operands fault)) := by
  have power : (Expr.binop .shl (.int 1) (.int 62)).IsLiteral :=
    .binop (.inr rfl) (.int (by decide)) (.int (by decide))
  have top : (Expr.binop .mul (.int 2) (.binop .shl (.int 1) (.int 62))).IsLiteral :=
    .binop (.inl rfl) (.int (by decide)) power
  have past : (Expr.binop .mul (.int 4) (.binop .shl (.int 1) (.int 62))).IsLiteral :=
    .binop (.inl rfl) (.int (by decide)) power
  obtain ⟨exact, _, accepts⟩ := folding_exact top (by decide) ⟨[], false⟩ {} ""
  obtain ⟨_, refuses, _⟩ := folding_exact past (by decide) ⟨[], false⟩ {} ""
  obtain ⟨typed, n, checked, isStatic⟩ := accepts (by decide)
  obtain ⟨value, constant⟩ := exact typed n checked isStatic
  obtain rfl : 9223372036854775808 = n := Int.ofNat_inj.mp value
  exact ⟨⟨typed, checked, isStatic, constant⟩, refuses ⟨_, Expr.mem_subterms_self _, .inr (by decide)⟩⟩

/-- A shift to the left that loses bits is accepted. -/
example : ¬ (Expr.binop .shl (.int 3) (.int 63)).Keeps ∧
    binopType .shl (.static 3) (.static 63) = .ok (.static 9223372036854775808) :=
  ⟨by decide, rfl⟩

end BankedLoops
