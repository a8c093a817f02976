import BankedLoops.Proofs.Typing.Judgement
import BankedLoops.Proofs.Success
import BankedLoops.Proofs.Words

/-!
# Types of operations

What the type of an operation says about the types of its operands, and that operations on values
have value types again.
-/

namespace BankedLoops

/-- Two numeric operands are both fixed-point with the same fraction, or both integers. -/
theorem numericJoin_cases {op : BinOp} {l r ty : Ty} (joined : numericJoin op l r = .ok ty) :
    (∃ w v f, l = .fix w f ∧ r = .fix v f ∧ ty = .fix (max w v) f) ∨
      (l.isInteger = true ∧ r.isInteger = true ∧
        ty = .bit (max l.width r.width) (l.isSigned || r.isSigned)) := by
  unfold numericJoin at joined
  split at joined
  · split at joined
    · next same =>
      subst same
      exact .inl ⟨_, _, _, rfl, rfl, (Except.ok.inj joined).symm⟩
    · cases joined
  · cases joined
  · cases joined
  · split at joined
    · next same =>
      subst same
      refine .inr ⟨rfl, rfl, ?_⟩
      rw [← Except.ok.inj joined]
      simp [Ty.width, Ty.isSigned]
    · cases joined
  · split at joined
    · next integers =>
      rw [Bool.and_eq_true] at integers
      exact .inr ⟨integers.1, integers.2, (Except.ok.inj joined).symm⟩
    · cases joined

/-- How an operation gets its type. -/
inductive OperationTy (op : BinOp) (l r : Ty) : Ty → Prop where
  | logical (family : op.isLogical = true) (left : l = .bool) (right : r = .bool) :
      OperationTy op l r .bool
  | boolEq (family : op.isComparison = true) (left : l = .bool) (right : r = .bool) :
      OperationTy op l r .bool
  | comparison {ty : Ty} (family : op.isComparison = true)
      (joined : numericJoin op l r = .ok ty) : OperationTy op l r .bool
  | folded {a b n : Nat} (family : op.isArithmetic = true ∨ op.isBitwise = true)
      (left : l = .static a) (right : r = .static b) (value : foldStatic op a b = some n) :
      OperationTy op l r (.static n)
  | numeric {ty : Ty} (family : op.isArithmetic = true ∨ op.isBitwise = true)
      (whole : op.isBitwise = true → l.frac? = none ∧ r.frac? = none)
      (joined : numericJoin op l r = .ok ty) : OperationTy op l r ty

theorem BinOp.arithmetic_or_bitwise {op : BinOp} (logical : ¬ op.isLogical = true)
    (comparison : ¬ op.isComparison = true) : op.isArithmetic = true ∨ op.isBitwise = true := by
  cases op <;> simp_all [isLogical, isComparison, isArithmetic, isBitwise]

theorem binopType_cases {op : BinOp} {l r ty : Ty} (typed : binopType op l r = .ok ty) :
    OperationTy op l r ty := by
  unfold binopType at typed
  split at typed
  · next logical =>
    split at typed
    · next both =>
      cases typed
      exact .logical logical both.1 both.2
    · cases typed
  · next logical =>
    split at typed
    · next comparison =>
      split at typed
      · next both =>
        cases typed
        exact .boolEq comparison both.2.1 both.2.2
      · cases joined : numericJoin op l r with
        | error fault =>
          rw [joined] at typed
          cases typed
        | ok joint =>
          rw [joined] at typed
          cases typed
          exact .comparison comparison joined
    · next comparison =>
      have family := BinOp.arithmetic_or_bitwise logical comparison
      split at typed
      · cases typed
      · next fixed =>
        have whole : op.isBitwise = true → l.frac? = none ∧ r.frac? = none := by
          intro bitwise
          simpa [bitwise] using fixed
        split at typed
        · split at typed
          · next value =>
            cases typed
            exact .folded family rfl rfl value
          · cases typed
        · exact .numeric family whole typed

namespace Typing

theorem ValueTy.width_pos {ty : Ty} (value : ValueTy ty) : 0 < ty.width := by
  cases value with
  | stored storable =>
    obtain ⟨notArray, declared⟩ := storable
    cases ty with
    | bool => exact Nat.one_pos
    | bit width signed =>
      cases width with
      | zero => cases declared
      | succ n => exact n.succ_pos
    | fix width frac =>
      cases width with
      | zero => cases declared
      | succ n => exact n.succ_pos
    | static n => cases declared
    | idx bound unroll => cases declared
    | array elem dims => cases notArray
    | void => cases declared
  | literal n => exact bitsNeeded_pos n
  | iterator unroll nonempty => exact bitsNeeded_pos _

theorem storable_bit {width : Nat} (signed : Bool) (nonzero : 0 < width) :
    Storable (.bit width signed) := by
  cases width with
  | zero => exact absurd nonzero (Nat.lt_irrefl 0)
  | succ n => exact ⟨rfl, rfl⟩

theorem not_storable_static (n : Nat) : ¬ Storable (.static n) := by
  rintro ⟨_, declared⟩
  cases declared

theorem not_storable_idx (bound : Nat) (unroll : Option Nat) :
    ¬ Storable (.idx bound unroll) := by
  rintro ⟨_, declared⟩
  cases declared

theorem storable_fix_iff {width frac : Nat} :
    Storable (.fix width frac) ↔ 0 < width ∧ frac ≤ width := by
  unfold Storable declaredFault?
  cases width <;> simp [scalarFault?, Ty.isArray, pure_ok_iff]

theorem ValueTy.storable_fix {width frac : Nat} (value : ValueTy (.fix width frac)) :
    Storable (.fix width frac) := by
  cases value
  assumption

theorem storable_join {op : BinOp} {l r ty : Ty} (left : ValueTy l) (right : ValueTy r)
    (joined : numericJoin op l r = .ok ty) : Storable ty := by
  rcases numericJoin_cases joined with ⟨w, v, f, rfl, rfl, rfl⟩ | ⟨_, _, rfl⟩
  · have leftFix := storable_fix_iff.mp left.storable_fix
    exact storable_fix_iff.mpr (by omega)
  · have wide := left.width_pos
    exact storable_bit _ (by omega)

theorem valueTy_binop {op : BinOp} {l r ty : Ty} (left : ValueTy l) (right : ValueTy r)
    (typed : binopType op l r = .ok ty) : ValueTy ty := by
  cases binopType_cases typed with
  | logical _ _ _ => exact .stored ⟨rfl, rfl⟩
  | boolEq _ _ _ => exact .stored ⟨rfl, rfl⟩
  | comparison _ _ => exact .stored ⟨rfl, rfl⟩
  | folded _ _ _ _ => exact .literal _
  | numeric _ _ joined => exact .stored (storable_join left right joined)

end Typing

end BankedLoops
