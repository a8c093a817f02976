import BankedLoops.Proofs.Lowering.Arithmetic

/-!
# What operand promotion keeps

Two integer operands meet in a type of the larger width that is signed if one of them is. It holds
every value of both unless it is signed and a literal or an iterator reaches its top bit: only then
is a number read as a negative one. Everywhere else a comparison is wired to a primitive that
compares the numbers themselves.
-/

namespace BankedLoops

/-! ### The integers of a type -/

/-- The integers that the values of an integer type stand for. -/
def Ty.Denotes : Ty → Int → Prop
  | .bit width false, v => 0 ≤ v ∧ v < Word.capacity width
  | .bit width true, v => -(Word.capacity width : Int) ≤ 2 * v ∧ 2 * v < Word.capacity width
  | .static n, v => v = n
  | .idx bound _, v => 0 ≤ v ∧ v < bound
  | _, _ => False

instance : (ty : Ty) → (v : Int) → Decidable (ty.Denotes v)
  | .bit _ false, _ | .bit _ true, _ | .idx .., _ => inferInstanceAs (Decidable (_ ∧ _))
  | .static n, v => inferInstanceAs (Decidable (v = n))
  | .bool, _ | .fix .., _ | .array .., _ | .void, _ => inferInstanceAs (Decidable False)

/-- Whether a literal or an iterator leaves the top one of `width` bits clear. The other types keep
their sign when they are widened. -/
def Ty.ClearsSign (width : Nat) : Ty → Prop
  | .static n => 2 * n < Word.capacity width
  | .idx bound _ => 2 * (bound - 1) < Word.capacity width
  | _ => True

instance (width : Nat) : (ty : Ty) → Decidable (ty.ClearsSign width)
  | .static _ | .idx .. => inferInstanceAs (Decidable (_ < _))
  | .bool | .bit .. | .fix .. | .array .. | .void => inferInstanceAs (Decidable True)

/-- Whether the type in which two integer operands meet holds every value of both. -/
def Promotes (l r : Ty) : Prop :=
  (l.isSigned || r.isSigned) = true →
    l.ClearsSign (max l.width r.width) ∧ r.ClearsSign (max l.width r.width)

instance (l r : Ty) : Decidable (Promotes l r) :=
  inferInstanceAs (Decidable (_ → _))

/-- The comparisons of the language, on integers. -/
def BinOp.Compares : BinOp → Int → Int → Prop
  | .lt, m, n => m < n
  | .le, m, n => m ≤ n
  | .gt, m, n => n < m
  | .ge, m, n => n ≤ m
  | .eq, m, n => m = n
  | .ne, m, n => m ≠ n
  | _, _, _ => False

instance : (op : BinOp) → (m n : Int) → Decidable (op.Compares m n)
  | .lt, m, n => inferInstanceAs (Decidable (m < n))
  | .le, m, n => inferInstanceAs (Decidable (m ≤ n))
  | .gt, m, n => inferInstanceAs (Decidable (n < m))
  | .ge, m, n => inferInstanceAs (Decidable (n ≤ m))
  | .eq, m, n => inferInstanceAs (Decidable (m = n))
  | .ne, m, n => inferInstanceAs (Decidable (m ≠ n))
  | .add, _, _ | .sub, _, _ | .mul, _, _ | .and, _, _ | .or, _, _ | .shl, _, _ | .shr, _, _
  | .bitAnd, _, _ => inferInstanceAs (Decidable False)

/-- An integer type reaches no further than the patterns of its width. -/
theorem Ty.Denotes.range {ty : Ty} {v : Int} (held : ty.Denotes v) :
    -(Word.capacity ty.width : Int) ≤ v ∧ v < Word.capacity ty.width := by
  cases ty with
  | bit bits signed => cases signed <;> simp only [Denotes, width] at held ⊢ <;> omega
  | static n =>
    have room := lt_capacity_bitsNeeded n
    simp only [Denotes, width] at held ⊢
    omega
  | idx bound unroll =>
    have room := lt_capacity_bitsNeeded (bound - 1)
    simp only [Denotes, width] at held ⊢
    omega
  | _ => exact held.elim

theorem Ty.Denotes.nonneg {ty : Ty} {v : Int} (unsigned : ty.isSigned = false)
    (held : ty.Denotes v) : 0 ≤ v := by
  cases ty with
  | bit width signed =>
    obtain rfl : signed = false := unsigned
    exact held.1
  | static n => exact held ▸ Int.natCast_nonneg n
  | idx bound unroll => exact held.1
  | _ => exact held.elim

/-- A value of an unsigned type is one of every unsigned type that is as wide. -/
theorem Ty.Denotes.widen {ty : Ty} {v : Int} {width : Nat} (unsigned : ty.isSigned = false)
    (wide : ty.width ≤ width) (held : ty.Denotes v) : (Ty.bit width false).Denotes v := by
  have room := Word.capacity_le wide
  have range := held.range
  exact ⟨held.nonneg unsigned, by omega⟩

/-- In a signed type a literal or an iterator needs the top bit clear, and nothing else does. -/
theorem forall_denotes_signed_iff {ty : Ty} {width : Nat} (wide : ty.width ≤ width)
    (signs : ∀ bits, ty ≠ .ubit bits) :
    (∀ v, ty.Denotes v → (Ty.bit width true).Denotes v) ↔ ty.ClearsSign width := by
  cases ty with
  | bit bits signed =>
    cases signed with
    | false => exact absurd rfl (signs bits)
    | true =>
      have room := Word.capacity_le wide
      refine iff_of_true (fun v held => ?_) trivial
      simp only [Ty.Denotes, Ty.width] at held room ⊢
      omega
  | static n =>
    simp only [Ty.Denotes, Ty.ClearsSign, forall_eq]
    omega
  | idx bound unroll =>
    simp only [Ty.Denotes, Ty.ClearsSign]
    constructor
    · intro holds
      rcases Nat.eq_zero_or_pos bound with rfl | positive
      · exact Word.capacity_pos width
      · have last := holds (bound - 1 : Nat) (by omega)
        omega
    · intro clear v held
      omega
  | _ => exact iff_of_true (fun _ => False.elim) trivial

/-! ### Where operands meet -/

/-- Operands of different signedness are not both of a declared type. -/
theorem ne_ubit_of_numericJoin {op : BinOp} {l r joint : Ty} (joined : numericJoin op l r = .ok joint)
    (signed : (l.isSigned || r.isSigned) = true) (bits : Nat) : l ≠ .ubit bits ∧ r ≠ .ubit bits := by
  constructor
  · rintro rfl
    cases r with
    | bit width other =>
      obtain rfl : other = true := signed
      cases joined
    | _ => cases signed
  · rintro rfl
    cases l with
    | bit width other =>
      obtain rfl : other = true := (Bool.or_false other).symm.trans signed
      cases joined
    | _ => cases signed

theorem denotes_numericJoin_iff {op : BinOp} {l r joint : Ty}
    (joined : numericJoin op l r = .ok joint) :
    (∀ v, l.Denotes v ∨ r.Denotes v → joint.Denotes v) ↔ Promotes l r := by
  have signs := ne_ubit_of_numericJoin joined
  rcases numericJoin_cases joined with ⟨w, u, f, rfl, rfl, rfl⟩ | ⟨_, _, rfl⟩
  · exact iff_of_true (fun _ held => held.elim id id) fun signed => absurd signed Bool.false_ne_true
  · simp only [or_imp, forall_and]
    unfold Promotes
    cases signed : l.isSigned || r.isSigned with
    | false =>
      obtain ⟨left, right⟩ := Bool.or_eq_false_iff.mp signed
      refine iff_of_true ⟨?_, ?_⟩ fun same => absurd same Bool.false_ne_true
      · exact fun _ => Ty.Denotes.widen left (Nat.le_max_left ..)
      · exact fun _ => Ty.Denotes.widen right (Nat.le_max_right ..)
    | true =>
      rw [forall_denotes_signed_iff (Nat.le_max_left ..) fun bits => (signs signed bits).1,
        forall_denotes_signed_iff (Nat.le_max_right ..) fun bits => (signs signed bits).2]
      exact ⟨fun both _ => both, fun given => given rfl⟩

/-! ### Comparisons -/

namespace Lowering

open Semantics

/-- The pattern of an integer of a type stands for that integer. -/
theorem toInt_pattern {width : Nat} {signed : Bool} {v : Int}
    (held : (Ty.bit width signed).Denotes v) : toInt signed width (pattern width v) = v := by
  have positive := Word.capacity_pos width
  unfold pattern
  cases signed with
  | false =>
    rw [toInt_unsigned, Int.emod_eq_of_lt held.1 held.2, Int.toNat_of_nonneg held.1]
  | true =>
    obtain ⟨low, high⟩ := held
    have half : Word.capacity width = 1 ∨ Word.capacity width = 2 * Word.capacity (width - 1) := by
      cases width with
      | zero => exact .inl rfl
      | succ bits =>
        rw [Word.capacity_succ, Nat.add_sub_cancel]
        omega
    rcases Int.lt_or_le v 0 with negative | nonneg
    · have wrapped : v % (Word.capacity width : Int) = v + Word.capacity width := by
        rw [← Int.add_emod_right, Int.emod_eq_of_lt (by omega) (by omega)]
      have top : Word.capacity (width - 1) ≤ (v + Word.capacity width).toNat := by omega
      rw [wrapped, toInt, if_pos ⟨rfl, top⟩]
      omega
    · have clear : ¬ Word.capacity (width - 1) ≤ v.toNat := by
        have positive := Word.capacity_pos (width - 1)
        omega
      rw [Int.emod_eq_of_lt nonneg (by omega), toInt, if_neg fun signed => clear signed.2,
        Int.toNat_of_nonneg nonneg]

/-- A comparison at a width whose type holds both integers compares them. -/
theorem apply_compares {op : BinOp} {width : Nat} {signed : Bool} {m n : Int}
    (test : op.isComparison = true) (left : (Ty.bit width signed).Denotes m)
    (right : (Ty.bit width signed).Denotes n) :
    (integerOperation op signed).apply width (pattern width m) (pattern width n) =
      (decide (op.Compares m n)).toNat := by
  have bits : op.isLogical = true → width = 1 := by
    intro logical
    cases op <;> first | cases test; done | cases logical
  rw [apply_integerOperation signed (pattern_lt _ _) (pattern_lt _ _) bits, toInt_pattern left,
    toInt_pattern right, if_pos test]
  cases op with
  | lt | le | gt | ge | eq | ne => exact pattern_bit (decide _)
  | _ => cases test

/-- A comparison of operands of types `l` and `r` is wired to a primitive at the larger of their
widths, and the primitive compares the integers that the operands stand for. -/
def Compared (op : BinOp) (l r : Ty) : Prop :=
  let width := max l.width r.width
  ∃ (operator : Operator) (operation : Library.Operation),
    Library.part? s!"std_{operator.stem}" operator.params = some (.operator operation width) ∧
    (∀ lhs rhs : TypedExpr, lhs.ty = l → rhs.ty = r → ∀ s low pos target W,
      lowerExpr s low pos target W (.binop .bool op lhs rhs) = do
        let left ← lowerExpr s low pos width W lhs
        let right ← lowerExpr s low pos width left.2 rhs
        let cell ← addPrimitive operator.stem s!"std_{operator.stem}" operator.params
        adapt ((right.2.connect (.cell cell "left") left.1).connect (.cell cell "right") right.1)
          (.out cell) 1 target false) ∧
    ∀ m n, l.Denotes m → r.Denotes n →
      operation.apply width (pattern width m) (pattern width n) = (decide (op.Compares m n)).toNat

theorem compared_of_typed {op : BinOp} {l r ty : Ty} (test : op.isComparison = true)
    (typed : binopType op l r = .ok ty) (promotes : Promotes l r) : Compared op l r := by
  have part : Operator.of op (max l.width r.width) (l.isSigned || r.isSigned) none =
      .ok ⟨integerStem op (l.isSigned || r.isSigned), [max l.width r.width]⟩ := rfl
  refine ⟨_, integerOperation op (l.isSigned || r.isSigned), operator_part part, ?_, ?_⟩
  · rintro lhs rhs rfl rfl s low pos target W
    have widths : operatorWidths op .bool lhs.ty rhs.ty = (max lhs.ty.width rhs.ty.width, 1) := by
      rw [operatorWidths, if_pos test]
    rw [lowerExpr_computed (fun n same => by cases same)]
    simp only [widths, test, show Ty.bool.frac? = none from rfl, ite_self, Bool.not_true,
      Bool.false_and, addOperator, part]
    rfl
  · intro m n left right
    have joined : ∃ joint, numericJoin op l r = .ok joint := by
      cases binopType_cases typed with
      | logical family _ _ => cases op <;> first | cases family; done | cases test
      | boolEq _ isBool _ =>
        subst isBool
        exact left.elim
      | comparison _ joined => exact ⟨_, joined⟩
      | folded family _ _ _ => exact absurd test (by simp [(not_test family).1])
      | numeric family _ joined => exact ⟨_, joined⟩
    obtain ⟨joint, joined⟩ := joined
    have keeps := (denotes_numericJoin_iff joined).mpr promotes
    rcases numericJoin_cases joined with ⟨_, _, _, rfl, _, _⟩ | ⟨_, _, rfl⟩
    · exact left.elim
    · exact apply_compares test (keeps m (.inl left)) (keeps n (.inr right))

end Lowering

/-- Where operands meet, every value of both is kept exactly if the sign bit of a signed type is out
of reach of the literals and iterators that meet in it. Then every comparison that is accepted
compares the numbers that its operands stand for. -/
theorem promotion_keeps (op : BinOp) :
    (∀ l r joint, numericJoin op l r = .ok joint →
      ((∀ v, l.Denotes v ∨ r.Denotes v → joint.Denotes v) ↔ Promotes l r)) ∧
    ∀ (ctx : Typing.Context) (env : Typing.Env) (stmt : String) (lhs rhs : Expr)
      (typed : TypedExpr), op.isComparison = true →
      Typing.checkExpr ctx env stmt (.binop op lhs rhs) = .ok typed →
      ∃ left right, Typing.checkExpr ctx env stmt lhs = .ok left ∧
        Typing.checkExpr ctx env stmt rhs = .ok right ∧ typed = .binop .bool op left right ∧
        (Promotes left.ty right.ty → Lowering.Compared op left.ty right.ty) := by
  refine ⟨fun _ _ _ joined => denotes_numericJoin_iff joined, ?_⟩
  intro ctx env stmt lhs rhs typed test checked
  rw [Typing.checkExpr] at checked
  obtain ⟨left, isLeft, checked⟩ := bind_ok_iff.mp checked
  obtain ⟨right, isRight, checked⟩ := bind_ok_iff.mp checked
  split at checked
  · next ty typing =>
    cases checked
    have isBool : ty = .bool := by
      cases binopType_cases typing with
      | logical _ _ _ => rfl
      | boolEq _ _ _ => rfl
      | comparison _ _ => rfl
      | folded family _ _ _ => exact absurd test (by simp [(Lowering.not_test family).1])
      | numeric family _ _ => exact absurd test (by simp [(Lowering.not_test family).1])
    subst isBool
    exact ⟨left, right, isLeft, isRight, rfl, Lowering.compared_of_typed test typing⟩
  · exact (refuse_ok_iff.mp checked).elim

/-- Signed numbers of eight bits meet `100`, which leaves their sign alone. -/
theorem promotion_keeps_mixed :
    numericJoin .lt (.bit 8 true) (.static 100) = .ok (.bit 8 true) ∧
      (∀ v, (Ty.bit 8 true).Denotes v ∨ (Ty.static 100).Denotes v → (Ty.bit 8 true).Denotes v) ∧
      Lowering.Compared .lt (.bit 8 true) (.static 100) := by
  have joined : numericJoin .lt (.bit 8 true) (.static 100) = .ok (.bit 8 true) := rfl
  have promotes : Promotes (.bit 8 true) (.static 100) := by decide
  have checked : Typing.checkExpr ⟨[], false⟩ (({} : Typing.Env).rebind "x" (.scalar (.bit 8 true))) ""
      (.binop .lt (.var "x") (.int 100)) =
        .ok (.binop .bool .lt (.var (.bit 8 true) "x") (.lit 100)) := rfl
  obtain ⟨left, right, _, _, same, compared⟩ := (promotion_keeps .lt).2 _ _ _ _ _ _ rfl checked
  cases same
  exact ⟨joined, ((promotion_keeps .lt).1 _ _ _ joined).mpr promotes, compared promotes⟩

/-- A literal that reaches the sign bit is not kept. -/
example : numericJoin .lt (.bit 8 true) (.static 200) = .ok (.bit 8 true) ∧
    ¬ (Ty.bit 8 true).Denotes 200 :=
  ⟨rfl, by decide⟩

end BankedLoops
