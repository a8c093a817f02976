import BankedLoops.Proofs.Banking.Sites
import BankedLoops.Proofs.Semantics.Run
import BankedLoops.Proofs.Semantics.Unsigned

/-!
# Banks known at compile time

The interval of an index is that of its ideal value, computed without any width. So the bank that
is resolved at compile time is the bank of the ideal value, and it is the bank of the value at run
time wherever no operation of the index wraps.
-/

namespace BankedLoops

namespace Banking

/-- The iterators of a run stay in the ranges of their loops. -/
def InRange (env : Env) (run : Semantics.Env) : Prop :=
  ∀ name range, env.get? name = some (.iterator range) →
    ∃ v, run.get? name = some (.iterator v) ∧ range.lo ≤ v ∧ v ≤ range.hi

/-- The value of a sum, difference or product of literals and iterators, without any width. -/
def ideal (run : Semantics.Env) : TypedExpr → Option Nat
  | .int _ n => some n
  | .var _ name =>
    match run.get? name with
    | some (.iterator v) => some v
    | _ => none
  | .binop _ op lhs rhs => do
    let a ← ideal run lhs
    let b ← ideal run rhs
    match op with
    | .add => some (a + b)
    | .sub => if b ≤ a then some (a - b) else none
    | .mul => some (a * b)
    | _ => none
  | _ => none

/-! ### Intervals -/

theorem word?_eq_some {n v : Nat} (found : Interval.word? n = some v) : n = v := by
  unfold Interval.word? at found
  split at found
  · exact Option.some.inj found
  · cases found

theorem add?_contains {x y z : Interval} {a b : Nat} (added : x.add? y = some z)
    (left : x.lo ≤ a ∧ a ≤ x.hi) (right : y.lo ≤ b ∧ b ≤ y.hi) :
    z.lo ≤ a + b ∧ a + b ≤ z.hi := by
  simp only [Interval.add?, bind, Option.bind_eq_some_iff, pure, Option.some.injEq] at added
  obtain ⟨lo, low, hi, high, rfl⟩ := added
  rw [← word?_eq_some low, ← word?_eq_some high]
  exact ⟨Nat.add_le_add left.1 right.1, Nat.add_le_add left.2 right.2⟩

theorem sub?_contains {x y z : Interval} {a b : Nat} (subtracted : x.sub? y = some z)
    (left : x.lo ≤ a ∧ a ≤ x.hi) (right : y.lo ≤ b ∧ b ≤ y.hi) :
    b ≤ a ∧ z.lo ≤ a - b ∧ a - b ≤ z.hi := by
  unfold Interval.sub? at subtracted
  split at subtracted
  · cases subtracted
    dsimp only
    omega
  · cases subtracted

theorem mul?_contains {x y z : Interval} {a b : Nat} (multiplied : x.mul? y = some z)
    (left : x.lo ≤ a ∧ a ≤ x.hi) (right : y.lo ≤ b ∧ b ≤ y.hi) :
    z.lo ≤ a * b ∧ a * b ≤ z.hi := by
  simp only [Interval.mul?, bind, Option.bind_eq_some_iff, pure, Option.some.injEq] at multiplied
  obtain ⟨lo, low, hi, high, rfl⟩ := multiplied
  rw [← word?_eq_some low, ← word?_eq_some high]
  exact ⟨Nat.mul_le_mul left.1 right.1, Nat.mul_le_mul left.2 right.2⟩

/-- The interval of an index contains its ideal value. -/
theorem ofIndex?_contains {env : Env} {run : Semantics.Env} (inRange : InRange env run)
    {e : TypedExpr} {range : Interval} (found : Interval.ofIndex? env e = some range) :
    ∃ x, ideal run e = some x ∧ range.lo ≤ x ∧ x ≤ range.hi := by
  induction e using Interval.ofIndex?.induct env generalizing range with
  | case1 ty n =>
    cases found
    exact ⟨n, rfl, Nat.le_refl n, Nat.le_refl n⟩
  | case2 ty name inside bound =>
    simp only [Interval.ofIndex?, bound] at found
    cases found
    obtain ⟨v, visible, between⟩ := inRange name inside bound
    exact ⟨v, by simp only [ideal, visible], between⟩
  | case3 ty name other =>
    unfold Interval.ofIndex? at found
    split at found
    · next bound => exact (other _ bound).elim
    · cases found
  | case4 ty op lhs rhs leftContains rightContains =>
    simp only [Interval.ofIndex?, bind, Option.bind_eq_some_iff] at found
    obtain ⟨x, left, y, right, found⟩ := found
    obtain ⟨a, leftIdeal, leftBetween⟩ := leftContains left
    obtain ⟨b, rightIdeal, rightBetween⟩ := rightContains right
    simp only [ideal, leftIdeal, rightIdeal, bind, Option.bind_some]
    cases op with
    | add => exact ⟨_, rfl, add?_contains found leftBetween rightBetween⟩
    | sub =>
      obtain ⟨le, between⟩ := sub?_contains found leftBetween rightBetween
      exact ⟨_, if_pos le, between⟩
    | mul => exact ⟨_, rfl, mul?_contains found leftBetween rightBetween⟩
    | _ => cases found
  | case5 e notInt notVar notBinop =>
    cases e with
    | int ty n => exact (notInt ty n rfl).elim
    | var ty name => exact (notVar ty name rfl).elim
    | binop ty op lhs rhs => exact (notBinop ty op lhs rhs rfl).elim
    | _ => cases found

/-! ### Values at run time -/

/-- An unsigned integer type. -/
def Whole (ty : Ty) : Prop :=
  ty.isInteger = true ∧ ty.isSigned = false ∧ ty.frac? = none

theorem Whole.numericJoin {op : BinOp} {l r ty : Ty} (left : Whole l) (right : Whole r)
    (joined : numericJoin op l r = .ok ty) : Whole ty := by
  rcases numericJoin_cases joined with ⟨_, _, _, rfl, _, _⟩ | ⟨_, _, rfl⟩
  · cases left.1
  · refine ⟨rfl, ?_, rfl⟩
    show (l.isSigned || r.isSigned) = false
    rw [left.2.1, right.2.1, Bool.or_self]

theorem Whole.binopType {op : BinOp} {l r ty : Ty} (left : Whole l) (right : Whole r)
    (arithmetic : op.isArithmetic = true) (typed : binopType op l r = .ok ty) : Whole ty := by
  cases binopType_cases typed with
  | logical family _ _ => cases op <;> cases arithmetic <;> cases family
  | boolEq family _ _ => cases op <;> cases arithmetic <;> cases family
  | comparison family _ => cases op <;> cases arithmetic <;> cases family
  | folded _ _ _ _ => exact ⟨rfl, rfl, rfl⟩
  | numeric _ _ joined => exact left.numericJoin right joined

/-- Only sums, differences and products have intervals. -/
theorem ofIndex?_binop {env : Env} {ty : Ty} {op : BinOp} {lhs rhs : TypedExpr} {range : Interval}
    (found : Interval.ofIndex? env (.binop ty op lhs rhs) = some range) :
    op.isArithmetic = true ∧ (∃ x, Interval.ofIndex? env lhs = some x) ∧
      ∃ y, Interval.ofIndex? env rhs = some y := by
  simp only [Interval.ofIndex?, bind, Option.bind_eq_some_iff] at found
  obtain ⟨x, left, y, right, found⟩ := found
  refine ⟨?_, ⟨x, left⟩, ⟨y, right⟩⟩
  cases op <;> first | rfl | cases found

variable {ctx : Typing.Context} {types : Typing.Env} {env : Env} {run : Semantics.Env}

/-- A name with an interval is an iterator for the checker too. -/
theorem var_of_interval (agrees : Agrees types env) (inRange : InRange env run) {ty : Ty}
    {name : String} (checked : Typing.CheckedExpr ctx types (.var ty name)) {range : Interval}
    (found : Interval.ofIndex? env (.var ty name) = some range) :
    ∃ stop unroll v, ty = .idx stop unroll ∧ run.get? name = some (.iterator v) ∧ v < stop := by
  cases checked with
  | scalar bound =>
    obtain ⟨visible, seen, same⟩ := agrees name _ bound
    cases same
    simp only [Interval.ofIndex?, seen] at found
    cases found
  | iterator bound =>
    obtain ⟨visible, seen, same⟩ := agrees name _ bound
    cases same with
    | iterator unroll runs =>
      obtain ⟨v, valued, _, below⟩ := inRange name _ seen
      exact ⟨_, unroll, v, rfl, valued, by dsimp only at below; omega⟩

/-- An index with an interval has an unsigned integer type and a value that keeps to it. -/
theorem eval_of_interval (agrees : Agrees types env) (inRange : InRange env run)
    (m : Semantics.Machine) (s : Semantics.State) : (e : TypedExpr) →
      Typing.CheckedExpr ctx types e → {range : Interval} →
      Interval.ofIndex? env e = some range →
      Whole e.ty ∧ (∃ v, Semantics.eval m run s false e = .ok v) ∧
        ∀ index v, Semantics.eval m run s index e = .ok v → v < Word.capacity e.ty.width
  | .int ty n, checked, _, _ => by
    cases checked
    refine ⟨⟨rfl, rfl, rfl⟩, ⟨n, rfl⟩, ?_⟩
    intro index v value
    cases value
    exact lt_capacity_bitsNeeded n
  | .var ty name, checked, _, found => by
    obtain ⟨stop, unroll, v, rfl, valued, below⟩ := var_of_interval agrees inRange checked found
    refine ⟨⟨rfl, rfl, rfl⟩, ⟨v, ?_⟩, ?_⟩
    · simp only [Semantics.eval, Semantics.scalarOf?, valued, Semantics.orStuck_some]
    intro index w value
    simp only [Semantics.eval, Semantics.scalarOf?, valued, Semantics.orStuck_some, Except.ok.injEq] at value
    have last := lt_capacity_bitsNeeded (stop - 1)
    show w < Word.capacity (bitsNeeded (stop - 1))
    omega
  | .binop ty op lhs rhs, checked, _, found => by
    cases checked with
    | binop left right typed =>
      obtain ⟨arithmetic, ⟨x, leftFound⟩, ⟨y, rightFound⟩⟩ := ofIndex?_binop found
      obtain ⟨leftWhole, ⟨a, leftValue⟩, _⟩ :=
        eval_of_interval agrees inRange m s lhs left leftFound
      obtain ⟨rightWhole, ⟨b, rightValue⟩, _⟩ :=
        eval_of_interval agrees inRange m s rhs right rightFound
      refine ⟨leftWhole.binopType rightWhole arithmetic typed, ?_, ?_⟩
      · simp [Semantics.eval, leftValue, rightValue]
      · intro index v value
        simp only [Semantics.eval, bind_ok_iff] at value
        obtain ⟨_, _, _, _, value⟩ := value
        split at value
        · cases value
        · cases value
          exact Semantics.operation_lt ..

/-- Where no operation of an index wraps, its value is the ideal one. -/
theorem ideal_of_eval (agrees : Agrees types env) (inRange : InRange env run)
    (m : Semantics.Machine) (s : Semantics.State) : (e : TypedExpr) →
      Typing.CheckedExpr ctx types e → {range : Interval} →
      Interval.ofIndex? env e = some range → {v : Nat} → Semantics.eval m run s true e = .ok v →
      ideal run e = some v
  | .int ty n, _, _, _, _, value => congrArg some (Except.ok.inj value)
  | .var ty name, checked, _, found, v, value => by
    obtain ⟨stop, unroll, w, rfl, valued, below⟩ := var_of_interval agrees inRange checked found
    simp only [Semantics.eval, Semantics.scalarOf?, valued, Semantics.orStuck_some,
      Except.ok.injEq] at value
    simp only [ideal, valued, value]
  | .binop ty op lhs rhs, checked, _, found, v, value => by
    have whole : Whole ty := (eval_of_interval agrees inRange m s _ checked found).1
    cases checked with
    | binop left right typed =>
      obtain ⟨arithmetic, ⟨x, leftFound⟩, ⟨y, rightFound⟩⟩ := ofIndex?_binop found
      obtain ⟨leftWhole, _, leftLt⟩ := eval_of_interval agrees inRange m s lhs left leftFound
      obtain ⟨rightWhole, _, rightLt⟩ := eval_of_interval agrees inRange m s rhs right rightFound
      simp only [Semantics.eval, bind_ok_iff] at value
      obtain ⟨a, leftValue, b, rightValue, value⟩ := value
      have leftIdeal := ideal_of_eval agrees inRange m s lhs left leftFound leftValue
      have rightIdeal := ideal_of_eval agrees inRange m s rhs right rightFound rightValue
      split at value
      · cases value
      · next fits =>
        cases value
        have fits : Semantics.wraps op ty lhs.ty rhs.ty a b = false := by simpa using fits
        have exactly := Semantics.result_of_not_wraps m.product whole.2.2 whole.2.1 fits
        rw [Semantics.result_unsigned leftWhole.2.1 rightWhole.2.1 (leftLt _ _ leftValue)
          (rightLt _ _ rightValue)] at exactly
        simp only [ideal, leftIdeal, rightIdeal, bind, Option.bind_some]
        cases op with
        | add => simp only [Semantics.exact] at exactly; exact congrArg some (by omega)
        | sub =>
          simp only [Semantics.exact] at exactly
          rw [if_pos (by omega)]
          exact congrArg some (by omega)
        | mul =>
          simp only [Semantics.exact] at exactly
          exact congrArg some (by exact_mod_cast exactly)
        | _ => cases arithmetic

/-! ### The static bank -/

/-- Reading changes no index that has an interval. -/
theorem ReadAs.eq_of_interval {ctx : Context} : {e e' : TypedExpr} → ReadAs ctx env e e' →
    {range : Interval} → Interval.ofIndex? env e' = some range → e' = e
  | _, _, .int _ _, _, _ => rfl
  | _, _, .bool _ _, _, _ => rfl
  | _, _, .var _ _, _, _ => rfl
  | _, _, .binop left right, _, found => by
    obtain ⟨_, ⟨_, leftFound⟩, ⟨_, rightFound⟩⟩ := ofIndex?_binop found
    rw [left.eq_of_interval leftFound, right.eq_of_interval rightFound]
  | _, _, .access _ _ _ resolved, _, found => by
    cases resolved <;> cases found
  | _, _, .app _, _, found => by cases found
  | _, _, .mem _ _ _, _, _ => rfl
  | _, _, .muxRead _ _ _ _, _, _ => rfl

/-- A bank is resolved where there is only one, or where the whole interval lies in it. -/
theorem staticBank?_cases {idx : TypedExpr} {dim : Dim} {k : Nat}
    (resolved : staticBank? env idx dim = .ok (some k)) :
    dim.bankCount = .ok 1 ∧ k = 0 ∨
      ∃ range, Interval.ofIndex? env idx = some range ∧ range.lo / dim.bank = k ∧
        range.hi / dim.bank = k := by
  simp only [staticBank?, bind_ok_iff] at resolved
  obtain ⟨count, counted, resolved⟩ := resolved
  split at resolved
  · next single =>
    cases resolved
    exact .inl ⟨single ▸ counted, rfl⟩
  · split at resolved
    · cases resolved
    · next range found =>
      simp only [bind_ok_iff, Word.div_eq_ok_iff, pure_ok_iff] at resolved
      obtain ⟨_, ⟨_, rfl⟩, _, ⟨_, rfl⟩, resolved⟩ := resolved
      split at resolved
      · next same =>
        cases resolved
        exact .inr ⟨range, found, rfl, same.symm⟩
      · cases resolved

/-- A number between two numbers of one bank is in that bank. -/
theorem div_eq_of_between {lo hi x n k : Nat} (low : lo / n = k) (high : hi / n = k)
    (between : lo ≤ x ∧ x ≤ hi) : x / n = k :=
  Nat.le_antisymm (high ▸ Nat.div_le_div_right between.2) (low ▸ Nat.div_le_div_right between.1)

end Banking

/-- The bank that is resolved at compile time is the bank of the ideal value of an index. Where no
operation of the index wraps the width of its type, that is its value at run time, and the offset in
the bank is that of the index. -/
theorem Banking.staticBank_eq_div {source : SourceProgram} {p : TypedProgram}
    (checked : source.check.result = .ok p) {ds : List Decl} {body : TypedCommand}
    (component : (ds, body) ∈ p.components) {statements : Statements} {prologue : Prologue}
    (setUp : (setUpRotations statements body (declared {} ds) (binders body)
      (firstOfEach (advances body))).result = .ok prologue)
    {site : IndexSite} (inBody : site ∈ sitesOfCommand prologue.env body)
    (banked : site.dim.bankCount ≠ .ok 1) {pos k : Nat} {idx : TypedExpr}
    (split : (read ⟨statements, prologue.rotations⟩ site.env pos site.idx).result = .ok idx)
    (resolved : staticBank? site.env idx site.dim = .ok (some k))
    {run : Semantics.Env} (inRange : InRange site.env run) (m : Semantics.Machine)
    (s : Semantics.State) :
    ∃ v x, Semantics.eval m run s false idx = .ok v ∧ ideal run idx = some x ∧
      x / site.dim.bank = k ∧
      (Semantics.eval m run s true idx ≠ .error .index →
        v = x ∧ v / site.dim.bank = k ∧ v - k * site.dim.bank = v % site.dim.bank) := by
  obtain ⟨ctx, types, formed, agrees, typed, fits, divided⟩ :=
    checkedSite_of_component (Typing.checkedProgram_of_check checked) component setUp inBody
  rcases staticBank?_cases resolved with ⟨single, _⟩ | ⟨range, found, low, high⟩
  · exact absurd single banked
  · obtain rfl := (read_ok _ split).eq_of_interval found
    obtain ⟨x, ideally, between⟩ := ofIndex?_contains inRange found
    obtain ⟨_, ⟨v, value⟩, _⟩ := eval_of_interval agrees inRange m s _ typed found
    have bank := div_eq_of_between low high between
    refine ⟨v, x, value, ideally, bank, ?_⟩
    intro unwrapped
    have inIndex := (Semantics.eval_index _ value).resolve_right unwrapped
    have same : v = x := by
      rw [ideal_of_eval agrees inRange m s _ typed found inIndex] at ideally
      exact Option.some.inj ideally
    subst same
    refine ⟨rfl, bank, ?_⟩
    rw [← bank, Nat.mul_comm, Nat.sub_eq_of_eq_add]
    exact (Nat.mod_add_div v site.dim.bank).symm

namespace Banking

/-- Reads the upper half of an array of two banks: `for (let i = 0..4) { let x = a[i + 4]; }`. -/
def upperHalf : SourceProgram where
  decls := [⟨0, "a", .array (.ubit 32) [⟨8, 4⟩]⟩]
  defs := []
  body := some (.loop 1 ⟨"i", 0, 4, none⟩
    (.define 2 "x" none (.access "a" [.binop .add (.var "i") (.int 4)])))

/-- The index `i + 4` of `upperHalf`. -/
def upperIndex : TypedExpr := .binop (.ubit 3) .add (.var (.idx 4 none) "i") (.lit 4)

def upperHalfTyped : TypedProgram where
  decls := upperHalf.decls
  defs := []
  body := some (.loop 1 ⟨"i", 0, 4, none⟩
    (.define 2 "x" (.ubit 32) (.access (.ubit 32) "a" [upperIndex])))

def upperSite : IndexSite where
  env := (declared {} upperHalf.decls).enter.rebind "i" (.iterator ⟨0, 3⟩)
  idx := upperIndex
  dim := ⟨8, 4⟩

theorem upperSite_inRange : InRange upperSite.env (({} : Semantics.Env).rebind "i" (.iterator 3)) := by
  intro name range bound
  simp only [upperSite, declared, upperHalf, List.foldl_cons, List.foldl_nil, Scope.get?_rebind,
    Scope.get?_enter, Scope.get?_empty] at bound ⊢
  split at bound
  · next same =>
    cases bound
    exact ⟨3, by rw [if_pos same], by decide, by decide⟩
  · split at bound <;> cases bound

/-- In the last round the index is 7, at offset 3 of the second bank. -/
theorem staticBank_eq_div_upperHalf :
    upperHalf.check.result = .ok upperHalfTyped ∧
      staticBank? upperSite.env upperIndex upperSite.dim = .ok (some 1) ∧
      ∃ v x, Semantics.eval .zero
          (({} : Semantics.Env).rebind "i" (.iterator 3)) {} false upperIndex = .ok v ∧
        ideal (({} : Semantics.Env).rebind "i" (.iterator 3)) upperIndex = some x ∧
        x / 4 = 1 ∧
        (Semantics.eval .zero
          (({} : Semantics.Env).rebind "i" (.iterator 3)) {} true upperIndex ≠ .error .index →
          v = x ∧ v / 4 = 1 ∧ v - 1 * 4 = v % 4) :=
  ⟨rfl, rfl, @staticBank_eq_div upperHalf upperHalfTyped rfl upperHalf.decls _
    (List.mem_singleton.mpr rfl) {} { env := declared {} upperHalf.decls } rfl upperSite
    (List.mem_singleton.mpr rfl) (by decide) 2 1 upperIndex rfl rfl _ upperSite_inRange _ {}⟩

/-- The index `((i + 7) + 8) - 8` at `i = 1`, of which the first sum wraps 3 bits: the ideal value 8
is in bank 2, the value at run time is 0. -/
example :
    let idx : TypedExpr := .binop (.ubit 4) .sub (.binop (.ubit 4) .add
      (.binop (.ubit 3) .add (.var (.idx 2 none) "i") (.lit 7)) (.lit 8)) (.lit 8)
    staticBank? (({} : Env).rebind "i" (.iterator ⟨1, 1⟩)) idx ⟨16, 4⟩ = .ok (some 2) ∧
      Semantics.eval .zero
        (({} : Semantics.Env).rebind "i" (.iterator 1)) {} false idx = .ok 0 := by
  exact ⟨rfl, rfl⟩

end Banking

end BankedLoops
