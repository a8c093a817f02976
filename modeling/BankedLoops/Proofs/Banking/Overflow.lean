import BankedLoops.Proofs.Typing.Blame
import BankedLoops.Proofs.Banking.Refusals

/-!
# Nothing but overflow

The split of a checked program subtracts and divides only where the checker has seen to it that there
is a result: dimensions are divided, loops run, and an index with a known bank is not below the start
of that bank. A computation on words may run out of bits, but no difference is below zero and no
divisor is zero.
-/

namespace BankedLoops

variable {α β : Type}

/-! ### Words -/

/-- A computation on words that fails only because a word is too short. -/
def Overflows (x : Except Fault α) : Prop := ∀ fault, x = .error fault → fault = .overflow

namespace Overflows

theorem pure (a : α) : Overflows (Pure.pure a : Except Fault α) := by
  intro fault failed
  cases failed

theorem of_ok {x : Except Fault α} {a : α} (value : x = .ok a) : Overflows x := by
  rw [value]
  exact pure a

theorem bind_of_ok {x : Except Fault α} {f : α → Except Fault β} (first : Overflows x)
    (rest : ∀ a, x = .ok a → Overflows (f a)) : Overflows (x >>= f) := by
  cases x with
  | error fault =>
    intro other failed
    cases failed
    exact first fault rfl
  | ok a => exact rest a rfl

theorem bind {x : Except Fault α} {f : α → Except Fault β} (first : Overflows x)
    (rest : ∀ a, Overflows (f a)) : Overflows (x >>= f) :=
  first.bind_of_ok fun a _ => rest a

theorem foldlM {f : β → α → Except Fault β} {xs : List α}
    (each : ∀ x ∈ xs, ∀ b, Overflows (f b x)) (b : β) : Overflows (xs.foldlM f b) := by
  induction xs generalizing b with
  | nil => exact pure b
  | cons x xs ih =>
    obtain ⟨first, others⟩ := List.forall_mem_cons.mp each
    rw [List.foldlM_cons]
    exact (first b).bind fun b => ih others b

theorem add (bits a b : Nat) : Overflows (Word.add bits a b) := by
  intro fault failed
  unfold Word.add at failed
  split at failed <;> cases failed
  rfl

theorem mul (bits a b : Nat) : Overflows (Word.mul bits a b) := by
  intro fault failed
  unfold Word.mul at failed
  split at failed <;> cases failed
  rfl

theorem sub {a b : Nat} (within : b ≤ a) : Overflows (Word.sub a b) :=
  of_ok (Word.sub_eq_ok_iff.mpr ⟨within, rfl⟩)

theorem div (a : Nat) {b : Nat} (positive : 0 < b) : Overflows (Word.div a b) :=
  of_ok (Word.div_eq_ok_iff.mpr ⟨Nat.ne_of_gt positive, rfl⟩)

end Overflows

/-- An error, or a word that is too short: no difference below zero and no divisor of zero. -/
inductive OnlyOverflow : Failure → Prop where
  | error (e : CompileError) : OnlyOverflow (.error e)
  | overflow : OnlyOverflow (.fault .overflow)

/-- A computation in which every subtraction and every division has a result. -/
abbrev Bounded (x : Except Failure α) : Prop := Fails OnlyOverflow x

theorem Overflows.lift {x : Except Fault α} (overflows : Overflows x) :
    Bounded (liftM x : Except Failure α) := by
  intro f failed
  obtain ⟨fault, stopped, rfl⟩ := lift_error_iff.mp failed
  rw [overflows fault stopped]
  exact .overflow

/-- What blames the program is an error. -/
theorem Typing.Blames.onlyOverflow {f : Failure} (blames : Blames f) : OnlyOverflow f := by
  obtain ⟨_, blames⟩ := blames
  cases blames <;> exact .error _

namespace Layout

open Banking (Divided)

variable {l : Layout}

theorem overflows_bankCount (divided : Divided l.dims) : Overflows l.bankCount := by
  refine Overflows.foldlM (fun d member count => ?_) 1
  exact (Overflows.of_ok (Banking.bankCount_ok (divided d member))).bind fun _ => .mul _ _ _

theorem overflows_banks (divided : Divided l.dims) : Overflows l.banks := by
  refine (overflows_bankCount divided).bind fun count => ?_
  split <;> exact .pure _

theorem overflows_split (divided : Divided l.dims) (pos : Nat) : Overflows (l.split pos) :=
  (overflows_banks divided).bind fun _ => .pure _

theorem overflows_stridesOf {dims : List Dim} (divided : Divided dims) :
    Overflows (stridesOf dims) := by
  induction dims using stridesOf.induct with
  | case1 => exact .pure _
  | case2 d => exact .pure _
  | case3 first d dims ih =>
    rw [stridesOf]
    refine (ih divided.tail).bind fun strides => ?_
    split
    · exact .pure _
    · refine (Overflows.of_ok (Banking.bankCount_ok divided.tail.head)).bind fun count => ?_
      exact (Overflows.mul _ _ _).bind fun _ => .pure _

end Layout

namespace Banking

theorem overflows_declBanks {l : Layout} (divided : Divided l.dims) (pos : Nat) :
    Overflows (declBanks l pos) := by
  refine (Layout.overflows_split divided pos).bind fun ds => ?_
  split <;> exact .pure _

/-! ### Indices -/

theorem overflows_widened (op : BinOp) (lhs rhs : TypedExpr) : Overflows (widened op lhs rhs) := by
  unfold widened
  dsimp only
  split
  · exact (Overflows.add _ _ _).bind fun _ => .pure _
  · exact (Overflows.add _ _ _).bind fun _ => .pure _
  · exact .pure _

theorem overflows_staticBank? (env : Env) (idx : TypedExpr) {dim : Dim}
    (divided : dim.splitsEvenly = .ok true) : Overflows (staticBank? env idx dim) := by
  have positive := (splitsEvenly_iff.mp divided).2.1
  refine (Overflows.of_ok (bankCount_ok divided)).bind fun count => ?_
  split
  · exact .pure _
  · split
    · exact .pure _
    · exact (Overflows.div _ positive).bind fun _ => (Overflows.div _ positive).bind fun _ => .pure _

theorem overflows_staticOffset {env : Env} {idx : TypedExpr} {dim : Dim} {k : Nat}
    (known : staticBank? env idx dim = .ok (some k)) :
    Overflows (staticOffset idx (k * dim.bank)) := by
  obtain ⟨offset, addressed⟩ := staticOffset_ok known
  exact .of_ok addressed

theorem overflows_bankTerm (idx : TypedExpr) (length stride : Nat) :
    Overflows (bankTerm idx length stride) := by
  have scaled (bank : TypedExpr) :
      Overflows (if stride = 1 then pure bank else widened .mul bank (.lit stride)) := by
    split
    · exact .pure _
    · exact overflows_widened _ _ _
  unfold bankTerm
  dsimp only
  split
  · exact (Overflows.pure idx).bind scaled
  · exact (overflows_widened _ _ _).bind scaled

theorem overflows_maskedOffset (idx : TypedExpr) {length : Nat} (positive : 0 < length) :
    Overflows (maskedOffset idx length) := by
  unfold maskedOffset
  split
  · exact .pure _
  · exact (Overflows.sub positive).bind fun _ => overflows_widened _ _ _

theorem overflows_selector (base : Nat) (terms : List TypedExpr) :
    Overflows (selector base terms) := by
  unfold selector
  split
  · exact .pure _
  · refine (Overflows.foldlM (fun term _ sum => overflows_widened _ sum term) _).bind fun sum => ?_
    split
    · exact overflows_widened _ _ _
    · exact .pure _

/-! ### Rotations -/

namespace Rotation

variable {r : Rotation}

theorem overflows_ty (positive : 0 < r.banks) : Overflows r.ty :=
  (Overflows.sub positive).bind fun _ => .pure _

theorem overflows_wrap (positive : 0 < r.banks) (e : TypedExpr) : Overflows (r.wrap e) :=
  (overflows_ty positive).bind fun _ => (Overflows.sub positive).bind fun _ => .pure _

theorem overflows_step (positive : 0 < r.banks) (pos : Nat) : Overflows (r.step pos) :=
  (overflows_ty positive).bind fun _ => (overflows_widened _ _ _).bind fun _ =>
    (overflows_wrap positive _).bind fun _ => .pure _

end Rotation

theorem overflows_rotated {rotation : Option Rotation}
    (words : ∀ r, rotation = some r → r.InWords) (select : TypedExpr) :
    Overflows (rotated rotation select) := by
  unfold rotated
  split
  · exact .pure _
  · have positive := (words _ rfl).positive
    exact (Rotation.overflows_ty positive).bind fun _ => (overflows_widened _ _ _).bind fun _ =>
      Rotation.overflows_wrap positive _

/-! ### Expressions -/

section

variable {ctx : Context} {env : Env}

theorem bounded_layoutOf (env : Env) (array : String) : Bounded (layoutOf env array) := by
  unfold layoutOf
  split
  · exact .pure _
  · exact .refuse (.error _)

theorem bounded_resolve (rotations : ctx.InWords) (pos : Nat) (array : String) {layout : Layout}
    (divided : Divided layout.dims) (ty : Ty) (writes : Bool) (p : Placement) :
    Bounded (resolve ctx pos array layout ty writes p).result := by
  simp only [resolve, Outcome.result_bind, Outcome.result_lift_fault]
  refine .bind (Layout.overflows_banks divided).lift fun _ => ?_
  split
  · split
    · exact .refuse (.error _)
    · exact .pure _
  · split
    · exact .refuse (.error _)
    · simp only [Outcome.result_bind, Outcome.result_lift_fault, Outcome.result_tell]
      refine .bind (overflows_selector _ _).lift fun _ => ?_
      refine .bind (overflows_rotated (rotations array) _).lift fun _ => ?_
      exact .bind (.pure ()) fun _ => .pure _

theorem bounded_banksOf (parted : Everywhere Divided env) (arrays : List String) :
    Bounded (banksOf env arrays) := by
  induction arrays with
  | nil => exact .pure _
  | cons array arrays ih =>
    rw [banksOf]
    refine .bind_of_ok (bounded_layoutOf env array) fun layout found => ?_
    exact .bind (Layout.overflows_banks (parted.layoutOf found)).lift fun _ =>
      .bind ih fun _ => .pure _

/-- An access whose indices are placed. -/
theorem bounded_access (rotations : ctx.InWords) (parted : Everywhere Divided env) (pos : Nat)
    {array : String} {idxs : List TypedExpr}
    (placed : ∀ dims : List (Dim × Nat), (∀ d ∈ dims, d.1.splitsEvenly = .ok true) →
      Bounded (place ctx env pos array 0 idxs dims).result) (ty : Ty) (writes : Bool) :
    Bounded (do
      let layout ← layoutOf env array
      let strides ← layout.strides
      let placed ← place ctx env pos array 0 idxs (layout.dims.zip strides)
      resolve ctx pos array layout ty writes placed : Outcome TypedExpr).result := by
  simp only [Outcome.result_bind, Outcome.result_lift, Outcome.result_lift_fault]
  refine .bind_of_ok (bounded_layoutOf env array) fun layout found => ?_
  have divided := parted.layoutOf found
  refine .bind (Layout.overflows_stridesOf divided).lift fun strides => ?_
  refine .bind (placed _ ?_) fun _ => bounded_resolve rotations pos _ divided _ _ _
  exact fun d member => divided d.1 (List.of_mem_zip member).1

mutual

theorem bounded_read (rotations : ctx.InWords) (parted : Everywhere Divided env) (pos : Nat) :
    (e : TypedExpr) → Bounded (read ctx env pos e).result
  | .int .. | .bool .. | .var .. | .mem .. | .muxRead .. => .pure _
  | .binop ty op lhs rhs => by
    simp only [read, Outcome.result_bind]
    exact .bind (bounded_read rotations parted pos lhs) fun _ =>
      .bind (bounded_read rotations parted pos rhs) fun _ => .pure _
  | .access ty array idxs => by
    rw [read]
    exact bounded_access rotations parted pos (bounded_place rotations parted pos array 0 idxs) ty false
  | .app ty func args => by
    simp only [read, Outcome.result_bind, Outcome.result_lift]
    exact .bind (bounded_banksOf parted args) fun _ => .pure _

theorem bounded_place (rotations : ctx.InWords) (parted : Everywhere Divided env) (pos : Nat)
    (array : String) (base : Nat) : (idxs : List TypedExpr) → (dims : List (Dim × Nat)) →
      (∀ d ∈ dims, d.1.splitsEvenly = .ok true) → Bounded (place ctx env pos array base idxs dims).result
  | [], _, _ => .pure _
  | _ :: _, [], _ => .pure _
  | idx :: idxs, (dim, stride) :: dims, divided => by
    obtain ⟨first, others⟩ := List.forall_mem_cons.mp divided
    simp only [place, Outcome.result_bind, Outcome.result_lift_fault]
    refine .bind (bounded_read rotations parted pos idx) fun idx => ?_
    refine .bind_of_ok (overflows_staticBank? env idx first).lift fun bank known => ?_
    rw [lift_ok_iff] at known
    cases bank with
    | some bank =>
      simp only [Outcome.result_bind, Outcome.result_lift_fault]
      refine .bind (Overflows.mul _ _ _).lift fun _ => .bind (Overflows.add _ _ _).lift fun _ => ?_
      refine .bind_of_ok (Overflows.mul _ _ _).lift fun start multiplied => ?_
      rw [lift_ok_iff, Word.mul_eq_ok_iff] at multiplied
      obtain ⟨_, rfl⟩ := multiplied
      refine .bind (overflows_staticOffset known).lift fun _ => ?_
      exact .bind (bounded_place rotations parted pos array _ idxs dims others) fun _ => .pure _
    | none =>
      dsimp only
      split
      · simp only [Outcome.result_bind, Outcome.result_lift]
        exact .refuse_bind (.error _) _
      · simp only [Outcome.result_bind, Outcome.result_lift_fault]
        refine .bind (overflows_bankTerm _ _ _).lift fun _ => ?_
        refine .bind (overflows_maskedOffset _ (splitsEvenly_iff.mp first).2.1).lift fun _ => ?_
        exact .bind (bounded_place rotations parted pos array base idxs dims others) fun _ => .pure _

end

theorem bounded_write (rotations : ctx.InWords) (parted : Everywhere Divided env) (pos : Nat)
    (e : TypedExpr) :
    Bounded (write ctx env pos e).result := by
  unfold write
  split
  · exact bounded_access rotations parted pos (bounded_place rotations parted pos _ 0 _) _ true
  · exact .pure _

end

/-! ### Commands -/

mutual

theorem bounded_bankCommand {ctx : Context} (rotations : ctx.InWords) {env : Env}
    (parted : Everywhere Divided env)
    {tctx : Typing.Context} {types types' : Typing.Env} : {cmd : TypedCommand} →
      Typing.CheckedCommand tctx types cmd types' → Bounded (bankCommand ctx env cmd).result
  | .decl pos name ty, .decl declared _ => by
    rw [bankCommand]
    split
    · next layout found =>
      obtain ⟨elem, dims, rfl, rfl⟩ := isArray_of_ofTy? found
      simp only [Outcome.result_bind, Outcome.result_lift_fault]
      have divided : Divided dims := (Typing.declared_array declared).2
      exact .bind (overflows_declBanks (by exact divided) pos).lift fun _ => .pure _
    · exact .pure _
  | .define pos name ty init, .define .. => by
    simp only [bankCommand, Outcome.result_bind]
    exact .bind (bounded_read rotations parted pos init) fun _ => .pure _
  | .seq pos cmds, .seq checked => by
    simp only [bankCommand, Outcome.result_bind]
    exact .bind (bounded_bankSeq rotations parted checked) fun _ => .pure _
  | .branch pos cond onTrue onFalse, .branch _ _ yes no => by
    simp only [bankCommand, Outcome.result_bind]
    refine .bind (bounded_read rotations parted pos cond) fun _ => ?_
    refine .bind (bounded_bankCommand rotations parted.enter yes) fun _ => ?_
    exact .bind (bounded_bankElse rotations parted.enter no) fun _ => .pure _
  | .loop pos header body, .loop range checked => by
    simp only [bankCommand, Outcome.result_bind, Outcome.result_lift_fault]
    refine .bind (Overflows.sub (Nat.zero_lt_of_lt range.runs)).lift fun _ => ?_
    exact .bind (bounded_bankCommand rotations (parted.enter.iterator _ _) checked) fun _ => .pure _
  | .update pos target value, .update .. => by
    simp only [bankCommand, Outcome.result_bind]
    exact .bind (bounded_write rotations parted pos target) fun _ =>
      .bind (bounded_read rotations parted pos value) fun _ => .pure _
  | .reduce pos op target value, .reduce .. => by
    simp only [bankCommand, Outcome.result_bind]
    exact .bind (bounded_write rotations parted pos target) fun _ =>
      .bind (bounded_read rotations parted pos value) fun _ => .pure _
  | .eval pos e, _ => by
    simp only [bankCommand, Outcome.result_bind]
    exact .bind (bounded_read rotations parted pos e) fun _ => .pure _
  | .advance pos array, .advance _ => by
    rw [bankCommand]
    split
    · next rotation rotated =>
      simp only [Outcome.result_bind, Outcome.result_lift_fault]
      have positive := (rotations array rotation rotated).positive
      exact .bind (Rotation.overflows_step positive pos).lift fun _ => .pure _
    · exact .pure _
  | .skip pos, .skip => .pure _

theorem bounded_bankSeq {ctx : Context} (rotations : ctx.InWords) {env : Env}
    (parted : Everywhere Divided env)
    {tctx : Typing.Context} {types types' : Typing.Env} : {cmds : List TypedCommand} →
      Typing.CheckedSeq tctx types cmds types' → Bounded (bankSeq ctx env cmds).result
  | [], .nil => .pure _
  | cmd :: cmds, .cons first rest => by
    simp only [bankSeq, Outcome.result_bind]
    refine .bind_of_ok (bounded_bankCommand rotations parted first) ?_
    rintro ⟨banked, next⟩ split
    obtain ⟨_, rfl⟩ := bankCommand_ok cmd split
    exact .bind (bounded_bankSeq rotations (parted.after (divided_declaredTypes first)) rest) fun _ =>
      .pure _

theorem bounded_bankElse {ctx : Context} (rotations : ctx.InWords) {env : Env}
    (parted : Everywhere Divided env)
    {tctx : Typing.Context} {types : Typing.Env} : {cmd : Option TypedCommand} →
      Typing.CheckedElse tctx types cmd → Bounded (bankElse ctx env cmd).result
  | none, .none => .pure _
  | some cmd, .some checked => by
    simp only [bankElse, Outcome.result_bind]
    exact .bind (bounded_bankCommand rotations parted checked) fun _ => .pure _

end

/-! ### Components -/

theorem bounded_advancedLayout (env : Env) (body : TypedCommand) (array : String) :
    Bounded (advancedLayout env body array) := by
  unfold advancedLayout
  split
  · exact .pure _
  · split
    · exact .pure _
    · exact .refuse (.error _)

theorem bounded_setUpRotations (statements : Statements) {body : TypedCommand} {env : Env}
    (parted : Everywhere Divided env) (shaped : ∀ ty ∈ declaredTypes body, ty.Shaped Divided)
    (taken : List String) (advanced : List (String × Nat)) :
    Bounded (setUpRotations statements body env taken advanced).result := by
  induction advanced generalizing env taken with
  | nil => exact .pure _
  | cons entry advanced ih =>
    obtain ⟨array, pos⟩ := entry
    simp only [setUpRotations, Outcome.result_bind, Outcome.result_lift, Outcome.result_lift_fault]
    refine .bind_of_ok (bounded_advancedLayout env body array) fun layout found => ?_
    have divided := shaped_advancedLayout parted shaped found
    refine .bind (Layout.overflows_bankCount divided).lift fun banks => ?_
    split
    · exact ih parted taken
    · split
      · simp only [Outcome.result_bind, Outcome.result_lift]
        exact .refuse_bind (.error _) _
      · next power =>
        have positive : 0 < banks := pos_of_isPowerOfTwo (by simpa using power)
        simp only [Outcome.result_bind, Outcome.result_lift_fault, Outcome.result_tell]
        refine .bind (Rotation.overflows_ty positive).lift fun _ => .bind (.pure ()) fun _ => ?_
        exact .bind (ih (parted.scalar _) _) fun _ => .pure _

theorem bounded_bankBody (statements : Statements) {env : Env} (parted : Everywhere Divided env)
    {tctx : Typing.Context} {types types' : Typing.Env} {body : TypedCommand}
    (checked : Typing.CheckedCommand tctx types body types') :
    Bounded (bankBody statements env body).result := by
  simp only [bankBody, Outcome.result_bind]
  refine .bind_of_ok (bounded_setUpRotations statements parted
    (divided_declaredTypes checked) _ _) fun prologue setUp => ?_
  refine .bind (bounded_bankCommand (setUpRotations_inWords setUp) (parted.setUpRotations setUp)
    checked) fun _ => ?_
  split <;> exact .pure _

section

variable {ds : List Decl} (shaped : ∀ d ∈ ds, d.ty.Shaped Divided)

include shaped

theorem bounded_bankDecls (env : Env) : Bounded (bankDecls env ds) := by
  induction ds generalizing env with
  | nil => exact .pure _
  | cons d ds ih =>
    obtain ⟨first, later⟩ := List.forall_mem_cons.mp shaped
    have others := ih later
    rw [bankDecls]
    split
    · next layout found =>
      have divided := first.layout found
      exact .bind (Layout.overflows_split divided d.pos).lift fun _ => .bind (others _) fun _ => .pure _
    · exact .bind (others _) fun _ => .pure _

theorem bounded_memoriesOf (memories : Table String (List String)) :
    Bounded (memoriesOf memories ds) := by
  induction ds generalizing memories with
  | nil => exact .pure _
  | cons d ds ih =>
    obtain ⟨first, later⟩ := List.forall_mem_cons.mp shaped
    have others := ih later
    rw [memoriesOf]
    split
    · next layout found =>
      have divided := first.layout found
      exact .bind (Layout.overflows_banks divided).lift fun _ => others _
    · exact others memories

end

/-! ### Programs -/

theorem bounded_bankFunctions (statements : Statements) {funcs funcs' : List (String × List Decl)}
    {fs : List (Function Ty TypedExpr)} (checked : Typing.CheckedFunctions funcs fs funcs') :
    Bounded (bankFunctions statements fs).result := by
  induction checked with
  | nil => exact .pure _
  | @cons _ _ f fs first _ ih =>
    obtain ⟨types, types', decls, body⟩ := first.body
    simp only [bankFunctions, bankFunction, Outcome.result_bind, Outcome.result_lift,
      Outcome.result_tell]
    refine .bind (.bind_of_ok (bounded_bankDecls (divided_decls decls) {}) ?_) fun _ =>
      .bind ih fun _ => .pure _
    rintro ⟨params, env⟩ split
    obtain rfl := bankDecls_env split
    exact .bind (bounded_bankBody statements (Everywhere.empty.declared (divided_decls decls))
      body) fun _ => .bind (.pure ()) fun _ => .pure _

end Banking

/-- The split of a checked program subtracts nothing below zero and divides nothing by zero. -/
theorem Program.bounded_toBanks (statements : Statements) {p : TypedProgram}
    (checked : Typing.CheckedProgram p) : Bounded (p.toBanks statements).result := by
  obtain ⟨funcs, types, functions, decls, root⟩ := checked
  simp only [toBanks, Outcome.result_bind, Outcome.result_lift]
  refine .bind (Banking.bounded_bankFunctions statements functions) fun _ => ?_
  refine .bind_of_ok (Banking.bounded_bankDecls (Banking.divided_decls decls) {}) ?_
  rintro ⟨banked, env⟩ split
  obtain rfl := Banking.bankDecls_env split
  refine .bind (Banking.bounded_memoriesOf (Banking.divided_decls decls) {}) fun _ => ?_
  split
  · exact .bind (.pure ()) fun _ => .pure _
  · next body present =>
    rw [present] at root
    cases root with
    | some checked =>
      simp only [Outcome.result_bind, Outcome.result_map]
      exact .bind (.map (Banking.bounded_bankBody statements
        (Banking.Everywhere.empty.declared (Banking.divided_decls decls)) checked) _) fun _ =>
        .bind (.pure ()) fun _ => .pure _

end BankedLoops
