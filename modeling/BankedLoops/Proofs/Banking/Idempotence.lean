import BankedLoops.Proofs.Tables
import BankedLoops.Proofs.Banking.OverBanks
import BankedLoops.Proofs.Banking.Scopes

/-!
# Splitting twice

What is split into banks has nothing left to split: its arrays are in one piece, its accesses go to
memories and its calls name memories. `bankCommand_of_final` says that such a command stays as it is,
and `final_of_banked` that splitting makes nothing else, so `Program.toBanks_toBanks` is the law that a
second split changes nothing.

The environment of the second split is built from the declarations of the memories alone. `Rebuilt`
relates it to that of the first: behind every array that is visible there, all its memories are
visible here.
-/

namespace BankedLoops

namespace Banking

/-! ### Arrays in one piece -/

/-- Every dimension is that of one memory. -/
def OnePiece (dims : List Dim) : Prop := ∀ d ∈ dims, 0 < d.size ∧ d.bank = d.size

theorem OnePiece.divided {dims : List Dim} (whole : OnePiece dims) : Divided dims := by
  intro d member
  obtain ⟨positive, same⟩ := whole d member
  rw [splitsEvenly_iff, same, Nat.div_self positive, Nat.one_mul]
  exact ⟨positive, positive, rfl⟩

theorem OnePiece.bankDims_eq {dims : List Dim} (whole : OnePiece dims) : bankDims dims = dims := by
  have same : ∀ d ∈ dims, Dim.unbanked d.bank = d := by
    rintro ⟨size, bank⟩ member
    obtain rfl : bank = size := (whole _ member).2
    rfl
  rw [bankDims, List.map_congr_left same, List.map_id']

theorem OnePiece.bankTotal_eq {dims : List Dim} (whole : OnePiece dims) : bankTotal dims = 1 := by
  induction dims with
  | nil => rfl
  | cons d dims ih =>
    obtain ⟨⟨positive, same⟩, rest⟩ := List.forall_mem_cons.mp whole
    rw [bankTotal, ih rest, same, Nat.div_self positive]

/-- The memories of an array are in one piece. -/
theorem onePiece_bankDims {dims : List Dim} (some : 0 < bankTotal dims) : OnePiece (bankDims dims) := by
  induction dims with
  | nil => exact nofun
  | cons d dims ih =>
    rw [bankTotal] at some
    have parts : 0 < d.size / d.bank := Nat.pos_of_mul_pos_right some
    refine List.forall_mem_cons.mpr ⟨⟨?_, rfl⟩, ih (Nat.pos_of_mul_pos_left some)⟩
    refine Nat.pos_of_ne_zero fun (none : d.bank = 0) => ?_
    rw [none, Nat.div_zero] at parts
    exact Nat.lt_irrefl 0 parts

/-- An array in one piece is its own only memory. -/
theorem OnePiece.banks_eq {dims : List Dim} (whole : OnePiece dims) (name : String) (elem : Ty) :
    Layout.banks ⟨name, elem, dims⟩ = .ok [name] := by
  have one := whole.bankTotal_eq
  have counted : Layout.bankCount ⟨name, elem, dims⟩ = .ok 1 := by
    rw [Layout.bankCount_ok whole.divided (by rw [one]; decide), one]
  rw [Layout.banks, counted]
  rfl

theorem OnePiece.split_eq {dims : List Dim} (whole : OnePiece dims) (name : String) (elem : Ty)
    (pos : Nat) : Layout.split ⟨name, elem, dims⟩ pos = .ok [⟨pos, name, .array elem dims⟩] := by
  have same : Layout.bankTy ⟨name, elem, dims⟩ = .array elem dims :=
    congrArg (Ty.array elem) whole.bankDims_eq
  rw [Layout.split, whole.banks_eq, ok_bind, same]
  rfl

/-! ### Nothing left to split -/

/-- An array that is declared in one piece. -/
def IsPiece (env : Env) (name : String) : Prop :=
  ∃ elem dims, env.get? name = some (.array ⟨name, elem, dims⟩) ∧ OnePiece dims

/-- Whether a value has no element of an array left, and every call names arrays in one piece. -/
def Final (env : Env) : TypedExpr → Prop
  | .binop _ _ lhs rhs => Final env lhs ∧ Final env rhs
  | .access .. => False
  | .app _ _ args => ∀ arg ∈ args, IsPiece env arg
  | _ => True

/-- Whether a type is that of a scalar or of an array in one piece. -/
def FinalTy (ty : Ty) : Prop := ∀ elem dims, ty = .array elem dims → OnePiece dims

mutual

/-- Whether a command has nothing left to split and turns no banks. -/
def FinalCommand (env : Env) : TypedCommand → Prop
  | .decl _ _ ty => FinalTy ty
  | .define _ _ _ init => Final env init
  | .seq _ cmds => FinalSeq env cmds
  | .branch _ cond onTrue onFalse =>
    Final env cond ∧ FinalCommand env.enter onTrue ∧ FinalElse env.enter onFalse
  | .loop _ header body => 0 < header.stop ∧
    FinalCommand (env.enter.rebind header.iter (.iterator ⟨header.start, header.stop - 1⟩)) body
  | .update _ target value => (∀ ty array idxs, target ≠ .access ty array idxs) ∧ Final env value
  | .reduce _ _ target value => (∀ ty array idxs, target ≠ .access ty array idxs) ∧ Final env value
  | .eval _ e => Final env e
  | .advance .. => False
  | .skip _ => True

def FinalSeq (env : Env) : List TypedCommand → Prop
  | [] => True
  | cmd :: cmds => FinalCommand env cmd ∧ FinalSeq (after env cmd) cmds

def FinalElse (env : Env) : Option TypedCommand → Prop
  | none => True
  | some cmd => FinalCommand env cmd

end

section

variable {env : Env}

theorem banksOf_of_pieces {names : List String} (pieces : ∀ name ∈ names, IsPiece env name) :
    banksOf env names = .ok names := by
  induction names with
  | nil => rfl
  | cons name names ih =>
    obtain ⟨⟨elem, dims, visible, whole⟩, others⟩ := List.forall_mem_cons.mp pieces
    have found : layoutOf env name = .ok ⟨name, elem, dims⟩ := by
      rw [layoutOf, visible]
      rfl
    simp only [banksOf, bind_ok_iff, lift_ok_iff, pure_ok_iff]
    exact ⟨_, found, _, whole.banks_eq name elem, names, ih others, rfl⟩

theorem read_of_final (ctx : Context) (pos : Nat) : (e : TypedExpr) → Final env e →
    (read ctx env pos e).result = .ok e
  | .binop ty op lhs rhs, final => by
    simp only [read, Outcome.result_bind, Outcome.result_pure, read_of_final ctx pos lhs final.1,
      read_of_final ctx pos rhs final.2, ok_bind]
  | .app ty func args, final => by
    simp only [read, Outcome.result_bind, Outcome.result_lift, Outcome.result_pure,
      banksOf_of_pieces final, ok_bind]
  | .int .., _ | .bool .., _ | .var .., _ | .mem .., _ | .muxRead .., _ => rfl

theorem write_of_ne_access (ctx : Context) (pos : Nat) {e : TypedExpr}
    (notAccess : ∀ ty array idxs, e ≠ .access ty array idxs) :
    (write ctx env pos e).result = .ok e := by
  cases e with
  | access ty array idxs => exact absurd rfl (notAccess ty array idxs)
  | _ => rfl

theorem declBanks_of_final {name : String} {elem : Ty} {dims : List Dim} (whole : OnePiece dims)
    (pos : Nat) : declBanks ⟨name, elem, dims⟩ pos = .ok (.decl pos name (.array elem dims)) := by
  rw [declBanks, whole.split_eq]
  rfl

mutual

/-- A command with nothing left to split stays as it is. -/
theorem bankCommand_of_final (ctx : Context) : {env : Env} → (cmd : TypedCommand) →
    FinalCommand env cmd → (bankCommand ctx env cmd).result = .ok (cmd, after env cmd)
  | env, .decl pos name ty, final => by
    cases ty with
    | array elem dims =>
      simp only [bankCommand, Layout.ofTy?, Outcome.result_bind, Outcome.result_lift_fault,
        declBanks_of_final (final elem dims rfl) pos, Outcome.result_pure]
      rfl
    | _ => rfl
  | env, .define pos name ty init, final => by
    simp only [bankCommand, Outcome.result_bind, Outcome.result_pure,
      read_of_final ctx pos init final, ok_bind, after]
  | env, .seq pos cmds, final => by
    simp only [bankCommand, Outcome.result_bind, Outcome.result_pure,
      bankSeq_of_final ctx cmds final, ok_bind, after]
  | env, .branch pos cond onTrue onFalse, final => by
    simp only [bankCommand, Outcome.result_bind, Outcome.result_pure,
      read_of_final ctx pos cond final.1, bankCommand_of_final ctx onTrue final.2.1,
      bankElse_of_final ctx onFalse final.2.2, ok_bind, after]
  | env, .loop pos header body, final => by
    have last : (liftM (Word.sub header.stop 1) : Except Failure Nat) = .ok (header.stop - 1) :=
      lift_ok_iff.mpr (Word.sub_eq_ok_iff.mpr ⟨final.1, rfl⟩)
    simp only [bankCommand, Outcome.result_bind, Outcome.result_lift_fault, Outcome.result_pure, last,
      bankCommand_of_final ctx body final.2, ok_bind, after]
  | env, .update pos target value, final => by
    simp only [bankCommand, Outcome.result_bind, Outcome.result_pure,
      write_of_ne_access ctx pos final.1, read_of_final ctx pos value final.2, ok_bind, after]
  | env, .reduce pos op target value, final => by
    simp only [bankCommand, Outcome.result_bind, Outcome.result_pure,
      write_of_ne_access ctx pos final.1, read_of_final ctx pos value final.2, ok_bind, after]
  | env, .eval pos e, final => by
    simp only [bankCommand, Outcome.result_bind, Outcome.result_pure,
      read_of_final ctx pos e final, ok_bind, after]
  | env, .skip pos, _ => rfl

theorem bankSeq_of_final (ctx : Context) : {env : Env} → (cmds : List TypedCommand) →
    FinalSeq env cmds → (bankSeq ctx env cmds).result = .ok (cmds, afterSeq env cmds)
  | env, [], _ => rfl
  | env, cmd :: cmds, final => by
    simp only [bankSeq, Outcome.result_bind, Outcome.result_pure,
      bankCommand_of_final ctx cmd final.1, bankSeq_of_final ctx cmds final.2, ok_bind, afterSeq]

theorem bankElse_of_final (ctx : Context) : {env : Env} → (cmd : Option TypedCommand) →
    FinalElse env cmd → (bankElse ctx env cmd).result = .ok cmd
  | env, none, _ => rfl
  | env, some cmd, final => by
    simp only [bankElse, Outcome.result_bind, Outcome.result_pure,
      bankCommand_of_final ctx cmd final, ok_bind]

end

mutual

theorem advances_of_final : {env : Env} → (cmd : TypedCommand) → FinalCommand env cmd →
    advances cmd = []
  | _, .seq _ cmds, final => advancesOfSeq_of_final cmds final
  | _, .branch _ _ onTrue onFalse, final => by
    rw [advances, advances_of_final onTrue final.2.1, advancesOfElse_of_final onFalse final.2.2,
      List.append_nil]
  | _, .loop _ _ body, final => advances_of_final body final.2
  | _, .decl .., _ | _, .define .., _ | _, .update .., _ | _, .reduce .., _ | _, .eval .., _
  | _, .skip _, _ => rfl

theorem advancesOfSeq_of_final : {env : Env} → (cmds : List TypedCommand) → FinalSeq env cmds →
    advancesOfSeq cmds = []
  | _, [], _ => rfl
  | _, cmd :: cmds, final => by
    rw [advancesOfSeq, advances_of_final cmd final.1, advancesOfSeq_of_final cmds final.2,
      List.append_nil]

theorem advancesOfElse_of_final : {env : Env} → (cmd : Option TypedCommand) → FinalElse env cmd →
    advancesOfElse cmd = []
  | _, none, _ => rfl
  | _, some cmd, final => advances_of_final cmd final

end

/-- A body with nothing left to split needs no register. -/
theorem bankBody_of_final (statements : Statements) {body : TypedCommand}
    (final : FinalCommand env body) : (bankBody statements env body).result = .ok body := by
  have none : firstOfEach (advances body) = [] := by
    rw [advances_of_final body final]
    rfl
  -- Without rotations the second split has no set-up to put in front of the body.
  rw [bankBody, none, Outcome.result_bind]
  show (bankCommand ⟨statements, []⟩ env body >>= fun banked => pure banked.1).result = _
  rw [Outcome.result_bind, bankCommand_of_final _ body final]
  rfl

theorem bankDecls_of_final {ds : List Decl} (final : ∀ d ∈ ds, FinalTy d.ty) :
    bankDecls env ds = .ok (ds, declared env ds) := by
  induction ds generalizing env with
  | nil => rfl
  | cons d ds ih =>
    obtain ⟨first, others⟩ := List.forall_mem_cons.mp final
    obtain ⟨pos, name, ty⟩ := d
    cases ty with
    | array elem dims =>
      simp only [bankDecls, Layout.ofTy?, bind_ok_iff, lift_ok_iff, pure_ok_iff, Prod.mk.injEq]
      exact ⟨_, (first elem dims rfl).split_eq name elem pos, _, ih others, rfl, rfl⟩
    | _ =>
      simp only [bankDecls, Layout.ofTy?, bind_ok_iff, pure_ok_iff, Prod.mk.injEq]
      exact ⟨_, ih others, rfl, rfl⟩

end

/-! ### Environments -/

/-- A declaration of an array in one piece. -/
def DeclaresPiece (d : Decl) : Prop := ∃ elem dims, d.ty = .array elem dims ∧ OnePiece dims

/-- Behind every visible array of a component, all its memories are visible in one piece. Which elements
and dimensions a memory has does not matter, so no declaration of another array can break this. -/
structure Rebuilt (arrays : List String) (env env' : Env) : Prop where
  named : ∀ name layout, env.get? name = some (.array layout) → layout.name = name
  isArray : ∀ name layout, env.get? name = some (.array layout) → name ∈ arrays
  pieces : ∀ name layout, env.get? name = some (.array layout) →
    ∀ k, k < bankTotal layout.dims → IsPiece env' (layout.memory k)

section

variable {arrays names : List String} {env env' : Env}

theorem IsPiece.rebind_of_ne {name other : String} (piece : IsPiece env name)
    (different : name ≠ other) (binding : Binding) : IsPiece (env.rebind other binding) name := by
  obtain ⟨elem, dims, visible, whole⟩ := piece
  refine ⟨elem, dims, ?_, whole⟩
  rw [Scope.get?_rebind, if_neg different, visible]

theorem isPiece_declare {d : Decl} (new : DeclaresPiece d) :
    IsPiece (env.rebind d.name (.ofTy d.name d.ty)) d.name := by
  obtain ⟨elem, dims, isArray, whole⟩ := new
  refine ⟨elem, dims, ?_, whole⟩
  rw [Scope.get?_rebind_self, isArray]
  rfl

/-- An array in one piece stays one behind the declarations of others, also if they have its name. -/
theorem IsPiece.declared {name : String} (piece : IsPiece env name) {ds : List Decl}
    (all : ∀ d ∈ ds, DeclaresPiece d) : IsPiece (declared env ds) name := by
  induction ds generalizing env with
  | nil => exact piece
  | cons d ds ih =>
    obtain ⟨first, others⟩ := List.forall_mem_cons.mp all
    refine ih ?_ others
    by_cases same : name = d.name
    · rw [same]
      exact isPiece_declare first
    · exact piece.rebind_of_ne same _

theorem isPiece_declared_of_mem {ds : List Decl} (all : ∀ d ∈ ds, DeclaresPiece d) {d : Decl}
    (member : d ∈ ds) : IsPiece (declared env ds) d.name := by
  induction ds generalizing env with
  | nil => cases member
  | cons e ds ih =>
    obtain ⟨first, others⟩ := List.forall_mem_cons.mp all
    rcases List.mem_cons.mp member with rfl | later
    · exact (isPiece_declare first).declared others
    · exact ih others later

theorem declared_append (ds es : List Decl) : declared env (ds ++ es) = declared (declared env ds) es :=
  List.foldl_append

theorem isPiece_of_split {l : Layout} {pos : Nat} {ds : List Decl} (split : l.split pos = .ok ds) :
    ∀ d ∈ ds, DeclaresPiece d := by
  rw [Layout.split_eq split]
  intro d member
  obtain ⟨k, inside, rfl⟩ := List.mem_map.mp member
  exact ⟨_, _, rfl, onePiece_bankDims (Nat.zero_lt_of_lt (List.mem_range.mp inside))⟩

theorem DeclaresPiece.final {d : Decl} (piece : DeclaresPiece d) : FinalTy d.ty := by
  obtain ⟨elem, dims, isArray, whole⟩ := piece
  intro _ _ same
  cases isArray.symm.trans same
  exact whole

namespace Rebuilt

theorem empty (arrays : List String) : Rebuilt arrays {} {} where
  named := nofun
  isArray := nofun
  pieces := nofun

theorem enter (rebuilt : Rebuilt arrays env env') : Rebuilt arrays env.enter env'.enter where
  named := rebuilt.named
  isArray := rebuilt.isArray
  pieces := rebuilt.pieces

/-- Binding a name that is no array and none of a memory that is still visible. -/
theorem rebind (rebuilt : Rebuilt arrays env env') {name : String} {binding : Binding}
    (plain : ∀ layout, binding ≠ .array layout)
    (apart : ∀ layout, env.get? layout.name = some (.array layout) → name ≠ layout.name →
      ∀ k, layout.memory k ≠ name) (binding' : Binding) :
    Rebuilt arrays (env.rebind name binding) (env'.rebind name binding') := by
  have before {other : String} {layout : Layout}
      (visible : (env.rebind name binding).get? other = some (.array layout)) :
      other ≠ name ∧ env.get? other = some (.array layout) := by
    rw [Scope.get?_rebind] at visible
    split at visible
    · exact absurd (Option.some.inj visible) (plain layout)
    · next different => exact ⟨different, visible⟩
  refine ⟨fun other layout visible => rebuilt.named other layout (before visible).2,
    fun other layout visible => rebuilt.isArray other layout (before visible).2, ?_⟩
  intro other layout visible k lt
  obtain ⟨different, visible⟩ := before visible
  obtain rfl := rebuilt.named other layout visible
  exact (rebuilt.pieces _ layout visible k lt).rebind_of_ne (apart layout visible different.symm k) _

/-- In a clean component no scalar and no iterator hides a memory. -/
theorem rebindPlain (rebuilt : Rebuilt arrays env env') (clean : BankNameClean arrays names)
    {name : String} (fresh : name ∈ names) {binding : Binding}
    (plain : ∀ layout, binding ≠ .array layout) (binding' : Binding) :
    Rebuilt arrays (env.rebind name binding) (env'.rebind name binding') :=
  rebuilt.rebind plain (fun layout visible different k =>
    (memory_ne_name clean (rebuilt.isArray _ layout visible) fresh different k).symm) binding'

/-- Declaring an array, and its memories in its place. -/
theorem split (rebuilt : Rebuilt arrays env env') {l : Layout} (array : l.name ∈ arrays) {pos : Nat}
    {ds : List Decl} (split : l.split pos = .ok ds) :
    Rebuilt arrays (env.rebind l.name (.array l)) (declared env' ds) := by
  have all := isPiece_of_split split
  refine ⟨?_, ?_, ?_⟩ <;> intro other layout visible <;> rw [Scope.get?_rebind] at visible <;>
    split at visible
  · next same =>
    cases visible
    exact same.symm
  · exact rebuilt.named other layout visible
  · next same => exact same ▸ array
  · exact rebuilt.isArray other layout visible
  · cases visible
    intro k lt
    have member : ⟨pos, l.memory k, l.bankTy⟩ ∈ ds := by
      rw [Layout.split_eq split]
      exact List.mem_map_of_mem (List.mem_range.mpr lt)
    exact isPiece_declared_of_mem all member
  · exact fun k lt => (rebuilt.pieces other layout visible k lt).declared all

end Rebuilt

theorem pieces_of_banksOf (rebuilt : Rebuilt arrays env env') {args banks : List String}
    (given : banksOf env args = .ok banks) : ∀ bank ∈ banks, IsPiece env' bank := by
  induction args generalizing banks with
  | nil =>
    cases given
    exact nofun
  | cons arg args ih =>
    simp only [banksOf, bind_ok_iff, lift_ok_iff, pure_ok_iff] at given
    obtain ⟨layout, found, names, named, rest, others, rfl⟩ := given
    rw [List.forall_mem_append]
    refine ⟨fun bank member => ?_, ih others⟩
    rw [Layout.banks_eq named] at member
    obtain ⟨k, inside, rfl⟩ := List.mem_map.mp member
    exact rebuilt.pieces arg layout (layoutOf_ok found) k (List.mem_range.mp inside)

/-! ### What the first split makes -/

theorem Final.of_over {leaves : List TypedExpr} {e : TypedExpr} (spans : Lowering.Over leaves e)
    (all : ∀ leaf ∈ leaves, Final env leaf) : Final env e := by
  induction spans with
  | leaf member => exact all _ member
  | int ty n => trivial
  | binop ty op _ _ left right => exact ⟨left, right⟩

variable {ctx : Context}

theorem final_of_resolved {array : String} {layout : Layout} {ty : Ty} {writes : Bool} {p : Placement}
    {e : TypedExpr}
    (resolved : ResolvedAs ctx array layout ty writes p e) : Final env e := by
  cases resolved <;> trivial

theorem final_of_read (rebuilt : Rebuilt arrays env env') {e e' : TypedExpr}
    (read : ReadAs ctx env e e') : Final env' e' := by
  cases read with
  | int | bool | var | mem | muxRead => trivial
  | binop left right => exact ⟨final_of_read rebuilt left, final_of_read rebuilt right⟩
  | access _ _ _ resolved => exact final_of_resolved resolved
  | app given => exact pieces_of_banksOf rebuilt given

theorem ne_access_of_written {e e' : TypedExpr} (written : WrittenAs ctx env e e') :
    ∀ ty array idxs, e' ≠ .access ty array idxs := by
  cases written with
  | element _ _ _ resolved => cases resolved <;> exact nofun
  | other notAccess => exact notAccess

theorem afterSeq_decls (env : Env) (pos : Nat) (ds : List Decl) :
    afterSeq env (ds.map fun d => .decl pos d.name d.ty) = declared env ds := by
  induction ds generalizing env with
  | nil => rfl
  | cons d ds ih => exact ih _

theorem finalSeq_decls (pos : Nat) {ds : List Decl} (all : ∀ d ∈ ds, DeclaresPiece d) :
    FinalSeq env (ds.map fun d => .decl pos d.name d.ty) := by
  induction ds generalizing env with
  | nil => trivial
  | cons d ds ih =>
    obtain ⟨first, others⟩ := List.forall_mem_cons.mp all
    exact ⟨first.final, ih others⟩

theorem final_declBanks {l : Layout} {pos : Nat} {cmd : TypedCommand}
    (banked : declBanks l pos = .ok cmd) (env : Env) :
    ∃ ds, l.split pos = .ok ds ∧ FinalCommand env cmd ∧ after env cmd = declared env ds := by
  obtain ⟨ds, split, form⟩ := declBanks_split banked
  have all := isPiece_of_split split
  refine ⟨ds, split, ?_⟩
  obtain ⟨d, rfl, rfl⟩ | ⟨_, rfl⟩ := form
  · exact ⟨(all d List.mem_cons_self).final, rfl⟩
  · exact ⟨finalSeq_decls pos all, afterSeq_decls env pos ds⟩

theorem final_step {r : Rotation} {pos : Nat} {step : TypedCommand} (stepped : r.step pos = .ok step)
    (env : Env) : FinalCommand env step ∧ after env step = env := by
  obtain ⟨ty, next, _, spans, rfl⟩ := Lowering.Over.step stepped
  exact ⟨⟨nofun, .of_over spans (List.forall_mem_singleton.mpr trivial)⟩, rfl⟩

end

section

variable {arrays names : List String} {ctx : Context}

mutual

/-- The split of a command has nothing left to split, and declares every memory that the commands
after it name. -/
theorem final_of_banked (clean : BankNameClean arrays names) : {env env' : Env} →
    {cmd cmd' : TypedCommand} → BankedCommand ctx env cmd cmd' → Rebuilt arrays env env' →
    binders cmd ⊆ names → arraysIn cmd ⊆ arrays →
    FinalCommand env' cmd' ∧ Rebuilt arrays (after env cmd) (after env' cmd')
  | _, env', _, _, .array found banked, rebuilt, _, array => by
    obtain ⟨elem, dims, rfl, rfl⟩ := isArray_of_ofTy? found
    obtain ⟨ds, split, final, behind⟩ := final_declBanks banked env'
    rw [behind]
    exact ⟨final, rebuilt.split (array (by simp [arraysIn, Ty.isArray])) split⟩
  | _, _, .decl _ name ty, _, .scalar found, rebuilt, bound, _ => by
    -- Only a scalar could hide a memory, and in a clean component it has another name.
    have plain : ∀ layout, Binding.ofTy name ty ≠ .array layout := by
      rw [Binding.ofTy, found]
      exact nofun
    refine ⟨?_, rebuilt.rebindPlain clean (bound List.mem_cons_self) plain _⟩
    rintro elem dims rfl
    cases found
  | _, _, _, _, .define value, rebuilt, bound, _ =>
    ⟨final_of_read rebuilt value,
      rebuilt.rebindPlain clean (bound List.mem_cons_self) (by simp) _⟩
  | _, _, _, _, .seq all, rebuilt, bound, array => finalSeq_of_banked clean all rebuilt bound array
  | _, _, _, _, .branch value yes no, rebuilt, bound, array => by
    obtain ⟨first, _⟩ := final_of_banked clean yes rebuilt.enter
      (fun x member => bound (List.mem_append_left _ member))
      (fun x member => array (List.mem_append_left _ member))
    have second := finalElse_of_banked clean no rebuilt.enter
      (fun x member => bound (List.mem_append_right _ member))
      (fun x member => array (List.mem_append_right _ member))
    exact ⟨⟨final_of_read rebuilt value, first, second⟩, rebuilt⟩
  | _, _, _, _, .loop nonempty round, rebuilt, bound, array => by
    obtain ⟨inner, _⟩ := final_of_banked clean round
      (rebuilt.enter.rebindPlain clean (bound List.mem_cons_self) (by simp) _)
      (fun x member => bound (List.mem_cons_of_mem _ member)) array
    exact ⟨⟨nonempty, inner⟩, rebuilt⟩
  | _, _, _, _, .update place read, rebuilt, _, _ =>
    ⟨⟨ne_access_of_written place, final_of_read rebuilt read⟩, rebuilt⟩
  | _, _, _, _, .reduce place read, rebuilt, _, _ =>
    ⟨⟨ne_access_of_written place, final_of_read rebuilt read⟩, rebuilt⟩
  | _, _, _, _, .eval value, rebuilt, _, _ => ⟨final_of_read rebuilt value, rebuilt⟩
  | _, env', _, _, .rotate _ stepped, rebuilt, _, _ => by
    obtain ⟨final, same⟩ := final_step stepped env'
    rw [same]
    exact ⟨final, rebuilt⟩
  | _, _, _, _, .still _, rebuilt, _, _ => ⟨trivial, rebuilt⟩
  | _, _, _, _, .skip, rebuilt, _, _ => ⟨trivial, rebuilt⟩

theorem finalSeq_of_banked (clean : BankNameClean arrays names) : {env env' : Env} →
    {cmds cmds' : List TypedCommand} → BankedSeq ctx env cmds cmds' → Rebuilt arrays env env' →
    bindersOfSeq cmds ⊆ names → arraysInSeq cmds ⊆ arrays →
    FinalSeq env' cmds' ∧ Rebuilt arrays (afterSeq env cmds) (afterSeq env' cmds')
  | _, _, _, _, .nil, rebuilt, _, _ => ⟨trivial, rebuilt⟩
  | _, _, _, _, .cons first rest, rebuilt, bound, array => by
    obtain ⟨final, rebuilt⟩ := final_of_banked clean first rebuilt
      (fun x member => bound (List.mem_append_left _ member))
      (fun x member => array (List.mem_append_left _ member))
    obtain ⟨others, rebuilt⟩ := finalSeq_of_banked clean rest rebuilt
      (fun x member => bound (List.mem_append_right _ member))
      (fun x member => array (List.mem_append_right _ member))
    exact ⟨⟨final, others⟩, rebuilt⟩

theorem finalElse_of_banked (clean : BankNameClean arrays names) : {env env' : Env} →
    {cmd cmd' : Option TypedCommand} → BankedElse ctx env cmd cmd' → Rebuilt arrays env env' →
    bindersOfElse cmd ⊆ names → arraysInElse cmd ⊆ arrays → FinalElse env' cmd'
  | _, _, _, _, .none, _, _, _ => trivial
  | _, _, _, _, .some banked, rebuilt, bound, array =>
    (final_of_banked clean banked rebuilt bound array).1

end

end

/-! ### Components -/

section

variable {arrays names : List String} {env env' : Env} {statements : Statements}

theorem final_of_bankDecls {ds ds' : List Decl} (split : bankDecls env ds = .ok (ds', env')) :
    ∀ d ∈ ds', FinalTy d.ty := by
  replace split := bankDecls_ok split
  induction split with
  | nil => exact nofun
  | array split _ ih =>
    exact List.forall_mem_append.mpr ⟨fun d member => (isPiece_of_split split d member).final, ih⟩
  | scalar found _ ih =>
    refine List.forall_mem_cons.mpr ⟨?_, ih⟩
    intro elem dims isArray
    rw [isArray] at found
    cases found

theorem Rebuilt.bankDecls (clean : BankNameClean arrays names) {ds ds' : List Decl} {last : Env}
    (split : bankDecls env ds = .ok (ds', last)) (rebuilt : Rebuilt arrays env env')
    (bound : ds.map (·.name) ⊆ names) (array : (ds.filter (·.ty.isArray)).map (·.name) ⊆ arrays) :
    Rebuilt arrays last (declared env' ds') := by
  replace split := bankDecls_ok split
  induction split generalizing env' with
  | nil => exact rebuilt
  | array split _ ih =>
    obtain ⟨_, otherNames⟩ := List.cons_subset.mp bound
    obtain ⟨member, otherArrays⟩ := List.cons_subset.mp array
    rw [declared_append]
    exact ih (rebuilt.split member split) otherNames otherArrays
  | @scalar env _ d _ _ found _ ih =>
    obtain ⟨fresh, otherNames⟩ := List.cons_subset.mp bound
    rw [List.filter_cons_of_neg (by simp [isArray_of_ofTy?_none found])] at array
    have next : Rebuilt arrays (env.rebind d.name .scalar) (env'.rebind d.name (.ofTy d.name d.ty)) :=
      rebuilt.rebindPlain clean fresh (by simp) _
    exact (ih next otherNames array :)

theorem finalSeq_append {cmds others : List TypedCommand} (first : FinalSeq env cmds)
    (second : FinalSeq (afterSeq env cmds) others) : FinalSeq env (cmds ++ others) := by
  induction cmds generalizing env with
  | nil => exact second
  | cons cmd cmds ih => exact ⟨first.1, ih first.2 second⟩

/-- The registers that rotate arrays hide no memory: they have names that are not visible, and none
of a bank. -/
theorem Rebuilt.setUp {body : TypedCommand} {taken : List String} {advanced : List (String × Nat)}
    {prologue : Prologue}
    (success : (setUpRotations statements body env taken advanced).result = .ok prologue)
    (rebuilt : Rebuilt arrays env env') :
    FinalSeq env' prologue.setup ∧ Rebuilt arrays prologue.env (afterSeq env' prologue.setup) := by
  induction advanced generalizing env env' taken prologue with
  | nil =>
    cases success
    exact ⟨trivial, rebuilt⟩
  | cons entry advanced ih =>
    obtain ⟨layout, banks, _, _, ⟨_, rest⟩ | ⟨register, ty, inner, named, _, _, rest, rfl⟩⟩ :=
      setUpRotations_cons success
    · exact ih rest rebuilt
    · have free := (not_mem_of_unboundName named).1
      have apart : ∀ layout, env.get? layout.name = some (.array layout) → register ≠ layout.name →
          ∀ k, layout.memory k ≠ register := by
        intro layout visible different k
        unfold Layout.memory
        split
        · exact different.symm
        · rw [named]
          exact (Layout.suffixed_ne_bankName entry.1 layout.name _ k).symm
      obtain ⟨final, last⟩ := ih rest (rebuilt.rebind (by simp) apart .scalar)
      exact ⟨⟨trivial, final⟩, last⟩

/-- A component has nothing left to split over the declarations of its memories. -/
theorem final_component {ds ds' : List Decl} {body body' : TypedCommand}
    (clean : BankNameClean (arrayNames ds (some body)) (boundNames ds (some body)))
    (storage : bankDecls {} ds = .ok (ds', env))
    (split : (bankBody statements env body).result = .ok body') :
    FinalCommand (declared {} ds') body' := by
  obtain ⟨prologue, inner, setUp, banked, rfl⟩ := bankBody_ok split
  have rebuilt := (Rebuilt.empty _).bankDecls clean storage (List.subset_append_left _ _)
    (List.subset_append_left _ _)
  obtain ⟨registers, rebuilt⟩ := rebuilt.setUp setUp
  obtain ⟨final, _⟩ := final_of_banked clean banked rebuilt (List.subset_append_right _ _)
    (List.subset_append_right _ _)
  split
  · next none =>
    rw [List.isEmpty_iff.mp none] at final
    exact final
  · exact finalSeq_append registers ⟨final, trivial⟩

theorem bankFunctions_again {fs fs' : List (Function Ty TypedExpr)}
    (clean : ∀ f ∈ fs, BankNameClean (arrayNames f.params (some f.body))
      (boundNames f.params (some f.body)))
    (split : (bankFunctions statements fs).result = .ok fs') (statements' : Statements) :
    (bankFunctions statements' fs').result = .ok fs' := by
  induction fs generalizing fs' with
  | nil =>
    cases split
    rfl
  | cons f fs ih =>
    obtain ⟨first, others⟩ := List.forall_mem_cons.mp clean
    simp only [bankFunctions, Outcome.result_bind, Outcome.result_pure, bind_ok_iff,
      Except.ok.injEq] at split
    obtain ⟨f', function, rest, functions, rfl⟩ := split
    obtain ⟨params, env, body, storage, banked, rfl⟩ := bankFunction_ok function
    have again : (bankFunction statements' ⟨f.pos, f.name, params, body⟩).result =
        .ok ⟨f.pos, f.name, params, body⟩ := by
      simp only [bankFunction, Outcome.result_bind, Outcome.result_lift, Outcome.result_tell,
        Outcome.result_pure, bankDecls_of_final (final_of_bankDecls storage),
        bankBody_of_final statements' (final_component first storage banked), ok_bind]
    simp only [bankFunctions, Outcome.result_bind, Outcome.result_pure, again, ih others functions,
      ok_bind]

/-! ### Programs -/

/-- The table in which every declared array is its own only memory. -/
def ownMemories (ds : List Decl) : Table String (List String) :=
  .ofList ((ds.filter (·.ty.isArray)).map fun d => (d.name, [d.name]))

theorem memoriesOf_of_final {ds : List Decl} (final : ∀ d ∈ ds, FinalTy d.ty) :
    memoriesOf {} ds = .ok (ownMemories ds) := by
  have general : ∀ (ds : List Decl) (memories : Table String (List String)),
      (∀ d ∈ ds, FinalTy d.ty) → memoriesOf memories ds =
        .ok (((ds.filter (·.ty.isArray)).map fun d => (d.name, [d.name])).foldl
          (fun t entry => t.insert entry.1 entry.2) memories) := by
    intro ds
    induction ds with
    | nil => exact fun _ _ => rfl
    | cons d ds ih =>
      intro memories final
      obtain ⟨first, others⟩ := List.forall_mem_cons.mp final
      obtain ⟨pos, name, ty⟩ := d
      cases ty with
      | array elem dims =>
        simp only [memoriesOf, Layout.ofTy?, (first elem dims rfl).banks_eq name elem]
        exact ih _ others
      | _ => exact ih memories others
  exact general ds {} final

/-- Each array of a program is in the table with its own name alone, and nothing else is. -/
theorem mem_ownMemories_iff {ds : List Decl} {name : String} {names : List String} :
    (name, names) ∈ (ownMemories ds).entries ↔
      names = [name] ∧ ∃ d ∈ ds, d.ty.isArray = true ∧ d.name = name := by
  have listed {names : List String} (member : (name, names) ∈ (ownMemories ds).entries) :
      names = [name] ∧ ∃ d ∈ ds, d.ty.isArray = true ∧ d.name = name := by
    obtain ⟨d, inside, same⟩ := List.mem_map.mp (Table.mem_ofList member)
    obtain ⟨declared, isArray⟩ := List.mem_filter.mp inside
    cases same
    exact ⟨rfl, d, declared, isArray, rfl⟩
  refine ⟨listed, ?_⟩
  rintro ⟨rfl, d, member, isArray, rfl⟩
  have key : d.name ∈ (ownMemories ds).entries.map Prod.fst := by
    refine Table.keys_ofList.mpr (List.mem_map.mpr ⟨(d.name, [d.name]), ?_, rfl⟩)
    exact List.mem_map.mpr ⟨d, List.mem_filter.mpr ⟨member, isArray⟩, rfl⟩
  obtain ⟨⟨_, names⟩, entry, rfl⟩ := List.mem_map.mp key
  rwa [(listed entry).1] at entry

end

end Banking

/-- Splitting a program that is split changes nothing: each memory is its own only memory. -/
theorem Program.toBanks_toBanks {p : TypedProgram} {statements : Statements} {banked : BankedProgram}
    (clean : p.BankNameClean) (split : (p.toBanks statements).result = .ok banked)
    (statements' : Statements) : (banked.program.toBanks statements').result =
      .ok ⟨banked.program, Banking.ownMemories banked.program.decls⟩ := by
  obtain ⟨⟨decls, defs, body'⟩, memories⟩ := banked
  obtain ⟨env, functions, storage, _, bodies⟩ := Program.toBanks_ok split
  have final := Banking.final_of_bankDecls storage
  have again := Banking.bankFunctions_again clean.functions functions statements'
  rcases bodies with ⟨_, absent⟩ | ⟨body, body'', present, present', banking⟩
  · obtain rfl : body' = none := absent
    simp only [toBanks, Outcome.result_bind, Outcome.result_lift, Outcome.result_tell,
      Outcome.result_pure, again, Banking.bankDecls_of_final final,
      Banking.memoriesOf_of_final final, ok_bind]
  · obtain rfl : body' = some body'' := present'
    have root := clean.root
    rw [present] at root
    have main := Banking.bankBody_of_final statements' (Banking.final_component root storage banking)
    simp only [toBanks, Outcome.result_bind, Outcome.result_lift, Outcome.result_tell,
      Outcome.result_map, Outcome.result_pure, again, Banking.bankDecls_of_final final,
      Banking.memoriesOf_of_final final, main, Except.map, ok_bind]

/-- A function turns the banks of an array and reads an element that another one numbers. -/
theorem Program.toBanks_toBanks_turnAndRead : ∃ p banked,
    Banking.turnAndRead.check.result = .ok p ∧ p.BankNameClean ∧
      (p.toBanks {}).result = .ok banked ∧ banked.program.decls.map (·.name) = ["a_b0", "a_b1"] ∧
      (banked.program.toBanks {}).result =
        .ok ⟨banked.program, .ofList [("a_b0", ["a_b0"]), ("a_b1", ["a_b1"])]⟩ := by
  have checks : ∃ p, Banking.turnAndRead.check.result = .ok p ∧ p.hasShortNames = true :=
    exists_ok_of_map (by decide +kernel)
  obtain ⟨p, checked, short⟩ := checks
  have clean := Program.clean_of_hasShortNames short
  have splits : ∃ banked, (Banking.turnAndRead.check >>= Program.toBanks {}).result = .ok banked ∧
      ((banked.program.decls.map (·.name), Banking.ownMemories banked.program.decls) :
        List String × Table String (List String)) =
        (["a_b0", "a_b1"], .ofList [("a_b0", ["a_b0"]), ("a_b1", ["a_b1"])]) :=
    exists_ok_of_map (by decide +kernel)
  obtain ⟨banked, ran, made⟩ := splits
  rw [Outcome.result_bind, checked, ok_bind] at ran
  obtain ⟨names, memories⟩ := Prod.mk.inj made
  exact ⟨p, banked, checked, clean, ran, names, memories ▸ Program.toBanks_toBanks clean ran {}⟩

end BankedLoops
