import BankedLoops.Proofs.Banking.Image
import BankedLoops.Proofs.Banking.Sites
import BankedLoops.Proofs.Lowering.Resolution

/-!
# What a split program consists of

The vocabulary of programs over banks, judged against the program over arrays: behind each name that
the checker sees stand the memories of its array, and every access goes to one or to all of them, with
one address for each dimension. `toBanks_overBanks` says that a checked program is split into nothing
else: no element of an array, no `advance` and no call inside of an expression is left.
-/

namespace BankedLoops

namespace Banking

open Lowering (Inherited)

/-! ### Expressions -/

/-- The names of all memories of an array, in the order of their bank numbers. -/
def memoryNames (array : String) (elem : Ty) (dims : List Dim) : List String :=
  (List.range (bankTotal dims)).map (Layout.memory ⟨array, elem, dims⟩)

/-- The type of each memory of an array: a single bank in every dimension. -/
def memoryTy (elem : Ty) (dims : List Dim) : Ty := .array elem (bankDims dims)

/-- A value over memories. An element is read from one memory of a visible array or, by its number,
from all of them. -/
inductive OverBanks (types : Typing.Env) : TypedExpr → Prop where
  | int (ty : Ty) (n : Nat) : OverBanks types (.int ty n)
  | bool (ty : Ty) (b : Bool) : OverBanks types (.bool ty b)
  | var (ty : Ty) (name : String) : OverBanks types (.var ty name)
  | binop (ty : Ty) (op : BinOp) {lhs rhs : TypedExpr} (left : OverBanks types lhs)
      (right : OverBanks types rhs) : OverBanks types (.binop ty op lhs rhs)
  | mem {array mem : String} {elem : Ty} {dims : List Dim} {addr : List TypedExpr}
      (visible : types.get? array = some (.array elem dims))
      (member : mem ∈ memoryNames array elem dims) (counted : addr.length = (bankDims dims).length)
      (addressed : ∀ a ∈ addr, OverBanks types a) : OverBanks types (.mem elem mem addr)
  | muxRead {array : String} {elem : Ty} {dims : List Dim} {select : TypedExpr}
      {addr : List TypedExpr} (visible : types.get? array = some (.array elem dims))
      (selected : OverBanks types select) (counted : addr.length = (bankDims dims).length)
      (addressed : ∀ a ∈ addr, OverBanks types a) :
      OverBanks types (.muxRead elem (memoryNames array elem dims) select addr)

/-- What a command over memories may write: a register or an element of one memory. -/
def IsPlace : TypedExpr → Prop
  | .var .. | .mem .. => True
  | _ => False

section

variable {ctx : Context} {tctx : Typing.Context} {types : Typing.Env} {env : Env}

theorem banks_eq_memoryNames {array : String} {elem : Ty} {dims : List Dim} {banks : List String}
    (named : Layout.banks ⟨array, elem, dims⟩ = .ok banks) : banks = memoryNames array elem dims :=
  Layout.banks_eq named

theorem OverBanks.inherited (types : Typing.Env) : Inherited (OverBanks types) :=
  ⟨fun n => .int _ n, fun _ op => .binop _ op⟩

/-- Where the indices of an access lead is computed over memories, with an address for each
dimension. -/
structure PlacedOverBanks (types : Typing.Env) (dims : List Dim) (p : Placement) : Prop where
  counted : p.addr.length = dims.length
  addressed : ∀ a ∈ p.addr, OverBanks types a
  numbered : ∀ t ∈ p.terms, OverBanks types t

theorem PlacedOverBanks.resolved {array : String} {elem : Ty} {dims : List Dim} {writes : Bool}
    {p : Placement} {e : TypedExpr} (placed : PlacedOverBanks types dims p)
    (visible : types.get? array = some (.array elem dims))
    (resolved : ResolvedAs ctx array ⟨array, elem, dims⟩ elem writes p e) :
    OverBanks types e ∧ (writes = true → IsPlace e) := by
  have counted : p.addr.length = (bankDims dims).length := by
    rw [bankDims, List.length_map]
    exact placed.counted
  cases resolved with
  | direct named _ _ found =>
    rw [banks_eq_memoryNames named] at found
    exact ⟨.mem visible (List.mem_of_getElem? found) counted placed.addressed, fun _ => trivial⟩
  | multiplexed named reads _ summed selected =>
    have inherited := OverBanks.inherited types
    have number := inherited.rotated (inherited.selector placed.numbered summed) .var selected
    rw [banks_eq_memoryNames named]
    refine ⟨.muxRead visible number counted placed.addressed, fun wrote => ?_⟩
    rw [reads] at wrote
    cases wrote

mutual

theorem overBanks_read (agrees : Agrees types env) : {e e' : TypedExpr} →
    Typing.CheckedExpr tctx types e → ReadAs ctx env e e' → OverBanks types e'
  | _, _, .int n, .int _ _ => .int _ n
  | _, _, .bool b, .bool _ _ => .bool _ b
  | _, _, .scalar _, .var ty name => .var ty name
  | _, _, .iterator _, .var ty name => .var ty name
  | _, _, .binop left right _, .binop leftRead rightRead =>
    .binop _ _ (overBanks_read agrees left leftRead) (overBanks_read agrees right rightRead)
  | _, _, .access visible indices, .access bound strided placed resolved => by
    obtain rfl := agrees.layout_eq visible bound
    have placed := overBanks_place agrees indices (Layout.length_stridesOf strided) placed
    exact (placed.resolved visible resolved).1

/-- The indices are split themselves before they are placed. -/
theorem overBanks_place (agrees : Agrees types env) : {dims : List Dim} → {idxs : List TypedExpr} →
    Typing.CheckedIndices tctx types dims idxs → {strides : List Nat} → strides.length = dims.length →
    {base : Nat} → {p : Placement} → PlacedAs ctx env base idxs (dims.zip strides) p →
    PlacedOverBanks types dims p
  | _, _, .nil, _, _, _, _, .done _ => ⟨rfl, nofun, nofun⟩
  | _, _, .cons checked _ _ rest, _ :: _, count, _, _, .known value _ addressed others _ => by
    obtain ⟨counted, all, numbered⟩ := overBanks_place agrees rest (Nat.succ.inj count) others
    have index := overBanks_read agrees checked value
    have offset := (OverBanks.inherited types).staticOffset index addressed
    exact ⟨congrArg (· + 1) counted, List.forall_mem_cons.mpr ⟨offset, all⟩, numbered⟩
  | _, _, .cons checked _ _ rest, _ :: _, count, _, _, .varying value _ _ chosen addressed others => by
    obtain ⟨counted, all, numbered⟩ := overBanks_place agrees rest (Nat.succ.inj count) others
    have index := overBanks_read agrees checked value
    have offset := (OverBanks.inherited types).maskedOffset index addressed
    have term := (OverBanks.inherited types).bankTerm index chosen
    exact ⟨congrArg (· + 1) counted, List.forall_mem_cons.mpr ⟨offset, all⟩,
      List.forall_mem_cons.mpr ⟨term, numbered⟩⟩

end

/-- A target whose bank varies is refused. -/
theorem overBanks_write (agrees : Agrees types env) {e e' : TypedExpr} (written : WrittenAs ctx env e e')
    (checked : Typing.CheckedTarget tctx types e) : OverBanks types e' ∧ IsPlace e' := by
  cases checked with
  | register _ =>
    cases written with
    | other _ => exact ⟨.var _ _, trivial⟩
  | element checked =>
    cases written with
    | other notAccess => exact absurd rfl (notAccess _ _ _)
    | element bound strided placed resolved =>
      cases checked with
      | access visible indices =>
        obtain rfl := agrees.layout_eq visible bound
        have placed := overBanks_place agrees indices (Layout.length_stridesOf strided) placed
        obtain ⟨memories, place⟩ := placed.resolved visible resolved
        exact ⟨memories, place rfl⟩

end

/-! ### Commands -/

mutual

/-- What a command becomes, between the names that the checker sees before and after it. -/
inductive SplitInto : Typing.Env → TypedCommand → TypedCommand → Typing.Env → Prop where
  | single {types : Typing.Env} {pos : Nat} {name : String} {elem : Ty} {dims : List Dim}
      (one : bankTotal dims = 1) :
      SplitInto types (.decl pos name (.array elem dims)) (.decl pos name (memoryTy elem dims))
        (types.rebind name (.array elem dims))
  | banks {types : Typing.Env} {pos : Nat} {name : String} {elem : Ty} {dims : List Dim}
      (several : bankTotal dims ≠ 1) :
      SplitInto types (.decl pos name (.array elem dims))
        (.seq pos ((memoryNames name elem dims).map (.decl pos · (memoryTy elem dims))))
        (types.rebind name (.array elem dims))
  | register {types : Typing.Env} {pos : Nat} {name : String} {ty : Ty}
      (scalar : ty.isArray = false) :
      SplitInto types (.decl pos name ty) (.decl pos name ty) (types.rebind name (.scalar ty))
  | define {types : Typing.Env} {pos : Nat} {name : String} {ty : Ty} {init init' : TypedExpr}
      (value : OverBanks types init') :
      SplitInto types (.define pos name ty init) (.define pos name ty init')
        (types.rebind name (.scalar ty))
  | seq {types types' : Typing.Env} {pos : Nat} {cmds cmds' : List TypedCommand}
      (all : SplitSeq types cmds cmds' types') :
      SplitInto types (.seq pos cmds) (.seq pos cmds') types'
  | branch {types inner : Typing.Env} {pos : Nat} {cond cond' : TypedExpr}
      {onTrue onTrue' : TypedCommand} {onFalse onFalse' : Option TypedCommand}
      (value : OverBanks types cond') (yes : SplitInto types.enter onTrue onTrue' inner)
      (no : SplitElse types.enter onFalse onFalse') :
      SplitInto types (.branch pos cond onTrue onFalse) (.branch pos cond' onTrue' onFalse') types
  | loop {types inner : Typing.Env} {pos : Nat} {header : LoopHeader} {body body' : TypedCommand}
      (round : SplitInto (types.enter.rebind header.iter
        (.iterator (.idx header.stop header.unroll))) body body' inner) :
      SplitInto types (.loop pos header body) (.loop pos header body') types
  | update {types : Typing.Env} {pos : Nat} {target target' value value' : TypedExpr}
      (place : IsPlace target') (located : OverBanks types target') (read : OverBanks types value') :
      SplitInto types (.update pos target value) (.update pos target' value') types
  | reduce {types : Typing.Env} {pos : Nat} {op : BinOp} {target target' value value' : TypedExpr}
      (place : IsPlace target') (located : OverBanks types target') (read : OverBanks types value') :
      SplitInto types (.reduce pos op target value) (.reduce pos op target' value') types
  | call {types : Typing.Env} {pos : Nat} {func : String} {args : List String}
      {banks : List (List String)}
      (given : List.Forall₂ (fun arg names => ∃ elem dims,
        types.get? arg = some (.array elem dims) ∧ names = memoryNames arg elem dims) args banks) :
      SplitInto types (.eval pos (.app .void func args)) (.eval pos (.app .void func banks.flatten))
        types
  | eval {types : Typing.Env} {pos : Nat} {e e' : TypedExpr} (value : OverBanks types e') :
      SplitInto types (.eval pos e) (.eval pos e') types
  | rotate {types : Typing.Env} {pos : Nat} {array register : String} {ty : Ty} {next : TypedExpr}
      (value : OverBanks types next) :
      SplitInto types (.advance pos array) (.update pos (.var ty register) next) types
  | still {types : Typing.Env} {pos : Nat} {array : String} :
      SplitInto types (.advance pos array) (.skip pos) types
  | skip {types : Typing.Env} {pos : Nat} : SplitInto types (.skip pos) (.skip pos) types

inductive SplitSeq :
    Typing.Env → List TypedCommand → List TypedCommand → Typing.Env → Prop where
  | nil {types : Typing.Env} : SplitSeq types [] [] types
  | cons {types next types' : Typing.Env} {cmd cmd' : TypedCommand} {cmds cmds' : List TypedCommand}
      (first : SplitInto types cmd cmd' next) (rest : SplitSeq next cmds cmds' types') :
      SplitSeq types (cmd :: cmds) (cmd' :: cmds') types'

inductive SplitElse : Typing.Env → Option TypedCommand → Option TypedCommand → Prop where
  | none {types : Typing.Env} : SplitElse types none none
  | some {types inner : Typing.Env} {cmd cmd' : TypedCommand}
      (split : SplitInto types cmd cmd' inner) : SplitElse types (some cmd) (some cmd')

end

section

variable {ctx : Context} {types : Typing.Env} {env : Env}

theorem splitInto_declBanks {pos : Nat} {name : String} {elem : Ty} {dims : List Dim}
    {cmd : TypedCommand} (split : declBanks ⟨name, elem, dims⟩ pos = .ok cmd) :
    SplitInto types (.decl pos name (.array elem dims)) cmd (types.rebind name (.array elem dims)) := by
  obtain ⟨ds, named, form⟩ := declBanks_split split
  have memories := Layout.split_eq named
  have counted : ds.length = bankTotal dims := by
    rw [memories, List.length_map, List.length_range]
  obtain ⟨d, rfl, rfl⟩ | ⟨several, rfl⟩ := form
  · have one : bankTotal dims = 1 := counted.symm
    have alone : [d] = [⟨pos, Layout.memory ⟨name, elem, dims⟩ 0, memoryTy elem dims⟩] := by
      rw [memories, one]
      rfl
    cases alone
    rw [Layout.memory, if_pos one]
    exact .single one
  · have renamed : (ds.map fun d => (.decl pos d.name d.ty : TypedCommand)) =
        (memoryNames name elem dims).map (.decl pos · (memoryTy elem dims)) := by
      rw [memories, memoryNames, List.map_map, List.map_map]
      rfl
    rw [renamed]
    exact .banks fun one => several (counted.trans one)

theorem parts_of_bankedArguments {args banks : List String} {params : List Decl}
    (given : BankedArguments types env args params banks) :
    ∃ parts, banks = parts.flatten ∧ List.Forall₂ (fun arg names => ∃ elem dims,
      types.get? arg = some (.array elem dims) ∧ names = memoryNames arg elem dims) args parts := by
  induction given with
  | nil => exact ⟨[], rfl, .nil⟩
  | @cons _ _ _ _ _ _ names _ visible _ _ named _ ih =>
    obtain ⟨parts, rfl, all⟩ := ih
    exact ⟨names :: parts, rfl, .cons ⟨_, _, visible, banks_eq_memoryNames named⟩ all⟩

theorem splitInto_step {r : Rotation} {pos : Nat} {array : String} {step : TypedCommand}
    (stepped : r.step pos = .ok step) : SplitInto types (.advance pos array) step types := by
  obtain ⟨ty, _, sum, added, next, wrapped, rfl⟩ := Rotation.step_update stepped
  have inherited := OverBanks.inherited types
  exact .rotate (inherited.wrap (inherited.widened (.var ty r.register) (inherited.literal 1) added) wrapped)

mutual

theorem splitInto_of_banked {tctx : Typing.Context} {types types' : Typing.Env} {env : Env}
    {cmd cmd' : TypedCommand} (agrees : Agrees types env) :
    Typing.CheckedCommand tctx types cmd types' → BankedCommand ctx env cmd cmd' →
    SplitInto types cmd cmd' types'
  | .decl _ fresh, .array found split => by
    obtain ⟨elem, dims, rfl, rfl⟩ := isArray_of_ofTy? found
    rw [Scope.eq_rebind_of_bind? fresh]
    exact splitInto_declBanks split
  | @Typing.CheckedCommand.decl _ _ _ _ _ ty _ fresh, .scalar found => by
    rw [Scope.eq_rebind_of_bind? fresh]
    cases ty with
    | array elem dims => cases found
    | _ => exact .register rfl
  | .define value _ _ fresh, .define read => by
    rw [Scope.eq_rebind_of_bind? fresh]
    exact .define (overBanks_read agrees value read)
  | .seq checked, .seq all => .seq (splitSeq_of_banked agrees checked all)
  | .branch value _ yes no, .branch read onTrue onFalse =>
    .branch (overBanks_read agrees value read) (splitInto_of_banked agrees.enter yes onTrue)
      (splitElse_of_banked agrees.enter no onFalse)
  | .loop range checked, .loop _ round =>
    .loop (splitInto_of_banked (agrees.round range) checked round)
  | .update place value _, .update written read => by
    obtain ⟨located, isPlace⟩ := overBanks_write agrees written place
    exact .update isPlace located (overBanks_read agrees value read)
  | .reduce place _ value _, .reduce written read => by
    obtain ⟨located, isPlace⟩ := overBanks_write agrees written place
    exact .reduce isPlace located (overBanks_read agrees value read)
  | checked, .eval read => by
    cases checked with
    | call _ arguments =>
      cases read with
      | app given =>
        obtain ⟨parts, rfl, all⟩ := parts_of_bankedArguments (agrees.bankedArguments arguments given)
        exact .call all
    | eval value => exact .eval (overBanks_read agrees value read)
  | .advance _, .rotate _ stepped => splitInto_step stepped
  | .advance _, .still _ => .still
  | .skip, .skip => .skip

theorem splitSeq_of_banked {tctx : Typing.Context} {types types' : Typing.Env} {env : Env}
    {cmds cmds' : List TypedCommand} (agrees : Agrees types env) :
    Typing.CheckedSeq tctx types cmds types' → BankedSeq ctx env cmds cmds' →
    SplitSeq types cmds cmds' types'
  | .nil, .nil => .nil
  | .cons checked others, .cons first rest =>
    .cons (splitInto_of_banked agrees checked first)
      (splitSeq_of_banked (agrees.after checked) others rest)

theorem splitElse_of_banked {tctx : Typing.Context} {types : Typing.Env} {env : Env}
    {cmd cmd' : Option TypedCommand} (agrees : Agrees types env) :
    Typing.CheckedElse tctx types cmd → BankedElse ctx env cmd cmd' → SplitElse types cmd cmd'
  | .none, .none => .none
  | .some checked, .some banked => .some (splitInto_of_banked agrees checked banked)

end

end

/-! ### Programs -/

/-- The declarations that stand for a declaration. -/
def memoriesOfDecl (d : Decl) : List Decl :=
  match d.ty with
  | .array elem dims => (memoryNames d.name elem dims).map (⟨d.pos, ·, memoryTy elem dims⟩)
  | _ => [d]

/-- What the checker sees behind declarations. -/
def typesOf (types : Typing.Env) (ds : List Decl) : Typing.Env :=
  ds.foldl (fun types d => types.rebind d.name (.ofTy d.ty)) types

/-- What a body becomes: registers for rotations that start at zero, then its commands. -/
structure SplitBody (types : Typing.Env) (body body' : TypedCommand) : Prop where
  parts : ∃ setup inner types', SplitInto types body inner types' ∧
    (∀ cmd ∈ setup, ∃ pos register ty, cmd = .define pos register ty (.lit 0)) ∧
    body' = if setup.isEmpty then inner else .seq inner.pos (setup ++ [inner])

structure SplitFunction (f f' : Function Ty TypedExpr) : Prop where
  pos : f'.pos = f.pos
  name : f'.name = f.name
  params : f'.params = f.params.flatMap memoriesOfDecl
  body : SplitBody (typesOf {} f.params) f.body f'.body

/-- What a program becomes: memories in place of its arrays, and the bodies over them. -/
structure SplitProgram (p p' : TypedProgram) : Prop where
  decls : p'.decls = p.decls.flatMap memoriesOfDecl
  functions : List.Forall₂ SplitFunction p.defs p'.defs
  body : Option.Rel (SplitBody (typesOf {} p.decls)) p.body p'.body

theorem typesOf_eq {types types' : Typing.Env} {ds : List Decl}
    (checked : Typing.CheckedDecls types ds types') : types' = typesOf types ds := by
  induction checked with
  | nil => rfl
  | cons _ fresh _ ih =>
    rw [ih, Scope.eq_rebind_of_bind? fresh]
    rfl

theorem bankDecls_eq {env env' : Env} {ds ds' : List Decl} (split : bankDecls env ds = .ok (ds', env')) :
    ds' = ds.flatMap memoriesOfDecl := by
  replace split := bankDecls_ok split
  induction split with
  | nil => rfl
  | array split _ ih =>
    simp only [Layout.split, bind_ok_iff, pure_ok_iff] at split
    obtain ⟨banks, named, rfl⟩ := split
    rw [List.flatMap_cons, ← ih, memoriesOfDecl, banks_eq_memoryNames named]
    rfl
  | @scalar _ _ d _ _ found _ ih =>
    have alone : memoriesOfDecl d = [d] := by
      unfold memoriesOfDecl
      split
      · next isArray =>
        rw [isArray] at found
        cases found
      · rfl
    rw [List.flatMap_cons, ← ih, alone]
    rfl

theorem setUp_zero {statements : Statements} {body : TypedCommand} {env : Env} {taken : List String}
    {arrays : List (String × Nat)} {prologue : Prologue}
    (success : (setUpRotations statements body env taken arrays).result = .ok prologue) :
    ∀ cmd ∈ prologue.setup, ∃ pos register ty, cmd = .define pos register ty (.lit 0) := by
  induction arrays generalizing env taken prologue with
  | nil =>
    cases success
    exact nofun
  | cons entry arrays ih =>
    obtain ⟨layout, banks, _, _, ⟨_, rest⟩ | ⟨register, ty, inner, _, _, _, rest, rfl⟩⟩ :=
      setUpRotations_cons success
    · exact ih rest
    · exact List.forall_mem_cons.mpr ⟨⟨_, _, _, rfl⟩, ih rest⟩

theorem splitBody_of_bankBody {statements : Statements} {tctx : Typing.Context}
    {types types' : Typing.Env} {env : Env} {body body' : TypedCommand} (agrees : Agrees types env)
    (checked : Typing.CheckedCommand tctx types body types')
    (split : (bankBody statements env body).result = .ok body') : SplitBody types body body' := by
  obtain ⟨prologue, inner, setUp, banked, rfl⟩ := bankBody_ok split
  exact ⟨prologue.setup, inner, types',
    splitInto_of_banked (agrees.setUpRotations setUp) checked banked, setUp_zero setUp, rfl⟩

theorem splitFunctions_of_bank {statements : Statements} {funcs funcs' : List (String × List Decl)}
    {fs fs' : List (Function Ty TypedExpr)} (checked : Typing.CheckedFunctions funcs fs funcs')
    (split : (bankFunctions statements fs).result = .ok fs') : List.Forall₂ SplitFunction fs fs' := by
  replace split := forall₂_bankFunctions split
  induction checked generalizing fs' with
  | nil =>
    cases split
    exact .nil
  | cons first _ ih =>
    obtain _ | ⟨function, others⟩ := split
    obtain ⟨params, env, body, storage, banked, rfl⟩ := bankFunction_ok function
    obtain ⟨types, types', decls, checked⟩ := first.body
    have agrees := Agrees.empty.declared decls
    rw [typesOf_eq decls] at checked agrees
    rw [bankDecls_env storage] at banked
    exact .cons ⟨rfl, rfl, bankDecls_eq storage, splitBody_of_bankBody agrees checked banked⟩
      (ih others)

/-- A checked program is split into memories and into commands over them. -/
theorem toBanks_overBanks {source : SourceProgram} {p : TypedProgram} {statements : Statements}
    {banked : BankedProgram} (checked : source.check.result = .ok p)
    (split : (p.toBanks statements).result = .ok banked) : SplitProgram p banked.program := by
  obtain ⟨env, functions, storage, _, bodies⟩ := Program.toBanks_ok split
  obtain ⟨funcs, types, defs, decls, body⟩ := Typing.checkedProgram_of_check checked
  have agrees := Agrees.empty.declared decls
  rw [← bankDecls_env storage, typesOf_eq decls] at agrees
  refine ⟨bankDecls_eq storage, splitFunctions_of_bank defs functions, ?_⟩
  rcases bodies with ⟨absent, absent'⟩ | ⟨cmd, cmd', present, present', bankedBody⟩
  · rw [absent, absent']
    exact .none
  · rw [present] at body ⊢
    rw [present']
    cases body with
    | some checked =>
      rw [typesOf_eq decls] at checked
      exact .some (splitBody_of_bankBody agrees checked bankedBody)

/-- Turns the banks of an array in a function and reads an element that another one numbers:
`def turn(m: ubit<8>[4 bank 2]) { advance m; let x = m[m[1]]; }` and `a[3] := 5; turn(a);`. -/
def turnAndRead : SourceProgram where
  decls := [⟨0, "a", .array (.ubit 8) [⟨4, 2⟩]⟩]
  defs := [⟨1, "turn", [⟨2, "m", .array (.ubit 8) [⟨4, 2⟩]⟩],
    .seq 3 [.advance 4 "m", .define 5 "x" none (.access "m" [.access "m" [.int 1]])]⟩]
  body := some (.seq 6 [.update 7 (.access "a" [.int 3]) (.int 5), .eval 8 (.app "turn" [.var "a"])])

/-- One read from all banks stands in the select and in the address of another. -/
theorem toBanks_overBanks_turnAndRead : ∃ p banked, turnAndRead.check.result = .ok p ∧
    (p.toBanks {}).result = .ok banked ∧ banked.program.decls.length = 2 ∧
    SplitProgram p banked.program := by
  have computed : ∃ banked, (turnAndRead.check >>= Program.toBanks {}).result = .ok banked ∧
      banked.program.decls.length = 2 := exists_ok_of_map (by decide +kernel)
  obtain ⟨banked, ran, length⟩ := computed
  rw [Outcome.result_bind, bind_ok_iff] at ran
  obtain ⟨p, checked, split⟩ := ran
  exact ⟨p, banked, checked, split, length, toBanks_overBanks checked split⟩

end Banking

end BankedLoops
