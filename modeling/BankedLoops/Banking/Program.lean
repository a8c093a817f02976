import BankedLoops.Banking.Access
import BankedLoops.FreeName

/-!
# Programs over banks

Replaces every logical array of a typed program by its banks. An array that a component advances
gets a hidden register, set to zero when the component starts, that rotates its banks.
-/

namespace BankedLoops

structure BankedProgram where
  program : TypedProgram
  memories : Table String (List String)

namespace Banking

mutual

/-- Every `advance` in a command, in order, as the array and the position. -/
def advances : TypedCommand → List (String × Nat)
  | .advance pos array => [(array, pos)]
  | .seq _ cmds => advancesOfSeq cmds
  | .branch _ _ onTrue onFalse => advances onTrue ++ advancesOfElse onFalse
  | .loop _ _ body => advances body
  | _ => []

def advancesOfSeq : List TypedCommand → List (String × Nat)
  | [] => []
  | cmd :: cmds => advances cmd ++ advancesOfSeq cmds

def advancesOfElse : Option TypedCommand → List (String × Nat)
  | none => []
  | some cmd => advances cmd

end

def firstOfEach (entries : List (String × Nat)) : List (String × Nat) :=
  entries.eraseDupsBy (fun x y => x.1 == y.1)

mutual

/-- Every name that a declaration, a `let` or a loop in a command binds. -/
def binders : TypedCommand → List String
  | .decl _ name _ => [name]
  | .define _ name _ _ => [name]
  | .seq _ cmds => bindersOfSeq cmds
  | .branch _ _ onTrue onFalse => binders onTrue ++ bindersOfElse onFalse
  | .loop _ header body => header.iter :: binders body
  | _ => []

def bindersOfSeq : List TypedCommand → List String
  | [] => []
  | cmd :: cmds => binders cmd ++ bindersOfSeq cmds

def bindersOfElse : Option TypedCommand → List String
  | none => []
  | some cmd => binders cmd

end

mutual

/-- The type of the first declaration of `name` in a command. -/
def declaredTy? (name : String) : TypedCommand → Option Ty
  | .decl _ declared ty => if declared = name then some ty else none
  | .seq _ cmds => declaredTyOfSeq? name cmds
  | .branch _ _ onTrue onFalse => (declaredTy? name onTrue).or (declaredTyOfElse? name onFalse)
  | .loop _ _ body => declaredTy? name body
  | _ => none

def declaredTyOfSeq? (name : String) : List TypedCommand → Option Ty
  | [] => none
  | cmd :: cmds => (declaredTy? name cmd).or (declaredTyOfSeq? name cmds)

def declaredTyOfElse? (name : String) : Option TypedCommand → Option Ty
  | none => none
  | some cmd => declaredTy? name cmd

end

/-- The layout of an array that `body` advances: the visible one, else that of a declaration
inside. -/
def advancedLayout (env : Env) (body : TypedCommand) (array : String) : Except Failure Layout :=
  match env.get? array with
  | some (.array layout) => pure layout
  | _ =>
    match (declaredTy? array body).bind (Layout.ofTy? array) with
    | some layout => pure layout
    | none => refuse (.internal (.noRotationLayout array))

/-- The first of `base`, `base_1`, `base_2`, … that is neither visible nor taken. -/
def unboundName (base : String) (env : Env) (taken : List String) : String :=
  let family := FreeName.suffixed base
  family (FreeName.firstFree (env.names ++ taken) family 0)

/-- The hidden registers of a component: their scope, the rotations and the commands that set the
registers up. -/
structure Prologue where
  env : Env
  rotations : List (String × Rotation) := []
  setup : List TypedCommand := []

/-- Gives a register to every advanced array that has more than one bank. -/
def setUpRotations (statements : Statements) (body : TypedCommand) (env : Env)
    (taken : List String) : List (String × Nat) → Outcome Prologue
  | [] => pure { env }
  | (array, pos) :: rest => do
    let layout ← advancedLayout env body array
    let banks ← layout.bankCount
    if banks = 1 then
      setUpRotations statements body env taken rest
    else
      if !isPowerOfTwo banks then
        refuse (.capability (statements.describe pos) (.rotation array banks))
      let rotation : Rotation := ⟨unboundName s!"{array}_bank" env taken, banks⟩
      let setup := .define pos rotation.register (← rotation.ty) (.lit 0)
      Outcome.tell (.rotates array banks rotation.register)
      let prologue ← setUpRotations statements body (env.rebind rotation.register .scalar)
        (rotation.register :: taken) rest
      pure { prologue with
        rotations := (array, rotation) :: prologue.rotations
        setup := setup :: prologue.setup }

/-- The command that moves a rotation on by one bank. -/
def Rotation.step (r : Rotation) (pos : Nat) : Except Fault TypedCommand := do
  let register := .var (← r.ty) r.register
  return .update pos register (← r.wrap (← widened .add register (.lit 1)))

def declBanks (layout : Layout) (pos : Nat) : Except Fault TypedCommand := do
  match (← layout.split pos).map fun d => .decl pos d.name d.ty with
  | [decl] => pure decl
  | decls => pure (.seq pos decls)

mutual

/-- The physical form of a command, and the environment of the commands after it. -/
def bankCommand (ctx : Context) (env : Env) : TypedCommand → Outcome (TypedCommand × Env)
  | .decl pos name ty =>
    match Layout.ofTy? name ty with
    | some layout => do
      let cmd ← declBanks layout pos
      pure (cmd, env.rebind name (.array layout))
    | none => pure (.decl pos name ty, env.rebind name .scalar)
  | .define pos name ty init => do
    let init ← read ctx env pos init
    pure (.define pos name ty init, env.rebind name .scalar)
  | .seq pos cmds => do
    let (cmds, env) ← bankSeq ctx env cmds
    pure (.seq pos cmds, env)
  | .branch pos cond onTrue onFalse => do
    let cond ← read ctx env pos cond
    let (onTrue, _) ← bankCommand ctx env.enter onTrue
    let onFalse ← bankElse ctx env.enter onFalse
    pure (.branch pos cond onTrue onFalse, env)
  | .loop pos header body => do
    let last ← Word.sub header.stop 1
    let iterator := Binding.iterator ⟨header.start, last⟩
    let (body, _) ← bankCommand ctx (env.enter.rebind header.iter iterator) body
    pure (.loop pos header body, env)
  | .update pos target value => do
    let target ← write ctx env pos target
    let value ← read ctx env pos value
    pure (.update pos target value, env)
  | .reduce pos op target value => do
    let target ← write ctx env pos target
    let value ← read ctx env pos value
    pure (.reduce pos op target value, env)
  | .eval pos e => do
    let e ← read ctx env pos e
    pure (.eval pos e, env)
  | .advance pos array =>
    match ctx.rotations.lookup array with
    | some rotation => do
      let cmd ← rotation.step pos
      pure (cmd, env)
    | none => pure (.skip pos, env)
  | .skip pos => pure (.skip pos, env)

def bankSeq (ctx : Context) (env : Env) : List TypedCommand → Outcome (List TypedCommand × Env)
  | [] => pure ([], env)
  | cmd :: cmds => do
    let (cmd, env) ← bankCommand ctx env cmd
    let (cmds, env) ← bankSeq ctx env cmds
    pure (cmd :: cmds, env)

def bankElse (ctx : Context) (env : Env) : Option TypedCommand → Outcome (Option TypedCommand)
  | none => pure none
  | some cmd => do
    let (cmd, _) ← bankCommand ctx env cmd
    pure (some cmd)

end

/-- The physical form of a component body, behind the set-up of its rotations. -/
def bankBody (statements : Statements) (env : Env) (body : TypedCommand) :
    Outcome TypedCommand := do
  let prologue ← setUpRotations statements body env (binders body) (firstOfEach (advances body))
  let (banked, _) ← bankCommand ⟨statements, prologue.rotations⟩ prologue.env body
  if prologue.setup.isEmpty then
    pure banked
  else
    pure (.seq banked.pos (prologue.setup ++ [banked]))

/-- Replaces the arrays among declarations by their banks and binds all of them. -/
def bankDecls (env : Env) : List Decl → Except Failure (List Decl × Env)
  | [] => pure ([], env)
  | d :: ds =>
    match Layout.ofTy? d.name d.ty with
    | some layout => do
      let banks ← layout.split d.pos
      let (rest, env) ← bankDecls (env.rebind d.name (.array layout)) ds
      pure (banks ++ rest, env)
    | none => do
      let (rest, env) ← bankDecls (env.rebind d.name .scalar) ds
      pure (d :: rest, env)

/-- The banks of every array among declarations; the last declaration of a name counts. -/
def memoriesOf (memories : Table String (List String)) :
    List Decl → Except Failure (Table String (List String))
  | [] => pure memories
  | d :: ds =>
    match Layout.ofTy? d.name d.ty with
    | some layout => do memoriesOf (memories.insert d.name (← layout.banks)) ds
    | none => memoriesOf memories ds

def bankFunction (statements : Statements) (f : Function Ty TypedExpr) :
    Outcome (Function Ty TypedExpr) := do
  let (params, env) ← bankDecls {} f.params
  let body ← bankBody statements env f.body
  Outcome.tell (.bankedFunction f.name params.length)
  pure ⟨f.pos, f.name, params, body⟩

def bankFunctions (statements : Statements) :
    List (Function Ty TypedExpr) → Outcome (List (Function Ty TypedExpr))
  | [] => pure []
  | f :: fs => do
    let f ← bankFunction statements f
    return f :: (← bankFunctions statements fs)

end Banking

/-- The program over physical memories that does the same as a program over logical arrays.
Diagnostics quote the given statements. -/
def Program.toBanks (statements : Statements) (p : TypedProgram) : Outcome BankedProgram := do
  let defs ← Banking.bankFunctions statements p.defs
  let (decls, env) ← Banking.bankDecls {} p.decls
  let memories ← Banking.memoriesOf {} p.decls
  let body ← match p.body with
    | none => pure none
    | some body => some <$> Banking.bankBody statements env body
  Outcome.tell (.banked memories.size decls.length)
  pure ⟨⟨decls, defs, body⟩, memories⟩

end BankedLoops
