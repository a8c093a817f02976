import BankedLoops.Proofs.Typing.Judgement
import BankedLoops.Proofs.Lowering.Growth

/-!
# Programs over physical memories

`Physical` is the typing of expressions and commands once arrays are split into banks: every name of
a memory leads to a memory of the right elements, and a read from several memories finds them alike.
`Tidy` is what holds of any program that was split, whatever its names.
-/

namespace BankedLoops

namespace Lowering

/-! ### Names -/

/-- What a name of a program over physical memories stands for. -/
inductive Slot where
  | scalar (ty : Ty)
  | iterator (bound : Nat)
  | memory (elem : Ty) (sizes : List Nat)

abbrev Slots := Scope Slot

def Slot.ofTy : Ty → Slot
  | .array elem dims => .memory elem (dims.map Dim.size)
  | ty => .scalar ty

mutual

/-- The names after a command. -/
def slotsAfter (slots : Slots) : TypedCommand → Slots
  | .decl _ name ty => slots.rebind name (.ofTy ty)
  | .define _ name ty _ => slots.rebind name (.scalar ty)
  | .seq _ cmds => slotsAfterSeq slots cmds
  | _ => slots

def slotsAfterSeq (slots : Slots) : List TypedCommand → Slots
  | [] => slots
  | cmd :: cmds => slotsAfterSeq (slotsAfter slots cmd) cmds

end

/-- The storage that a slot asks for. -/
inductive Slot.Fits : Slot → Store → Prop where
  | scalar (ty : Ty) (cell : String) : Fits (.scalar ty) (.register cell ty.width)
  | iterator (bound : Nat) (cell : String) (slice : Option String) :
      Fits (.iterator bound) (.iterator cell slice (bitsNeeded (bound - 1)))
  | memory (elem : Ty) (sizes : List Nat) (cell : String) :
      Fits (.memory elem sizes) (.memory ⟨cell, sizes, elem.width⟩)

/-- Every name has the storage that its slot asks for. -/
def Matches (slots : Slots) (env : Env) : Prop :=
  ∀ name slot, slots.get? name = some slot → ∃ store, env.get? name = some store ∧ slot.Fits store

theorem Slot.fits_ofTy (cell : String) (ty : Ty) : (Slot.ofTy ty).Fits (.ofTy cell ty) := by
  cases ty with
  | array elem dims => exact .memory elem _ cell
  | _ => exact .scalar _ cell

namespace Matches

variable {slots : Slots} {env : Env}

theorem empty (env : Env) : Matches {} env := nofun

theorem enter (matched : Matches slots env) : Matches slots.enter env.enter := matched

theorem rebind (matched : Matches slots env) {slot : Slot} {store : Store} (fits : slot.Fits store)
    (name : String) : Matches (slots.rebind name slot) (env.rebind name store) := by
  intro other found visible
  rw [Scope.get?_rebind] at visible ⊢
  split at visible
  · next same =>
    cases visible
    exact ⟨store, if_pos same, fits⟩
  · next different =>
    rw [if_neg different]
    exact matched other found visible

end Matches

/-! ### Expressions -/

mutual

/-- No read from several memories names one of them twice. -/
def Tidy : TypedExpr → Prop
  | .binop _ _ lhs rhs => Tidy lhs ∧ Tidy rhs
  | .mem _ _ addr => TidyAll addr
  | .muxRead _ banks select addr => banks.Nodup ∧ Tidy select ∧ TidyAll addr
  | _ => True

def TidyAll : List TypedExpr → Prop
  | [] => True
  | e :: es => Tidy e ∧ TidyAll es

end

/-- The operations that checking and splitting into banks produce. -/
inductive Operates (op : BinOp) : Ty → TypedExpr → TypedExpr → Prop where
  | folded {a b n : Nat} {lhs rhs : TypedExpr} (left : lhs.ty = .static a) (right : rhs.ty = .static b)
      (value : foldStatic op a b = some n) (word : n < Word.capacity Word.sizeBits) :
      Operates op (.static n) lhs rhs
  | checked {ty : Ty} {lhs rhs : TypedExpr} (typed : binopType op lhs.ty rhs.ty = .ok ty)
      (computed : ∀ n, ty ≠ .static n) : Operates op ty lhs rhs
  /-- Arithmetic on indices. A mask may cut what it masks, and only a literal may be too wide. -/
  | unsigned {width : Nat} {lhs rhs : TypedExpr} (numeric : op.isArithmetic = true ∨ op.isBitwise = true)
      (left : lhs.ty.isInteger = true ∧ lhs.ty.isSigned = false)
      (right : rhs.ty.isInteger = true ∧ rhs.ty.isSigned = false)
      (holds : op = .bitAnd ∨ lhs.ty.width ≤ width)
      (narrow : rhs.ty.width ≤ width ∨ ∃ n, rhs = .lit n) : Operates op (.ubit width) lhs rhs

mutual

inductive Physical (slots : Slots) : TypedExpr → Prop where
  | int {n : Nat} (word : n < Word.capacity Word.sizeBits) : Physical slots (.int (.static n) n)
  | bool (b : Bool) : Physical slots (.bool .bool b)
  | scalar {ty : Ty} {name : String} (bound : slots.get? name = some (.scalar ty))
      (storable : Typing.Storable ty) : Physical slots (.var ty name)
  | iterator {bound : Nat} {name : String} (unroll : Option Nat)
      (found : slots.get? name = some (.iterator bound)) : Physical slots (.var (.idx bound unroll) name)
  | binop {ty : Ty} {op : BinOp} {lhs rhs : TypedExpr} (left : Physical slots lhs)
      (right : Physical slots rhs) (operates : Operates op ty lhs rhs) :
      Physical slots (.binop ty op lhs rhs)
  | mem {ty : Ty} {mem : String} {addr : List TypedExpr} {sizes : List Nat}
      (found : slots.get? mem = some (.memory ty sizes)) (addressed : PhysicalAll slots addr)
      (storable : Typing.Storable ty) : Physical slots (.mem ty mem addr)
  | muxRead {ty : Ty} {banks : List String} {select : TypedExpr} {addr : List TypedExpr}
      {sizes : List Nat} (found : ∀ bank ∈ banks, slots.get? bank = some (.memory ty sizes))
      (selected : Physical slots select) (addressed : PhysicalAll slots addr)
      (storable : Typing.Storable ty) : Physical slots (.muxRead ty banks select addr)

inductive PhysicalAll (slots : Slots) : List TypedExpr → Prop where
  | nil : PhysicalAll slots []
  | cons {e : TypedExpr} {es : List TypedExpr} (first : Physical slots e)
      (rest : PhysicalAll slots es) : PhysicalAll slots (e :: es)

end

/-! ### Commands -/

/-- An array type has dimensions. -/
def TidyTy (ty : Ty) : Prop := ∀ elem dims, ty = .array elem dims → dims ≠ []

mutual

def TidyCommand : TypedCommand → Prop
  | .decl _ _ ty => TidyTy ty
  | .define _ _ _ init => Tidy init
  | .seq _ cmds => TidySeq cmds
  | .branch _ cond onTrue onFalse => Tidy cond ∧ TidyCommand onTrue ∧ TidyElse onFalse
  | .loop _ _ body => TidyCommand body
  | .update _ target value => Tidy target ∧ Tidy value
  | .reduce _ _ target value => Tidy target ∧ Tidy value
  | .eval _ e => Tidy e
  | .advance .. | .skip _ => True

def TidySeq : List TypedCommand → Prop
  | [] => True
  | cmd :: cmds => TidyCommand cmd ∧ TidySeq cmds

def TidyElse : Option TypedCommand → Prop
  | none => True
  | some cmd => TidyCommand cmd

end

mutual

def PhysicalCommand (slots : Slots) : TypedCommand → Prop
  | .decl .. => True
  | .define _ _ ty init => Physical slots init ∧ assignable init.ty ty = true
  | .seq _ cmds => PhysicalSeq slots cmds
  | .branch _ cond onTrue onFalse => Physical slots cond ∧ PhysicalCommand slots.enter onTrue ∧
      PhysicalElse slots.enter onFalse
  | .loop _ header body => header.start < header.stop ∧ header.stop < Word.capacity Word.sizeBits ∧
      PhysicalCommand (slots.enter.rebind header.iter (.iterator header.stop)) body
  | .update _ target value => Physical slots target ∧ Physical slots value ∧
      assignable value.ty target.ty = true
  | .reduce _ op target value => op.isArithmetic = true ∧ Typing.Numeric target.ty ∧
      Physical slots target ∧ Physical slots value ∧ assignable value.ty target.ty = true
  | .eval _ (.app ..) => True
  | .eval _ e => Physical slots e
  | .advance .. | .skip _ => True

def PhysicalSeq (slots : Slots) : List TypedCommand → Prop
  | [] => True
  | cmd :: cmds => PhysicalCommand slots cmd ∧ PhysicalSeq (slotsAfter slots cmd) cmds

def PhysicalElse (slots : Slots) : Option TypedCommand → Prop
  | none => True
  | some cmd => PhysicalCommand slots cmd

end

/-- A statement that is not a call is typed as its expression is. -/
theorem physicalCommand_eval {slots : Slots} {pos : Nat} {e : TypedExpr}
    (other : ∀ ty func args, e ≠ .app ty func args) :
    PhysicalCommand slots (.eval pos e) = Physical slots e := by
  cases e with
  | app ty func args => exact absurd rfl (other ty func args)
  | _ => rfl

end Lowering

end BankedLoops
