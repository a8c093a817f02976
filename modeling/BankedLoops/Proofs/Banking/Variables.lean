import BankedLoops.Proofs.Banking.Rotations

/-!
# Variables in split trees

Splitting arrays into banks rearranges the trees of a command, but it neither loses nor invents a
variable: apart from the registers of rotations, the split trees read the variables of the source,
assign to the same ones and bind the same ones.
-/

namespace BankedLoops

namespace TypedExpr

mutual

/-- The variables of a tree, with the types that they are used at. -/
def vars : TypedExpr → List (Ty × String)
  | .var ty name => [(ty, name)]
  | .binop _ _ lhs rhs => lhs.vars ++ rhs.vars
  | .access _ _ idxs => varsOf idxs
  | .mem _ _ addr => varsOf addr
  | .muxRead _ _ select addr => select.vars ++ varsOf addr
  | _ => []

def varsOf : List TypedExpr → List (Ty × String)
  | [] => []
  | e :: es => e.vars ++ varsOf es

end

end TypedExpr

namespace Command

/-- The variables of a command, those of commands inside it left out. -/
def vars : TypedCommand → List (Ty × String)
  | .define _ _ _ init => init.vars
  | .branch _ cond _ _ => cond.vars
  | .update _ target value | .reduce _ _ target value => target.vars ++ value.vars
  | .eval _ e => e.vars
  | _ => []

/-- The variable that a command assigns to. -/
def assigned? : TypedCommand → Option String
  | .update _ (.var _ name) _ | .reduce _ _ (.var _ name) _ => some name
  | _ => none

/-- A variable by its definition. -/
inductive Variable where
  | scalar (name : String) (ty : Ty)
  | iterator (header : LoopHeader)
  deriving DecidableEq

/-- The variable that a command defines. -/
def definition? : TypedCommand → Option Variable
  | .decl _ name ty => if ty.isArray then none else some (.scalar name ty)
  | .define _ name ty _ => some (.scalar name ty)
  | .loop _ header _ => some (.iterator header)
  | _ => none

end Command

namespace Banking

/-! ### Trees of an access -/

section

variable {idx lhs rhs e : TypedExpr}

theorem vars_widened {op : BinOp} (made : widened op lhs rhs = .ok e) :
    e.vars = lhs.vars ++ rhs.vars := by
  rw [eq_of_widened made, TypedExpr.vars]

theorem vars_widened_lit {op : BinOp} {n : Nat} (made : widened op lhs (.lit n) = .ok e) :
    e.vars = lhs.vars := by
  rw [vars_widened made]
  exact List.append_nil _

theorem vars_staticOffset {start : Nat} (made : staticOffset idx start = .ok e) : e.vars = idx.vars := by
  obtain ⟨_, _, rfl, _, rfl⟩ | ⟨_, rfl⟩ | rfl := staticOffset_cases made
  · rfl
  · rfl
  · exact List.append_nil _

theorem QuotientAs.vars_eq {length : Nat} {bank : TypedExpr} (quotient : QuotientAs idx length bank) :
    bank.vars = idx.vars := by
  cases quotient with
  | whole _ => rfl
  | shifted => exact List.append_nil _

theorem vars_bankTerm {length stride : Nat} (made : bankTerm idx length stride = .ok e) :
    e.vars = idx.vars := by
  obtain ⟨bank, quotient, ⟨rfl, _⟩ | rfl⟩ := bankTerm_ok made
  · exact quotient.vars_eq
  · exact (List.append_nil _).trans quotient.vars_eq

/-- The offset in a bank of one element reads nothing. -/
theorem vars_maskedOffset {length : Nat} (made : maskedOffset idx length = .ok e) : e.vars ⊆ idx.vars := by
  obtain ⟨_, rfl⟩ | ⟨_, rfl⟩ := maskedOffset_cases made
  · exact List.nil_subset _
  · exact List.append_subset.mpr ⟨List.Subset.refl _, List.nil_subset _⟩

theorem vars_selector {base : Nat} {terms : List TypedExpr} (made : selector base terms = .ok e) :
    e.vars = TypedExpr.varsOf terms := by
  have summed (terms : List TypedExpr) : ∀ first sum, terms.foldlM (widened .add) first = .ok sum →
      sum.vars = first.vars ++ TypedExpr.varsOf terms := by
    induction terms with
    | nil =>
      intro first sum made
      cases made
      exact (List.append_nil _).symm
    | cons term terms ih =>
      intro first sum made
      rw [List.foldlM_cons, bind_ok_iff] at made
      obtain ⟨next, added, made⟩ := made
      rw [ih next sum made, vars_widened added, List.append_assoc]
      rfl
  obtain ⟨rfl, rfl⟩ | ⟨term, rest, sum, rfl, adding, last⟩ := selector_cases made
  · rfl
  · have total := summed rest term sum adding
    rcases last with ⟨_, rfl⟩ | added
    · exact total
    · exact (vars_widened_lit added).trans total

/-- A rotated bank number also reads the register. -/
theorem vars_rotated {rotation : Option Rotation} {select : TypedExpr}
    (made : rotated rotation e = .ok select) :
    select.vars = e.vars ∨ ∃ r ty, rotation = some r ∧ select.vars = e.vars ++ [(ty, r.register)] := by
  obtain ⟨_, rfl⟩ | ⟨r, ty, sum, rfl, _, added, wrapped⟩ := rotated_cases made
  · exact .inl rfl
  · obtain ⟨_, _, rfl⟩ := Rotation.eq_of_wrap wrapped
    refine .inr ⟨r, ty, rfl, ?_⟩
    rw [TypedExpr.vars, vars_widened added]
    exact List.append_nil _

end

/-- A step of a rotation reads and sets the register. -/
theorem step_eq {r : Rotation} {pos : Nat} {step : TypedCommand} (stepped : r.step pos = .ok step) :
    ∃ ty next, step = .update pos (.var ty r.register) next ∧ next.vars = [(ty, r.register)] := by
  obtain ⟨ty, _, sum, added, next, wrapped, rfl⟩ := Rotation.step_update stepped
  obtain ⟨_, _, rfl⟩ := Rotation.eq_of_wrap wrapped
  refine ⟨ty, _, rfl, ?_⟩
  rw [TypedExpr.vars, vars_widened_lit added]
  rfl

/-- What is declared for an array in banks. -/
theorem declBanks_cases {l : Layout} {pos : Nat} {cmd : TypedCommand} (split : declBanks l pos = .ok cmd) :
    (∃ bank, cmd = .decl pos bank l.bankTy) ∨ ∃ cmds, cmd = .seq pos cmds := by
  obtain ⟨ds, listed, ⟨d, rfl, rfl⟩ | ⟨_, rfl⟩⟩ := declBanks_split split
  · obtain ⟨k, _, rfl⟩ := List.map_eq_singleton_iff.mp (Layout.split_eq listed).symm
    exact .inl ⟨_, rfl⟩
  · exact .inr ⟨_, rfl⟩

/-! ### Variables that are kept -/

/-- The same variables apart from the registers. -/
def Keeps (registers : List String) (source made : List (Ty × String)) : Prop :=
  ∀ v : Ty × String, v.2 ∉ registers → (v ∈ made ↔ v ∈ source)

namespace Keeps

variable {registers : List String} {source source' made made' : List (Ty × String)}

theorem refl (source : List (Ty × String)) : Keeps registers source source := fun _ _ => Iff.rfl

theorem append (first : Keeps registers source made) (second : Keeps registers source' made') :
    Keeps registers (source ++ source') (made ++ made') := by
  intro v user
  rw [List.mem_append, List.mem_append, first v user, second v user]

/-- What is known of the bank is left out of its number. -/
theorem known {terms addr : List (Ty × String)} (first : Keeps registers source made)
    (others : Keeps registers source' (terms ++ addr)) :
    Keeps registers (source ++ source') (terms ++ (made ++ addr)) := by
  intro v user
  have there := others v user
  rw [List.mem_append] at there
  rw [List.mem_append, List.mem_append, List.mem_append, first v user, ← there, or_left_comm]

/-- An offset may drop an index that the number of the bank has. -/
theorem varying {offset terms addr : List (Ty × String)} (first : Keeps registers source made)
    (less : offset ⊆ made) (others : Keeps registers source' (terms ++ addr)) :
    Keeps registers (source ++ source') ((made ++ terms) ++ (offset ++ addr)) := by
  intro v user
  have there := others v user
  have absorbed : v ∈ made ∨ v ∈ offset ↔ v ∈ made := or_iff_left_of_imp fun inside => less inside
  rw [List.mem_append] at there
  rw [List.mem_append, List.mem_append, List.mem_append, List.mem_append, or_or_or_comm, absorbed,
    first v user, there]

end Keeps

section

variable {tctx : Typing.Context} {types types' : Typing.Env} {ctx : Context} {env : Env}
  {registers : List String}

theorem keeps_resolved (known : ctx.Registered registers) {array : String} {layout : Layout} {ty : Ty}
    {writes : Bool} {p : Placement} {e : TypedExpr} {source : List (Ty × String)}
    (placed : Keeps registers source (TypedExpr.varsOf p.terms ++ TypedExpr.varsOf p.addr))
    (resolved : ResolvedAs ctx array layout ty writes p e) : Keeps registers source e.vars := by
  cases resolved with
  | direct _ known _ _ =>
    rw [known] at placed
    exact placed
  | multiplexed _ _ _ summed selected =>
    intro v user
    rw [← placed v user, ← vars_selector summed, TypedExpr.vars, List.mem_append, List.mem_append]
    rcases vars_rotated selected with same | ⟨r, ty, rotation, more⟩
    · rw [same]
    · have other : v ∉ [(ty, r.register)] := by
        intro here
        rw [List.mem_singleton.mp here] at user
        exact user (known _ _ rotation)
      rw [more, List.mem_append, or_iff_left other]

theorem length_zip_strides {dims : List Dim} {strides : List Nat}
    (strided : Layout.stridesOf dims = .ok strides) : (dims.zip strides).length = dims.length := by
  rw [List.length_zip, Layout.length_stridesOf strided, Nat.min_self]

mutual

theorem keeps_read (known : ctx.Registered registers) (agrees : Agrees types env) : {e e' : TypedExpr} →
    Typing.CheckedExpr tctx types e → ReadAs ctx env e e' → Keeps registers e.vars e'.vars
  | _, _, .int _, .int _ _ | _, _, .bool _, .bool _ _ | _, _, .scalar _, .var _ _
  | _, _, .iterator _, .var _ _ => .refl _
  | _, _, .binop left right _, .binop leftRead rightRead =>
    (keeps_read known agrees left leftRead).append (keeps_read known agrees right rightRead)
  | _, _, .access declared indices, .access bound strided placed resolved => by
    cases agrees.layout_eq declared bound
    exact keeps_resolved known
      (keeps_place known agrees indices (length_zip_strides strided) placed) resolved

theorem keeps_place (known : ctx.Registered registers) (agrees : Agrees types env) : {dims : List Dim} →
    {idxs : List TypedExpr} → {spread : List (Dim × Nat)} → {base : Nat} → {p : Placement} →
    Typing.CheckedIndices tctx types dims idxs → spread.length = dims.length →
    PlacedAs ctx env base idxs spread p →
    Keeps registers (TypedExpr.varsOf idxs) (TypedExpr.varsOf p.terms ++ TypedExpr.varsOf p.addr)
  | _, _, _, _, _, .nil, _, .done _ => .refl _
  | _, _, _, _, _, .cons .., count, .done (.inr rfl) => nomatch count
  | _, _, _, _, _, .cons checked _ _ rest, count, .known value _ addressed others _ => by
    rw [TypedExpr.varsOf, TypedExpr.varsOf, vars_staticOffset addressed]
    exact (keeps_read known agrees checked value).known
      (keeps_place known agrees rest (Nat.succ.inj count) others)
  | _, _, _, _, _, .cons checked _ _ rest, count, .varying value _ _ chosen addressed others => by
    rw [TypedExpr.varsOf, TypedExpr.varsOf, TypedExpr.varsOf, vars_bankTerm chosen]
    exact (keeps_read known agrees checked value).varying (vars_maskedOffset addressed)
      (keeps_place known agrees rest (Nat.succ.inj count) others)

end

theorem keeps_write (known : ctx.Registered registers) (agrees : Agrees types env)
    {target target' : TypedExpr} (place : Typing.CheckedTarget tctx types target)
    (split : WrittenAs ctx env target target') : Keeps registers target.vars target'.vars := by
  cases place with
  | register _ =>
    cases split
    exact .refl _
  | element checked =>
    cases checked with
    | access declared indices =>
      cases split with
      | element bound strided placed resolved =>
        cases agrees.layout_eq declared bound
        exact keeps_resolved known
          (keeps_place known agrees indices (length_zip_strides strided) placed) resolved
      | other notAccess => exact absurd rfl (notAccess _ _ _)

/-- A command of the split reads the variables of its source. -/
theorem keeps_command (known : ctx.Registered registers) (agrees : Agrees types env) {cmd cmd' : TypedCommand}
    (checked : Typing.CheckedCommand tctx types cmd types') (split : BankedCommand ctx env cmd cmd') :
    Keeps registers cmd.vars cmd'.vars := by
  cases split with
  | array found split => rcases declBanks_cases split with ⟨_, rfl⟩ | ⟨_, rfl⟩ <;> exact .refl _
  | scalar | seq | loop | still | skip => exact .refl _
  | define value =>
    cases checked with
    | define checked _ _ _ => exact keeps_read known agrees checked value
  | branch value _ _ =>
    cases checked with
    | branch checked _ _ _ => exact keeps_read known agrees checked value
  | update place value =>
    cases checked with
    | update target checked _ =>
      exact (keeps_write known agrees target place).append (keeps_read known agrees checked value)
  | reduce place value =>
    cases checked with
    | reduce target _ checked _ =>
      exact (keeps_write known agrees target place).append (keeps_read known agrees checked value)
  | eval value =>
    cases checked with
    | call _ _ =>
      cases value
      exact .refl _
    | eval checked => exact keeps_read known agrees checked value
  | rotate rotated stepped =>
    obtain ⟨ty, next, rfl, reads⟩ := step_eq stepped
    intro v user
    have other (same : v = (ty, _)) : False := user (same ▸ known _ _ rotated)
    simp only [Command.vars, TypedExpr.vars, reads, List.mem_append, List.mem_singleton,
      List.not_mem_nil, iff_false, or_self]
    exact other

/-- Apart from the registers, a command of the split assigns to the variable that its source assigns
to. -/
theorem assigned_command (known : ctx.Registered registers) {cmd cmd' : TypedCommand}
    (split : BankedCommand ctx env cmd cmd') {name : String} (user : name ∉ registers) :
    cmd'.assigned? = some name ↔ cmd.assigned? = some name := by
  cases split with
  | array _ split => rcases declBanks_cases split with ⟨_, rfl⟩ | ⟨_, rfl⟩ <;> rfl
  | @update _ _ target _ _ _ place _ | @reduce _ _ _ target _ _ _ place _ =>
    cases place with
    | element _ _ _ resolved => cases resolved <;> rfl
    | other _ => cases target <;> rfl
  | rotate rotated stepped =>
    obtain ⟨ty, next, rfl, _⟩ := step_eq stepped
    refine iff_of_false ?_ nofun
    rintro ⟨⟩
    exact user (known _ _ rotated)
  | _ => rfl

/-- A command of the split defines the variable that its source defines. -/
theorem definition_command {cmd cmd' : TypedCommand} (split : BankedCommand ctx env cmd cmd') :
    cmd'.definition? = cmd.definition? := by
  cases split with
  | array found split =>
    obtain ⟨_, _, rfl, rfl⟩ := isArray_of_ofTy? found
    rcases declBanks_cases split with ⟨_, rfl⟩ | ⟨_, rfl⟩ <;> rfl
  | rotate _ stepped =>
    obtain ⟨_, _, rfl, _⟩ := step_eq stepped
    rfl
  | _ => rfl

end

end Banking

end BankedLoops
