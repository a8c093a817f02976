import BankedLoops.Proofs.Banking.Ranges

/-!
# Turns of a rotation over whole runs

The hidden register of a rotated array counts the turns that the array has made since its component was
entered, modulo the number of banks. One `advance` adds one, whatever the widths that the sum goes through,
and nothing else in a run of the component reaches the register; so every access selects the bank that its
element was turned to.
-/

namespace BankedLoops

namespace Banking

open Semantics

/-! ### One turn -/

/-- The register of a rotation after some turns. -/
structure Turned (r : Rotation) (loc turns : Nat) (run : Semantics.Env) (s : State) : Prop where
  bound : run.get? r.register = some (.scalar loc)
  holds : Holds [r.register] loc (turns % r.banks) run s

section

variable {m : Machine} {procs : List (String × Procedure)} {r : Rotation} {loc turns pos : Nat}
  {run : Semantics.Env} {s : State}

namespace Turned

theorem scalarOf (turned : Turned r loc turns run s) :
    scalarOf? run s r.register = some (turns % r.banks) := by
  simp only [scalarOf?, turned.bound]
  exact turned.holds.value

/-- The register is read as a number of its type. -/
theorem denotes (turned : Turned r loc turns run s) (power : isPowerOfTwo r.banks = true) {ty : Ty}
    (typed : r.ty = .ok ty) {index : Bool} {leaf : TypedExpr → Prop} (given : leaf (.var ty r.register)) :
    Denotes m run s index leaf (.var ty r.register) (turns % r.banks) := by
  refine ⟨.leaf given ?_, ?_⟩
  · rw [eval, turned.scalarOf]
    rfl
  · cases Rotation.eq_of_ty typed
    refine .of_unsigned rfl (Nat.lt_of_le_of_lt ?_ (lt_capacity_bitsNeeded (r.banks - 1)))
    exact Nat.le_sub_one_of_lt (Nat.mod_lt _ (pos_of_isPowerOfTwo power))

/-- A step of the rotation makes one turn more. -/
theorem step (turned : Turned r loc turns run s) (power : isPowerOfTwo r.banks = true)
    {cmd : TypedCommand} (stepped : r.step pos = .ok cmd) {next : Semantics.Env × State}
    (ran : exec m procs run s cmd = .ok next) : Turned r loc (turns + 1) next.1 next.2 := by
  obtain ⟨ty, typed, sum, added, next, wrapped, rfl⟩ := Rotation.step_update stepped
  obtain ⟨_, typed', rfl⟩ := Rotation.eq_of_wrap wrapped
  cases typed.symm.trans typed'
  have register : Denotes m run s false (fun _ => True) (.var ty r.register) (turns % r.banks) :=
    turned.denotes power typed trivial
  cases Rotation.eq_of_ty typed
  have masked := (register.add (.lit 1) added).bitAnd
    (Nat.lt_of_le_of_lt Nat.and_le_right (lt_capacity_bitsNeeded (r.banks - 1)))
  have value := masked.computes.eval_eq
  rw [land_of_isPowerOfTwo power, Nat.mod_add_mod] at value
  simp only [exec, placeOf, turned.bound, value, ok_bind, Except.ok.injEq] at ran
  subst ran
  refine ⟨turned.bound, turned.holds.only, ?_⟩
  rw [State.get?_set, if_pos rfl, turned.holds.value]
  rfl

/-- Nothing else reaches the register. -/
theorem keep (turned : Turned r loc turns run s) (spares : Spares procs) {cmd : TypedCommand}
    (simple : cmd.isSimple = true) (unbound : cmd.bound? ≠ some r.register)
    (unassigned : cmd.assigned? ≠ some r.register) {next : Semantics.Env × State}
    (ran : exec m procs run s cmd = .ok next) : Turned r loc turns next.1 next.2 where
  bound := by
    cases quiet : cmd.declares with
    | false =>
      rw [env_of_exec quiet ran]
      exact turned.bound
    | true =>
      cases cmd with
      | decl pos name ty =>
        cases ran
        have other : r.register ≠ name := fun same => unbound (same ▸ rfl)
        unfold allocate
        split <;> exact (Scope.get?_rebind ..).trans ((if_neg other).trans turned.bound)
      | define pos name ty init =>
        simp only [exec, bind_ok_iff, Except.ok.injEq] at ran
        obtain ⟨_, _, rfl⟩ := ran
        have other : r.register ≠ name := fun same => unbound (same ▸ rfl)
        exact (Scope.get?_rebind ..).trans ((if_neg other).trans turned.bound)
      | seq => cases simple
      | _ => cases quiet
  holds := by
    refine exec_holds spares cmd (fun inner inside name assigned member => ?_) turned.holds ran
    have here : inner = cmd := by
      cases cmd with
      | seq | branch | loop => cases simple
      | _ => exact List.mem_singleton.mp inside
    rw [← here, assigned, List.mem_singleton.mp member] at unassigned
    exact unassigned rfl

end Turned

end

/-! ### Where the register is set -/

/-- An assignment of the split is one of the source, or a turn. -/
theorem assigned_of_split {ctx : Context} {env : Env} {cmd cmd' : TypedCommand}
    (split : BankedCommand ctx env cmd cmd') {name : String} (assigned : cmd'.assigned? = some name) :
    cmd.assigned? = some name ∨ ∃ pos array r, cmd = .advance pos array ∧
      ctx.rotations.lookup array = some r ∧ r.register = name := by
  cases split with
  | array _ split => rcases declBanks_cases split with ⟨_, rfl⟩ | ⟨_, rfl⟩ <;> cases assigned
  | @update _ _ target _ _ _ place _ | @reduce _ _ _ target _ _ _ place _ =>
    cases place with
    | element _ _ _ resolved => cases resolved <;> cases assigned
    | other _ => cases target <;> exact .inl assigned
  | @rotate _ pos array r _ rotated stepped =>
    obtain ⟨_, _, rfl, _⟩ := step_eq stepped
    cases assigned
    exact .inr ⟨pos, array, r, rfl, rotated, rfl⟩
  | _ => cases assigned

theorem exists_var_of_assigned {cmd : TypedCommand} {name : String} (assigned : cmd.assigned? = some name) :
    ∃ v ∈ cmd.vars, v.2 = name := by
  cases cmd with
  | update pos target value | reduce pos op target value =>
    cases target with
    | var ty name =>
      cases assigned
      exact ⟨(ty, name), List.mem_cons_self, rfl⟩
    | _ => cases assigned
  | _ => cases assigned

/-- The declarations of banks assign nothing. -/
theorem assigned_declBanks {l : Layout} {pos : Nat} {cmd deep : TypedCommand}
    (split : declBanks l pos = .ok cmd) {path : List Descent} (found : cmd.at? path = some deep) :
    deep.assigned? = none := by
  have declaration {ds : List Decl} {decl : TypedCommand}
      (member : decl ∈ ds.map fun d => Command.decl pos d.name d.ty) {path : List Descent}
      (found : decl.at? path = some deep) : deep.assigned? = none := by
    obtain ⟨d, _, rfl⟩ := List.mem_map.mp member
    cases path with
    | nil =>
      cases found
      rfl
    | cons => cases found
  obtain ⟨ds, _, ⟨d, rfl, rfl⟩ | ⟨_, rfl⟩⟩ := declBanks_split split
  · exact declaration (List.mem_map_of_mem (List.mem_singleton_self d)) found
  · cases path with
    | nil =>
      cases found
      rfl
    | cons step path =>
      obtain ⟨inner, here, deeper⟩ := Option.bind_eq_some_iff.mp found
      cases step with
      | item k => exact declaration (List.mem_of_getElem? here) deeper
      | _ => cases here

/-- What stands in the split body is the split form of what stands in the same place of the source, or
a declaration of banks. -/
theorem source_of_at? {ctx : Context} {path : List Descent} {env : Env} {cmd cmd' deep' : TypedCommand}
    (split : BankedCommand ctx env cmd cmd') (found : cmd'.at? path = some deep') :
    (∃ env' deep, cmd.at? path = some deep ∧ BankedCommand ctx env' deep deep') ∨
      deep'.assigned? = none ∧ ∀ pos array, cmd.at? path ≠ some (.advance pos array) := by
  induction path generalizing env cmd cmd' with
  | nil =>
    cases found
    exact .inl ⟨env, cmd, rfl, split⟩
  | cons step path ih =>
    cases split with
    | array _ split => exact .inr ⟨assigned_declBanks split found, nofun⟩
    | rotate _ stepped =>
      obtain ⟨_, _, rfl, _⟩ := step_eq stepped
      cases found
    | seq all =>
      obtain ⟨inner', here, deeper⟩ := Option.bind_eq_some_iff.mp found
      cases step with
      | item k =>
        obtain ⟨lt, _⟩ := List.getElem?_eq_some_iff.mp here
        rw [all.length_eq] at lt
        obtain ⟨_, listed, _, inside⟩ := bankedSeq_item all (List.getElem?_eq_getElem lt)
        obtain rfl := Option.some.inj (here.symm.trans listed)
        simp only [Command.at?, Command.inner?, List.getElem?_eq_getElem lt, Option.bind_some]
        exact ih inside deeper
      | _ => cases here
    | branch _ yes no =>
      cases step with
      | onTrue => exact ih yes found
      | onFalse =>
        cases no with
        | none => cases found
        | some no => exact ih no found
      | _ => cases found
    | loop _ round =>
      cases step with
      | round => exact ih round found
      | _ => cases found
    | _ => cases found

/-- Whether the statement there advances the array. -/
def advancesAt (body : TypedCommand) (array : String) (path : List Descent) : Bool :=
  match body.at? path with
  | some (.advance _ other) => other == array
  | _ => false

theorem advancesAt_iff {body : TypedCommand} {array : String} {path : List Descent} :
    advancesAt body array path = true ↔ ∃ pos, body.at? path = some (.advance pos array) := by
  unfold advancesAt
  split
  · next pos other here =>
    rw [here, beq_iff_eq]
    constructor
    · rintro rfl
      exact ⟨pos, rfl⟩
    · rintro ⟨_, same⟩
      cases same
      rfl
  · next other =>
    refine iff_of_false Bool.false_ne_true ?_
    rintro ⟨pos, here⟩
    exact other pos array here

section

variable {statements : Statements} {body inner : TypedCommand} {env start : Env} {taken : List String}
  {entries : List (String × Nat)} {prologue : Prologue} {array : String} {r : Rotation}

theorem step_of_advancesAt (split : BankedCommand ⟨statements, prologue.rotations⟩ start body inner)
    (turns : prologue.rotations.lookup array = some r) {path : List Descent} {deep : TypedCommand}
    (found : inner.at? path = some deep) (advances : advancesAt body array path = true) :
    ∃ pos, r.step pos = .ok deep := by
  obtain ⟨pos, here⟩ := advancesAt_iff.mp advances
  rcases source_of_at? split found with ⟨_, _, there, split⟩ | ⟨_, other⟩
  · obtain rfl := Option.some.inj (here.symm.trans there)
    cases split with
    | rotate rotated stepped =>
      obtain rfl := Option.some.inj (turns.symm.trans rotated)
      exact ⟨pos, stepped⟩
    | still fixed => exact nomatch turns.symm.trans fixed
  · exact absurd here (other pos array)

/-- Only an `advance` of the array sets its register. -/
theorem not_assigned_of_not_advancesAt
    (setUp : (setUpRotations statements body env taken entries).result = .ok prologue)
    (split : BankedCommand ⟨statements, prologue.rotations⟩ start body inner)
    (shown : ∀ path cmd, body.at? path = some cmd → ∀ v ∈ cmd.vars, v.2 ∉ prologue.registers)
    (turns : prologue.rotations.lookup array = some r) {path : List Descent} {deep : TypedCommand}
    (found : inner.at? path = some deep) (other : advancesAt body array path = false) :
    deep.assigned? ≠ some r.register := by
  intro assigned
  rcases source_of_at? split found with ⟨_, source, there, split⟩ | ⟨none, _⟩
  · rcases assigned_of_split split assigned with assigned | ⟨pos, named, r', rfl, rotated, same⟩
    · obtain ⟨v, inside, same⟩ := exists_var_of_assigned assigned
      exact shown path source there v inside (same ▸ Prologue.mem_registers turns)
    · obtain rfl := lookup_inj setUp rotated turns same
      exact Bool.false_ne_true (other.symm.trans (advancesAt_iff.mpr ⟨pos, there⟩))
  · rw [none] at assigned
    cases assigned

theorem mem_preorder_of_at? {cmd deep : TypedCommand} {path : List Descent} (found : cmd.at? path = some deep) :
    deep ∈ cmd.preorder := by
  obtain ⟨_, met⟩ := total_numbering.visit {} found
  exact (Pass.visit_preorder_sublist met).subset deep.mem_preorder_self

/-- What a run of the split body does, the register counts. -/
theorem kept_of_split {m : Machine} {procs : List (String × Procedure)} {loc : Nat} (spares : Spares procs)
    (setUp : (setUpRotations statements body env taken entries).result = .ok prologue)
    (split : BankedCommand ⟨statements, prologue.rotations⟩ start body inner)
    (shown : ∀ path cmd, body.at? path = some cmd → ∀ v ∈ cmd.vars, v.2 ∉ prologue.registers)
    (unbound : r.register ∉ binders inner) (turns : prologue.rotations.lookup array = some r) :
    Kept m procs (Turned r loc) (advancesAt body array) inner where
  enter _ _ _ turned := ⟨turned.bound, turned.holds.enter⟩
  leave _ _ _ outside _ _ _ turned := ⟨outside.bound, outside.holds.leave turned.holds⟩
  round := by
    intro path pos header deep found c run s i turned
    have other : r.register ≠ header.iter := by
      intro same
      refine unbound (mem_binders_of_bound ?_ inner (mem_preorder_of_at? found))
      rw [same]
      rfl
    refine ⟨?_, turned.holds.rebind (by intro same; cases same)⟩
    rw [Scope.get?_rebind, if_neg other, turned.bound]
  compound := by
    intro path deep found compound
    by_contra advances
    obtain ⟨_, stepped⟩ := step_of_advancesAt split turns found (eq_true_of_ne_false advances)
    obtain ⟨_, _, rfl, _⟩ := step_eq stepped
    cases compound
  simple := by
    intro path deep found simple c run s turned next ran
    cases advances : advancesAt body array path with
    | true =>
      obtain ⟨_, stepped⟩ := step_of_advancesAt split turns found advances
      exact turned.step (setUpRotations_powers setUp turns) stepped ran
    | false =>
      refine turned.keep spares simple (fun bound => unbound ?_) ?_ ran
      · exact mem_binders_of_bound bound inner (mem_preorder_of_at? found)
      · exact not_assigned_of_not_advancesAt setUp split shown turns found advances

end

/-! ### The start of a component -/

/-- How a run gets into a component: a call binds the parameters to arrays, a program allocates its
storage. -/
inductive Entered (m : Machine) (ds : List Decl) : Semantics.Env → State → Prop where
  | call {locs : List Nat} {run : Semantics.Env} (given : bindParams {} ds locs = some run) (s : State) :
      Entered m ds run s
  | program : Entered m ds (allocateAll m {} {} ds).1 (allocateAll m {} {} ds).2

/-- Every scalar that a name leads to is stored. -/
def Within (run : Semantics.Env) (s : State) : Prop :=
  ∀ name loc, run.get? name = some (.scalar loc) → loc < s.scalars.length

theorem Within.push {run : Semantics.Env} {s : State} (within : Within run s) (name : String) (v : Nat) :
    Within (run.rebind name (.scalar s.scalars.length)) (s.pushScalar v) := by
  intro other loc bound
  rw [State.pushScalar, List.length_append]
  rw [Scope.get?_rebind] at bound
  split at bound
  · cases bound
    exact Nat.lt_succ_self _
  · exact Nat.lt_succ_of_lt (within other loc bound)

theorem Within.allocate {run : Semantics.Env} {s : State} (within : Within run s) (m : Machine)
    (name : String) (ty : Ty) : Within (allocate m run s name ty).1 (allocate m run s name ty).2 := by
  unfold Semantics.allocate
  split
  · intro other loc bound
    rw [Scope.get?_rebind] at bound
    split at bound
    · cases bound
    · exact within other loc bound
  · exact within.push _ _

theorem Within.allocateAll {run : Semantics.Env} {s : State} (within : Within run s) (m : Machine)
    (ds : List Decl) : Within (allocateAll m run s ds).1 (allocateAll m run s ds).2 := by
  induction ds generalizing run s with
  | nil => exact within
  | cons d ds ih => exact ih (within.allocate m d.name d.ty)

theorem Entered.within {m : Machine} {ds : List Decl} {run : Semantics.Env} {s : State}
    (entered : Entered m ds run s) : Within run s := by
  cases entered with
  | call given =>
    intro name loc bound
    rcases bindParams_get? given bound with ⟨_, array⟩ | before
    · cases array
    · cases before
  | program =>
    refine Within.allocateAll ?_ m ds
    intro name loc bound
    cases bound

/-- Behind the set-up every register is zero, and no other name leads to it. -/
theorem SetsUp.run {registers : List String} {setup : List TypedCommand} (setsUp : SetsUp registers setup)
    (distinct : registers.Nodup) {m : Machine} {procs : List (String × Procedure)} {run : Semantics.Env}
    {s : State} (within : Within run s) : ∃ next, execSeq m procs run s setup = .ok next ∧
      (∀ name ∉ registers, next.1.get? name = run.get? name) ∧
      (∀ names loc v, Holds names loc v run s → Holds names loc v next.1 next.2) ∧
      ∀ register ∈ registers, ∃ loc, next.1.get? register = some (.scalar loc) ∧
        Holds [register] loc 0 next.1 next.2 := by
  induction setsUp generalizing run s with
  | nil => exact ⟨(run, s), rfl, fun _ _ => rfl, fun _ _ _ holds => holds, nofun⟩
  | @cons register cmd registers setup set _ ih =>
    obtain ⟨pos, width, rfl⟩ := set
    obtain ⟨free, distinct⟩ := List.nodup_cons.mp distinct
    obtain ⟨next, ran, others, kept, zero⟩ := ih distinct (within.push register 0)
    refine ⟨next, ran, fun name other => ?_, fun names loc v holds => kept names loc v (holds.push register 0),
      List.forall_mem_cons.mpr ⟨⟨s.scalars.length, ?_, kept _ _ _ ⟨fun name bound => ?_, ?_⟩⟩, zero⟩⟩
    · rw [List.mem_cons, not_or] at other
      rw [others name other.2, Scope.get?_rebind, if_neg other.1]
    · rw [others register free, Scope.get?_rebind_self]
    · rw [Scope.get?_rebind] at bound
      split at bound
      · next same => exact List.mem_singleton.mpr same
      · exact absurd (within name _ bound) (Nat.lt_irrefl _)
    · exact List.getElem?_concat_length

end Banking

end BankedLoops
