import BankedLoops.Proofs.Lowering.Spread

/-!
# Widths in netlists of clean texts

A checked program none of whose names looks like a bank is typed again once it is split: its commands
are `Physical` over the names of its memories. With that the bits of every wire are known, so
`compile_widthsAgree` holds of every text that is clean.
-/

namespace BankedLoops

namespace Lowering

section

variable {arrays names : List String} {ctx : Banking.Context}

/-! ### Commands -/

theorem physical_declBanks {l : Layout} {pos : Nat} {cmd : TypedCommand}
    (banked : Banking.declBanks l pos = .ok cmd) (slots : Slots) : PhysicalCommand slots cmd := by
  have all (ds : List Decl) (slots : Slots) :
      PhysicalSeq slots (ds.map fun d => .decl pos d.name d.ty) := by
    induction ds generalizing slots with
    | nil => trivial
    | cons d ds ih => exact ⟨trivial, ih _⟩
  obtain ⟨ds, _, ⟨d, _, rfl⟩ | ⟨_, rfl⟩⟩ := Banking.declBanks_split banked
  · trivial
  · exact all ds slots

theorem physical_step {slots : Slots} {r : Banking.Rotation} (turning : Turning names slots r)
    {pos : Nat} {cmd : TypedCommand} (stepped : r.step pos = .ok cmd) :
    PhysicalCommand slots cmd ∧ slotsAfter slots cmd = slots := by
  obtain ⟨ty, typed, sum, added, next, wrapped, rfl⟩ := Banking.Rotation.step_update stepped
  have register := PhysicalIndex.register turning typed
  obtain ⟨index, same⟩ :=
    (register.added (.lit isWord_one) added).wrap turning wrapped
  rw [typed] at same
  refine ⟨⟨register.physical, index.physical, ?_⟩, rfl⟩
  rw [← Except.ok.inj same]
  simp [assignable, TypedExpr.ty]

theorem physical_eval {slots : Slots} {e : TypedExpr} (typed : Physical slots e) (pos : Nat) :
    PhysicalCommand slots (.eval pos e) := by
  rw [physicalCommand_eval]
  · exact typed
  · rintro ty func args rfl
    cases typed

/-- A scalar that is declared. -/
theorem Spreads.declScalar {rotations : List (String × Banking.Rotation)} {types : Typing.Env}
    {slots : Slots} (spreads : Spreads arrays names rotations types slots)
    (clean : Banking.BankNameClean arrays names) {name : String} (fresh : name ∈ names) {ty : Ty}
    (scalar : Layout.ofTy? name ty = none) :
    Spreads arrays names rotations (types.rebind name (.ofTy ty)) (slots.rebind name (.ofTy ty)) := by
  cases ty with
  | array elem dims => cases scalar
  | _ => exact spreads.rebindPlain clean fresh (by simp [Typing.Binding.ofTy]) (.scalar (Scope.get?_rebind_self ..))

mutual

/-- A command that is split is typed over the memories. -/
theorem physical_command (clean : Banking.BankNameClean arrays names) {tctx : Typing.Context}
    {types types' : Typing.Env} {env : Banking.Env} {slots : Slots} {cmd cmd' : TypedCommand} :
    Banking.BankedCommand ctx env cmd cmd' → Typing.CheckedCommand tctx types cmd types' →
    Typing.WrittenCommand cmd → Situated arrays names ctx.rotations types env slots →
    Banking.binders cmd ⊆ names → Banking.arraysIn cmd ⊆ arrays →
    PhysicalCommand slots cmd' ∧ Spreads arrays names ctx.rotations types' (slotsAfter slots cmd')
  | .array found split, .decl _ fresh, written, situated, bound, array => by
    obtain ⟨elem, dims, rfl, rfl⟩ := Banking.isArray_of_ofTy? found
    obtain ⟨ds, banks, after⟩ := slotsAfter_declBanks split slots
    refine ⟨physical_declBanks split slots, ?_⟩
    rw [Scope.eq_rebind_of_bind? fresh, after]
    exact situated.spreads.split clean (bound (by simp [Banking.binders]))
      (array (by simp [Banking.arraysIn, Ty.isArray])) written banks
  | .scalar found, .decl _ fresh, _, situated, bound, _ => by
    rw [Scope.eq_rebind_of_bind? fresh]
    exact ⟨trivial, situated.spreads.declScalar clean (bound (by simp [Banking.binders])) found⟩
  | .define value, .define checked _ fits fresh, written, situated, bound, _ => by
    rw [Scope.eq_rebind_of_bind? fresh]
    refine ⟨⟨physical_read situated checked written value, value.ty_eq ▸ fits⟩, ?_⟩
    exact situated.spreads.rebindPlain clean (bound (by simp [Banking.binders]))
      (by simp) (.scalar (Scope.get?_rebind_self ..))
  | .seq all, .seq checked, written, situated, bound, array =>
    physical_seq clean all checked written situated bound array
  | .branch value yes no, .branch checked _ yesChecked noChecked, written, situated, bound,
      array => by
    have entered : Situated arrays names ctx.rotations _ _ slots.enter :=
      ⟨situated.formed.enter, situated.agrees.enter, situated.spreads.enter⟩
    obtain ⟨first, _⟩ := physical_command clean yes yesChecked written.2.1 entered
      (fun x member => bound (List.mem_append_left _ member))
      (fun x member => array (List.mem_append_left _ member))
    have second := physical_else clean no noChecked written.2.2 entered
      (fun x member => bound (List.mem_append_right _ member))
      (fun x member => array (List.mem_append_right _ member))
    exact ⟨⟨physical_read situated checked written.1 value, first, second⟩, situated.spreads⟩
  | @Banking.BankedCommand.loop _ _ _ header _ _ _ round, .loop range checked, written, situated,
      bound, array => by
    have counted : Spread (slots.enter.rebind header.iter (.iterator header.stop)) header.iter
        (.iterator (.idx header.stop header.unroll)) := .iterator _ (Scope.get?_rebind_self ..)
    have spreads := situated.spreads.enter.rebindPlain clean (bound List.mem_cons_self)
      (by simp) counted
    obtain ⟨inner, _⟩ := physical_command clean round checked written.2.2
      ⟨range.wellFormed situated.formed, situated.agrees.round range, spreads⟩
      (fun x member => bound (List.mem_cons_of_mem _ member)) array
    exact ⟨⟨range.runs, written.2.1, inner⟩, situated.spreads⟩
  | .update place read, .update placeChecked checked fits, written, situated, _, _ => by
    obtain ⟨target, same⟩ := physical_target situated placeChecked written.1 place
    refine ⟨⟨target, physical_read situated checked written.2 read, ?_⟩, situated.spreads⟩
    rw [same, read.ty_eq]
    exact fits
  | .reduce place read, .reduce placeChecked numeric checked fits, written, situated, _, _ => by
    obtain ⟨target, same⟩ := physical_target situated placeChecked written.2.1 place
    refine ⟨⟨written.1, same ▸ numeric, target, physical_read situated checked written.2.2 read, ?_⟩,
      situated.spreads⟩
    rw [same, read.ty_eq]
    exact fits
  | .eval value, checked, written, situated, _, _ => by
    cases checked with
    | call =>
      cases value
      exact ⟨trivial, situated.spreads⟩
    | eval checked =>
      exact ⟨physical_eval (physical_read situated checked written value) _, situated.spreads⟩
  | .rotate rotated stepped, .advance _, _, situated, _, _ => by
    obtain ⟨typed, same⟩ := physical_step (situated.spreads.turning rotated) stepped
    refine ⟨typed, ?_⟩
    rw [same]
    exact situated.spreads
  | .still _, .advance _, _, situated, _, _ => ⟨trivial, situated.spreads⟩
  | .skip, .skip, _, situated, _, _ => ⟨trivial, situated.spreads⟩

theorem physical_seq (clean : Banking.BankNameClean arrays names) {tctx : Typing.Context}
    {types types' : Typing.Env} {env : Banking.Env} {slots : Slots} {cmds cmds' : List TypedCommand} :
    Banking.BankedSeq ctx env cmds cmds' → Typing.CheckedSeq tctx types cmds types' →
    Command.WrittenSeq TypedExpr.Written cmds → Situated arrays names ctx.rotations types env slots →
    Banking.bindersOfSeq cmds ⊆ names → Banking.arraysInSeq cmds ⊆ arrays →
    PhysicalSeq slots cmds' ∧ Spreads arrays names ctx.rotations types' (slotsAfterSeq slots cmds')
  | .nil, .nil, _, situated, _, _ => ⟨trivial, situated.spreads⟩
  | .cons first rest, .cons checked others, written, situated, bound, array => by
    obtain ⟨typed, spreads⟩ := physical_command clean first checked written.1 situated
      (fun x member => bound (List.mem_append_left _ member))
      (fun x member => array (List.mem_append_left _ member))
    obtain ⟨all, spreads⟩ := physical_seq clean rest others written.2
      ⟨checked.wellFormed situated.formed, situated.agrees.after checked, spreads⟩
      (fun x member => bound (List.mem_append_right _ member))
      (fun x member => array (List.mem_append_right _ member))
    exact ⟨⟨typed, all⟩, spreads⟩

theorem physical_else (clean : Banking.BankNameClean arrays names) {tctx : Typing.Context}
    {types : Typing.Env} {env : Banking.Env} {slots : Slots} {cmd cmd' : Option TypedCommand} :
    Banking.BankedElse ctx env cmd cmd' → Typing.CheckedElse tctx types cmd →
    Command.WrittenElse TypedExpr.Written cmd → Situated arrays names ctx.rotations types env slots →
    Banking.bindersOfElse cmd ⊆ names → Banking.arraysInElse cmd ⊆ arrays → PhysicalElse slots cmd'
  | .none, .none, _, _, _, _ => trivial
  | .some banked, .some checked, written, situated, bound, array =>
    (physical_command clean banked checked written situated bound array).1

end

/-! ### Components -/

variable {rotations : List (String × Banking.Rotation)} {types types' : Typing.Env} {slots : Slots}

theorem Spreads.bankDecls (clean : Banking.BankNameClean arrays names) {ds banked : List Decl}
    {env env' : Banking.Env} (split : Banking.bankDecls env ds = .ok (banked, env'))
    (checked : Typing.CheckedDecls types ds types') (written : ∀ d ∈ ds, d.ty.Written)
    (bound : ds.map (·.name) ⊆ names) (array : (ds.filter (·.ty.isArray)).map (·.name) ⊆ arrays)
    (spreads : Spreads arrays names rotations types slots) :
    Spreads arrays names rotations types' (slotsOf slots banked) := by
  replace split := Banking.bankDecls_ok split
  induction split generalizing types slots with
  | nil =>
    cases checked
    exact spreads
  | array split _ ih =>
    obtain ⟨first, others⟩ := List.forall_mem_cons.mp written
    obtain ⟨fresh, otherNames⟩ := List.cons_subset.mp bound
    obtain ⟨member, otherArrays⟩ := List.cons_subset.mp array
    cases checked with
    | cons _ freshBind checked =>
      obtain rfl := Scope.eq_rebind_of_bind? freshBind
      rw [slotsOf, List.foldl_append]
      exact ih checked others otherNames otherArrays (spreads.split clean fresh member first split)
  | scalar found _ ih =>
    obtain ⟨_, others⟩ := List.forall_mem_cons.mp written
    obtain ⟨fresh, otherNames⟩ := List.cons_subset.mp bound
    rw [List.filter_cons_of_neg (by simp [Banking.isArray_of_ofTy?_none found])] at array
    cases checked with
    | cons _ freshBind checked =>
      obtain rfl := Scope.eq_rebind_of_bind? freshBind
      have next := spreads.declScalar clean fresh found
      exact (ih checked others otherNames array next :)

/-- The registers that rotate arrays are set up behind the names of the component. -/
theorem Spreads.setUp {statements : Statements} {body : TypedCommand} {env : Banking.Env}
    {taken : List String} {advanced : List (String × Nat)} {prologue : Banking.Prologue}
    (success : (Banking.setUpRotations statements body env taken advanced).result = .ok prologue)
    (accounted : Banking.Accounted names rotations env taken)
    (spreads : Spreads arrays names rotations types slots) :
    PhysicalSeq slots prologue.setup ∧ Spreads arrays names (rotations ++ prologue.rotations) types
      (slotsAfterSeq slots prologue.setup) := by
  induction advanced generalizing env taken rotations slots prologue with
  | nil =>
    cases success
    rw [List.append_nil]
    exact ⟨trivial, spreads⟩
  | cons entry advanced ih =>
    obtain ⟨array, pos⟩ := entry
    obtain ⟨layout, banks, _, counted, ⟨_, rest⟩ | ⟨register, ty, inner, named, _, typed, rest, rfl⟩⟩ :=
      Banking.setUpRotations_cons success
    · exact ih rest accounted spreads
    · have apart : ∀ other k, register ≠ Layout.bankName other k := by
        rw [named]
        exact fun other k => Layout.suffixed_ne_bankName array other _ k
      have turned := @Spreads.addTurn _ _ _ _ _ spreads array ⟨register, banks⟩
        (accounted.not_mem named) apart (Layout.bankCount_lt counted) (accounted.ne named) ty typed
      obtain ⟨others, final⟩ := ih rest (accounted.concat array banks) turned
      cases Banking.Rotation.eq_of_ty typed
      refine ⟨⟨⟨.int (Word.capacity_pos _), ?_⟩, others⟩, ?_⟩
      · simp only [assignable, TypedExpr.ty, TypedExpr.lit, Ty.ubit]
        exact decide_eq_true (bitsNeeded_mono (Nat.zero_le _))
      · rwa [List.append_assoc] at final

theorem physicalSeq_append {cmds others : List TypedCommand} (first : PhysicalSeq slots cmds)
    (second : PhysicalSeq (slotsAfterSeq slots cmds) others) : PhysicalSeq slots (cmds ++ others) := by
  induction cmds generalizing slots with
  | nil => exact second
  | cons cmd cmds ih => exact ⟨first.1, ih first.2 second⟩

theorem physical_bankBody {statements : Statements} {ds : List Decl} {body banked : TypedCommand}
    {tctx : Typing.Context}
    (clean : Banking.BankNameClean arrays (Banking.boundNames ds (some body)))
    (split : (Banking.bankBody statements (Banking.declared {} ds) body).result = .ok banked)
    (checked : Typing.CheckedCommand tctx types body types') (written : Typing.WrittenCommand body)
    (array : Banking.arraysIn body ⊆ arrays)
    (situated : Situated arrays (Banking.boundNames ds (some body)) [] types
      (Banking.declared {} ds) slots) : PhysicalCommand slots banked := by
  obtain ⟨prologue, inner, setUp, banked, rfl⟩ := Banking.bankBody_ok split
  obtain ⟨typed, spreads⟩ := situated.spreads.setUp setUp (accounted_body ds body)
  obtain ⟨main, _⟩ := physical_command clean banked checked written
    ⟨situated.formed, situated.agrees.setUpRotations setUp, spreads⟩ (List.subset_append_right _ _)
    array
  split
  · next empty =>
    rw [List.isEmpty_iff.mp empty] at main
    exact main
  · exact physicalSeq_append typed ⟨main, trivial⟩

/-- The body of a component over banks is typed over the memories of the component. -/
theorem physical_component {statements : Statements} {ds banked : List Decl} {env : Banking.Env}
    {body body' : Option TypedCommand} {tctx : Typing.Context}
    (clean : Banking.BankNameClean (Banking.arrayNames ds body) (Banking.boundNames ds body))
    (split : Banking.bankDecls {} ds = .ok (banked, env)) (splitBody : BankedBody statements env body body')
    (decls : Typing.CheckedDecls {} ds types) (checked : Typing.CheckedElse tctx types body)
    (written : ∀ d ∈ ds, d.ty.Written) (writtenBody : Command.WrittenElse TypedExpr.Written body) :
    PhysicalBody banked body' := by
  have spreads := Spreads.bankDecls clean split decls written (List.subset_append_left _ _)
    (List.subset_append_left _ _) (.empty _ _)
  obtain rfl := Banking.bankDecls_env split
  cases splitBody with
  | none => trivial
  | some split =>
    cases checked with
    | some checked =>
      exact physical_bankBody clean split checked writtenBody (List.subset_append_right _ _)
        ⟨decls.wellFormed .empty, Banking.Agrees.empty.declared decls, spreads⟩

end

end Lowering

open Lowering

theorem Program.physical_toBanks {statements : Statements} {p : TypedProgram} {banked : BankedProgram}
    (checked : Typing.CheckedProgram p) (written : p.Written TypedExpr.Written)
    (clean : p.BankNameClean) (split : (p.toBanks statements).result = .ok banked) :
    banked.program.Bodies PhysicalBody := by
  obtain ⟨env, splitFunctions, storage, _, splitBody⟩ := Program.toBanks_ok split
  obtain ⟨funcs, types, defs, decls, body⟩ := checked
  constructor
  · intro f' member
    obtain ⟨f, inside, splitFunction⟩ := mem_bankFunctions splitFunctions member
    obtain ⟨params, env, body, splitParams, splitBody, rfl⟩ := Banking.bankFunction_ok splitFunction
    obtain ⟨known, function⟩ := defs.mem inside
    obtain ⟨types, types', declared, checked⟩ := function.body
    exact physical_component (clean.functions f inside) splitParams (.some splitBody) declared
      (.some checked) (written.params f inside) (written.functions f inside)
  · exact physical_component clean.root storage (bankedBody_of_cases splitBody) decls body
      written.decls written.body

theorem check_ok {text : String} {p : TypedProgram} (checked : (check text).result = .ok p) :
    ∃ source, parse text = .ok source ∧ source.check.result = .ok p := by
  simpa only [check, Outcome.result_bind, bind_ok_iff, lift_diagnosed_ok_iff] using checked

/-- In a compiled text that binds no name of a bank, the two ends of every wire have the same number
of bits, every constant fits its width, and what guards or conditions test is a single bit. -/
theorem compile_widthsAgree {config : Config} {text : String} {p : TypedProgram} {netlist : Netlist}
    (checked : (check text).result = .ok p) (clean : p.BankNameClean)
    (compiled : (compile config text).result = .ok netlist) :
    ∀ c ∈ netlist.components, c.WidthsAgree := by
  intro c member
  obtain ⟨source, q, banked, parsed, accepted, split, lowered⟩ := compile_ok compiled
  obtain ⟨source', parsed', accepted'⟩ := check_ok checked
  rw [parsed] at parsed'
  cases parsed'
  rw [accepted] at accepted'
  cases accepted'
  have written := Program.check_written (parse_written parsed) accepted
  obtain ⟨name, _, control, w, rfl, planned⟩ := BankedProgram.toNetlist_planned
    (Program.tidy_toBanks written split) (fun _ => Program.physical_toBanks
      (Typing.checkedProgram_of_check accepted) written clean split) lowered member
  exact planned.widthsAgree name

theorem gather_clean : ∃ p, (check gather).result = .ok p ∧ p.BankNameClean := by
  have short : ∃ p, (check gather).result = .ok p ∧ p.hasShortNames = true :=
    exists_ok_of_map (by decide +kernel)
  obtain ⟨p, checked, short⟩ := short
  exact ⟨p, checked, Program.clean_of_hasShortNames short⟩

/-- Its iterator is narrower than the loop register, and its index than the sum. -/
theorem compile_widthsAgree_gather : ∃ p netlist, (check gather).result = .ok p ∧ p.BankNameClean ∧
    (compile {} gather).result = .ok netlist ∧ netlist.components.map (·.groups.length) = [9] ∧
    ∀ c ∈ netlist.components, c.WidthsAgree := by
  obtain ⟨p, checked, clean⟩ := gather_clean
  obtain ⟨netlist, compiled, counted⟩ := gather_compiles
  exact ⟨p, netlist, checked, clean, compiled, counted, compile_widthsAgree checked clean compiled⟩

end BankedLoops
