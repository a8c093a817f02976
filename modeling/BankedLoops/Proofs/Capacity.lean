import BankedLoops.Proofs.Compile
import BankedLoops.Proofs.Lowering.Demand
import BankedLoops.Proofs.Lowering.Memories
import BankedLoops.Proofs.Typing.Written

/-!
# Where words are long enough

The checker looks at one dimension and at one width at a time, so it also accepts arrays with more banks
than a word can count, and indices so wide that the width of a bank number is none. `Roomy` is what has
to be known beside the checker's judgement. Then the split into banks has a result for every
computation on words. Lowering adds only where it numbers a name, and a counter does not run ahead of
the names, so it never overflows where the names of a component can be counted.
-/

namespace BankedLoops

namespace Banking

/-- The banks of an array can be counted, and it has at most `rank` dimensions. -/
def Countable (rank : Nat) (dims : List Dim) : Prop :=
  bankTotal dims < Word.capacity Word.sizeBits ∧ dims.length ≤ rank

/-- The checker sees that dimensions are divided, and the sizes in a text are words. -/
theorem ample_of_countable {rank : Nat} {ty : Ty} (declared : Typing.declaredFault? ty = .ok none)
    (written : ty.Written) (countable : ty.Shaped (Countable rank)) : ty.Shaped (Ample rank) := by
  cases ty with
  | array elem dims =>
    obtain ⟨total, few⟩ := countable
    exact ⟨(Typing.declared_array declared).2, total, fun d member => (written.2 d member).1, few⟩
  | _ => trivial

mutual

theorem declaredTypes_written {value : TypedExpr → Prop} :
    (cmd : TypedCommand) → cmd.Written value → ∀ ty ∈ declaredTypes cmd, ty.Written
  | .decl .., written => List.forall_mem_singleton.mpr written
  | .seq _ cmds, written => declaredTypesOfSeq_written cmds written
  | .branch _ _ onTrue onFalse, written => List.forall_mem_append.mpr
    ⟨declaredTypes_written onTrue written.2.1, declaredTypesOfElse_written onFalse written.2.2⟩
  | .loop _ _ body, written => declaredTypes_written body written.2.2
  | .define .., _ | .update .., _ | .reduce .., _ | .eval .., _ | .advance .., _ | .skip .., _ => nofun

theorem declaredTypesOfSeq_written {value : TypedExpr → Prop} :
    (cmds : List TypedCommand) → Command.WrittenSeq value cmds →
    ∀ ty ∈ declaredTypesOfSeq cmds, ty.Written
  | [], _ => nofun
  | cmd :: cmds, written => List.forall_mem_append.mpr
    ⟨declaredTypes_written cmd written.1, declaredTypesOfSeq_written cmds written.2⟩

theorem declaredTypesOfElse_written {value : TypedExpr → Prop} :
    (cmd : Option TypedCommand) → Command.WrittenElse value cmd →
    ∀ ty ∈ declaredTypesOfElse cmd, ty.Written
  | none, _ => nofun
  | some cmd, written => declaredTypes_written cmd written

end

end Banking

open Banking

/-- What the checker leaves open about the numbers of a program: the banks of every array can be
counted, a bank that is known exists, an index whose bank is open is narrow enough for the bank
numbers of `rank` dimensions to be added up, and the names of every component can be counted. -/
structure Program.Roomy (rank : Nat) (statements : Statements) (p : TypedProgram) : Prop where
  params : ∀ f ∈ p.defs, ∀ d ∈ f.params, d.ty.Shaped (Countable rank)
  storage : ∀ d ∈ p.decls, d.ty.Shaped (Countable rank)
  locals : ∀ ds body, (ds, body) ∈ p.components →
    ∀ ty ∈ declaredTypes body, ty.Shaped (Countable rank)
  sites : ∀ ds body, (ds, body) ∈ p.components → ∀ prologue,
    (setUpRotations statements body (declared {} ds) (binders body)
      (firstOfEach (advances body))).result = .ok prologue →
    ∀ site ∈ sitesOfCommand prologue.env body, site.Ample rank
  names : p.Nameable statements

theorem Program.Written.of_components {p : TypedProgram} (written : p.Written TypedExpr.Written)
    {ds : List Decl} {body : TypedCommand} (member : (ds, body) ∈ p.components) :
    body.Written TypedExpr.Written := by
  rcases List.mem_append.mp member with inDefs | inRoot
  · obtain ⟨f, defined, same⟩ := List.mem_map.mp inDefs
    cases same
    exact written.functions f defined
  · obtain ⟨cmd, found, same⟩ := List.mem_map.mp inRoot
    cases same
    have present := written.body
    rw [Option.mem_toList.mp found] at present
    exact present

/-- How a split with room fails: for lack of hardware, or for want of a layout. -/
def OutsideWords (f : Failure) : Prop :=
  Permitted f ∨ ∃ array, f = .error (.internal (.noRotationLayout array))

theorem Program.Roomy.ample {rank : Nat} {statements : Statements} {p : TypedProgram}
    (roomy : p.Roomy rank statements) (written : p.Written TypedExpr.Written)
    (checked : Typing.CheckedProgram p) : p.AmpleWords OutsideWords rank statements where
  params := by
    intro f member d param
    obtain ⟨_, _, _, decls, _⟩ := checked.component (mem_components_of_defs member)
    exact ample_of_countable (decls.declared param) (written.params f member d param)
      (roomy.params f member d param)
  storage := by
    intro d member
    obtain ⟨_, _, _, decls, _⟩ := checked
    exact ample_of_countable (decls.declared member) (written.decls d member)
      (roomy.storage d member)
  bodies := by
    intro ds body member
    obtain ⟨_, _, _, _, commands⟩ := checked.component member
    have types := declaredTypes_written body (written.of_components member)
    exact ⟨fun ty inside => ample_of_countable (declaredTypes_valid commands ty inside)
        (types ty inside) (roomy.locals ds body member ty inside),
      fun entry _ => .inr (.inr ⟨entry.1, rfl⟩), roomy.sites ds body member⟩

/-- A split with room never ends in a computation on words. -/
theorem Program.Roomy.toBanks_ne_fault {rank : Nat} {statements : Statements} {p : TypedProgram}
    (roomy : p.Roomy rank statements) (written : p.Written TypedExpr.Written)
    (checked : Typing.CheckedProgram p) (fault : Fault) :
    (p.toBanks statements).result ≠ .error (.fault fault) := by
  intro failed
  rcases fails_toBanks_of_ample (fun _ => .inl) checked (roomy.ample written checked) _ failed with
    permitted | ⟨_, same⟩
  · cases permitted
  · cases same

namespace Lowering

/-- A counter stops at the number of names that the component has. -/
theorem counter_le_names {s : Setting} {exposure : Exposure} {ds : List Decl}
    {instances : List String} {body : Option TypedCommand} {quotes : Statements} {control : Control}
    {w : Workspace} (built : (assemble s exposure ds instances body).run { quotes } = .ok (control, w))
    {stem : String} {k : Nat} (counter : w.names.counters.lookup stem = some k) :
    k ≤ w.names.used.length := by
  have ends := assemble_ends s exposure ds instances body quotes
  rw [built] at ends
  exact ends.of_ok.le_length counter

end Lowering

/-- No pass runs out of words for an accepted program with room, whatever text it was read from:
compiling it never overflows, the split into banks has a result for every computation on words, and
lowering overflows for no result of the split. A counter is at most the number of names that the
component has taken. -/
theorem roomy_passes {source : SourceProgram} (written : source.Written Expr.Written)
    {p : TypedProgram} (checks : source.check.result = .ok p) {rank : Nat}
    (roomy : p.Roomy rank (.ofProgram source)) :
    (∀ text, parse text = .ok source → ∀ config,
      (compile config text).result ≠ .error (.fault .overflow)) ∧
    (∀ fault, (p.toBanks (.ofProgram source)).result ≠ .error (.fault fault)) ∧
    (∀ banked, (p.toBanks (.ofProgram source)).result = .ok banked → ∀ config,
      (banked.toNetlist config (.ofProgram source)).result ≠ .error (.fault .overflow)) ∧
    ∀ s exposure ds instances body quotes control w,
      (Lowering.assemble s exposure ds instances body).run { quotes } = .ok (control, w) →
      ∀ stem k, w.names.counters.lookup stem = some k → k ≤ w.names.used.length := by
  have checked := Typing.checkedProgram_of_check checks
  have splits := roomy.toBanks_ne_fault (Program.check_written written checks) checked
  have lowers (banked : BankedProgram) (split : (p.toBanks (.ofProgram source)).result = .ok banked)
      (config : Config) : (banked.toNetlist config (.ofProgram source)).result ≠ .error (.fault .overflow) :=
    fun failed => BankedProgram.counts_toNetlist (roomy.names banked split) config _ _ failed rfl
  refine ⟨?_, splits, lowers, fun _ _ _ _ _ _ _ _ built _ _ => Lowering.counter_le_names built⟩
  intro text parsed config
  rw [result_compile parsed]
  intro failed
  simp only [Program.compile, Outcome.result_bind, checks, ok_bind, bind_error_iff] at failed
  rcases failed with failed | ⟨banked, split, failed | ⟨netlist, _, failed⟩⟩
  · exact splits _ failed
  · exact lowers banked split config failed
  · rcases failed with failed | ⟨_, _, failed⟩ <;> cases failed

/-- A read along two banked dimensions of an array that is rotated:
`decl a: ubit<8>[4 bank 2][4 bank 2]; decl x: ubit<4>; let y = a[x][3]; advance a;`. -/
def quilt : SourceProgram where
  decls := [⟨0, "a", .array (.ubit 8) [⟨4, 2⟩, ⟨4, 2⟩]⟩, ⟨1, "x", .ubit 4⟩]
  defs := []
  body := some (.seq 2 [.define 3 "y" none (.access "a" [.var "x", .int 3]), .advance 4 "a"])

def quiltTyped : TypedProgram where
  decls := quilt.decls
  defs := []
  body := some (.seq 2
    [.define 3 "y" (.ubit 8) (.access (.ubit 8) "a" [.var (.ubit 4) "x", .lit 3]), .advance 4 "a"])

theorem quilt_written : quilt.Written Expr.Written where
  decls := by
    intro d member
    rcases List.mem_cons.mp member with rfl | member
    · exact ⟨by decide, by decide⟩
    · rw [List.mem_singleton.mp member]
      trivial
  params := nofun
  functions := nofun
  body := ⟨⟨trivial, (by decide : IsWord 3), trivial⟩, trivial, trivial⟩

theorem quiltTyped_roomy : quiltTyped.Roomy 2 (.ofProgram quilt) where
  params := nofun
  storage := by
    intro d member
    rcases List.mem_cons.mp member with rfl | member
    · exact ⟨by decide, by decide⟩
    · rw [List.mem_singleton.mp member]
      trivial
  locals := by
    intro ds body member
    cases List.mem_singleton.mp member
    exact nofun
  sites := by
    intro ds body member
    cases List.mem_singleton.mp member
    intro prologue setUp site inBody
    cases setUp
    rcases List.mem_cons.mp inBody with rfl | inBody
    · -- The register of `x` may hold any index, so no bank is known.
      exact ⟨nofun, fun _ => by decide⟩
    · rw [List.mem_singleton.mp inBody]
      refine ⟨?_, nofun⟩
      intro k known
      cases known
      decide
  names := Program.nameable_of_computed (by decide +kernel)

/-- The quilt has room, and never overflows. -/
theorem roomy_passes_quilt :
    quilt.Written Expr.Written ∧ quilt.check.result = .ok quiltTyped ∧
      quiltTyped.Roomy 2 (.ofProgram quilt) ∧
      (∀ fault, (quiltTyped.toBanks (.ofProgram quilt)).result ≠ .error (.fault fault)) ∧
      ∃ banked, (quiltTyped.toBanks (.ofProgram quilt)).result = .ok banked ∧
        (banked.toNetlist {} (.ofProgram quilt)).result ≠ .error (.fault .overflow) := by
  have checks : quilt.check.result = .ok quiltTyped := rfl
  obtain ⟨_, splits, lowers, _⟩ := roomy_passes quilt_written checks quiltTyped_roomy
  have ends : (quiltTyped.toBanks (.ofProgram quilt)).result.isOk = true := by decide +kernel
  obtain ⟨banked, split⟩ := exists_ok_of_isOk ends
  exact ⟨quilt_written, checks, quiltTyped_roomy, splits, banked, split, lowers banked split {}⟩

/-- An index so wide that the width of a bank number is none:
`decl a: ubit<8>[4 bank 2][4 bank 2]; decl x: ubit<4294967295>; let y = a[x][0];`. -/
def wideIndex : SourceProgram where
  decls := [⟨0, "a", .array (.ubit 8) [⟨4, 2⟩, ⟨4, 2⟩]⟩, ⟨1, "x", .ubit 4294967295⟩]
  defs := []
  body := some (.define 3 "y" none (.access "a" [.var "x", .int 0]))

-- The bank number along the first dimension is multiplied with a stride of two bits.
example : wideIndex.check.result.isOk = true ∧
    ((wideIndex.compile {}).result matches .error (.fault .overflow)) = true := by decide +kernel

end BankedLoops
