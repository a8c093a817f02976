import BankedLoops.Proofs.Typing.Blame
import BankedLoops.Proofs.Lowering.Annotations
import BankedLoops.Proofs.Lowering.Blame

/-!
# Diagnostics quote the program

A refusal that quotes a statement quotes one that the program has. If the failure arises at a command,
in whatever pass, it is that command. Otherwise it is a declaration, a function or a parameter, or the
first command that advances an array. The positions of what the passes emit are those of the source.
-/

namespace BankedLoops

/-! ### Texts -/

theorem colon_not_mem_placeholder (n : Nat) : ':' ∉ (placeholder n).toList := by
  show ':' ∉ ("<statement " ++ toString n ++ ">").toList
  rw [String.toList_append, String.toList_append, Nat.toString_eq_repr, Nat.toList_repr]
  have digits : ':' ∉ Nat.toDigits 10 n := fun member =>
    nomatch FreeName.isDigit_toDigits n ':' member
  simp [digits]

theorem ne_placeholder_of_colon {text : String} (colon : ':' ∈ text.toList) (n : Nat) :
    text ≠ placeholder n := by
  rintro rfl
  exact colon_not_mem_placeholder n colon

/-- A name is set off from its type by a colon. -/
theorem Decl.colon_mem_text (d : Decl) : ':' ∈ d.text.toList := by
  show ':' ∈ (d.name ++ ": " ++ d.ty.text).toList
  rw [String.toList_append, String.toList_append]
  simp

theorem Program.Writes.ne_placeholder {p : SourceProgram} {pos : Nat} {text : String}
    (writes : p.Writes pos text) (n : Nat) : text ≠ placeholder n := by
  have ends {c : Char} (last : text.toList.getLast? = some c) (other : c ≠ '>') :
      text ≠ placeholder n := by
    rintro rfl
    rw [getLast_append rfl] at last
    exact other (Option.some.inj last).symm
  cases writes with
  | decl _ => exact ends (getLast_append (c := ';') rfl) (by decide)
  | function _ => exact ends (getLast_append (c := ')') rfl) (by decide)
  | @param _ d _ _ => exact ne_placeholder_of_colon d.colon_mem_text n
  | command _ statement => exact text_ne_placeholder statement n

/-! ### Typed commands -/

namespace Typing

mutual

/-- Every command of the typed program has its source. -/
theorem Annotates.source {cmd : SourceCommand} {typed inner : TypedCommand} :
    Annotates cmd typed → inner ∈ typed.preorder → ∃ source ∈ cmd.preorder, Annotates source inner
  | .seq pos each, member => by
    rcases List.mem_cons.mp member with rfl | inside
    · exact ⟨_, List.mem_cons_self, .seq pos each⟩
    · obtain ⟨source, among, annotates⟩ := each.source inside
      exact ⟨source, List.mem_cons_of_mem _ among, annotates⟩
  | .branch pos value first second, member => by
    rcases List.mem_cons.mp member with rfl | inside
    · exact ⟨_, List.mem_cons_self, .branch pos value first second⟩
    · rcases List.mem_append.mp inside with yes | no
      · obtain ⟨source, among, annotates⟩ := first.source yes
        exact ⟨source, List.mem_cons_of_mem _ (List.mem_append_left _ among), annotates⟩
      · obtain ⟨source, among, annotates⟩ := second.source no
        exact ⟨source, List.mem_cons_of_mem _ (List.mem_append_right _ among), annotates⟩
  | .loop pos header body, member => by
    rcases List.mem_cons.mp member with rfl | inside
    · exact ⟨_, List.mem_cons_self, .loop pos header body⟩
    · obtain ⟨source, among, annotates⟩ := body.source inside
      exact ⟨source, List.mem_cons_of_mem _ among, annotates⟩
  | leaf@(.decl ..), member | leaf@(.define ..), member | leaf@(.update ..), member
  | leaf@(.reduce ..), member | leaf@(.eval ..), member | leaf@(.advance ..), member
  | leaf@(.skip ..), member =>
    ⟨_, List.mem_cons_self, (List.mem_singleton.mp member).symm ▸ leaf⟩

theorem AnnotatesSeq.source {cmds : List SourceCommand} {typed : List TypedCommand}
    {inner : TypedCommand} : AnnotatesSeq cmds typed → inner ∈ Command.preorderSeq typed →
      ∃ source ∈ Command.preorderSeq cmds, Annotates source inner
  | .cons first others, member => by
    rcases List.mem_append.mp member with head | tail
    · obtain ⟨source, among, annotates⟩ := first.source head
      exact ⟨source, List.mem_append_left _ among, annotates⟩
    · obtain ⟨source, among, annotates⟩ := others.source tail
      exact ⟨source, List.mem_append_right _ among, annotates⟩

theorem AnnotatesElse.source {cmd : Option SourceCommand} {typed : Option TypedCommand}
    {inner : TypedCommand} : AnnotatesElse cmd typed → inner ∈ Command.preorderElse typed →
      ∃ source ∈ Command.preorderElse cmd, Annotates source inner
  | .some annotated, member => annotated.source member

end

theorem AnnotatesProgram.source {p : SourceProgram} {typed : TypedProgram}
    (annotated : AnnotatesProgram p typed) {inner : TypedCommand} (member : inner ∈ typed.commands) :
    ∃ source ∈ p.commands, Annotates source inner := by
  rcases List.mem_append.mp member with inDefs | inBody
  · obtain ⟨typedFunction, defined, inside⟩ := List.mem_flatMap.mp inDefs
    obtain ⟨f, among, annotatedFunction⟩ := exists_mem_of_related annotated.defs defined
    obtain ⟨source, within, annotates⟩ := annotatedFunction.body.source inside
    exact ⟨source, List.mem_append_left _ (List.mem_flatMap.mpr ⟨f, among, within⟩), annotates⟩
  · obtain ⟨source, among, annotates⟩ := annotated.body.source inBody
    exact ⟨source, List.mem_append_right _ among, annotates⟩

end Typing

/-! ### Quotations -/

/-- A failure quotes no other statements. -/
def Quotes (blamed : String → Prop) (f : Failure) : Prop :=
  ∀ e stmt, f = .error e → e.statement? = some stmt → blamed stmt

theorem lenient_quotes (blamed : String → Prop) : Banking.Lenient blamed (Quotes blamed) where
  capability := by
    intro stmt statement fault e _ same quoted
    cases same
    cases quoted
    exact statement
  noRotationLayout := by
    intro array e stmt same quoted
    cases same
    cases quoted
  noBank := by
    intro bank array e stmt same quoted
    cases same
    cases quoted
  fault := by
    intro fault e stmt same
    cases same

theorem quotes_layoutOf {blamed : String → Prop} (env : Banking.Env) (array : String) :
    Fails (Quotes blamed) (Banking.layoutOf env array) := by
  unfold Banking.layoutOf
  split
  · exact .pure _
  · refine .refuse fun e stmt same quoted => ?_
    cases same
    cases quoted

theorem Typing.BlamesStatement.quotes {stmt : String} {f : Failure} (blames : BlamesStatement stmt f) :
    Quotes (· = stmt) f := by
  intro e _ same quoted
  cases blames <;> cases same <;> exact (Option.some.inj quoted).symm

theorem Lowering.Usual.quotes {blamed : String → Prop} {f : Failure} (usual : Usual blamed f) :
    Quotes blamed f := by
  intro e stmt same quoted
  cases usual with
  | capability statement =>
    cases same
    cases quoted
    exact statement
  | config | internal _ =>
    cases same
    cases quoted
  | fault => cases same

/-! ### Where a failure of a compilation arises -/

/-- The failure arises at a command with the position: when it is checked, when it is split into
banks, or when it is lowered. -/
inductive Program.ArisesAt (p : SourceProgram) (config : Config) (f : Failure) : Nat → Prop where
  | checking {owner : Owner} {start : Typing.Context × Typing.Env} {body cmd : SourceCommand}
      (starts : p.checkedAt owner [] = some (start, body))
      (arises : Typing.scrutiny.Arises f start body cmd) : ArisesAt p config f cmd.pos
  | splitting {typed : TypedProgram} {owner : Owner} {ctx : Banking.Context} {env : Banking.Env}
      {body cmd : TypedCommand} (checked : p.check.result = .ok typed)
      (starts : typed.splitFrom (.ofProgram p) owner = some ((ctx, env), body))
      (arises : (Banking.banking ctx).Arises f env body cmd) : ArisesAt p config f cmd.pos
  | lowering {typed : TypedProgram} {banked : BankedProgram} {owner : Owner}
      {start : Lowering.Env × Lowering.Workspace} {body cmd : TypedCommand}
      (checked : p.check.result = .ok typed)
      (split : (typed.toBanks (.ofProgram p)).result = .ok banked)
      (starts : banked.lowerFrom config (.ofProgram p) owner = some (start, body))
      (arises : (Lowering.lowering (banked.setting config (.ofProgram p))).Arises f start body cmd) :
      ArisesAt p config f cmd.pos

/-- What is refused outside commands: a declaration or a function that the checker does not accept,
an array whose banks do not rotate, and storage for which there is no memory. -/
inductive Program.Declines (p : SourceProgram) : CompileError → Prop where
  | misdeclared {e : CompileError} (misdeclares : Typing.Misdeclares p e) : Declines p e
  | rotation {pos : Nat} {array : String} {fault : CapabilityFault}
      (member : .advance pos array ∈ p.commands) :
      Declines p (.capability s!"advance {array};" fault)
  | storage {d : Decl} {fault : CapabilityFault} (member : d ∈ p.decls) :
      Declines p (.capability s!"decl {d.text};" fault)
  | parameter {f : Function (Option Ty) Expr} {d : Decl} {fault : CapabilityFault}
      (defined : f ∈ p.defs) (member : d ∈ f.params) : Declines p (.capability d.text fault)

/-- A failure that quotes a statement comes from outside commands, or it arises at a command. -/
def Program.Traces (p : SourceProgram) (config : Config) (f : Failure) : Prop :=
  ∀ e stmt, f = .error e → e.statement? = some stmt → p.Declines e ∨ ∃ pos, p.ArisesAt config f pos

section

variable {text : String} {p : SourceProgram} {config : Config}

theorem Program.traces_check : Fails (p.Traces config) p.check.result := by
  refine p.rejects_check.mono fun f rejects e stmt same quoted => ?_
  cases rejects with
  | outside misdeclares =>
    cases same
    exact .inl (.misdeclared misdeclares)
  | inside starts failed =>
    obtain ⟨cmd, arises⟩ := FalliblePass.exists_arises failed
    exact .inr ⟨cmd.pos, .checking starts arises⟩

theorem lenient_traces : Banking.Lenient
    (fun stmt => ∃ pos array, .advance pos array ∈ p.commands ∧ stmt = s!"advance {array};")
    (p.Traces config) where
  capability := by
    rintro _ ⟨pos, array, member, rfl⟩ fault e stmt same _
    cases same
    exact .inl (.rotation member)
  noRotationLayout := by
    intro array e stmt same quoted
    cases same
    cases quoted
  noBank := by
    intro bank array e stmt same quoted
    cases same
    cases quoted
  fault := by
    intro fault e stmt same
    cases same

theorem Program.preorder_of_components {typed : TypedProgram} {ds : List Decl} {body : TypedCommand}
    (member : (ds, body) ∈ typed.components) : body.preorder ⊆ typed.commands := by
  rcases List.mem_append.mp member with inDefs | inRoot
  · obtain ⟨f, defined, same⟩ := List.mem_map.mp inDefs
    cases same
    exact preorder_of_defs defined
  · obtain ⟨cmd, found, same⟩ := List.mem_map.mp inRoot
    cases same
    exact preorder_of_body (Option.mem_toList.mp found)

theorem Program.traces_toBanks (parsed : parse text = .ok p) {typed : TypedProgram}
    (checked : p.check.result = .ok typed) :
    Fails (p.Traces config) (typed.toBanks (.ofProgram p)).result := by
  refine fails_toBanks_of lenient_traces ?_ ?_
  · intro ds body member entry advanced
    have among := preorder_of_components member ((Banking.advance_mem_preorder_iff body).mpr advanced)
    obtain ⟨source, written, annotates⟩ := (Typing.annotates_of_check checked).source among
    cases annotates
    exact ⟨entry.2, entry.1, written, describe_eq_text parsed written rfl⟩
  · intro owner ctx env body starts f failed e stmt _ _
    have fails : (Banking.banking ctx).FailsAt env body f := failed
    obtain ⟨cmd, arises⟩ := FalliblePass.exists_arises fails
    exact .inr ⟨cmd.pos, .splitting checked starts arises⟩

/-- Memories stand where their array does. -/
theorem pos_of_memoriesOfDecl {d e : Decl} (member : e ∈ Banking.memoriesOfDecl d) :
    e.pos = d.pos := by
  unfold Banking.memoriesOfDecl at member
  split at member
  · obtain ⟨_, _, rfl⟩ := List.mem_map.mp member
    rfl
  · rw [List.mem_singleton.mp member]

theorem describe_eq_of_writes (parsed : parse text = .ok p) {pos : Nat} {stmt : String}
    (writes : p.Writes pos stmt) : (Statements.ofProgram p).describe pos = stmt := by
  rw [Statements.describe, (get?_ofProgram parsed).mpr writes]
  rfl

/-- What has no storage is described as its array. -/
theorem Program.traces_usual {s : Lowering.Setting} {ds : List Decl}
    (declines : ∀ d ∈ ds, ∀ fault, p.Declines (.capability (s.statements.describe d.pos) fault))
    (f : Failure)
    (usual : Lowering.Usual (Lowering.Describes s (ds.flatMap Banking.memoriesOfDecl)) f) :
    p.Traces config f := by
  intro e stmt same quoted
  cases usual with
  | capability statement =>
    cases same
    obtain ⟨memory, member, rfl⟩ := statement
    obtain ⟨d, among, inside⟩ := List.mem_flatMap.mp member
    rw [pos_of_memoriesOfDecl inside]
    exact .inl (declines d among _)
  | config | internal _ =>
    cases same
    cases quoted
  | fault => cases same

theorem Program.traces_toNetlist (parsed : parse text = .ok p) {typed : TypedProgram}
    (checked : p.check.result = .ok typed) {banked : BankedProgram}
    (split : (typed.toBanks (.ofProgram p)).result = .ok banked) :
    Fails (p.Traces config) (banked.toNetlist config (.ofProgram p)).result := by
  have annotated := Typing.annotates_of_check checked
  have overBanks := Banking.toBanks_overBanks checked split
  refine BankedProgram.fails_toNetlist_of ⟨fun f' member => ?_, ?_⟩ ?_ ?_
  · obtain ⟨f, defined, splitFunction⟩ := exists_mem_of_related overBanks.functions member
    obtain ⟨source, written, annotatedFunction⟩ := exists_mem_of_related annotated.defs defined
    rw [splitFunction.params, annotatedFunction.params]
    refine traces_usual fun d among fault => ?_
    rw [BankedProgram.setting, describe_eq_of_writes parsed (.param written among)]
    exact .parameter written among
  · rw [overBanks.decls, annotated.decls]
    refine traces_usual fun d among fault => ?_
    rw [BankedProgram.setting, describe_eq_of_writes parsed (.decl among)]
    exact .storage among
  · intro bank array e stmt same quoted
    cases same
    cases quoted
  · intro owner env w body starts f failed e stmt _ _
    have fails :
        (Lowering.lowering (banked.setting config (.ofProgram p))).FailsAt (env, w) body f := failed
    obtain ⟨cmd, arises⟩ := FalliblePass.exists_arises fails
    exact .inr ⟨cmd.pos, .lowering checked split starts arises⟩

theorem Program.traces_compile (parsed : parse text = .ok p) :
    Fails (p.Traces config) (p.compile config).result := by
  simp only [compile, Outcome.result_bind]
  refine .bind_of_ok traces_check fun typed checked => ?_
  refine .bind_of_ok (traces_toBanks parsed checked) fun banked split => ?_
  exact .bind (traces_toNetlist parsed checked split) fun _ => .bind (.pure ()) fun _ => .pure _

/-! ### The innermost command -/

/-- Whatever statement the failure quotes is the command at the position. -/
def Program.BlamesCommandAt (p : SourceProgram) (pos : Nat) (f : Failure) : Prop :=
  ∀ e stmt, f = .error e → e.statement? = some stmt →
    ∃ cmd ∈ p.commands, cmd.isStatement = true ∧ cmd.pos = pos ∧ stmt = cmd.text

theorem Program.blames_of_described (parsed : parse text = .ok p) {pos : Nat} {f : Failure}
    (numbered : pos ∈ numbersOf p.commands)
    (described : Quotes (· = (Statements.ofProgram p).describe pos) f) : p.BlamesCommandAt pos f := by
  intro e stmt same quoted
  obtain ⟨cmd, member, statement, rfl⟩ := mem_numbersOf.mp numbered
  exact ⟨cmd, member, statement, rfl,
    (described e stmt same quoted).trans (describe_eq_text parsed member statement)⟩

theorem Program.blames_of_checking {f : Failure} {owner : Owner} {start : Typing.Context × Typing.Env}
    {body cmd : SourceCommand} (starts : p.checkedAt owner [] = some (start, body))
    (arises : Typing.scrutiny.Arises f start body cmd) : p.BlamesCommandAt cmd.pos f := by
  obtain ⟨_, _, _, refused⟩ := arises.stops Typing.localises_scrutiny (formed_of_checkedAt starts)
  exact fun e stmt same quoted => ⟨cmd, preorder_of_checkedAt starts arises.mem_preorder,
    refused.statement, rfl, refused.blames.quotes e stmt same quoted⟩

theorem Program.blames_of_splitting (parsed : parse text = .ok p) {f : Failure} {typed : TypedProgram}
    {owner : Owner} {ctx : Banking.Context} {env : Banking.Env} {body cmd : TypedCommand}
    (checked : p.check.result = .ok typed)
    (starts : typed.splitFrom (.ofProgram p) owner = some ((ctx, env), body))
    (arises : (Banking.banking ctx).Arises f env body cmd) : p.BlamesCommandAt cmd.pos f := by
  obtain ⟨_, env', _, stops⟩ := arises.stops (Banking.localises_banking ctx) trivial
  obtain ⟨tabled, within⟩ := splitFrom_ok starts
  refine blames_of_described parsed ?_ (stops.permitted (lenient_quotes _) ?_ (quotes_layoutOf env'))
  · rw [← (Typing.annotates_of_check checked).numbers]
    exact mem_numbersOf.mpr ⟨cmd, within arises.mem_preorder, stops.isStatement, rfl⟩
  · rw [tabled]

theorem Program.blames_of_lowering (parsed : parse text = .ok p) {f : Failure} {typed : TypedProgram}
    {banked : BankedProgram} {owner : Owner} {start : Lowering.Env × Lowering.Workspace}
    {body cmd : TypedCommand} (checked : p.check.result = .ok typed)
    (split : (typed.toBanks (.ofProgram p)).result = .ok banked)
    (starts : banked.lowerFrom config (.ofProgram p) owner = some (start, body))
    (arises : (Lowering.lowering (banked.setting config (.ofProgram p))).Arises f start body cmd) :
    p.BlamesCommandAt cmd.pos f := by
  obtain ⟨_, _, _, missed⟩ := arises.stops (Lowering.localises_lowering _) trivial
  refine blames_of_described parsed ?_ missed.usual.quotes
  rw [← (Typing.annotates_of_check checked).numbers]
  exact banked.of_lowerFrom starts (numbers_toBanks split)
    (mem_numbersOf.mpr ⟨cmd, arises.mem_preorder, missed.statement, rfl⟩)

theorem Program.ArisesAt.blames (parsed : parse text = .ok p) {f : Failure} {pos : Nat}
    (arises : p.ArisesAt config f pos) : p.BlamesCommandAt pos f := by
  cases arises with
  | checking starts arises => exact blames_of_checking starts arises
  | splitting checked starts arises => exact blames_of_splitting parsed checked starts arises
  | lowering checked split starts arises => exact blames_of_lowering parsed checked split starts arises

/-! ### Diagnostics -/

/-- What a diagnostic may quote: what the program has at a position, or the header of a function with
a parameter that is at fault. -/
inductive Program.Quotable (p : SourceProgram) : CompileError → String → Prop where
  | written {e : CompileError} {pos : Nat} {stmt : String} (writes : p.Writes pos stmt)
      (tabled : (Statements.ofProgram p).get? pos = some stmt) : Quotable p e stmt
  | parameter {f : Function (Option Ty) Expr} {d : Decl} {fault : TypeFault} (defined : f ∈ p.defs)
      (member : d ∈ f.params) (illTyped : Typing.IllTyped d fault) :
      Quotable p (.mismatch s!"{f.text} {d.text}" fault) s!"{f.text} {d.text}"

theorem Program.Quotable.of_writes (parsed : parse text = .ok p) {e : CompileError} {pos : Nat}
    {stmt : String} (writes : p.Writes pos stmt) : p.Quotable e stmt :=
  .written writes ((get?_ofProgram parsed).mpr writes)

theorem Program.Quotable.ne_placeholder {e : CompileError} {stmt : String}
    (quotable : p.Quotable e stmt) (n : Nat) : stmt ≠ placeholder n := by
  cases quotable with
  | written writes _ => exact writes.ne_placeholder n
  | @parameter f d _ _ _ _ =>
    refine ne_placeholder_of_colon ?_ n
    show ':' ∈ (f.text ++ " " ++ d.text).toList
    rw [String.toList_append]
    exact List.mem_append_right _ d.colon_mem_text

theorem Program.Declines.quotable (parsed : parse text = .ok p) {e : CompileError} {stmt : String}
    (declines : p.Declines e) (quoted : e.statement? = some stmt) : p.Quotable e stmt := by
  cases declines with
  | misdeclared misdeclares =>
    cases misdeclares with
    | functionTwice defined | parameterTwice defined _ =>
      cases quoted
      exact .of_writes parsed (.function defined)
    | parameter defined member illTyped =>
      cases quoted
      exact .parameter defined member illTyped
    | declaredTwice member | storage member _ =>
      cases quoted
      exact .of_writes parsed (.decl member)
  | rotation member =>
    cases quoted
    exact .of_writes parsed (.command member rfl)
  | storage member =>
    cases quoted
    exact .of_writes parsed (.decl member)
  | parameter defined member =>
    cases quoted
    exact .of_writes parsed (.param defined member)

/-- What is known of a statement that a diagnostic quotes. -/
structure Program.Blamed (p : SourceProgram) (config : Config) (e : CompileError) (stmt : String) :
    Prop where
  quotable : p.Quotable e stmt
  named : ∀ n, stmt ≠ placeholder n
  origin : p.Declines e ∨ ∃ pos, p.ArisesAt config (.error e) pos
  innermost : ∀ pos, p.ArisesAt config (.error e) pos →
    ∃! cmd, cmd ∈ p.commands ∧ cmd.isStatement = true ∧ cmd.pos = pos ∧ stmt = cmd.text

end

/-- A diagnostic that quotes a statement quotes the program. Where the failure arises at a command,
that is the command. -/
theorem compile_blames {config : Config} {text : String} {e : CompileError} {stmt : String}
    (failed : (compile config text).result = .error (.error e))
    (quoted : e.statement? = some stmt) : ∃ p, parse text = .ok p ∧ p.Blamed config e stmt := by
  rcases parse_ends text with ⟨p, parsed, _⟩ | ⟨rejection, rejected, blames⟩
  · refine ⟨p, parsed, ?_⟩
    rw [result_compile parsed] at failed
    have innermost (pos : Nat) (arises : p.ArisesAt config (.error e) pos) :=
      arises.blames parsed e stmt rfl quoted
    have origin := p.traces_compile parsed _ failed e stmt rfl quoted
    have quotable : p.Quotable e stmt := by
      rcases origin with declines | ⟨pos, arises⟩
      · exact declines.quotable parsed quoted
      · obtain ⟨cmd, member, statement, _, rfl⟩ := innermost pos arises
        exact .of_writes parsed (.command member statement)
    refine ⟨quotable, quotable.ne_placeholder, origin, fun pos arises => ?_⟩
    obtain ⟨cmd, member, statement, at_, same⟩ := innermost pos arises
    refine ⟨cmd, ⟨member, statement, at_, same⟩, fun other ⟨among, _, there, _⟩ => ?_⟩
    exact command_eq_of_pos_eq parsed member among (there.trans at_.symm)
  · simp only [compile, Outcome.result_bind, rejected] at failed
    cases failed
    cases blames <;> cases quoted

/-- The statement that a failed result quotes. -/
def quoted? {α : Type} : Except Failure α → Option String
  | .error (.error e) => e.statement?
  | _ => none

theorem exists_error_of_quoted {α : Type} {x : Except Failure α} {stmt : String}
    (quoted : quoted? x = some stmt) : ∃ e, x = .error (.error e) ∧ e.statement? = some stmt := by
  match x, quoted with
  | .error (.error e), quoted => exact ⟨e, rfl, quoted⟩

/-- Inside a loop and two branches, the bank of a write is only known at run time. -/
def unsteadyWrite : String :=
  "decl a: ubit<8>[4 bank 2]; for (let i = 0..4) \x7b " ++
    "if (i < 2) \x7b let x = 1; \x7d else \x7b a[0] := 2; if (i < 3) \x7b a[i] := 1; \x7d \x7d \x7d"

theorem compile_blames_unsteadyWrite : ∃ e p pos, e.statement? = some "a[i] := 1;" ∧
    (compile {} unsteadyWrite).result = .error (.error e) ∧ parse unsteadyWrite = .ok p ∧
    p.Blamed {} e "a[i] := 1;" ∧ p.ArisesAt {} (.error e) pos := by
  obtain ⟨e, failed, quoted⟩ : ∃ e, (compile {} unsteadyWrite).result = .error (.error e) ∧
      e.statement? = some "a[i] := 1;" := exists_error_of_quoted (by decide +kernel)
  obtain ⟨p, parsed, blamed⟩ := compile_blames failed quoted
  have bodiless : p.defs = [] := by
    obtain ⟨_, read, none⟩ : ∃ p, parse unsteadyWrite = .ok p ∧ p.defs.length = 0 :=
      exists_ok_of_map (by decide +kernel)
    cases parsed.symm.trans read
    exact List.eq_nil_of_length_eq_zero none
  have inside : ¬ p.Declines e := by
    have other {head middle tail : String} {c : Char} (second : head.toList[1]? = some c)
        (apart : c ≠ '[') (same : some (head ++ middle ++ tail) = some "a[i] := 1;") : False := by
      have letters := congrArg (·.toList[1]?) (Option.some.inj same)
      simp only [String.toList_append, List.append_assoc] at letters
      rw [List.getElem?_append_left (List.getElem?_eq_some_iff.mp second).1, second] at letters
      exact apart (Option.some.inj letters)
    intro declines
    cases declines with
    | misdeclared misdeclares =>
      cases misdeclares with
      | functionTwice defined | parameterTwice defined _ | parameter defined _ _ =>
        rw [bodiless] at defined
        cases defined
      | declaredTwice _ | storage _ _ => exact other (c := 'e') rfl (by decide) quoted
    | rotation _ => exact other (c := 'd') rfl (by decide) quoted
    | storage _ => exact other (c := 'e') rfl (by decide) quoted
    | parameter defined _ =>
      rw [bodiless] at defined
      cases defined
  obtain ⟨pos, arises⟩ := blamed.origin.resolve_left inside
  exact ⟨e, p, pos, quoted, failed, parsed, blamed, arises⟩

end BankedLoops
