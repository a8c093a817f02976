import BankedLoops.Proofs.Banking.Simulation
import BankedLoops.Proofs.Semantics.Progress

/-!
# Splitting into banks keeps the meaning

The program over banks does what the program over arrays does. `runProgram_toBanks` is the main
result: from initial contents that are split into banks, a program whose names look like no bank ends
with the same scalars and with the banked image of every array.
-/

namespace BankedLoops

namespace Banking

open Semantics

/-! ### Functions -/

/-- A body that advances nothing is split as it stands. -/
theorem bankBody_still {statements : Statements} {env : Env} {body banked : TypedCommand}
    (still : advances body = []) (success : (bankBody statements env body).result = .ok banked) :
    BankedCommand ⟨statements, []⟩ env body banked := by
  obtain ⟨prologue, inner, setUp, split, rfl⟩ := bankBody_ok success
  rw [still] at setUp
  cases setUp
  exact split

theorem bindParams_append {run next : Semantics.Env} {ds es : List Decl} {locs others : List Nat}
    (first : bindParams run ds locs = some next) :
    bindParams run (ds ++ es) (locs ++ others) = bindParams next es others := by
  induction ds generalizing run locs with
  | nil =>
    cases locs with
    | nil =>
      cases first
      rfl
    | cons loc locs => cases first
  | cons d ds ih =>
    cases locs with
    | nil => cases first
    | cons loc locs => exact ih first

theorem bindParams_split (run : Semantics.Env) (start : Nat) {layout : Layout} {pos : Nat}
    {ds : List Decl} (split : layout.split pos = .ok ds) :
    bindParams run ds ((List.range (bankTotal layout.dims)).map (start + ·)) =
      some (bindBanks run layout start (bankTotal layout.dims)) := by
  have general (count : Nat) : bindParams run ((List.range count).map fun k =>
      ⟨pos, layout.memory k, layout.bankTy⟩) ((List.range count).map (start + ·)) =
      some (bindBanks run layout start count) := by
    induction count with
    | zero => rfl
    | succ count ih =>
      rw [List.range_succ, List.map_append, List.map_append, bindParams_append ih]
      rfl
  rw [Layout.split_eq split]
  exact general _

/-- Parameters over banks are bound to the banks of the arrays given for the parameters. -/
theorem bindParams_bank {shapes : List (List Dim)} {arrays names : List String}
    (clean : BankNameClean arrays names) {ds banked : List Decl} {env env' : Env}
    (split : bankDecls env ds = .ok (banked, env')) (bound : ds.map (·.name) ⊆ names)
    (array : ds.map (·.name) ⊆ arrays) {locs : List Nat} (passed : Passed shapes ds locs)
    {run run' next : Semantics.Env} (realises : Realises shapes arrays names env run run')
    (given : bindParams run ds locs = some next) :
    ∃ next', bindParams run' banked (bankLocs shapes locs) = some next' ∧
      Realises shapes arrays names env' next next' := by
  replace split := bankDecls_ok split
  induction split generalizing locs run run' with
  | nil =>
    cases passed
    cases given
    exact ⟨run', rfl, realises⟩
  | @array _ _ _ name elem dims _ _ _ split _ ih =>
    cases passed with
    | @cons _ loc _ locs first rest =>
      obtain ⟨_, _, isArray, shaped⟩ := first
      cases isArray
      obtain ⟨fresh, boundRest⟩ := List.cons_subset.mp bound
      obtain ⟨member, arrayRest⟩ := List.cons_subset.mp array
      have bindsFirst := bindParams_split run' (blockStart shapes loc) split
      obtain ⟨next', binds, realises⟩ := ih boundRest arrayRest rest
        (realises.rebindArray clean ⟨name, elem, dims⟩ fresh member shaped) given
      refine ⟨next', ?_, realises⟩
      rw [bankLocs, List.flatMap_cons, shaped]
      exact (bindParams_append bindsFirst).trans binds
  | scalar found _ _ =>
    cases passed with
    | cons first _ =>
      obtain ⟨_, _, isArray, _⟩ := first
      rw [isArray] at found
      cases found

section

variable {shapes : List (List Dim)} {m m' : Machine} {statements : Statements}

/-- A function over banks serves the calls of the function over arrays. -/
theorem serves_bankFunction (splits : Splits shapes m m') {funcs : List (String × List Decl)}
    {procs procs' : List (String × Procedure)} (grows : Grows procs)
    (calls : Calls shapes funcs procs procs') {f f' : Function Ty TypedExpr}
    (checked : Typing.CheckedFunction funcs f) (still : advances f.body = [])
    (clean : BankNameClean (arrayNames f.params (some f.body)) (boundNames f.params (some f.body)))
    (banked : (bankFunction statements f).result = .ok f') :
    Serves shapes f.params (procedure m procs f) (procedure m' procs' f') := by
  intro locs s t s' passed image ran known
  obtain ⟨params, env, body, split, bankedBody, rfl⟩ := bankFunction_ok banked
  obtain ⟨types, types', decls, checkedBody⟩ := checked.body
  simp only [procedure, bind_ok_iff, orStuck_ok_iff, map_ok_iff] at ran
  obtain ⟨run, given, r, executed, rfl⟩ := ran
  have arrays : f.params.map (·.name) ⊆ arrayNames f.params (some f.body) := by
    intro name member
    obtain ⟨d, param, rfl⟩ := List.mem_map.mp member
    refine List.mem_append_left _ (List.mem_map.mpr ⟨d, ?_, rfl⟩)
    exact List.mem_filter.mpr ⟨param, checked.arrays d param⟩
  obtain ⟨run', given', realises⟩ := bindParams_bank clean split (List.subset_append_left _ _)
    arrays passed (.empty shapes _ _) given
  have env_eq := bankDecls_env split
  subst env_eq
  have fixed : Fixed shapes _ _ funcs procs procs' m m' ⟨statements, []⟩ :=
    ⟨splits, rfl, clean, grows, calls⟩
  obtain ⟨r', executed', related⟩ := exec_bank fixed (bankBody_still still bankedBody) rfl
    (decls.wellFormed .empty) checkedBody (Agrees.empty.declared decls)
    (List.subset_append_right _ _) (List.subset_append_right _ _) ⟨realises, image⟩ executed known
  refine ⟨r'.2, ?_, related.image⟩
  simp only [procedure, given', orStuck_some, ok_bind]
  exact congrArg (Except.map Prod.snd) executed'

/-- Every function over banks serves the calls of its function over arrays. -/
theorem Calls.link (splits : Splits shapes m m') {funcs funcs' : List (String × List Decl)}
    {procs procs' : List (String × Procedure)} (grows : Grows procs)
    (calls : Calls shapes funcs procs procs') {fs fs' : List (Function Ty TypedExpr)}
    (checked : Typing.CheckedFunctions funcs fs funcs')
    (still : ∀ f ∈ fs, advances f.body = [])
    (clean : ∀ f ∈ fs, BankNameClean (arrayNames f.params (some f.body))
      (boundNames f.params (some f.body)))
    (banked : (bankFunctions statements fs).result = .ok fs') :
    Calls shapes funcs' (link m procs fs) (link m' procs' fs') := by
  replace banked := forall₂_bankFunctions banked
  induction checked generalizing procs procs' fs' with
  | nil =>
    cases banked
    exact calls
  | @cons funcs _ f _ first _ ih =>
    obtain _ | @⟨_, f', _, _, bankedFirst, bankedRest⟩ := banked
    have serves := serves_bankFunction splits grows calls first (still f List.mem_cons_self)
      (clean f List.mem_cons_self) bankedFirst
    have named : f'.name = f.name := by
      obtain ⟨_, _, _, _, _, rfl⟩ := bankFunction_ok bankedFirst
      rfl
    have next : Calls shapes ((f.name, f.params) :: funcs) ((f.name, procedure m procs f) :: procs)
        ((f'.name, procedure m' procs' f') :: procs') := by
      intro func params defined proc found
      rw [named]
      rw [List.lookup_cons] at defined found ⊢
      cases same : func == f.name with
      | true =>
        rw [same] at defined found
        cases defined
        cases found
        exact ⟨_, rfl, serves⟩
      | false =>
        rw [same] at defined found
        exact calls func params defined proc found
    exact ih (grows.cons f) next (fun g member => still g (List.mem_cons_of_mem _ member))
      (fun g member => clean g (List.mem_cons_of_mem _ member)) bankedRest

/-! ### Programs -/

/-- The declarations of a program allocate the banks of its arrays. -/
theorem allocateAll_bank (splits : Splits shapes m m') {arrays names : List String}
    (clean : BankNameClean arrays names) {ds banked : List Decl} {env env' : Env}
    {types types' : Typing.Env} (checked : Typing.CheckedDecls types ds types')
    (split : bankDecls env ds = .ok (banked, env')) (bound : ds.map (·.name) ⊆ names)
    (array : (ds.filter (·.ty.isArray)).map (·.name) ⊆ arrays) {run run' : Semantics.Env}
    {s s' : State} (related : Related shapes arrays names env (run, s) (run', s'))
    (known : (allocateAll m run s ds).2.shapes <+: shapes) :
    Related shapes arrays names env' (allocateAll m run s ds) (allocateAll m' run' s' banked) := by
  replace split := bankDecls_ok split
  induction split generalizing types run run' s s' with
  | nil => exact related
  | array split _ ih =>
    obtain ⟨fresh, boundRest⟩ := List.cons_subset.mp bound
    obtain ⟨member, arrayRest⟩ := List.cons_subset.mp array
    cases checked with
    | cons declared _ rest =>
      have first := allocate_array related splits clean fresh member declared rfl split
        ((allocateAll_grows m _ _ _).shapes.trans known)
      rw [allocateAll_append]
      exact ih rest boundRest arrayRest first known
  | scalar found _ ih =>
    obtain ⟨fresh, boundRest⟩ := List.cons_subset.mp bound
    rw [List.filter_cons_of_neg (by simp [isArray_of_ofTy?_none found])] at array
    cases checked with
    | cons _ _ rest =>
      exact ih rest boundRest array (allocate_scalar related splits clean fresh found) known

end

/-- What a run over banks ends with, for what a run over arrays ends with: the image of the store,
with every visible name standing for the same scalar or for the banks of its array. -/
structure Represents (r r' : Semantics.Env × State) : Prop where
  store : Image r.2.shapes r.2 r'.2
  scalars : ∀ name loc, r.1.get? name = some (.scalar loc) → r'.1.get? name = some (.scalar loc)
  arrays : ∀ name loc, r.1.get? name = some (.array loc) →
    ∃ layout : Layout, layout.name = name ∧ r.2.shapes[loc]? = some layout.dims ∧
      ∀ k, k < bankTotal layout.dims →
        r'.1.get? (layout.memory k) = some (.array (blockStart r.2.shapes loc + k))

theorem Related.represents {arrays names : List String} {env : Env} {r r' : Semantics.Env × State}
    (related : Related r.2.shapes arrays names env r r') : Represents r r' where
  store := related.image
  scalars := by
    intro name loc bound
    obtain ⟨binding, visible⟩ := related.realises.covered name _ bound
    cases related.realises.realised name binding visible with
    | scalar left right =>
      rw [left] at bound
      cases bound
      exact right
    | iterator left _ _ _ =>
      rw [left] at bound
      cases bound
    | array _ left _ _ =>
      rw [left] at bound
      cases bound
  arrays := by
    intro name loc bound
    obtain ⟨binding, visible⟩ := related.realises.covered name _ bound
    cases related.realises.realised name binding visible with
    | scalar left _ =>
      rw [left] at bound
      cases bound
    | iterator left _ _ _ =>
      rw [left] at bound
      cases bound
    | @array layout _ named left shaped right =>
      rw [left] at bound
      cases bound
      exact ⟨layout, named, shaped, right⟩

end Banking

/-- Splitting into banks keeps the meaning. A checked program that advances nothing and binds no name
of a bank either stops at an index, where an index leaves its dimension or an operation inside of it
wraps, or it ends; and then the program over banks, on the same initial contents split into banks,
ends with the same scalars and with the banked image of every array. -/
theorem Banking.runProgram_toBanks {source : SourceProgram} {p : TypedProgram}
    (checked : source.check.result = .ok p) (clean : p.BankNameClean) (still : p.IsStill)
    {statements : Statements} {banked : BankedProgram}
    (split : (p.toBanks statements).result = .ok banked) (m : Semantics.Machine) :
    Semantics.runProgram m p = .error .index ∨
      ∃ r, Semantics.runProgram m p = .ok r ∧ (∃ m', Splits r.2.shapes m m') ∧
        ∀ m', Splits r.2.shapes m m' →
          ∃ r', Semantics.runProgram m' banked.program = .ok r' ∧ Represents r r' := by
  have checked := Typing.checkedProgram_of_check checked
  rcases (Semantics.runProgram_runs checked still m).ok_or_index with stopped | ⟨r, ran⟩
  · exact .inl stopped
  · refine .inr ⟨r, ran, exists_splits r.2.shapes m, ?_⟩
    intro m' splits
    obtain ⟨funcs, types, defs, decls, body⟩ := checked
    obtain ⟨env, functions, storage, _, root⟩ := Program.toBanks_ok split
    have calls : Calls r.2.shapes funcs (Semantics.link m [] p.defs)
        (Semantics.link m' [] banked.program.defs) :=
      Calls.link splits .nil nofun defs still.functions clean.functions functions
    obtain rfl := bankDecls_env storage
    unfold Semantics.runProgram at ran ⊢
    have declared (known : (Semantics.allocateAll m {} {} p.decls).2.shapes <+: r.2.shapes) :=
      allocateAll_bank splits clean.root decls storage (List.subset_append_left _ _)
        (List.subset_append_left _ _) ⟨.empty r.2.shapes _ _, .empty r.2.shapes⟩ known
    rcases root with ⟨absent, absent'⟩ | ⟨cmd, cmd', present, present', bankedBody⟩
    · rw [absent] at ran
      rw [absent']
      cases ran
      exact ⟨_, rfl, (declared List.prefix_rfl).represents⟩
    · rw [present] at ran
      rw [present']
      dsimp only at ran ⊢
      have grows : Semantics.Grows (Semantics.link m [] p.defs) := Semantics.Grows.nil.link p.defs
      have related := declared (Semantics.exec_grows grows cmd ran).shapes
      have fixed : Fixed r.2.shapes _ _ funcs _ _ m m' ⟨statements, []⟩ :=
        ⟨splits, rfl, clean.root, grows, calls⟩
      rw [present] at body
      cases body with
      | some checkedBody =>
        obtain ⟨r', ran', after⟩ := exec_bank fixed
          (bankBody_still (by simpa [present, advancesOfElse] using still.root) bankedBody) rfl
          (decls.wellFormed .empty) checkedBody (Agrees.empty.declared decls)
          (by simp [boundNames, present, bindersOfElse])
          (by simp [arrayNames, present, arraysInElse]) related ran List.prefix_rfl
        exact ⟨r', ran', after.represents⟩

namespace Banking

/-- Fills the first bank of an array and reads both: `for (let i = 0..2) { a[i] := 7; }` and
`for (let j = 0..4) { let x = a[j]; }`. -/
def fillAndRead : SourceProgram where
  decls := [⟨0, "a", .array (.ubit 8) [⟨4, 2⟩]⟩]
  defs := []
  body := some (.seq 1
    [.loop 2 ⟨"i", 0, 2, none⟩ (.update 3 (.access "a" [.var "i"]) (.int 7)),
      .loop 4 ⟨"j", 0, 4, none⟩ (.define 5 "x" none (.access "a" [.var "j"]))])

def fillAndReadTyped : TypedProgram where
  decls := fillAndRead.decls
  defs := []
  body := some (.seq 1
    [.loop 2 ⟨"i", 0, 2, none⟩
        (.update 3 (.access (.ubit 8) "a" [.var (.idx 2 none) "i"]) (.lit 7)),
      .loop 4 ⟨"j", 0, 4, none⟩
        (.define 5 "x" (.ubit 8) (.access (.ubit 8) "a" [.var (.idx 4 none) "j"]))])

def fillAndReadBanked : BankedProgram where
  program := {
    decls := [⟨0, "a_b0", .array (.ubit 8) [⟨2, 2⟩]⟩, ⟨0, "a_b1", .array (.ubit 8) [⟨2, 2⟩]⟩]
    defs := []
    body := some (.seq 1
      [.loop 2 ⟨"i", 0, 2, none⟩
          (.update 3 (.mem (.ubit 8) "a_b0" [.var (.idx 2 none) "i"]) (.lit 7)),
        .loop 4 ⟨"j", 0, 4, none⟩
          (.define 5 "x" (.ubit 8) (.muxRead (.ubit 8) ["a_b0", "a_b1"]
            (.binop (.ubit 2) .shr (.var (.idx 4 none) "j") (.lit 1))
            [.binop (.ubit 2) .bitAnd (.var (.idx 4 none) "j") (.lit 1)]))]) }
  memories := ({} : Table String (List String)).insert "a" ["a_b0", "a_b1"]

theorem fillAndRead_clean : fillAndReadTyped.BankNameClean where
  functions := by
    intro f member
    cases member
  root := clean_of_short (by decide)

/-- Both loops run, and the run over banks ends with the image of the run over arrays. -/
theorem runProgram_toBanks_fillAndRead :
    ∃ r, Semantics.runProgram .zero fillAndReadTyped = .ok r ∧
      ∃ m' r', Splits r.2.shapes .zero m' ∧
        Semantics.runProgram m' fillAndReadBanked.program = .ok r' ∧ Represents r r' := by
  have ends : (Semantics.runProgram .zero fillAndReadTyped).isOk = true := rfl
  rcases @runProgram_toBanks fillAndRead fillAndReadTyped rfl fillAndRead_clean ⟨nofun, rfl⟩ {}
    fillAndReadBanked rfl .zero with stopped | ⟨r, ran, ⟨m', splits⟩, image⟩
  · rw [stopped] at ends
    cases ends
  · obtain ⟨r', ran', represents⟩ := image m' splits
    exact ⟨r, ran, m', r', splits, ran', represents⟩

end Banking

end BankedLoops
