import BankedLoops.Proofs.Banking.Reads

/-!
# Commands over banks

A command over arrays and its physical form, run on a store and on its banked image, end in a store
and in its banked image again. `exec_bank` says so of one command; the rounds of a loop, the commands
of a sequence and the body of a procedure follow from it by induction.
-/

namespace BankedLoops

namespace Banking

open Semantics

/-! ### Declarations -/

/-- Adds memories with the dimensions `ds`, each with the contents of its location. -/
def pushBanks (m : Machine) (s : State) (ds : List Dim) : Nat → State
  | 0 => s
  | k + 1 => (pushBanks m s ds k).pushMemory ⟨ds, m.memory (s.memories.length + k)⟩

theorem memories_pushBanks (m : Machine) (s : State) (ds : List Dim) (count : Nat) :
    (pushBanks m s ds count).memories =
      s.memories ++ (List.range count).map fun k => ⟨ds, m.memory (s.memories.length + k)⟩ := by
  induction count with
  | zero => simp [pushBanks]
  | succ count ih =>
    rw [pushBanks, State.pushMemory, ih, List.range_succ, List.map_append, ← List.append_assoc]
    rfl

theorem scalars_pushBanks (m : Machine) (s : State) (ds : List Dim) (count : Nat) :
    (pushBanks m s ds count).scalars = s.scalars := by
  induction count with
  | zero => rfl
  | succ count ih => exact ih

theorem allocateAll_append (m : Machine) (run : Semantics.Env) (s : State) (ds es : List Decl) :
    allocateAll m run s (ds ++ es) =
      allocateAll m (allocateAll m run s ds).1 (allocateAll m run s ds).2 es := by
  induction ds generalizing run s with
  | nil => rfl
  | cons d ds ih => exact ih _ _

/-- The declarations of the banks of an array bind and allocate all of them. -/
theorem allocateAll_split (m : Machine) (run : Semantics.Env) (s : State) {layout : Layout}
    {pos : Nat} {ds : List Decl} (split : layout.split pos = .ok ds) :
    allocateAll m run s ds =
      (bindBanks run layout s.memories.length (bankTotal layout.dims),
        pushBanks m s (bankDims layout.dims) (bankTotal layout.dims)) := by
  have general (count : Nat) : allocateAll m run s ((List.range count).map fun k =>
      ⟨pos, layout.memory k, layout.bankTy⟩) =
      (bindBanks run layout s.memories.length count, pushBanks m s (bankDims layout.dims) count) := by
    induction count with
    | zero => rfl
    | succ count ih =>
      have length : (pushBanks m s (bankDims layout.dims) count).memories.length =
          s.memories.length + count := by
        rw [memories_pushBanks, List.length_append, List.length_map, List.length_range]
      rw [List.range_succ, List.map_append, allocateAll_append, ih]
      simp only [List.map_cons, List.map_nil, allocateAll, Layout.bankTy, allocate, length]
      rfl
  rw [Layout.split_eq split]
  exact general _

/-- A declared array begins as the image of its contents. -/
theorem Image.pushMemory {shapes : List (List Dim)} {m m' : Machine} {s s' : State}
    (image : Image shapes s s') (splits : Splits shapes m m') {ds : List Dim}
    (divided : Divided ds) (known : s.shapes ++ [ds] <+: shapes) :
    shapes[s.memories.length]? = some ds ∧
      s'.memories.length = blockStart shapes s.memories.length ∧
      Image shapes (s.pushMemory ⟨ds, m.memory s.memories.length⟩)
        (pushBanks m' s' (bankDims ds) (bankTotal ds)) := by
  have length : s.shapes.length = s.memories.length := List.length_map _
  have shaped : shapes[s.memories.length]? = some ds := by
    apply getElem?_of_isPrefix known
    rw [← length, List.getElem?_append_right (Nat.le_refl _), Nat.sub_self]
    rfl
  have start : s'.memories.length = blockStart shapes s.memories.length := by
    rw [← length, blockStart_of_isPrefix image.known (Nat.le_refl _), blockStart_length,
      ← image.banks]
    exact (List.length_map _).symm
  refine ⟨shaped, start, ?_⟩
  constructor
  · rw [scalars_pushBanks]
    exact image.scalars
  · rw [State.shapes_pushMemory]
    exact known
  · rw [State.shapes_pushMemory]
    intro es member
    rcases List.mem_append.mp member with old | new
    · exact image.divided es old
    · rw [List.mem_singleton.mp new]
      exact divided
  · rw [State.shapes_pushMemory, State.shapes, memories_pushBanks, List.map_append, List.map_map,
      bankShapes, List.flatMap_append, ← bankShapes, ← image.banks, State.shapes]
    congr 1
    rw [List.flatMap_singleton]
    apply List.ext_getElem?
    intro k
    simp only [List.getElem?_map, List.getElem?_replicate]
    by_cases lt : k < bankTotal ds
    · rw [List.getElem?_range lt, if_pos lt]
      rfl
    · rw [List.getElem?_eq_none (by simpa using lt), if_neg lt]
      rfl
  · intro loc es found is within
    rw [State.shapes_pushMemory] at found
    simp only [bankPlace, State.get?, memories_pushBanks, State.pushMemory]
    by_cases old : loc < s.memories.length
    · rw [List.getElem?_append_left (length ▸ old)] at found
      have bank := flatBank_lt (image.divided es (List.mem_of_getElem? found)) within
      have before := blockStart_add_le (getElem?_of_isPrefix image.known found) old
      rw [List.getElem?_append_left (by omega), List.getElem?_append_left old]
      exact image.elements loc es found is within
    · have last : loc = s.memories.length := by
        have bound := (List.getElem?_eq_some_iff.mp found).1
        rw [List.length_append, length] at bound
        simp only [List.length_cons, List.length_nil] at bound
        omega
      subst last
      obtain rfl : es = ds :=
        Option.some.inj ((getElem?_of_isPrefix known found).symm.trans shaped)
      have bank := flatBank_lt divided within
      rw [List.getElem?_append_right (by omega), List.getElem?_append_right (Nat.le_refl _),
        Nat.sub_self, start, Nat.add_sub_cancel_left, List.getElem?_map, List.getElem?_range bank]
      exact congrArg some (splits.memory _ _ shaped divided is within)

/-- An environment and a store over arrays, and the same over banks. -/
structure Related (shapes : List (List Dim)) (arrays names : List String) (env : Env)
    (r r' : Semantics.Env × State) : Prop where
  realises : Realises shapes arrays names env r.1 r'.1
  image : Image shapes r.2 r'.2

section

variable {shapes : List (List Dim)} {arrays names : List String} {m m' : Machine} {env : Env}
  {run run' : Semantics.Env} {s s' : State}

theorem allocate_scalar (related : Related shapes arrays names env (run, s) (run', s'))
    (splits : Splits shapes m m') (clean : BankNameClean arrays names) {name : String} {ty : Ty}
    (fresh : name ∈ names) (scalar : Layout.ofTy? name ty = none) :
    Related shapes arrays names (env.rebind name .scalar) (allocate m run s name ty)
      (allocate m' run' s' name ty) := by
  have same : s'.scalars = s.scalars := related.image.scalars
  cases ty with
  | array elem ds => cases scalar
  | _ =>
    simp only [allocate, same, splits.scalar]
    exact ⟨related.realises.rebindScalar clean fresh _, related.image.pushScalar _⟩

theorem allocate_array (related : Related shapes arrays names env (run, s) (run', s'))
    (splits : Splits shapes m m') (clean : BankNameClean arrays names) {name : String} {ty : Ty}
    (fresh : name ∈ names) (array : name ∈ arrays) (declared : Typing.declaredFault? ty = .ok none)
    {layout : Layout} (found : Layout.ofTy? name ty = some layout) {pos : Nat} {ds : List Decl}
    (split : layout.split pos = .ok ds)
    (known : (allocate m run s name ty).2.shapes <+: shapes) :
    Related shapes arrays names (env.rebind name (.array layout)) (allocate m run s name ty)
      (allocateAll m' run' s' ds) := by
  cases ty with
  | array elem dims =>
    cases found
    simp only [allocate, State.shapes_pushMemory] at known ⊢
    obtain ⟨shaped, start, image⟩ :=
      related.image.pushMemory splits (Typing.declared_array declared).2 known
    dsimp only at start
    rw [allocateAll_split m' run' s' split, start]
    exact ⟨related.realises.rebindArray clean ⟨name, elem, dims⟩ fresh array shaped, image⟩
  | _ => cases found

/-! ### Assignments -/

variable {ctx : Context} {tctx : Typing.Context} {types : Typing.Env}

/-- The place of a target has the same contents over banks, and writing to both keeps the image. -/
theorem placeOf_written (splits : Splits shapes m m') (still : ctx.rotations = [])
    (formed : Typing.WellFormed types) (agrees : Agrees types env)
    (realises : Realises shapes arrays names env run run') (image : Image shapes s s')
    {target target' : TypedExpr} (written : WrittenAs ctx env target target')
    (checked : Typing.CheckedTarget tctx types target) {place : Place}
    (found : placeOf m run s target = .ok place) :
    target'.ty = target.ty ∧ ∃ place', placeOf m' run' s' target' = .ok place' ∧
      s'.get? place' = s.get? place ∧ ∀ v, Image shapes (s.set v place) (s'.set v place') := by
  cases checked with
  | register bound =>
    cases written with
    | other _ =>
      obtain ⟨visible, seen, same⟩ := agrees _ _ bound
      cases same
      cases realises.realised _ _ seen with
      | @scalar loc left right =>
        simp only [placeOf, left, Except.ok.injEq] at found
        subst found
        refine ⟨rfl, .scalar loc, ?_, ?_, ?_⟩
        · simp only [placeOf, right]
        · simp only [State.get?, image.scalars]
        · intro v
          exact image.setScalar v _
  | element checked =>
    cases written with
    | other notAccess => exact absurd rfl (notAccess _ _ _)
    | element visible strided placed resolved =>
      cases checked with
      | @access _ dims _ _ bound indices =>
        obtain ⟨layout, seen, same⟩ := agrees _ _ bound
        cases same
        rw [visible] at seen
        cases seen
        simp only [placeOf, bind_ok_iff] at found
        obtain ⟨is, indexed, element⟩ := found
        obtain ⟨loc, shaped, within, rfl, physical⟩ :=
          element_of_access image realises visible element
        have divided := image.divided _ (List.mem_of_getElem? shaped)
        obtain ⟨vs, addressed, chosen, flat⟩ := eval_place splits still formed agrees realises image
          placed indices strided divided indexed within
        rw [Nat.zero_add] at flat
        refine ⟨by cases resolved <;> rfl, bankPlace shapes loc dims is, ?_, ?_, ?_⟩
        · rw [placeOf_resolved resolved addressed chosen (flat ▸ flatBank_lt divided within), flat,
            physical]
        · exact image.elements loc _ shaped is within
        · intro v
          exact image.setElement v shaped within

end

/-! ### Calls -/

/-- The locations of the banks of arrays. -/
def bankLocs (shapes : List (List Dim)) (locs : List Nat) : List Nat :=
  locs.flatMap fun loc =>
    (List.range (bankTotal ((shapes[loc]?).getD []))).map (blockStart shapes loc + ·)

/-- Arrays with the dimensions of the parameters that they are given for. -/
def Passed (shapes : List (List Dim)) (params : List Decl) (locs : List Nat) : Prop :=
  List.Forall₂ (fun d loc => ∃ elem ds, d.ty = .array elem ds ∧ shapes[loc]? = some ds) params locs

/-- A procedure over arrays and one over banks that keep the image. -/
def Serves (shapes : List (List Dim)) (params : List Decl) (proc proc' : Procedure) : Prop :=
  ∀ locs s t s', Passed shapes params locs → Image shapes s s' → proc locs s = .ok t →
    t.shapes <+: shapes → ∃ t', proc' (bankLocs shapes locs) s' = .ok t' ∧ Image shapes t t'

/-- Every function can be called over banks too. -/
def Calls (shapes : List (List Dim)) (funcs : List (String × List Decl))
    (procs procs' : List (String × Procedure)) : Prop :=
  ∀ func params, funcs.lookup func = some params → ∀ proc, procs.lookup func = some proc →
    ∃ proc', procs'.lookup func = some proc' ∧ Serves shapes params proc proc'

theorem arraysOf?_append (run : Semantics.Env) {xs ys : List String} {locs others : List Nat}
    (left : arraysOf? run xs = some locs) (right : arraysOf? run ys = some others) :
    arraysOf? run (xs ++ ys) = some (locs ++ others) := by
  induction xs generalizing locs with
  | nil =>
    cases left
    exact right
  | cons x xs ih =>
    simp only [arraysOf?, bind, Option.bind_eq_some_iff, Option.some.injEq] at left
    obtain ⟨loc, first, rest, found, rfl⟩ := left
    simp only [List.cons_append, arraysOf?, first, ih found, bind, Option.bind_some]

theorem arraysOf?_banks {run : Semantics.Env} {layout : Layout} {start count : Nat}
    (bound : ∀ k, k < count → run.get? (layout.memory k) = some (.array (start + k))) :
    arraysOf? run ((List.range count).map layout.memory) =
      some ((List.range count).map (start + ·)) := by
  induction count with
  | zero => rfl
  | succ count ih =>
    rw [List.range_succ, List.map_append, List.map_append]
    refine arraysOf?_append run (ih fun k lt => bound k (by omega)) ?_
    simp only [List.map_cons, List.map_nil, arraysOf?, arrayOf?, bound count (by omega), bind,
      Option.bind_some]

/-- The arguments of a call over banks are the banks of its arguments. -/
theorem arraysOf?_given {shapes : List (List Dim)} {arrays names : List String}
    {types : Typing.Env} {env : Env} {run run' : Semantics.Env}
    (realises : Realises shapes arrays names env run run') {args banks : List String}
    {params : List Decl} (given : BankedArguments types env args params banks) {locs : List Nat}
    (found : arraysOf? run args = some locs) :
    Passed shapes params locs ∧ arraysOf? run' banks = some (bankLocs shapes locs) := by
  induction given generalizing locs with
  | nil =>
    cases found
    exact ⟨.nil, rfl⟩
  | cons _ same visible named _ ih =>
    simp only [arraysOf?, bind, Option.bind_eq_some_iff, Option.some.injEq] at found
    obtain ⟨loc, located, locs, foundRest, rfl⟩ := found
    obtain ⟨passed, physical⟩ := ih foundRest
    cases realises.realised _ _ visible with
    | array _ left shaped right =>
      simp only [arrayOf?, left, Option.some.injEq] at located
      subst located
      refine ⟨.cons ⟨_, _, same, shaped⟩ passed, ?_⟩
      rw [bankLocs, List.flatMap_cons, shaped, Layout.banks_eq named]
      exact arraysOf?_append run' (arraysOf?_banks right) physical

/-! ### Commands -/

/-- What stays fixed in the body of a component. -/
structure Fixed (shapes : List (List Dim)) (arrays names : List String)
    (funcs : List (String × List Decl)) (procs procs' : List (String × Procedure))
    (m m' : Machine) (ctx : Context) : Prop where
  splits : Splits shapes m m'
  still : ctx.rotations = []
  clean : BankNameClean arrays names
  grows : Grows procs
  calls : Calls shapes funcs procs procs'

theorem declBanks_exec {layout : Layout} {pos : Nat} {cmd : TypedCommand}
    (split : declBanks layout pos = .ok cmd) :
    ∃ ds, layout.split pos = .ok ds ∧ ∀ (m : Machine) (procs : List (String × Procedure))
      (run : Semantics.Env) (s : State), exec m procs run s cmd = .ok (allocateAll m run s ds) := by
  have sequence (m : Machine) (procs : List (String × Procedure)) (ds : List Decl) :
      ∀ (run : Semantics.Env) (s : State), execSeq m procs run s
        (ds.map fun d => .decl pos d.name d.ty) = .ok (allocateAll m run s ds) := by
    induction ds with
    | nil => exact fun run s => rfl
    | cons d ds ih => exact fun run s => ih _ _
  obtain ⟨ds, found, ⟨d, rfl, rfl⟩ | ⟨_, rfl⟩⟩ := declBanks_split split
  · exact ⟨[d], found, fun m procs run s => rfl⟩
  · exact ⟨ds, found, fun m procs run s => sequence m procs ds run s⟩

theorem foldlM_image {shapes : List (List Dim)} {step step' : State → Nat → Except Stop State}
    {xs : List Nat} (grows : ∀ s i t, step s i = .ok t → Extends s t)
    (round : ∀ i ∈ xs, ∀ s s' t, Image shapes s s' → step s i = .ok t → t.shapes <+: shapes →
      ∃ t', step' s' i = .ok t' ∧ Image shapes t t')
    {s s' t : State} (image : Image shapes s s') (run : xs.foldlM step s = .ok t)
    (known : t.shapes <+: shapes) : ∃ t', xs.foldlM step' s' = .ok t' ∧ Image shapes t t' := by
  induction xs generalizing s s' with
  | nil =>
    cases run
    exact ⟨s', rfl, image⟩
  | cons x xs ih =>
    rw [List.foldlM_cons, bind_ok_iff] at run
    obtain ⟨next, first, rest⟩ := run
    obtain ⟨next', first', image⟩ := round x List.mem_cons_self s s' next image first
      ((foldlM_grows grows rest).shapes.trans known)
    obtain ⟨t', rest', image⟩ := ih (fun i member => round i (List.mem_cons_of_mem x member)) image
      rest
    refine ⟨t', ?_, image⟩
    rw [List.foldlM_cons, first']
    exact rest'

section

variable {shapes : List (List Dim)} {arrays names : List String}
  {funcs : List (String × List Decl)} {procs procs' : List (String × Procedure)} {m m' : Machine}
  {ctx : Context}

namespace Fixed

/-- From related stores, where `cmd` ends in a store within the shapes `cmd'` ends in a related one. -/
def Follows (_ : Fixed shapes arrays names funcs procs procs' m m' ctx) (env : Env)
    (cmd cmd' : TypedCommand) : Prop :=
  ∀ ⦃run run' : Semantics.Env⦄ ⦃s s' : State⦄ ⦃r : Semantics.Env × State⦄,
    Related shapes arrays names env (run, s) (run', s') → exec m procs run s cmd = .ok r →
    r.2.shapes <+: shapes →
    ∃ r', exec m' procs' run' s' cmd' = .ok r' ∧ Related shapes arrays names (after env cmd) r r'

/-- `Follows` for the commands of a sequence. -/
def FollowsSeq (_ : Fixed shapes arrays names funcs procs procs' m m' ctx) (env : Env)
    (cmds cmds' : List TypedCommand) : Prop :=
  ∀ ⦃run run' : Semantics.Env⦄ ⦃s s' : State⦄ ⦃r : Semantics.Env × State⦄,
    Related shapes arrays names env (run, s) (run', s') → execSeq m procs run s cmds = .ok r →
    r.2.shapes <+: shapes →
    ∃ r', execSeq m' procs' run' s' cmds' = .ok r' ∧
      Related shapes arrays names (afterSeq env cmds) r r'

/-- `Follows` for an optional command, whose declarations are not seen outside. -/
def FollowsElse (_ : Fixed shapes arrays names funcs procs procs' m m' ctx) (env : Env)
    (cmd cmd' : Option TypedCommand) : Prop :=
  ∀ ⦃run run' : Semantics.Env⦄ ⦃s s' t : State⦄,
    Related shapes arrays names env (run, s) (run', s') → execElse m procs run s cmd = .ok t →
    t.shapes <+: shapes → ∃ t', execElse m' procs' run' s' cmd' = .ok t' ∧ Image shapes t t'

variable (fixed : Fixed shapes arrays names funcs procs procs' m m' ctx) {env : Env}
  {types : Typing.Env} {tctx : Typing.Context}

theorem follows_array {pos : Nat} {name : String} {ty : Ty} {layout : Layout} {banks : TypedCommand}
    (declared : Typing.declaredFault? ty = .ok none) (fresh : name ∈ names) (array : name ∈ arrays)
    (found : Layout.ofTy? name ty = some layout) (split : declBanks layout pos = .ok banks) :
    fixed.Follows env (.decl pos name ty) banks := by
  intro run run' s s' r related executed known
  obtain ⟨ds, split, runs⟩ := declBanks_exec split
  cases executed
  rw [after, Binding.ofTy, found]
  exact ⟨_, runs m' procs' run' s', allocate_array related fixed.splits fixed.clean fresh array
    declared found split known⟩

theorem follows_scalar {pos : Nat} {name : String} {ty : Ty} (fresh : name ∈ names)
    (found : Layout.ofTy? name ty = none) :
    fixed.Follows env (.decl pos name ty) (.decl pos name ty) := by
  intro run run' s s' r related executed known
  cases executed
  rw [after, Binding.ofTy, found]
  exact ⟨_, rfl, allocate_scalar related fixed.splits fixed.clean fresh found⟩

theorem follows_define {pos : Nat} {name : String} {ty : Ty} {init init' : TypedExpr}
    (formed : Typing.WellFormed types) (agrees : Agrees types env)
    (checked : Typing.CheckedExpr tctx types init) (value : ReadAs ctx env init init')
    (fresh : name ∈ names) :
    fixed.Follows env (.define pos name ty init) (.define pos name ty init') := by
  intro run run' s s' r related executed known
  simp only [exec, bind_ok_iff, Except.ok.injEq] at executed
  obtain ⟨v, evaluated, rfl⟩ := executed
  have physical := eval_read fixed.splits fixed.still formed agrees related.realises
    related.image value checked evaluated
  refine ⟨_, by simp only [exec, physical, ok_bind]; rfl, ?_⟩
  have same : s'.scalars = s.scalars := related.image.scalars
  rw [same]
  exact ⟨related.realises.rebindScalar fixed.clean fresh _, related.image.pushScalar v⟩

theorem follows_branch {pos : Nat} {cond cond' : TypedExpr} {onTrue onTrue' : TypedCommand}
    {onFalse onFalse' : Option TypedCommand} (formed : Typing.WellFormed types)
    (agrees : Agrees types env) (checked : Typing.CheckedExpr tctx types cond)
    (value : ReadAs ctx env cond cond') (yes : fixed.Follows env.enter onTrue onTrue')
    (no : fixed.FollowsElse env.enter onFalse onFalse') :
    fixed.Follows env (.branch pos cond onTrue onFalse) (.branch pos cond' onTrue' onFalse') := by
  intro run run' s s' r related executed known
  simp only [exec, bind_ok_iff] at executed
  obtain ⟨v, evaluated, executed⟩ := executed
  have physical := eval_read fixed.splits fixed.still formed agrees related.realises
    related.image value checked evaluated
  have entered : Related shapes arrays names env.enter (run.enter, s) (run'.enter, s') :=
    ⟨related.realises.enter, related.image⟩
  simp only [exec, physical, ok_bind]
  split at executed
  · next taken =>
    rw [map_ok_iff] at executed
    obtain ⟨inner, executed, rfl⟩ := executed
    obtain ⟨inner', executed', innerRelated⟩ := yes entered executed known
    rw [if_pos taken, executed']
    exact ⟨_, rfl, related.realises, innerRelated.image⟩
  · next skipped =>
    rw [map_ok_iff] at executed
    obtain ⟨t, executed, rfl⟩ := executed
    obtain ⟨t', executed', image⟩ := no entered executed known
    rw [if_neg skipped, executed']
    exact ⟨_, rfl, related.realises, image⟩

/-- Every round of a loop enters a scope of its own, so only the image of the store is carried from
one round to the next. -/
theorem follows_loop {pos : Nat} {header : LoopHeader} {body body' : TypedCommand}
    (fresh : header.iter ∈ names) (round : fixed.Follows (env.enter.rebind header.iter
      (.iterator ⟨header.start, header.stop - 1⟩)) body body') :
    fixed.Follows env (.loop pos header body) (.loop pos header body') := by
  intro run run' s s' r related executed known
  simp only [exec, bind_ok_iff, Except.ok.injEq] at executed
  obtain ⟨t, rounds, rfl⟩ := executed
  have grows : ∀ s i t, (exec m procs (run.enter.rebind header.iter (.iterator i)) s body).map
      Prod.snd = .ok t → Extends s t := by
    intro s i t executed
    rw [map_ok_iff] at executed
    obtain ⟨inner, executed, rfl⟩ := executed
    exact exec_grows fixed.grows body executed
  have step : ∀ i ∈ List.range' header.start (header.stop - header.start), ∀ s s' t,
      Image shapes s s' →
      (exec m procs (run.enter.rebind header.iter (.iterator i)) s body).map Prod.snd = .ok t →
      t.shapes <+: shapes →
      ∃ t', (exec m' procs' (run'.enter.rebind header.iter (.iterator i)) s' body').map Prod.snd =
        .ok t' ∧ Image shapes t t' := by
    intro i member s s' t image executed known
    rw [map_ok_iff] at executed
    obtain ⟨inner, executed, rfl⟩ := executed
    rw [List.mem_range'_1] at member
    have last : i ≤ header.stop - 1 := by omega
    have entered : Related shapes arrays names
        (env.enter.rebind header.iter (.iterator ⟨header.start, header.stop - 1⟩))
        (run.enter.rebind header.iter (.iterator i), s)
        (run'.enter.rebind header.iter (.iterator i), s') :=
      ⟨related.realises.enter.rebindIterator fixed.clean fresh _ member.1 last, image⟩
    obtain ⟨inner', executed', innerRelated⟩ := round entered executed known
    exact ⟨inner'.2, by rw [executed']; rfl, innerRelated.image⟩
  obtain ⟨t', rounds', image⟩ := foldlM_image grows step related.image rounds known
  refine ⟨(run', t'), ?_, related.realises, image⟩
  simp only [exec, rounds', ok_bind]

theorem follows_update {pos : Nat} {target target' value value' : TypedExpr}
    (formed : Typing.WellFormed types) (agrees : Agrees types env)
    (checkedTarget : Typing.CheckedTarget tctx types target)
    (checked : Typing.CheckedExpr tctx types value) (written : WrittenAs ctx env target target')
    (read : ReadAs ctx env value value') :
    fixed.Follows env (.update pos target value) (.update pos target' value') := by
  intro run run' s s' r related executed known
  simp only [exec, bind_ok_iff, Except.ok.injEq] at executed
  obtain ⟨place, found, v, evaluated, rfl⟩ := executed
  have physical := eval_read fixed.splits fixed.still formed agrees related.realises
    related.image read checked evaluated
  obtain ⟨_, place', found', _, image⟩ := placeOf_written fixed.splits fixed.still formed agrees
    related.realises related.image written checkedTarget found
  refine ⟨(run', s'.set v place'), ?_, related.realises, image v⟩
  simp only [exec, found', physical, ok_bind]

theorem follows_reduce {pos : Nat} {op : BinOp} {target target' value value' : TypedExpr}
    (formed : Typing.WellFormed types) (agrees : Agrees types env)
    (checkedTarget : Typing.CheckedTarget tctx types target)
    (checked : Typing.CheckedExpr tctx types value) (written : WrittenAs ctx env target target')
    (read : ReadAs ctx env value value') :
    fixed.Follows env (.reduce pos op target value) (.reduce pos op target' value') := by
  intro run run' s s' r related executed known
  simp only [exec, bind_ok_iff, orStuck_ok_iff, Except.ok.injEq] at executed
  obtain ⟨place, found, old, stored, v, evaluated, rfl⟩ := executed
  have physical := eval_read fixed.splits fixed.still formed agrees related.realises
    related.image read checked evaluated
  obtain ⟨same, place', found', stored', image⟩ := placeOf_written fixed.splits fixed.still formed
    agrees related.realises related.image written checkedTarget found
  rw [stored] at stored'
  refine ⟨(run', s'.set (operation m.product op target.ty target.ty value.ty old v) place'), ?_,
    related.realises, image _⟩
  simp only [exec, found', stored', physical, same, read.ty_eq, fixed.splits.product, orStuck_some,
    ok_bind]

theorem follows_call {pos : Nat} {func : String} {args banks : List String} {params : List Decl}
    (agrees : Agrees types env) (defined : funcs.lookup func = some params)
    (given : Typing.CheckedArguments types args params) (passed : banksOf env args = .ok banks) :
    fixed.Follows env (.eval pos (.app .void func args)) (.eval pos (.app .void func banks)) := by
  intro run run' s s' r related executed known
  simp only [exec, bind_ok_iff, orStuck_ok_iff, Except.ok.injEq] at executed
  obtain ⟨proc, found, locs, located, t, called, rfl⟩ := executed
  obtain ⟨passed, physical⟩ := arraysOf?_given related.realises
    (agrees.bankedArguments given passed) located
  obtain ⟨proc', found', serves⟩ := fixed.calls _ _ defined proc found
  obtain ⟨t', called', image⟩ := serves locs s t s' passed related.image called known
  refine ⟨(run', t'), ?_, related.realises, image⟩
  simp only [exec, found', physical, called', orStuck_some, ok_bind]

theorem follows_eval {pos : Nat} {e e' : TypedExpr} (formed : Typing.WellFormed types)
    (agrees : Agrees types env) (checked : Typing.CheckedExpr tctx types e)
    (value : ReadAs ctx env e e') : fixed.Follows env (.eval pos e) (.eval pos e') := by
  intro run run' s s' r related executed known
  rw [exec_eval checked.ne_app, map_ok_iff] at executed
  obtain ⟨v, evaluated, rfl⟩ := executed
  have physical := eval_read fixed.splits fixed.still formed agrees related.realises
    related.image value checked evaluated
  refine ⟨(run', s'), ?_, related⟩
  rw [exec_eval (value.ne_app checked.ne_app), physical]
  rfl

theorem followsSeq_cons {cmd cmd' : TypedCommand} {cmds cmds' : List TypedCommand}
    (first : fixed.Follows env cmd cmd') (rest : fixed.FollowsSeq (after env cmd) cmds cmds') :
    fixed.FollowsSeq env (cmd :: cmds) (cmd' :: cmds') := by
  intro run run' s s' r related executed known
  simp only [execSeq, bind_ok_iff] at executed
  obtain ⟨next, executed, executedRest⟩ := executed
  obtain ⟨next', executed', nextRelated⟩ := first related executed
    ((execSeq_grows fixed.grows cmds executedRest).shapes.trans known)
  obtain ⟨r', executedRest', restRelated⟩ := rest nextRelated executedRest known
  refine ⟨r', ?_, restRelated⟩
  simp only [execSeq, executed', ok_bind]
  exact executedRest'

theorem followsElse_some {cmd cmd' : TypedCommand} (follows : fixed.Follows env cmd cmd') :
    fixed.FollowsElse env (some cmd) (some cmd') := by
  intro run run' s s' t related executed known
  rw [execElse, map_ok_iff] at executed
  obtain ⟨r, executed, rfl⟩ := executed
  obtain ⟨r', executed', after⟩ := follows related executed known
  refine ⟨r'.2, ?_, after.image⟩
  rw [execElse, executed']
  rfl

end Fixed

mutual

/-- A command over arrays and its physical form keep the image of the store. -/
theorem exec_bank (fixed : Fixed shapes arrays names funcs procs procs' m m' ctx) {env : Env}
    {cmd cmd' : TypedCommand} {tctx : Typing.Context} {types types' : Typing.Env} :
    BankedCommand ctx env cmd cmd' → tctx.funcs = funcs → Typing.WellFormed types →
      Typing.CheckedCommand tctx types cmd types' → Agrees types env → binders cmd ⊆ names →
      arraysIn cmd ⊆ arrays → fixed.Follows env cmd cmd'
  | .array found split, _, _, .decl declared _, _, bound, array => by
    obtain ⟨_, _, rfl, _⟩ := isArray_of_ofTy? found
    exact fixed.follows_array declared (bound (by simp [binders]))
      (array (by simp [arraysIn, Ty.isArray])) found split
  | .scalar found, _, _, _, _, bound, _ => fixed.follows_scalar (bound (by simp [binders])) found
  | .define value, _, formed, .define checked _ _ _, agrees, bound, _ =>
    fixed.follows_define formed agrees checked value (bound (by simp [binders]))
  | .seq all, funcsSame, formed, .seq checked, agrees, bound, array =>
    execSeq_bank fixed all funcsSame formed checked agrees bound array
  | .branch value yes no, funcsSame, formed, .branch checked _ yesChecked noChecked, agrees, bound,
      array =>
    fixed.follows_branch formed agrees checked value
      (exec_bank fixed yes funcsSame formed.enter yesChecked agrees.enter
        (fun x member => bound (List.mem_append_left _ member))
        (fun x member => array (List.mem_append_left _ member)))
      (execElse_bank fixed no funcsSame formed.enter noChecked agrees.enter
        (fun x member => bound (List.mem_append_right _ member))
        (fun x member => array (List.mem_append_right _ member)))
  | .loop _ round, funcsSame, formed, .loop range checked, agrees, bound, array =>
    fixed.follows_loop (bound List.mem_cons_self)
      (exec_bank fixed round (by exact funcsSame) (range.wellFormed formed) checked
        (agrees.round range) (fun x member => bound (List.mem_cons_of_mem _ member)) array)
  | .update written read, _, formed, .update checkedTarget checked _, agrees, _, _ =>
    fixed.follows_update formed agrees checkedTarget checked written read
  | .reduce written read, _, formed, .reduce checkedTarget _ checked _, agrees, _, _ =>
    fixed.follows_reduce formed agrees checkedTarget checked written read
  | .eval value, funcsSame, formed, checked, agrees, _, _ => by
    cases checked with
    | call defined given =>
      cases value with
      | app banks => exact fixed.follows_call agrees (funcsSame ▸ defined) given banks
    | eval checked => exact fixed.follows_eval formed agrees checked value
  | .rotate _ _, _, _, _, _, _, _ | .still _, _, _, _, _, _, _ => by
    intro run run' s s' r related executed known
    cases executed
  | .skip, _, _, .skip, _, _, _ => by
    intro run run' s s' r related executed known
    cases executed
    exact ⟨_, rfl, related⟩

theorem execSeq_bank (fixed : Fixed shapes arrays names funcs procs procs' m m' ctx) {env : Env}
    {cmds cmds' : List TypedCommand} {tctx : Typing.Context} {types types' : Typing.Env} :
    BankedSeq ctx env cmds cmds' → tctx.funcs = funcs → Typing.WellFormed types →
      Typing.CheckedSeq tctx types cmds types' → Agrees types env → bindersOfSeq cmds ⊆ names →
      arraysInSeq cmds ⊆ arrays → fixed.FollowsSeq env cmds cmds'
  | .nil, _, _, _, _, _, _ => by
    intro run run' s s' r related executed known
    cases executed
    exact ⟨_, rfl, related⟩
  | .cons first rest, funcsSame, formed, .cons firstChecked restChecked, agrees, bound, array =>
    fixed.followsSeq_cons
      (exec_bank fixed first funcsSame formed firstChecked agrees
        (fun x member => bound (List.mem_append_left _ member))
        (fun x member => array (List.mem_append_left _ member)))
      (execSeq_bank fixed rest funcsSame (firstChecked.wellFormed formed) restChecked
        (agrees.after firstChecked)
        (fun x member => bound (List.mem_append_right _ member))
        (fun x member => array (List.mem_append_right _ member)))

theorem execElse_bank (fixed : Fixed shapes arrays names funcs procs procs' m m' ctx) {env : Env}
    {cmd cmd' : Option TypedCommand} {tctx : Typing.Context} {types : Typing.Env} :
    BankedElse ctx env cmd cmd' → tctx.funcs = funcs → Typing.WellFormed types →
      Typing.CheckedElse tctx types cmd → Agrees types env → bindersOfElse cmd ⊆ names →
      arraysInElse cmd ⊆ arrays → fixed.FollowsElse env cmd cmd'
  | .none, _, _, _, _, _, _ => by
    intro run run' s s' t related executed known
    cases executed
    exact ⟨s', rfl, related.image⟩
  | .some banked, funcsSame, formed, .some checked, agrees, bound, array =>
    fixed.followsElse_some (exec_bank fixed banked funcsSame formed checked agrees bound array)

end

end

end Banking

end BankedLoops
