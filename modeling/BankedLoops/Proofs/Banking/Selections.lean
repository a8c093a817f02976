import Mathlib.Data.Nat.ModEq
import Mathlib.Data.Set.Finite.Lattice
import BankedLoops.Proofs.Banking.Turns

/-!
# Selections of rotated banks

`toBanks_rotates` follows the rotation of every array of a lone name through whole runs of its component.
At every moment at which a command of the source begins, the hidden register holds the number of turns so
far, modulo the number of banks, and an access to the array selects the bank to which that many turns have
moved the bank of its indices.
-/

namespace BankedLoops

namespace Banking

open Semantics

/-- Where turns through `n` banks move a bank. -/
def turnedBank (n turns k : Nat) : Nat := (k + turns) % n

/-- Turns permute the banks. -/
theorem bijOn_turnedBank {n : Nat} (positive : 0 < n) (turns : Nat) :
    Set.BijOn (turnedBank n turns) (Set.Iio n) (Set.Iio n) := by
  have maps : Set.MapsTo (turnedBank n turns) (Set.Iio n) (Set.Iio n) := fun k _ => Nat.mod_lt _ positive
  refine ((Set.finite_lt_nat n).injOn_iff_bijOn_of_mapsTo maps).mp ?_
  intro j left k right same
  have congruent : j ≡ k [MOD n] := Nat.ModEq.add_right_cancel' turns same
  exact congruent.eq_of_lt_of_lt left right

/-- As many turns as there are banks move every bank back. -/
theorem turnedBank_add (n turns k : Nat) : turnedBank n (turns + n) k = turnedBank n turns k := by
  rw [turnedBank, ← Nat.add_assoc, Nat.add_mod_right, ← turnedBank]

/-! ### Selects inside an index -/

theorem Computes.atIndex {m : Machine} {run : Semantics.Env} {s : State} {leaf : TypedExpr → Prop}
    {e : TypedExpr} {v : Nat} (computes : Computes m run s false leaf e v)
    (leaves : ∀ e v, leaf e → eval m run s false e = .ok v → eval m run s true e = .ok v) :
    Computes m run s true leaf e v := by
  induction computes with
  | leaf given value => exact .leaf given (leaves _ _ given value)
  | lit n => exact .lit n
  | binop _ _ unwrapped left right => exact .binop left right unwrapped

theorem eval_of_evalIndices {m : Machine} {run : Semantics.Env} {s : State} {idxs : List TypedExpr}
    {is : List Nat} (values : evalIndices m run s idxs = .ok is) :
    ∀ idx ∈ idxs, ∃ i, eval m run s true idx = .ok i := by
  induction idxs generalizing is with
  | nil => exact List.forall_mem_nil _
  | cons idx idxs ih =>
    simp only [evalIndices, bind_ok_iff] at values
    obtain ⟨i, value, is, values, _⟩ := values
    exact List.forall_mem_cons.mpr ⟨⟨i, value⟩, ih values⟩

/-- The select of an access computes the bank to which the array has turned. -/
theorem eval_select {ctx : Context} {env : Env} {pos : Nat} {layout : Layout} {r : Rotation} {ty : Ty}
    {idxs : List TypedExpr} {e : TypedExpr} (accessed : Accessed ctx env pos layout (some r) ty idxs e)
    (power : isPowerOfTwo r.banks = true) (divided : Divided layout.dims)
    (count : idxs.length = layout.dims.length) :
    ∃ banks select addr idxs', e = .muxRead ty banks select addr ∧ layout.banks = .ok banks ∧
      List.Forall₂ (fun idx idx' => (read ctx env pos idx).result = .ok idx') idxs idxs' ∧
      ∀ m run s loc turns is, Turned r loc turns run s → evalIndices m run s idxs' = .ok is →
        List.Forall₂ (IndexValue env m run s) idxs' is → inside layout.dims is = true →
        eval m run s true select = .ok (turnedBank r.banks turns (flatBank layout.dims is)) := by
  cases accessed with
  | fixed _ _ _ still _ _ => cases still
  | @selected strides p banks flat select strided placed named _ summed moved =>
    obtain ⟨idxs', reads, leads⟩ := leads_of_place divided strided count placed
    refine ⟨banks, select, p.addr, idxs', rfl, named, reads, ?_⟩
    intro m run s loc turns is turned values indexed within
    obtain ⟨⟨⟩, _⟩ | ⟨_, ty, _, ⟨⟩, typed, _⟩ := rotated_cases moved
    have placed := leads m run s (fun e => e ∈ idxs' ∨ e = .var ty r.register) is
      (fun _ member => .inl member) indexed within
    rw [Nat.zero_add] at placed
    have denotes := (placed.selector summed).rotated power typed
      (turned.denotes power typed (.inr rfl)) moved
    have atIndex := denotes.computes.atIndex fun e v given value => by
      rcases given with member | rfl
      · obtain ⟨i, here⟩ := eval_of_evalIndices values e member
        cases value.symm.trans (eval_of_index e here)
        exact here
      · exact value
    rw [atIndex.eval_eq, Nat.add_mod_mod, turnedBank]

theorem Layout.banks_eq_of_several {l : Layout} {names : List String} (named : l.banks = .ok names)
    (several : 2 ≤ bankTotal l.dims) : names = (List.range (bankTotal l.dims)).map (Layout.bankName l.name) := by
  rw [Layout.banks_eq named]
  refine List.map_congr_left fun k _ => ?_
  rw [Layout.memory, if_neg (by omega)]

theorem length_of_checkedIndices {tctx : Typing.Context} {types : Typing.Env} {dims : List Dim}
    {idxs : List TypedExpr} (checked : Typing.CheckedIndices tctx types dims idxs) :
    idxs.length = dims.length := by
  induction idxs generalizing dims with
  | nil =>
    cases checked
    rfl
  | cons idx idxs ih =>
    cases checked with
    | cons _ _ _ rest => rw [List.length_cons, List.length_cons, ih rest]

/-- An access to a rotated array selects, of all its banks, the one to which the array has turned. -/
theorem TypedIn.select {ctx : Context} {env last : Env} {cmd cmd' : TypedCommand} (typed : TypedIn env cmd)
    (split : (bankCommand ctx env cmd).result = .ok (cmd', last)) {r : Rotation} {ty : Ty} {array : String}
    {idxs : List TypedExpr} (turns : ctx.rotations.lookup array = some r)
    (power : isPowerOfTwo r.banks = true) (inside : .access ty array idxs ∈ cmd.subterms) :
    ∃ layout banks select addr idxs', env.get? array = some (.array layout) ∧ layout.banks = .ok banks ∧
      .muxRead ty banks select addr ∈ cmd'.subterms ∧
      List.Forall₂ (fun idx idx' => (read ctx env cmd.pos idx).result = .ok idx') idxs idxs' ∧
      ∀ m run s loc turns is, Ranged env run → Turned r loc turns run s →
        evalIndices m run s idxs' = .ok is → Semantics.inside layout.dims is = true →
        eval m run s true select = .ok (turnedBank r.banks turns (flatBank layout.dims is)) := by
  obtain ⟨tctx, types, types', checked, formed, agrees⟩ := typed
  obtain ⟨layout, bound, e, member, accessed⟩ := makes_bankCommand agrees checked split _ _ _ inside
  rcases checked.subterms _ inside with access | ⟨_, _, _, call⟩
  · cases access with
    | @access _ dims _ _ declared indices =>
      obtain rfl := agrees.layout_eq declared bound
      have divided : Divided dims := (formed.array declared).2
      rw [turns] at accessed
      obtain ⟨banks, select, addr, idxs', rfl, named, reads, selects⟩ :=
        eval_select accessed power divided (length_of_checkedIndices indices)
      refine ⟨_, banks, select, addr, idxs', bound, named, member, reads, ?_⟩
      intro m run s loc turns is ranged turned values within
      exact selects m run s loc turns is turned values
        (indexValues_of_evalIndices formed agrees ranged indices reads values within) within
  · cases call

/-! ### Components -/

/-- How many of the moments begin a statement that advances the array. The source stands behind `front`. -/
def turnsOf (body : TypedCommand) (front : List Descent) (array : String) (seen : List Moment) : Nat :=
  hits (fun path => (path.dropPrefix? front).any (advancesAt body array)) seen

@[simp]
theorem turnsOf_append (body : TypedCommand) (front : List Descent) (array : String)
    (seen later : List Moment) :
    turnsOf body front array (seen ++ later) = turnsOf body front array seen + turnsOf body front array later :=
  hits_append seen later

/-- A run of a split component begins the command of the source at `path`, after the moments before. -/
inductive Comes (m : Machine) (c' : List Decl × TypedCommand) (front path : List Descent)
    (before : List Moment) (now : Moment) : Prop where
  | intro (fs : List (Function Ty TypedExpr)) {run : Semantics.Env} {s : State} {later : List Moment}
      (entered : Entered m c'.1 run s)
      (whole : moments m (link m [] fs) run s c'.2 = before ++ now :: later)
      (there : now.path = front ++ path) : Comes m c' front path before now

/-- A run of a split component ends, after these moments. -/
inductive Ends (m : Machine) (c' : List Decl × TypedCommand) (seen : List Moment)
    (last : Semantics.Env × State) : Prop where
  | intro (fs : List (Function Ty TypedExpr)) {run : Semantics.Env} {s : State}
      (entered : Entered m c'.1 run s) (whole : moments m (link m [] fs) run s c'.2 = seen)
      (ran : exec m (link m [] fs) run s c'.2 = .ok last) : Ends m c' seen last

/-- The rotation of an array in a split component: how its register is set up and moved on, what the
register holds in every run, and what the accesses to the array select. -/
structure Rotates (ctx : Context) (start : Env) (front : List Descent) (c c' : List Decl × TypedCommand)
    (layout : Layout) (r : Rotation) : Prop where
  power : isPowerOfTwo r.banks = true
  /-- The register begins at zero, as wide as the number of the last bank. -/
  setUp : ∃ pos k, c'.2.at? [.item k] =
    some (.define pos r.register (.ubit (bitsNeeded (r.banks - 1))) (.lit 0))
  /-- An `advance` adds one to the register and masks the sum. -/
  step : ∀ path pos, c.2.at? path = some (.advance pos layout.name) →
    ∃ cmd', c'.2.at? (front ++ path) = some cmd' ∧ r.step pos = .ok cmd'
  /-- Wherever a run is, the register counts the turns. -/
  register : ∀ m path before now, Comes m c' front path before now →
    scalarOf? now.env now.store r.register = some (turnsOf c.2 front layout.name before % r.banks)
  last : ∀ m seen last, Ends m c' seen last →
    scalarOf? last.1 last.2 r.register = some (turnsOf c.2 front layout.name seen % r.banks)
  /-- An access selects the bank that the turns have moved its own to. -/
  select : ∀ path cmd ty idxs, c.2.at? path = some cmd → .access ty layout.name idxs ∈ cmd.subterms →
    ∃ env cmd' idxs' select addr, (splitting ctx).visit start c.2 path = some (env, cmd) ∧
      c'.2.at? (front ++ path) = some cmd' ∧
      .muxRead ty ((List.range r.banks).map (Layout.bankName layout.name)) select addr ∈ cmd'.subterms ∧
      List.Forall₂ (fun idx idx' => (read ctx env cmd.pos idx).result = .ok idx') idxs idxs' ∧
      ∀ m before now is, Comes m c' front path before now →
        evalIndices m now.env now.store idxs' = .ok is → inside layout.dims is = true →
        eval m now.env now.store true select = .ok
          (turnedBank r.banks (turnsOf c.2 front layout.name before) (flatBank layout.dims is))
  permutes : ∀ turns, Set.BijOn (turnedBank r.banks turns) (Set.Iio r.banks) (Set.Iio r.banks)
  restores : ∀ turns k, turnedBank r.banks (turns + r.banks) k = turnedBank r.banks turns k

/-- Every array of a lone name that a component advances rotates, if it has several banks. -/
def RotatesAll (statements : Statements) (c c' : List Decl × TypedCommand) : Prop :=
  ∃ prologue, (setUpRotations statements c.2 (declared {} c.1) (binders c.2)
      (firstOfEach (advances c.2))).result = .ok prologue ∧
    ∀ layout ∈ layoutsOf c.1 c.2, layout.name ∈ (advances c.2).map Prod.fst → Lone c.1 c.2 layout.name →
      ∀ n, layout.bankCount = .ok n → 2 ≤ n → ∃ register,
        prologue.rotations.lookup layout.name = some ⟨register, n⟩ ∧
        Rotates ⟨statements, prologue.rotations⟩ prologue.env prologue.front c c' layout ⟨register, n⟩

/-! ### Behind the set-up -/

section

variable {body : TypedCommand} {array : String} {step : Descent} {first seen before later : List Moment}
  {now : Moment} {path : List Descent}

theorem turnsOf_eq_zero (others : ∀ now ∈ first, ∀ path, now.path ≠ step :: path) :
    turnsOf body [step] array first = 0 := by
  refine List.countP_eq_zero.mpr fun now member advances => ?_
  obtain ⟨path, dropped, _⟩ := (Option.any_eq_true _ _).mp advances
  obtain ⟨front, same, isFront⟩ := List.dropPrefix?_eq_some_iff.mp dropped
  rw [eq_of_beq isFront] at same
  exact others now member path same

theorem turnsOf_under : turnsOf body [step] array (seen.map (.under step)) = hits (advancesAt body array) seen := by
  rw [turnsOf, hits_under]
  refine congrArg (fun tick => hits tick seen) (funext fun path => ?_)
  have dropped : (step :: path).dropPrefix? [step] = some path :=
    List.dropPrefix?_append_of_beq path (BEq.rfl : [step] == [step])
  rw [dropped]
  rfl

/-- A moment behind others is one of the second part. -/
theorem under_of_append (others : ∀ now ∈ first, ∀ path, now.path ≠ step :: path)
    (whole : first ++ seen.map (.under step) = before ++ now :: later) (there : now.path = step :: path) :
    ∃ middle below rest, seen = middle ++ below :: rest ∧ before = first ++ middle.map (.under step) ∧
      now = below.under step := by
  rcases List.append_eq_append_iff.mp whole with ⟨front, rfl, second⟩ | ⟨front, rfl, second⟩
  · obtain ⟨middle, rest, rfl, rfl, further⟩ := List.map_eq_append_iff.mp second
    obtain ⟨below, rest, rfl, rfl, rfl⟩ := List.map_eq_cons_iff.mp further
    exact ⟨middle, below, rest, rfl, rfl, rfl⟩
  · cases front with
    | nil =>
      obtain ⟨below, rest, rfl, rfl, rfl⟩ := List.map_eq_cons_iff.mp second.symm
      exact ⟨[], below, rest, rfl, by simp, rfl⟩
    | cons head front =>
      cases second
      exact absurd there (others _ (List.mem_append_right _ List.mem_cons_self) path)

end

namespace Prologue

variable {prologue : Prologue} (several : prologue.setup ≠ [])

include several

theorem before_eq (inner : TypedCommand) :
    prologue.before inner = .seq inner.pos (prologue.setup ++ [inner]) :=
  if_neg (by rw [List.isEmpty_iff]; exact several)

theorem front_eq : prologue.front = [.item prologue.setup.length] :=
  if_neg (by rw [List.isEmpty_iff]; exact several)

theorem at?_before (inner : TypedCommand) (path : List Descent) :
    (prologue.before inner).at? (prologue.front ++ path) = inner.at? path := by
  rw [before_eq several, front_eq several, List.singleton_append, Command.at?, Command.inner?,
    List.getElem?_concat_length, Option.bind_some]

/-- A run of a body behind the set-up of its registers runs the body once they are set up. -/
theorem run_before {m : Machine} {procs : List (String × Procedure)} {run : Semantics.Env} {s : State}
    {next : Semantics.Env × State} (ran : execSeq m procs run s prologue.setup = .ok next)
    (inner : TypedCommand) :
    exec m procs run s (prologue.before inner) = exec m procs next.1 next.2 inner ∧
      ∃ first, moments m procs run s (prologue.before inner) = first ++
          (moments m procs next.1 next.2 inner).map (.under (.item prologue.setup.length)) ∧
        ∀ now ∈ first, ∀ path, now.path ≠ .item prologue.setup.length :: path := by
  rw [before_eq several]
  constructor
  · rw [exec, execSeq_append, ran, ok_bind, execSeq]
    cases exec m procs next.1 next.2 inner <;> rfl
  · refine ⟨⟨[], run, s⟩ :: momentsSeq m procs run s 0 prologue.setup, ?_, ?_⟩
    · rw [moments, momentsSeq_append, ran, behind, Nat.zero_add, momentsSeq, List.cons_append]
      cases exec m procs next.1 next.2 inner <;> simp [behind, momentsSeq]
    · intro now member path same
      rcases List.mem_cons.mp member with rfl | member
      · cases same
      · obtain ⟨j, _, _, found, _, _, _, rfl⟩ := exists_of_mem_momentsSeq member
        obtain ⟨lt, _⟩ := List.getElem?_eq_some_iff.mp found
        rw [Moment.under, List.cons.injEq, Descent.item.injEq] at same
        omega

end Prologue

section

variable {statements : Statements} {body inner : TypedCommand} {env : Env} {taken : List String}
  {entries : List (String × Nat)} {prologue : Prologue} {array : String} {r : Rotation}

/-- The register of a rotation is set up with as many bits as the last bank needs. -/
theorem setup_of_lookup (success : (setUpRotations statements body env taken entries).result = .ok prologue)
    (turns : prologue.rotations.lookup array = some r) : ∃ pos, ∃ k : Nat, prologue.setup[k]? =
      some (Command.define pos r.register (.ubit (bitsNeeded (r.banks - 1))) (.lit 0)) := by
  induction entries generalizing env taken prologue with
  | nil =>
    cases success
    cases turns
  | cons entry entries ih =>
    obtain ⟨first, pos⟩ := entry
    obtain ⟨_, _, _, _, ⟨_, rest⟩ | ⟨_, _, inner, _, _, typed, rest, rfl⟩⟩ := setUpRotations_cons success
    · exact ih rest turns
    · rw [List.lookup_cons] at turns
      split at turns
      · cases turns
        cases Rotation.eq_of_ty typed
        exact ⟨pos, 0, rfl⟩
      · obtain ⟨pos, k, found⟩ := ih rest turns
        exact ⟨pos, k + 1, found⟩

end

/-! ### One array -/

/-- A checked component, its split body, and the rotation of one of its arrays. -/
structure Prepared (statements : Statements) (ds : List Decl) (body inner : TypedCommand)
    (prologue : Prologue) (array : String) (r : Rotation) : Prop where
  checked : ∃ tctx types types', Typing.CheckedDecls {} ds types ∧
    Typing.CheckedCommand tctx types body types'
  setUp : (setUpRotations statements body (declared {} ds) (binders body)
    (firstOfEach (advances body))).result = .ok prologue
  split : ∃ last, (bankCommand ⟨statements, prologue.rotations⟩ prologue.env body).result = .ok (inner, last)
  shown : ∀ path cmd, body.at? path = some cmd → ∀ v ∈ cmd.vars, v.2 ∉ prologue.registers
  turns : prologue.rotations.lookup array = some r

namespace Prepared

variable {statements : Statements} {ds ds' : List Decl} {body inner : TypedCommand} {prologue : Prologue}
  {array : String} {r : Rotation} {m : Machine} {procs : List (String × Procedure)} {run : Semantics.Env}
  {s : State} {path : List Descent} {seen before : List Moment} {now : Moment} {last : Semantics.Env × State}

theorem banked (prepared : Prepared statements ds body inner prologue array r) :
    BankedCommand ⟨statements, prologue.rotations⟩ prologue.env body inner := by
  obtain ⟨_, split⟩ := prepared.split
  exact (bankCommand_ok body split).1

theorem typed (prepared : Prepared statements ds body inner prologue array r) : TypedIn prologue.env body := by
  obtain ⟨tctx, types, types', decls, checked⟩ := prepared.checked
  exact ⟨tctx, types, types', checked, decls.wellFormed .empty,
    (Agrees.empty.declared decls).setUpRotations prepared.setUp⟩

theorem start (prepared : Prepared statements ds body inner prologue array r) :
    Follows (layoutsOf ds body) ⟨statements, prologue.rotations⟩ (.ofDecls ds) prologue.env body inner := by
  obtain ⟨tctx, types, types', checked, _, agrees⟩ := prepared.typed
  refine ⟨⟨tctx, types, types', checked, agrees⟩, (Numbers.ofDecls ds body).setUpRotations prepared.setUp,
    ?_, prepared.split⟩
  simp only [Numbering.next_ofDecls, layoutsOf, List.drop_left, List.prefix_rfl]

theorem several (prepared : Prepared statements ds body inner prologue array r) : prologue.setup ≠ [] := by
  obtain ⟨_, setsUp, _⟩ := registers_of_setUp prepared.setUp
  intro none
  rw [none] at setsUp
  have registered := Prologue.mem_registers prepared.turns
  rw [List.forall₂_nil_right_iff.mp setsUp] at registered
  cases registered

theorem unbound (prepared : Prepared statements ds body inner prologue array r) :
    r.register ∉ binders inner := by
  intro bound
  obtain ⟨_, _, free⟩ := registers_of_setUp prepared.setUp
  obtain ⟨_, notBinder, notBank⟩ := free r.register (Prologue.mem_registers prepared.turns)
  rcases binders_split prepared.banked bound with source | ⟨array, k, bank⟩
  · exact notBinder source
  · exact notBank array k bank

/-- Once the registers are set up, the register counts through the run of the body. -/
theorem counted (prepared : Prepared statements ds body inner prologue array r) (spares : Spares procs)
    (entered : Entered m ds' run s) : ∃ next loc, execSeq m procs run s prologue.setup = .ok next ∧
      Counted (Turned r loc) (advancesAt body array) 0 (moments m procs next.1 next.2 inner)
        (exec m procs next.1 next.2 inner) := by
  obtain ⟨distinct, setsUp, _⟩ := registers_of_setUp prepared.setUp
  obtain ⟨next, ran, _, _, zero⟩ := setsUp.run distinct entered.within
  obtain ⟨loc, bound, holds⟩ := zero r.register (Prologue.mem_registers prepared.turns)
  have kept : Kept m procs (Turned r loc) (advancesAt body array) inner :=
    kept_of_split spares prepared.setUp prepared.banked prepared.shown prepared.unbound prepared.turns
  refine ⟨next, loc, ran, exec_counted inner kept ⟨bound, ?_⟩⟩
  rw [Nat.zero_mod]
  exact holds

theorem turned (prepared : Prepared statements ds body inner prologue array r)
    (comes : Comes m (ds', prologue.before inner) prologue.front path before now) :
    (∃ loc, Turned r loc (turnsOf body prologue.front array before) now.env now.store) ∧
      ∃ procs run s, ∃ below ∈ moments m procs run s inner, below.path = path ∧ below.env = now.env := by
  obtain ⟨fs, entered, whole, there⟩ := comes
  have spares : Spares (link m [] fs) := Spares.nil.link fs
  obtain ⟨next, loc, ran, counted⟩ := prepared.counted spares entered
  obtain ⟨_, first, parts, others⟩ := Prologue.run_before prepared.several ran inner
  rw [parts] at whole
  rw [Prologue.front_eq prepared.several] at there ⊢
  obtain ⟨middle, below, rest, split, rfl, rfl⟩ := under_of_append others whole there
  have turned := counted.during middle below rest split
  obtain ⟨_, same⟩ := List.cons.inj there
  refine ⟨⟨loc, ?_⟩, link m [] fs, next.1, next.2, below, ?_, same, rfl⟩
  · rw [turnsOf_append, turnsOf_eq_zero others, turnsOf_under]
    exact turned
  · rw [split]
    exact List.mem_append_right _ List.mem_cons_self

theorem ended (prepared : Prepared statements ds body inner prologue array r)
    (ends : Ends m (ds', prologue.before inner) seen last) :
    ∃ loc, Turned r loc (turnsOf body prologue.front array seen) last.1 last.2 := by
  obtain ⟨fs, entered, rfl, ended⟩ := ends
  have spares : Spares (link m [] fs) := Spares.nil.link fs
  obtain ⟨next, loc, ran, counted⟩ := prepared.counted spares entered
  obtain ⟨same, first, parts, others⟩ := Prologue.run_before prepared.several ran inner
  have turned := counted.after last (same.symm.trans ended)
  rw [Prologue.front_eq prepared.several, parts, turnsOf_append, turnsOf_eq_zero others, turnsOf_under]
  exact ⟨loc, turned⟩

theorem definesAt (prepared : Prepared statements ds body inner prologue array r) :
    ∃ pos, ∃ k : Nat, (prologue.before inner).at? [.item k] =
      some (.define pos r.register (.ubit (bitsNeeded (r.banks - 1))) (.lit 0)) := by
  obtain ⟨pos, k, found⟩ := setup_of_lookup prepared.setUp prepared.turns
  refine ⟨pos, k, ?_⟩
  rw [Prologue.before_eq prepared.several, Command.at?, Command.inner?,
    List.getElem?_append_left (List.getElem?_eq_some_iff.mp found).1, found]
  rfl

theorem stepsAt (prepared : Prepared statements ds body inner prologue array r) {pos : Nat}
    (here : body.at? path = some (.advance pos array)) :
    ∃ cmd', (prologue.before inner).at? (prologue.front ++ path) = some cmd' ∧ r.step pos = .ok cmd' := by
  obtain ⟨s, met⟩ := total_numbering.visit (.ofDecls ds) here
  obtain ⟨_, cmd', _, found, follows⟩ := prepared.start.visit met
  exact ⟨cmd', (Prologue.at?_before prepared.several inner path).trans found,
    follows.steps.1 r prepared.turns⟩

theorem selectsAt {layout : Layout} (prepared : Prepared statements ds body inner prologue layout.name r)
    {k : Nat} (listed : (layoutsOf ds body)[k]? = some layout)
    (lone : (layoutsOf ds body).Pairwise fun l l' => l.name = layout.name → l'.name ≠ layout.name)
    (total : bankTotal layout.dims = r.banks) (banks : 2 ≤ r.banks) {cmd : TypedCommand} {ty : Ty}
    {idxs : List TypedExpr} (here : body.at? path = some cmd)
    (inside : .access ty layout.name idxs ∈ cmd.subterms) :
    ∃ env cmd' idxs' select addr,
      (splitting ⟨statements, prologue.rotations⟩).visit prologue.env body path = some (env, cmd) ∧
      (prologue.before inner).at? (prologue.front ++ path) = some cmd' ∧
      .muxRead ty ((List.range r.banks).map (Layout.bankName layout.name)) select addr ∈ cmd'.subterms ∧
      List.Forall₂ (fun idx idx' =>
        (read ⟨statements, prologue.rotations⟩ env cmd.pos idx).result = .ok idx') idxs idxs' ∧
      ∀ m before now is, Comes m (ds', prologue.before inner) prologue.front path before now →
        evalIndices m now.env now.store idxs' = .ok is → Semantics.inside layout.dims is = true →
        eval m now.env now.store true select = .ok (turnedBank r.banks
          (turnsOf body prologue.front layout.name before) (flatBank layout.dims is)) := by
  obtain ⟨s, met⟩ := total_numbering.visit (.ofDecls ds) here
  obtain ⟨env, cmd', visited, found, follows⟩ := prepared.start.visit met
  obtain ⟨_, split⟩ := follows.split
  have power := setUpRotations_powers prepared.setUp prepared.turns
  obtain ⟨layout', _, select, addr, idxs', bound, named, member, reads, selects⟩ :=
    (prepared.typed.visit visited).select split prepared.turns power inside
  -- No other array has the name, so this is the layout of the access.
  obtain ⟨k', leads⟩ := follows.numbers.of_get? bound
  obtain rfl := number_eq lone leads.listed listed leads.named rfl
  obtain rfl := Option.some.inj (leads.listed.symm.trans listed)
  rw [Layout.banks_eq_of_several named (total ▸ banks), total] at member
  refine ⟨env, cmd', idxs', select, addr, visited,
    (Prologue.at?_before prepared.several inner path).trans found, member, reads, ?_⟩
  intro m before now is comes values within
  obtain ⟨⟨loc, turned⟩, _, run, _, below, began, rfl, same⟩ := prepared.turned comes
  have entered : Ranged prologue.env run := ((Ranged.empty run).declared ds).setUpRotations prepared.setUp
  have ranged := Underway.moment ⟨prepared.banked, entered⟩ began visited
  rw [same] at ranged
  exact selects m now.env now.store loc _ is ranged turned values within

end Prepared

theorem rotatesAll_of_bankBody {statements : Statements} {ds ds' : List Decl} {body body' : TypedCommand}
    {tctx : Typing.Context} {types types' : Typing.Env} (decls : Typing.CheckedDecls {} ds types)
    (checked : Typing.CheckedCommand tctx types body types')
    (success : (bankBody statements (declared {} ds) body).result = .ok body') :
    RotatesAll statements (ds, body) (ds', body') := by
  obtain ⟨prologue, inner, last, setUp, split, same, _, _, _, undisturbed⟩ :=
    hygienic_of_bankBody decls checked success
  obtain rfl : body' = prologue.before inner := same
  have shown : ∀ path cmd, body.at? path = some cmd → ∀ v ∈ cmd.vars, v.2 ∉ prologue.registers := by
    intro path cmd here
    obtain ⟨s, met⟩ := total_resolving.visit ⟨[], .ofDecls ds⟩ here
    obtain ⟨_, _, _, _, _, apart⟩ := undisturbed path s cmd met
    exact apart.shown
  refine ⟨prologue, setUp, ?_⟩
  intro layout among advanced lone n counted several
  obtain ⟨k, listed⟩ := List.mem_iff_getElem?.mp among
  have total := Layout.bankCount_eq counted
  obtain ⟨register, turns⟩ := (lookup_iff setUp listed lone n).mpr ⟨advanced, total, several⟩
  have prepared : Prepared statements ds body inner prologue layout.name ⟨register, n⟩ :=
    ⟨⟨tctx, types, types', decls, checked⟩, setUp, ⟨last, split⟩, shown, turns⟩
  have power := setUpRotations_powers setUp turns
  exact ⟨register, turns, {
    power
    setUp := prepared.definesAt
    step := fun path pos here => prepared.stepsAt here
    register := fun m path before now comes => by
      obtain ⟨⟨loc, turned⟩, _⟩ := prepared.turned comes
      exact turned.scalarOf
    last := fun m seen last ends => by
      obtain ⟨loc, turned⟩ := prepared.ended ends
      exact turned.scalarOf
    select := fun path cmd ty idxs here inside =>
      prepared.selectsAt listed (lone advanced) total.symm several here inside
    permutes := bijOn_turnedBank (pos_of_isPowerOfTwo power)
    restores := turnedBank_add n }⟩

/-- Rotations are right over whole runs. In every component of a checked program that is split, each array
of a lone name that some `advance` moves and that has several banks gets a hidden register as wide as the
number of its last bank. Wherever a run of the component is and when it ends, the register holds the number
of turns that the array has made since the component was entered, modulo the number of banks. An access whose
indices are inside the array and do not wrap selects the bank that the turns have moved the bank of its
element to; so many turns permute the banks, and as many turns as there are banks restore every selection. -/
theorem toBanks_rotates {p : SourceProgram} {typed : TypedProgram} {statements : Statements}
    {banked : BankedProgram} (checked : p.check.result = .ok typed)
    (split : (typed.toBanks statements).result = .ok banked) :
    List.Forall₂ (RotatesAll statements) typed.components banked.program.components := by
  have wellTyped := Typing.checkedProgram_of_check checked
  have components := (List.forall₂_and_left _ _).mpr
    ⟨fun c (member : c ∈ typed.components) => wellTyped.component member, Program.forall₂_components split⟩
  refine components.imp ?_
  rintro ⟨ds, body⟩ ⟨ds', body'⟩ ⟨⟨_, _, _, decls, checked⟩, success⟩
  exact rotatesAll_of_bankBody decls checked success

/-- Reads an array in a loop, and turns it after some of the reads. -/
def turningInLoop : SourceProgram where
  decls := [⟨0, "a", .array (.ubit 8) [⟨8, 2⟩]⟩]
  defs := []
  body := some (.loop 1 ⟨"i", 0, 8, none⟩ (.seq 2 [
    .define 3 "x" none (.access "a" [.var "i"]),
    .branch 4 (.binop .lt (.var "x") (.int 7)) (.advance 5 "a") none]))

/-- Whether a run of a split component over cleared storage ends, and how often it turns the array, behind
the set-up of one register. -/
def turnsFromZero (array : String) (c c' : List Decl × TypedCommand) : Bool × Nat :=
  let r := allocateAll .zero {} {} c'.1
  ((exec .zero [] r.1 r.2 c'.2).isOk, turnsOf c.2 [.item 1] array (moments .zero [] r.1 r.2 c'.2))

/-- The array has four banks, and a run turns it twice around. -/
theorem toBanks_rotates_turningInLoop : ∃ typed banked, turningInLoop.check.result = .ok typed ∧
    (typed.toBanks (.ofProgram turningInLoop)).result = .ok banked ∧
    typed.components.map (fun c => (layoutsOf c.1 c.2).map fun l => (l.name, l.bankCount.toOption,
      decide (l.name ∈ (advances c.2).map Prod.fst ∧ Lone c.1 c.2 l.name))) = [[("a", some 4, true)]] ∧
    List.zipWith (turnsFromZero "a") typed.components banked.program.components = [(true, 8)] ∧
    List.Forall₂ (RotatesAll (.ofProgram turningInLoop)) typed.components banked.program.components := by
  have computed : ∃ built : TypedProgram × BankedProgram, (do
      let typed ← turningInLoop.check.result
      let banked ← (typed.toBanks (.ofProgram turningInLoop)).result
      pure (typed, banked)) = .ok built ∧
      decide (built.1.components.map (fun c => (layoutsOf c.1 c.2).map fun l => (l.name, l.bankCount.toOption,
          decide (l.name ∈ (advances c.2).map Prod.fst ∧ Lone c.1 c.2 l.name))) = [[("a", some 4, true)]] ∧
        List.zipWith (turnsFromZero "a") built.1.components built.2.program.components = [(true, 8)]) = true :=
    exists_ok_of_map (by decide +kernel)
  obtain ⟨built, success, known⟩ := computed
  simp only [bind_ok_iff, pure_ok_iff] at success
  obtain ⟨typed, checked, banked, split, rfl⟩ := success
  obtain ⟨turning, ran⟩ := of_decide_eq_true known
  exact ⟨typed, banked, checked, split, turning, ran, toBanks_rotates checked split⟩

end Banking

end BankedLoops
