import BankedLoops.Proofs.Lowering.Executed
import BankedLoops.Proofs.Lowering.Spares

/-!
# Loops that count

The control of a loop starts its body once for each number from the start up to the bound. Its
register holds the number while the body runs, because no group of the body drives it, and in the end
the bound; both the register and what the body reads of it are as narrow as they can be.
-/

namespace BankedLoops

/-- A number takes more bits than the one before exactly if it is a power of two above one. -/
theorem bitsNeeded_pred_lt_iff {n : Nat} :
    bitsNeeded (n - 1) < bitsNeeded n ↔ 1 < n ∧ isPowerOfTwo n = true := by
  rcases Nat.eq_zero_or_pos n with rfl | positive
  · simp
  have bits : bitsNeeded n = n.log2 + 1 := if_neg (Nat.pos_iff_ne_zero.mp positive)
  have power : isPowerOfTwo n = true ↔ n = Word.capacity n.log2 := beq_iff_eq
  have least : Word.capacity n.log2 ≤ n := Nat.log2_self_le (Nat.pos_iff_ne_zero.mp positive)
  rw [bits, Nat.lt_succ_iff, power]
  constructor
  · intro narrower
    have above : 0 < n.log2 := Nat.lt_of_lt_of_le (bitsNeeded_pos _) narrower
    have below := (bitsNeeded_le_iff above).mp narrower
    have two : Word.capacity 1 ≤ Word.capacity n.log2 := Word.capacity_le above
    have : Word.capacity 1 = 2 := rfl
    omega
  · rintro ⟨large, same⟩
    have above : 0 < n.log2 := by
      by_contra zero
      rw [Nat.eq_zero_of_not_pos zero] at same
      exact absurd same (Nat.ne_of_gt large)
    exact (bitsNeeded_le_iff above).mpr (by omega)

theorem isLeast_bitsNeeded (n : Nat) :
    IsLeast {bits | 0 < bits ∧ n < Word.capacity bits} (bitsNeeded n) :=
  ⟨⟨bitsNeeded_pos n, lt_capacity_bitsNeeded n⟩, fun _ holds => (bitsNeeded_le_iff holds.1).mpr holds.2⟩

namespace Lowering

open Library (Part)
open Semantics (FixedProduct pattern pattern_of_lt)
open Execution

/-! ### The control of a loop -/

namespace LoopFrame

/-- One round: the body, then counting up. -/
def body (s : Setting) (pos : Nat) (frame : LoopFrame) (round : Control) : Control :=
  .sequence [round, s.enable frame.incr pos]

def control (s : Setting) (pos : Nat) (h : LoopHeader) (frame : LoopFrame) (round : Control) : Control :=
  .sequence [s.enable frame.init pos,
    .loop (.out frame.lt) (some frame.cond) (frame.body s pos round) (some (h.stop - h.start))]

/-- What a name stands for that is bound to the iterator. -/
def store (frame : LoopFrame) : Store := .iterator frame.reg frame.slice frame.width

/-- The register is as narrow as its exit value allows, and what uses read of it as narrow as the last
number. A slice stands between the two if the bound is a power of two above one. -/
structure Minimal (cells : List Cell) (h : LoopHeader) (frame : LoopFrame) : Prop where
  register : partOf? cells frame.reg = some (.register (bitsNeeded h.stop))
  exit : IsLeast {bits | 0 < bits ∧ h.stop < Word.capacity bits} (bitsNeeded h.stop)
  uses : IsLeast {bits | 0 < bits ∧ h.stop - 1 < Word.capacity bits} frame.width
  narrowed : ∀ slice, frame.slice = some slice →
    partOf? cells slice = some (.adapter .slice (bitsNeeded h.stop) frame.width)
  sliced : frame.slice.isSome = true ↔ 1 < h.stop ∧ isPowerOfTwo h.stop = true

/-- Whatever use of the iterator is wired into the group of the moment reads `k`, in all of its bits. -/
def Shows (frame : LoopFrame) (k : Nat) (m : Moment) : Prop :=
  ∀ s env pos W name w pin width W' v, env.get? name = some frame.store →
    (readName s env pos W name).run w = .ok ((pin, width, W'), v) → W'.assigns ⊆ m.group.assignments →
    width = frame.width ∧ m.level pin = k

/-- The loop counts from its start to its bound. -/
structure Counts (s : Setting) (d : Device) (c : Component) (pos : Nat) (h : LoopHeader)
    (frame : LoopFrame) (round : Control) : Prop where
  /-- The start of the body numbered `j` finds the register at `h.start + j`, and in all cycles of that
  round this is what uses of the iterator read, even if the round does not come to its end. -/
  enters : ∀ σ τ j entry, Runs d c (s.enable frame.init pos) σ τ →
    Enters d c (.out frame.lt) (some frame.cond) (frame.body s pos round) j τ entry →
    j < h.stop - h.start ∧ entry.regs frame.reg = h.start + j ∧
      ∀ m, Occurs d c m round entry → frame.Shows (h.start + j) m
  /-- Every run starts the body as often as the bound on the control says. -/
  rounds : ∀ σ σ', Runs d c (frame.control s pos h round) σ σ' → ∃ τ entries,
    Runs d c (s.enable frame.init pos) σ τ ∧
    Rounds d c (.out frame.lt) (some frame.cond) (frame.body s pos round) entries τ σ' ∧
    entries.length = h.stop - h.start ∧ σ'.regs frame.reg = h.stop
  /-- There is such a run, as long as every round comes to its end. -/
  ends : (∀ τ, h.start ≤ τ.regs frame.reg → τ.regs frame.reg < h.stop → ∃ τ', Runs d c round τ τ') →
    ∀ σ, ∃ σ', Runs d c (frame.control s pos h round) σ σ'

end LoopFrame

/-! ### Groups that count -/

/-- The parts and the groups of a loop apart from its body. -/
structure Counter (cells : List Cell) (groups : List Group) (h : LoopHeader) (frame : LoopFrame) :
    Prop where
  register : partOf? cells frame.reg = some (.register (bitsNeeded h.stop))
  init : ∃ const, partOf? cells const = some (.constant (bitsNeeded h.stop) h.start) ∧
    ⟨frame.init, some 1, latchWires frame.init frame.reg (.out const)⟩ ∈ groups
  cond : ∃ const, partOf? cells frame.lt = some (.operator .lt (bitsNeeded h.stop)) ∧
    partOf? cells const = some (.constant (bitsNeeded h.stop) h.stop) ∧
    ⟨frame.cond, none, operandWires frame.lt frame.reg const⟩ ∈ groups
  incr : ∃ add const, partOf? cells add = some (.operator .add (bitsNeeded h.stop)) ∧
    partOf? cells const = some (.constant (bitsNeeded h.stop) 1) ∧
    ⟨frame.incr, some 1,
      operandWires add frame.reg const ++ latchWires frame.incr frame.reg (.out add)⟩ ∈ groups

/-- Names lead to groups, and all groups are legally wired. -/
structure Formed (exact : Prop) (c : Component) : Prop where
  distinct : (c.groups.map (·.name)).Nodup
  legal : ∀ g ∈ c.groups, LegalGroup exact c.cells g

section

variable {exact : Prop} {h : LoopHeader} {frame : LoopFrame}

theorem Workspace.Legal.formed {w : Workspace} (legal : w.Legal exact) (name : String)
    (control : Control) : Formed exact ⟨name, w.cells, w.groups, control⟩ :=
  ⟨(List.nodup_append.mp legal.distinct).2.1, legal.groups⟩

theorem Counter.mono {cells cells' : List Cell} {groups groups' : List Group}
    (counter : Counter cells groups h frame) (grown : cells <+: cells') (more : groups ⊆ groups') :
    Counter cells' groups' h frame := by
  obtain ⟨isRegister, ⟨first, isFirst, init⟩, ⟨last, isLt, isLast, cond⟩,
    ⟨add, one, isAdd, isOne, incr⟩⟩ := counter
  exact ⟨partOf?_of_isPrefix grown isRegister, ⟨first, partOf?_of_isPrefix grown isFirst, more init⟩,
    ⟨last, partOf?_of_isPrefix grown isLt, partOf?_of_isPrefix grown isLast, more cond⟩,
    ⟨add, one, partOf?_of_isPrefix grown isAdd, partOf?_of_isPrefix grown isOne, more incr⟩⟩

theorem Staged.counter {w u v : Workspace} (staged : Staged exact w h frame u v)
    (words : exact → h.start < Word.capacity Word.sizeBits ∧ h.stop < Word.capacity Word.sizeBits) :
    Extends exact u v ∧ Counter v.cells v.groups h frame := by
  obtain ⟨started, compared, starting, comparing, counting⟩ := staged.counts
  obtain ⟨first, grown, groups, isFirst⟩ :=
    addInit_closes staged.extends_.legal staged.register (fun known => (words known).1) starting
  have isRegister := partOf?_of_isPrefix grown.cells staged.register
  obtain ⟨last, grown', groups', isLt, isLast, _⟩ :=
    addCond_closes grown.legal isRegister (fun known => (words known).2) comparing
  have isRegister' := partOf?_of_isPrefix grown'.cells isRegister
  obtain ⟨add, one, grown'', groups'', isAdd, isOne⟩ := addIncr_closes grown'.legal isRegister' counting
  refine ⟨grown.trans (grown'.trans grown''), partOf?_of_isPrefix grown''.cells isRegister',
    ⟨first, ?_, ?_⟩, ⟨last, ?_, ?_, ?_⟩, ⟨add, one, isAdd, isOne, ?_⟩⟩
  · exact partOf?_of_isPrefix (grown'.trans grown'').cells isFirst
  · refine (grown'.trans grown'').groups.subset ?_
    rw [groups]
    exact List.mem_append_right _ List.mem_cons_self
  · exact partOf?_of_isPrefix grown''.cells isLt
  · exact partOf?_of_isPrefix grown''.cells isLast
  · refine grown''.groups.subset ?_
    rw [groups']
    exact List.mem_append_right _ List.mem_cons_self
  · rw [groups'']
    exact List.mem_append_right _ List.mem_cons_self

/-- What a loop adds counts, and is no wider than it has to be. -/
theorem Staged.minimal {w u v : Workspace} (staged : Staged exact w h frame u v) :
    frame.Minimal u.cells h := by
  have stored := staged.stored
  have isRegister := staged.register
  have width := staged.width
  cases slice : frame.slice with
  | none =>
    rw [slice] at stored
    cases stored with
    | whole found =>
      rw [isRegister] at found
      have same : bitsNeeded h.stop = frame.width := Part.register.inj (Option.some.inj found)
      refine ⟨isRegister, isLeast_bitsNeeded _, width ▸ isLeast_bitsNeeded _, ?_, ?_⟩
      · rw [slice]
        rintro _ ⟨⟩
      · rw [slice, ← bitsNeeded_pred_lt_iff, same, ← width]
        simp
  | some cell =>
    rw [slice] at stored
    cases stored with
    | sliced found narrowed narrower =>
      rw [isRegister] at found
      cases found
      refine ⟨isRegister, isLeast_bitsNeeded _, width ▸ isLeast_bitsNeeded _, ?_, ?_⟩
      · rw [slice]
        rintro _ ⟨⟩
        exact narrowed
      · rw [slice, ← bitsNeeded_pred_lt_iff, ← width]
        exact ⟨fun _ => narrower, fun _ => rfl⟩

end

/-! ### Cycles of the groups that count -/

section

variable {product : FixedProduct} {cells : List Cell} {g : Group} {cycle : Nat} {σ : State}
  {level : Pin → Nat}

/-- An assignment is obeyed where no other drives its target. -/
theorem level_alone (consistent : Consistent product cells g cycle σ level)
    (distinct : (g.assignments.map (·.dst)).Nodup) {a : Assignment} (member : a ∈ g.assignments)
    (active : a.guard.Holds cycle level) : level a.dst = a.src.level level :=
  consistent.driven a member active fun _ inside same _ =>
    List.inj_on_of_nodup_map distinct inside member same

/-- What a register takes in. -/
theorem regs_latched (consistent : Consistent product cells g cycle σ level)
    (distinct : (g.assignments.map (·.dst)).Nodup) {group reg : String} {data : Pin} {width : Nat}
    (wires : latchWires group reg data ⊆ g.assignments)
    (isRegister : partOf? cells reg = some (.register width)) :
    (σ.after cells level).regs reg = level data := by
  have input : level (.cell reg "in") = level data :=
    level_alone consistent distinct (wires List.mem_cons_self) trivial
  have high : level (.cell reg "write_en") = 1 :=
    level_alone consistent distinct (wires (List.mem_cons_of_mem _ List.mem_cons_self)) trivial
  simp [State.after, isRegister, high, input]

/-- What a part finds that combines a register with a constant. -/
theorem level_operands (consistent : Consistent product cells g cycle σ level)
    (distinct : (g.assignments.map (·.dst)).Nodup) {cell reg const : String} {width value : Nat}
    (wires : operandWires cell reg const ⊆ g.assignments)
    (isRegister : partOf? cells reg = some (.register width))
    (isConst : partOf? cells const = some (.constant width value)) :
    level (.cell cell "left") = pattern width (σ.regs reg) ∧
      level (.cell cell "right") = pattern width value := by
  have left : level (.cell cell "left") = level (.out reg) :=
    level_alone consistent distinct (wires List.mem_cons_self) trivial
  have right : level (.cell cell "right") = level (.out const) :=
    level_alone consistent distinct (wires (List.mem_cons_of_mem _ List.mem_cons_self)) trivial
  rw [left, right, consistent.level_register isRegister, consistent.level_constant isConst]
  exact ⟨rfl, rfl⟩

end

namespace Counter

variable {exact : Prop} {d : Device} {c : Component} {h : LoopHeader} {frame : LoopFrame} {σ τ : State}

/-- The register has room for the bound, so also for every number before it. -/
theorem pattern_le {k : Nat} (le : k ≤ h.stop) : pattern (bitsNeeded h.stop) k = k :=
  pattern_of_lt (Nat.lt_of_le_of_lt le (lt_capacity_bitsNeeded h.stop))

theorem initialises (counter : Counter c.cells c.groups h frame) (formed : Formed exact c)
    (ordered : h.start < h.stop) (pos : Option Nat) :
    Ensures d c (.enable frame.init pos) σ fun τ => τ.regs frame.reg = h.start := by
  obtain ⟨const, isConst, member⟩ := counter.init
  refine ensures_cycle formed.distinct (formed.legal _ member) member rfl (fun level consistent => ?_) pos
  rw [regs_latched consistent (by simp [latchWires, Pin.done]) (List.Subset.refl _) counter.register,
    consistent.level_constant isConst, pattern_le (Nat.le_of_lt ordered)]

theorem tests_iff (counter : Counter c.cells c.groups h frame) (formed : Formed exact c)
    (below : σ.regs frame.reg ≤ h.stop) {bit : Nat} :
    Tests d c (.out frame.lt) (some frame.cond) σ bit ↔
      bit = (decide (σ.regs frame.reg < h.stop)).toNat := by
  obtain ⟨const, isLt, isConst, member⟩ := counter.cond
  have found := group?_of_mem formed.distinct member
  have compared {level : Pin → Nat} (consistent : Consistent d.product c.cells
      ⟨frame.cond, none, operandWires frame.lt frame.reg const⟩ 0 σ level) :
      level (.out frame.lt) = (decide (σ.regs frame.reg < h.stop)).toNat := by
    obtain ⟨left, right⟩ := level_operands consistent (by simp [operandWires]) (List.Subset.refl _)
      counter.register isConst
    have shown : level (.out frame.lt) =
        (decide (level (.cell frame.lt "left") < level (.cell frame.lt "right"))).toNat :=
      consistent.shows_ frame.lt _ isLt "out" _ rfl
    rw [shown, left, right, pattern_le below, pattern_le (Nat.le_refl _)]
  constructor
  · rintro ⟨g, level, isGroup, consistent, rfl⟩
    cases found.symm.trans isGroup
    exact compared consistent
  · rintro rfl
    obtain ⟨level, consistent⟩ := (formed.legal _ member).exists_consistent d.product 0 σ
    exact ⟨_, level, found, consistent, compared consistent⟩

theorem increments (counter : Counter c.cells c.groups h frame) (formed : Formed exact c)
    (below : σ.regs frame.reg < h.stop) (pos : Option Nat) :
    Ensures d c (.enable frame.incr pos) σ fun τ => τ.regs frame.reg = σ.regs frame.reg + 1 := by
  obtain ⟨add, const, isAdd, isConst, member⟩ := counter.incr
  refine ensures_cycle formed.distinct (formed.legal _ member) member rfl (fun level consistent => ?_) pos
  have distinct : ((operandWires add frame.reg const ++
      latchWires frame.incr frame.reg (.out add)).map (·.dst)).Nodup := by
    simp [operandWires, latchWires, Pin.done]
  obtain ⟨left, right⟩ := level_operands consistent distinct (List.subset_append_left _ _)
    counter.register isConst
  have shown : level (.out add) = pattern (bitsNeeded h.stop)
      (level (.cell add "left") + level (.cell add "right") : Nat) :=
    consistent.shows_ add _ isAdd "out" _ rfl
  rw [regs_latched consistent distinct (List.subset_append_right _ _) counter.register, shown, left, right,
    pattern_le (Nat.le_of_lt below), pattern_le (Nat.succ_le_of_lt (Nat.zero_lt_of_lt below)),
    pattern_le below]

variable {s : Setting} {pos : Nat} {round : Control}

/-- A round counts up once, as its body leaves the register alone. -/
theorem steps (counter : Counter c.cells c.groups h frame) (formed : Formed exact c)
    (separate : d.Separate) (spares : round.Spares c frame.reg) (below : σ.regs frame.reg < h.stop)
    (ran : Runs d c (frame.body s pos round) σ τ) : τ.regs frame.reg = σ.regs frame.reg + 1 := by
  cases runs_sequence_iff.mp ran with
  | cons first rest =>
    have same := first.regs_spared separate spares
    rw [← same] at below ⊢
    exact (counter.increments formed below _).2 _ (runs_singleton_iff.mp rest)

/-- What uses of the iterator read while the register is at `k`. -/
theorem shows (counter : Counter c.cells c.groups h frame) (formed : Formed exact c)
    (minimal : frame.Minimal c.cells h) {m : Moment} (occurs : Occurs d c m round σ) {k : Nat}
    (held : m.state.regs frame.reg = k) (below : k < h.stop) : frame.Shows k m := by
  have consistent := occurs.consistent
  have whole : m.level (.out frame.reg) = k := by
    rw [consistent.level_register counter.register, held, pattern_le (Nat.le_of_lt below)]
  intro s env pos W name w pin width W' v bound ran wires
  rw [readName, bound, LoopFrame.store] at ran
  cases slice : frame.slice with
  | none =>
    rw [slice] at ran
    cases ran
    exact ⟨rfl, whole⟩
  | some cell =>
    rw [slice] at ran
    cases ran
    refine ⟨rfl, ?_⟩
    have wire := wires (Wiring.mem_connect W (.cell cell "in") (.out frame.reg))
    have member : m.group ∈ c.groups := by
      refine occurs.group_mem.resolve_right fun empty => ?_
      rw [empty] at wire
      cases wire
    have isSlice := minimal.narrowed cell slice
    have input := (formed.legal _ member).level_input consistent isSlice rfl wire
    have shown : m.level (.out cell) = pattern frame.width (m.level (.cell cell "in")) :=
      consistent.shows_ cell _ isSlice "out" _ rfl
    have room : k < Word.capacity frame.width :=
      Nat.lt_of_le_of_lt (Nat.le_sub_one_of_lt below) minimal.uses.1.2
    rw [shown, input, whole, pattern_of_lt room]

/-- The loop counts, whatever its body does, as long as it leaves the register alone. -/
theorem counts (counter : Counter c.cells c.groups h frame) (formed : Formed exact c)
    (minimal : frame.Minimal c.cells h) (ordered : h.start < h.stop) (separate : d.Separate)
    (spares : round.Spares c frame.reg) : frame.Counts s d c pos h round := by
  have tests (τ : State) (bit : Nat) (below : τ.regs frame.reg ≤ h.stop)
      (tested : Tests d c (.out frame.lt) (some frame.cond) τ bit) :
      bit = (decide (τ.regs frame.reg < h.stop)).toNat :=
    (counter.tests_iff formed below).mp tested
  have steps (τ τ' : State) (below : τ.regs frame.reg < h.stop)
      (ran : Runs d c (frame.body s pos round) τ τ') : τ'.regs frame.reg = τ.regs frame.reg + 1 :=
    counter.steps formed separate spares below ran
  have starts (σ τ : State) (ran : Runs d c (s.enable frame.init pos) σ τ) :
      τ.regs frame.reg = h.start :=
    (counter.initialises formed ordered _).2 τ ran
  refine ⟨?_, ?_, ?_⟩
  · intro σ τ j entry ran enters
    have start := starts σ τ ran
    obtain ⟨held, less⟩ := enters.counts tests steps (start ▸ Nat.le_of_lt ordered)
    rw [start] at held
    refine ⟨by omega, held, fun m occurs => ?_⟩
    have same := (occurs.regs_spared separate spares).trans held
    exact counter.shows formed minimal occurs same (held ▸ less)
  · intro σ σ' ran
    cases runs_sequence_iff.mp ran with
    | cons first rest =>
      obtain ⟨entries, rounds⟩ := runs_loop_iff.mp (runs_singleton_iff.mp rest)
      have start := starts _ _ first
      obtain ⟨counted, ended⟩ := rounds.counts tests steps (start ▸ Nat.le_of_lt ordered)
      exact ⟨_, entries, first, rounds, by omega, ended⟩
  · intro ends σ
    obtain ⟨τ, first⟩ : ∃ τ, Runs d c (s.enable frame.init pos) σ τ :=
      (counter.initialises formed ordered _).1
    have start := starts σ τ first
    have finishes (υ : State) (above : τ.regs frame.reg ≤ υ.regs frame.reg)
        (below : υ.regs frame.reg < h.stop) : ∃ υ', Runs d c (frame.body s pos round) υ υ' := by
      obtain ⟨υ', ran⟩ := ends υ (start ▸ above) below
      rw [← ran.regs_spared separate spares] at below
      obtain ⟨υ'', counted⟩ : ∃ υ'', Runs d c (s.enable frame.incr pos) υ' υ'' :=
        (counter.increments formed below _).1
      exact ⟨υ'', runs_sequence_iff.mpr (.cons ran (runs_singleton_iff.mpr counted))⟩
    obtain ⟨entries, σ', rounds⟩ := exists_rounds
      (fun υ below => (counter.tests_iff formed below).mpr rfl) steps finishes
      (start ▸ Nat.le_of_lt ordered)
    exact ⟨σ', runs_sequence_iff.mpr (.cons first
      (runs_singleton_iff.mpr (runs_loop_iff.mpr ⟨entries, rounds⟩)))⟩

end Counter

/-! ### Groups of the body -/

section

variable {exact : Prop} {s : Setting} {slots : Slots} {env : Env} {w u v : Workspace} {control : Control}
  {h : LoopHeader} {frame : LoopFrame} {cell : String}

theorem Store.targets_subset (store : Store) : store.targets ⊆ store.cells := by
  cases store with
  | iterator cell slice width => exact List.subset_cons_self _ _
  | _ => exact List.Subset.refl _

/-- A cell whose name is new is behind no name. -/
theorem envSpares_new (named : LegalEnv w.cells env) (new : cell ∉ w.cellNames) : EnvSpares cell env :=
  fun name store found target =>
    new ((named.stored name store found).mem cell (store.targets_subset target))

/-- The slice of an iterator is another cell than its register. -/
theorem Stored.slice_apart {cells : List Cell} (stored : Stored cells frame.store) :
    frame.reg ∉ frame.store.targets := by
  rw [LoopFrame.store] at stored ⊢
  cases slice : frame.slice with
  | none => simp [Store.targets]
  | some other =>
    rw [slice] at stored
    cases stored with
    | sliced found narrowed _ =>
      intro target
      rw [List.mem_singleton.mp target, narrowed] at found
      cases found

/-- The groups that are added for the body of a loop leave its register alone. -/
theorem Staged.spares {w' : Workspace} {body : TypedCommand} {later : Env}
    (staged : Staged exact w h frame w' u) (legal : u.Legal exact)
    (stored : Stored u.cells frame.store) (named : LegalEnv w.cells env)
    (ran : (lowerCommand s (env.enter.rebind h.iter frame.store) body).run u = .ok ((control, later), v)) :
    ∀ g ∈ v.groups, g ∉ u.groups → g.Spares frame.reg := by
  have visible : EnvSpares frame.reg (env.enter.rebind h.iter frame.store) :=
    (envSpares_new named (staged.fresh _ List.mem_cons_self)).enter.rebind stored.slice_apart _
  have taken : frame.reg ∈ u.names.used :=
    legal.used (List.mem_append_left _ (stored.mem _ List.mem_cons_self))
  obtain ⟨_, spares, _⟩ := spares_lowerCommand s visible body u _ v taken ran
  exact fun g member new => (spares g member).resolve_left new

/-- A control enables groups that were added for it. -/
theorem Planned.spares {c : Component} (planned : Planned exact w [control] v) (kept : Kept v c)
    (formed : Formed exact c) (spares : ∀ g ∈ v.groups, g ∉ w.groups → g.Spares cell) :
    control.Spares c cell := by
  intro name enabled g found
  have counted := planned.schedules.enables name
  rw [List.flatMap_singleton] at counted
  have positive := List.count_pos_iff.mpr enabled
  obtain ⟨added, member, rfl⟩ := List.mem_map.mp
    (List.count_pos_iff.mp (show 0 < (v.scheduled true).count name by omega))
  have inside := (List.mem_filter.mp member).1
  have distinct : (v.scheduled true).Nodup :=
    ((List.nodup_append.mp planned.extends_.legal.distinct).2.1).sublist
      ((List.filter_sublist).map _)
  have once := List.nodup_iff_count_le_one.mp distinct added.name
  have new : added ∉ w.groups := fun old => by
    have before : 0 < (w.scheduled true).count added.name := List.count_pos_iff.mpr
      (List.mem_map.mpr ⟨added, List.mem_filter.mpr ⟨old, (List.mem_filter.mp member).2⟩, rfl⟩)
    omega
  rw [group?_of_mem formed.distinct (kept.groups.subset inside)] at found
  exact Option.some.inj found ▸ spares added inside new

end

/-! ### Loops of a component -/

/-- Lowering the loop in its environment and workspace builds a frame and the control of the body. No
group that it adds for the body drives the register, and in the component the loop counts, however its
instances work. -/
def CountsLoop (s : Setting) (c : Component) (env : Env) (w : Workspace) (pos : Nat) (h : LoopHeader)
    (body : TypedCommand) : Prop :=
  ∃ frame u round inner v later, (addLoop h).run w = .ok (frame, u) ∧
    (lowerCommand s (env.enter.rebind h.iter frame.store) body).run u = .ok ((round, inner), v) ∧
    (lowerCommand s env (.loop pos h body)).run w =
      .ok ((frame.control s pos h round, later), (v.quote s pos).quote s pos) ∧
    frame.Minimal c.cells h ∧
    (∀ g ∈ v.groups, g ∈ c.groups ∧ (g ∉ u.groups → g.Spares frame.reg)) ∧
    ∀ d : Device, d.Separate → frame.Counts s d c pos h round

/-- Lowering comes to every loop of the body that has a number to count, and wherever it does, the loop
counts. -/
def CountsLoops (s : Setting) (exposure : Exposure) (ds : List Decl) (instances : List String)
    (body : Option TypedCommand) (c : Component) : Prop :=
  ∃ quotes, ∀ top pos h inner, body = some top → Inside (.loop pos h inner) top → h.start < h.stop →
    (∃ env w, Visits s quotes exposure ds instances body env w (.loop pos h inner)) ∧
    ∀ env w, Visits s quotes exposure ds instances body env w (.loop pos h inner) →
      CountsLoop s c env w pos h inner

section

variable {exact : Prop} {s : Setting} {slots : Slots} {env later : Env} {w v : Workspace} {pos : Nat}
  {h : LoopHeader} {body : TypedCommand} {control : Control} {c : Component}

theorem LoopFrame.Minimal.mono {cells cells' : List Cell} {frame : LoopFrame}
    (minimal : frame.Minimal cells h) (grown : cells <+: cells') : frame.Minimal cells' h where
  register := partOf?_of_isPrefix grown minimal.register
  exit := minimal.exit
  uses := minimal.uses
  narrowed := fun slice found => partOf?_of_isPrefix grown (minimal.narrowed slice found)
  sliced := minimal.sliced

theorem Lowers.countsLoop (whole : Lowers exact s slots env w (.loop pos h body) control later v)
    (kept : Kept v c) (formed : Formed exact c) (ordered : h.start < h.stop) :
    CountsLoop s c env w pos h body := by
  have lowered := whole.ran
  obtain ⟨frame, u, round, inner, v', rfl, rfl, adding, lowers⟩ := whole.loop
  replace kept : Kept v' c := ⟨kept.cells, kept.groups⟩
  obtain ⟨w', staged⟩ := addLoop_staged whole.legal adding
  obtain ⟨grown, counter⟩ := staged.counter fun known => by
    obtain ⟨_, word, _⟩ := whole.typed known
    exact ⟨Nat.lt_trans ordered word, word⟩
  have kept' : Kept u c := kept.of_extends lowers.extends_
  have minimal := staged.minimal.mono (grown.cells.trans kept'.cells)
  have counts := counter.mono kept'.cells kept'.groups.subset
  have added := staged.spares grown.legal (staged.stored.mono grown.cells) whole.furnished.named lowers.ran
  have spares := lowers.planned.1.spares kept formed added
  refine ⟨frame, u, round, inner, v', later, adding, lowers.ran, lowered, minimal,
    fun g member => ⟨kept.groups.subset member, added g member⟩, fun d separate => ?_⟩
  exact counts.counts formed minimal ordered separate spares

/-- Every loop of a component counts that is built from storage and a body. -/
theorem assemble_counts {quotes : Statements} {exposure : Exposure} {ds : List Decl} {instances : List String}
    {body : Option TypedCommand} (tidy : TidyBody ds body)
    (ran : (assemble s exposure ds instances body).run { quotes } = .ok (control, v)) (name : String) :
    CountsLoops s exposure ds instances body ⟨name, v.cells, v.groups, control⟩ := by
  refine ⟨quotes, ?_⟩
  rintro top pos h inner rfl inside ordered
  have untyped : False → PhysicalBody ds (some top) := False.elim
  have planned := assemble_planned tidy untyped ran
  obtain ⟨some_, visits⟩ := assemble_visits tidy untyped ran inside
  refine ⟨some_, fun env w visited => ?_⟩
  obtain ⟨slots, control, later, v', lowers, grown⟩ := visits env w visited
  exact lowers.countsLoop ⟨grown.cells, grown.groups⟩ (planned.extends_.legal.formed _ _) ordered

end

end Lowering

open Lowering

/-- Every loop of every component of a netlist counts. -/
def Netlist.CountsLoops (s : Setting) (p : TypedProgram) (netlist : Netlist) : Prop :=
  ∃ functions root, netlist.components = functions ++ [root] ∧
    List.Forall₂ (fun f c => Lowering.CountsLoops s .reference f.params [] (some f.body) c) p.defs
      functions ∧
    Lowering.CountsLoops s .external p.decls (p.defs.map (·.name)) p.body root

/-- In a compiled text, a loop from `start` to `stop` starts its body exactly `stop - start` times, as the
bound on its control says: the round numbered `j` begins with `start + j` in the register, which is what
its body reads in all its cycles and what no group of the body drives, and at the end the register holds
`stop`. Register and iterator have the least widths for `stop` and for `stop - 1`. -/
theorem compile_countsLoops {config : Config} {text : String} {source : SourceProgram}
    {p : TypedProgram} {banked : BankedProgram} {netlist : Netlist} (parsed : parse text = .ok source)
    (checked : source.check.result = .ok p)
    (split : (p.toBanks (.ofProgram source)).result = .ok banked)
    (lowered : (banked.toNetlist config (.ofProgram source)).result = .ok netlist) :
    netlist.CountsLoops
      (banked.setting config (.ofProgram source)) banked.program := by
  have tidy := Program.tidy_toBanks (Program.check_written (parse_written parsed) checked) split
  obtain ⟨functions, root, loweredFunctions, loweredRoot, components⟩ :=
    BankedProgram.toNetlist_ok lowered
  refine ⟨functions, root, components, forall₂_of_made (fun f member c built => ?_)
    loweredFunctions, ?_⟩
  · simp only [lowerFunction_eq] at built
    obtain ⟨_, control, w, ran, rfl⟩ := buildComponent_ok built
    exact assemble_counts (tidy.functions f member) ran f.name
  · simp only [lowerRoot_eq] at loweredRoot
    obtain ⟨_, control, w, ran, rfl⟩ := buildComponent_ok loweredRoot
    exact assemble_counts tidy.root ran config.topName

/-- A loop up to a power of two around another one, whose iterator has the same name. -/
def sameIterator : String :=
  "decl a: ubit<8>[4]; for (let i = 0..4) \x7b a[i] := 1; for (let i = 1..3) \x7b let x = i; \x7d \x7d"

theorem compile_countsLoops_sameIterator : ∃ source p banked netlist, parse sameIterator = .ok source ∧
    source.check.result = .ok p ∧ (p.toBanks (.ofProgram source)).result = .ok banked ∧
    (banked.toNetlist {} (.ofProgram source)).result = .ok netlist ∧
    netlist.components.map (·.control.enables) =
      [["init_i", "write0", "init_i_1", "let0", "incr_i_1", "incr_i"]] ∧
    netlist.CountsLoops (banked.setting {} (.ofProgram source))
      banked.program := by
  have computed : ∃ netlist, (compile {} sameIterator).result = .ok netlist ∧
      netlist.components.map (·.control.enables) =
        [["init_i", "write0", "init_i_1", "let0", "incr_i_1", "incr_i"]] :=
    exists_ok_of_map (by decide +kernel)
  obtain ⟨netlist, compiled, scheduled⟩ := computed
  obtain ⟨source, p, banked, parsed, checked, split, lowered⟩ := compile_ok compiled
  exact ⟨source, p, banked, netlist, parsed, checked, split, lowered, scheduled,
    compile_countsLoops parsed checked split lowered⟩

end BankedLoops
