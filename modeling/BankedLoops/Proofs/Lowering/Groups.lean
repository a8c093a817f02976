import BankedLoops.Proofs.Lowering.Carried

/-!
# Runs of single groups

What the three kinds of groups do that end in a register or a memory: one cycle that latches a
register, one cycle that stores an element, and two cycles that read an element into a register.
Everything else is left as it is.
-/

namespace BankedLoops

namespace Execution

open Semantics (FixedProduct)

/-! ### The end of a cycle -/

section

variable {product : FixedProduct} {cells : List Cell} {g : Group} {cycle : Nat} {σ : State}
  {level : Pin → Nat}

/-- Nothing is written. -/
theorem Consistent.after_idle (consistent : Consistent product cells g cycle σ level)
    (idle : ∀ a ∈ g.assignments, ∀ name, a.dst = .cell name "write_en" →
      ¬ a.guard.Holds cycle level) : Agree Set.univ σ (σ.after cells level) := by
  intro name _
  have low : level (.cell name "write_en") ≠ 1 := by
    rw [consistent.idle name _ List.mem_cons_self fun a member same => idle a member name same]
    exact Nat.zero_ne_one
  constructor <;> simp only [State.after] <;> split <;> simp [low]

/-- Only `target` may be written. -/
def WritesOnly (g : Group) (target : String) : Prop :=
  ∀ a ∈ g.assignments, ∀ name, a.dst = .cell name "write_en" → name = target

/-- Only `reg` may be written, and not in the first cycle. -/
def WritesLate (reg : String) (a : Assignment) : Prop :=
  ∀ name, a.dst = .cell name "write_en" → name = reg ∧ ∀ level, ¬ a.guard.Holds 0 level

theorem Consistent.low_of_ne (consistent : Consistent product cells g cycle σ level) {target : String}
    (only : WritesOnly g target) {name : String} (other : name ≠ target) :
    level (.cell name "write_en") ≠ 1 := by
  rw [consistent.idle name _ List.mem_cons_self fun a member same _ =>
    other (only a member name same)]
  exact Nat.zero_ne_one

theorem Consistent.after_register (consistent : Consistent product cells g cycle σ level) {reg : String}
    (only : WritesOnly g reg) {width : Nat} (isRegister : partOf? cells reg = some (.register width))
    (high : level (.cell reg "write_en") = 1) :
    Agree Set.univ (σ.set (level (.cell reg "in")) (.register reg)) (σ.after cells level) := by
  intro name _
  by_cases same : name = reg
  · subst same
    simp [State.after, State.set, isRegister, high]
  · have low := consistent.low_of_ne only same
    constructor <;> simp only [State.after, State.set, Function.update_of_ne same] <;> split <;>
      simp [low]

theorem Consistent.after_memory (consistent : Consistent product cells g cycle σ level) {mem : String}
    (only : WritesOnly g mem) {width : Nat} {sizes widths : List Nat}
    (isMemory : partOf? cells mem = some (.memory width sizes widths))
    (high : level (.cell mem "write_en") = 1) :
    Agree Set.univ (σ.set (level (.cell mem "write_data"))
      (.element mem (addressed level mem sizes.length))) (σ.after cells level) := by
  intro name _
  by_cases same : name = mem
  · subst same
    simp [State.after, State.set, isMemory, high]
  · have low := consistent.low_of_ne only same
    constructor <;> simp only [State.after, State.set, Function.update_of_ne same] <;> split <;>
      simp [low]

end

end Execution

namespace Lowering

open Library (Part)
open Semantics (FixedProduct pattern)
open Execution

/-! ### Wires -/

theorem Wiring.mem_assignAll {W : Wiring} {wires : List Assignment} {a : Assignment} :
    a ∈ (W.assignAll wires).assigns ↔ a ∈ W.assigns ∨ a ∈ wires := by
  have one (W : Wiring) (b : Assignment) :
      a ∈ (W.assign b.dst b.src b.guard).assigns ↔ a ∈ W.assigns ∨ a = b := by
    unfold assign
    dsimp only
    split
    · next present =>
      have inside : b ∈ W.assigns := by simpa using present
      exact ⟨.inl, fun either => either.elim id fun same => same ▸ inside⟩
    · simp
  induction wires generalizing W with
  | nil => simp [assignAll]
  | cons b wires ih =>
    have rest : W.assignAll (b :: wires) = (W.assign b.dst b.src b.guard).assignAll wires := rfl
    simp only [rest, ih, one, List.mem_cons, or_assoc]

/-- Combinational parts have no enable. -/
theorem Feeding.not_write {cells : List Cell} {assigns : List Assignment} {a : Assignment}
    (feeding : Feeding cells assigns a) (name : String) : a.dst ≠ .cell name "write_en" := by
  rintro same
  cases feeding with
  | @wire _ _ part _ _ _ combinational input =>
    cases same
    cases part <;> first | exact absurd combinational Bool.false_ne_true | simp [Part.inputs] at input

section

variable {product : FixedProduct} {cells : List Cell} {g : Group} {cycle : Nat} {σ : State}
  {level : Pin → Nat}

/-! ### Addresses -/

theorem addressPorts_getElem? {k : Nat} (lt : k < 4) : Part.addressPorts[k]? = some s!"addr{k}" := by
  match k, lt with
  | 0, _ => rfl
  | 1, _ => rfl
  | 2, _ => rfl
  | 3, _ => rfl

theorem LegalGroup.addressed_eq {exact : Prop} (legal : LegalGroup exact cells g)
    (fit : ConstantsFit cells) (consistent : Consistent product cells g cycle σ level) {mem : String}
    {addrs : List Pin} {guard : Guard} (wires : addressWires mem addrs guard ⊆ g.assignments)
    (active : guard.Holds cycle level) (few : addrs.length ≤ 4) :
    addressed level mem addrs.length = addrs.map level := by
  refine List.ext_getElem? fun k => ?_
  rw [addressed, List.getElem?_map, List.getElem?_map]
  by_cases inside : k < addrs.length
  · have wire : ⟨.cell mem s!"addr{k}", .pin addrs[k], guard⟩ ∈ addressWires mem addrs guard :=
      mem_addressWires.mpr ⟨k, _, List.getElem?_eq_getElem inside, rfl⟩
    have driven := legal.level_dst fit consistent (wires wire) active
    rw [List.getElem?_take_of_lt inside, addressPorts_getElem? (Nat.lt_of_lt_of_le inside few),
      List.getElem?_eq_getElem inside]
    exact congrArg some driven
  · rw [List.getElem?_eq_none (l := addrs) (by omega), List.getElem?_eq_none]
    · rfl
    · rw [List.length_take]
      omega

end

/-! ### Enabling a group -/

section

variable {d : Device} {c : Component} {g : Group} {σ : State}

/-- Where names differ, each leads to its group. -/
theorem group?_of_mem (distinct : (c.groups.map (·.name)).Nodup) (member : g ∈ c.groups) :
    c.group? g.name = some g := by
  have some_ : (c.groups.find? (·.name == g.name)).isSome :=
    List.find?_isSome.mpr ⟨g, member, beq_self_eq_true _⟩
  obtain ⟨other, found⟩ := Option.isSome_iff_exists.mp some_
  have named : other.name = g.name := eq_of_beq (List.find?_some found :)
  rw [Component.group?, found]
  exact congrArg some
    (List.inj_on_of_nodup_map distinct (List.mem_of_find?_eq_some found) member named)

/-- A group of one cycle, whether or not the widths of its wires agree. -/
theorem ensures_cycle {exact : Prop} (distinct : (c.groups.map (·.name)).Nodup)
    (legal : LegalGroup exact c.cells g) (member : g ∈ c.groups) (latency : g.latency = some 1)
    {post : State → Prop}
    (ends : ∀ level, Consistent d.product c.cells g 0 σ level → post (σ.after c.cells level))
    (pos : Option Nat) : Ensures d c (.enable g.name pos) σ post := by
  constructor
  · obtain ⟨level, consistent⟩ := legal.exists_consistent d.product 0 σ
    exact ⟨_, .enable (group?_of_mem distinct member) latency (.step consistent (.done _ _))⟩
  · intro σ' ran
    cases ran with
    | enable found static cycles =>
      rw [group?_of_mem distinct member] at found
      cases found
      rw [latency] at static
      cases static
      cases cycles with
      | step consistent rest =>
        cases rest
        exact ends _ consistent

theorem Finished.group? (finished : Finished c) (member : g ∈ c.groups) :
    c.group? g.name = some g :=
  group?_of_mem finished.distinct member

theorem Finished.ensures_one (finished : Finished c) (member : g ∈ c.groups)
    (latency : g.latency = some 1) {post : State → Prop}
    (ends : ∀ level, Consistent d.product c.cells g 0 σ level → post (σ.after c.cells level))
    (pos : Option Nat) : Ensures d c (.enable g.name pos) σ post :=
  ensures_cycle finished.distinct (finished.legal g member) member latency ends pos

theorem Finished.ensures_two (finished : Finished c) (member : g ∈ c.groups)
    (latency : g.latency = some 2) (between : State → Prop) {post : State → Prop}
    (first : ∀ level, Consistent d.product c.cells g 0 σ level → between (σ.after c.cells level))
    (second : ∀ τ, between τ → ∀ level, Consistent d.product c.cells g 1 τ level →
      post (τ.after c.cells level)) (pos : Option Nat) : Ensures d c (.enable g.name pos) σ post := by
  constructor
  · obtain ⟨level, consistent⟩ := (finished.legal g member).exists_consistent d.product 0 σ
    obtain ⟨level', consistent'⟩ :=
      (finished.legal g member).exists_consistent d.product 1 (σ.after c.cells level)
    exact ⟨_, .enable (finished.group? member) latency
      (.step consistent (.step consistent' (.done _ _)))⟩
  · intro σ' ran
    cases ran with
    | enable found static cycles =>
      rw [finished.group? member] at found
      cases found
      rw [latency] at static
      cases static
      cases cycles with
      | step consistent rest =>
        cases rest with
        | step consistent' rest =>
          cases rest
          exact second _ (first _ consistent) _ consistent'

/-! ### Groups of one and of two cycles -/

variable {reg : String} {width x : Nat} {addrs : List Pin} {idxs : List Nat}

/-- One cycle that latches a register. -/
theorem Finished.latches (finished : Finished c) (member : g ∈ c.groups)
    (latency : g.latency = some 1) (isRegister : partOf? c.cells reg = some (.register width))
    (only : WritesOnly g reg) {data : Pin} (wires : latchWires g.name reg data ⊆ g.assignments)
    (shown : ∀ level, Consistent d.product c.cells g 0 σ level → level data = x) (pos : Option Nat) :
    Ensures d c (.enable g.name pos) σ (Agree Set.univ (σ.set x (.register reg))) := by
  refine finished.ensures_one member latency (fun level consistent => ?_) pos
  have legal := finished.legal g member
  have input : level (.cell reg "in") = level data :=
    legal.level_dst finished.fit consistent (wires List.mem_cons_self) trivial
  have high : level (.cell reg "write_en") = 1 :=
    legal.level_dst finished.fit consistent (wires (List.mem_cons_of_mem _ List.mem_cons_self)) trivial
  rw [← shown level consistent, ← input]
  exact consistent.after_register only isRegister high

/-- One cycle that stores an element. -/
theorem Finished.stores (finished : Finished c) (member : g ∈ c.groups)
    (latency : g.latency = some 1) {m : Memory} (stored : Stored c.cells (.memory m))
    (only : WritesOnly g m.cell) {data : Pin}
    (wires : storeWires g.name m.cell addrs data ⊆ g.assignments)
    (counted : addrs.length = m.sizes.length)
    (shown : ∀ level, Consistent d.product c.cells g 0 σ level →
      addrs.map level = idxs ∧ level data = x) (pos : Option Nat) :
    Ensures d c (.enable g.name pos) σ (Agree Set.univ (σ.set x (.element m.cell idxs))) := by
  refine finished.ensures_one member latency (fun level consistent => ?_) pos
  have legal := finished.legal g member
  have enables : [⟨.cell m.cell "write_data", .pin data, .always⟩,
      ⟨.cell m.cell "write_en", .high, .always⟩,
      ⟨.done g.name, .pin (.cell m.cell "write_done"), .always⟩] ⊆ g.assignments :=
    fun _ wire => wires (List.mem_append_right _ wire)
  have input : level (.cell m.cell "write_data") = level data :=
    legal.level_dst finished.fit consistent (enables List.mem_cons_self) trivial
  have high : level (.cell m.cell "write_en") = 1 :=
    legal.level_dst finished.fit consistent (enables (List.mem_cons_of_mem _ List.mem_cons_self))
      trivial
  obtain ⟨located, isData⟩ := shown level consistent
  cases stored with
  | memory isMemory _ few =>
    have place := legal.addressed_eq finished.fit consistent
      (fun _ wire => wires (List.mem_append_left _ wire)) trivial (counted ▸ few)
    rw [counted, located] at place
    rw [← isData, ← input, ← place]
    exact consistent.after_memory only isMemory high

/-- Two cycles that read an element of a memory, which `select` chooses, into a register. -/
theorem Finished.captures (finished : Finished c) (member : g ∈ c.groups)
    (latency : g.latency = some 2) (isRegister : partOf? c.cells reg = some (.register width))
    {m : Memory} (stored : Stored c.cells (.memory m)) (late : ∀ a ∈ g.assignments, WritesLate reg a)
    {select : Guard} (request : requestWires m.cell addrs select ⊆ g.assignments)
    (data : dataWires m.cell select reg ⊆ g.assignments) (counted : addrs.length = m.sizes.length)
    (shown : ∀ τ, Agree Set.univ σ τ → ∀ cycle level, Consistent d.product c.cells g cycle τ level →
      addrs.map level = idxs ∧ select.Holds cycle level) (pos : Option Nat) :
    Ensures d c (.enable g.name pos) σ
      (Agree Set.univ (σ.set (pattern m.width (σ.mems m.cell idxs)) (.register reg))) := by
  have legal := finished.legal g member
  cases stored with
  | @memory _ widths isMemory _ few =>
    refine finished.ensures_two member latency (fun τ => Agree Set.univ σ τ ∧
      τ.data m.cell = σ.mems m.cell idxs ∧ τ.ready m.cell = true) ?_ ?_ pos
    · intro level consistent
      obtain ⟨located, selected⟩ := shown σ (.refl _ _) 0 level consistent
      have active : ((Guard.cycle 0).both select).Holds 0 level := (Guard.holds_both ..).mpr ⟨rfl, selected⟩
      have place := legal.addressed_eq finished.fit consistent
        (fun _ wire => request (List.mem_append_left _ wire)) active (counted ▸ few)
      rw [counted, located] at place
      have asked : level (.cell m.cell "read_en") = 1 :=
        legal.level_dst finished.fit consistent
          (request (List.mem_append_right _ List.mem_cons_self)) active
      refine ⟨consistent.after_idle fun a inside name same => ?_, ?_, ?_⟩
      · exact (late a inside name same).2 level
      · simp [State.after, isMemory, asked, place]
      · simp [State.after, asked]
    · rintro τ ⟨agree, isData, isReady⟩ level consistent
      obtain ⟨_, selected⟩ := shown τ agree 1 level consistent
      have active : ((Guard.cycle 1).both select).Holds 1 level := (Guard.holds_both ..).mpr ⟨rfl, selected⟩
      have ready : level (.cell m.cell "read_done") = 1 := by
        rw [consistent.shows_ m.cell _ isMemory "read_done" _ rfl, isReady]
        rfl
      have shownData : level (.cell m.cell "read_data") = pattern m.width (σ.mems m.cell idxs) := by
        rw [consistent.shows_ m.cell _ isMemory "read_data" _ rfl, isData]
      have input : level (.cell reg "in") = level (.cell m.cell "read_data") :=
        legal.level_dst finished.fit consistent (data List.mem_cons_self) active
      have high : level (.cell reg "write_en") = 1 :=
        legal.level_dst finished.fit consistent (data (List.mem_cons_of_mem _ List.mem_cons_self))
          ((Guard.holds_both ..).mpr ⟨active, ready⟩)
      have only : WritesOnly g reg := fun a inside name same => (late a inside name same).1
      have written := consistent.after_register only isRegister high
      rw [input, shownData] at written
      exact (agree.set _).trans written

end

end Lowering

end BankedLoops
