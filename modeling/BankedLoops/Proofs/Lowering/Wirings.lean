import BankedLoops.Proofs.Lowering.Parts
import BankedLoops.Proofs.Lowering.Physical

/-!
# The wiring of expressions

Lowering an expression wires combinational parts only, each of them once; what it reads from memory
becomes groups of its own. `Lowered` says so of a wiring before and after, and `lowerExpr_lowered`
that it holds of every expression, with a source of the requested width as the result.
-/

namespace BankedLoops

namespace Lowering

open Library (Part)

/-! ### Lists of wires -/

namespace Wiring

def assignAll (w : Wiring) (wires : List Assignment) : Wiring :=
  wires.foldl (fun w a => w.assign a.dst a.src a.guard) w

@[simp]
theorem before_assignAll (w : Wiring) (wires : List Assignment) :
    (w.assignAll wires).before = w.before := by
  induction wires generalizing w with
  | nil => rfl
  | cons a wires ih => exact (ih _).trans (before_assign _ _ _ _)

theorem assigns_assign {w : Wiring} {a : Assignment} (new : a ∉ w.assigns) :
    (w.assign a.dst a.src a.guard).assigns = w.assigns ++ [a] := by
  unfold assign
  rw [if_neg (by simpa using new)]

/-- Wires that are not there yet are added at the end. -/
theorem assigns_assignAll {w : Wiring} {wires : List Assignment} (new : ∀ a ∈ wires, a ∉ w.assigns)
    (distinct : wires.Nodup) : (w.assignAll wires).assigns = w.assigns ++ wires := by
  induction wires generalizing w with
  | nil => exact (List.append_nil _).symm
  | cons a wires ih =>
    have first := assigns_assign (new a List.mem_cons_self)
    obtain ⟨once, distinct⟩ := List.nodup_cons.mp distinct
    have rest := @ih (w.assign a.dst a.src a.guard) (by
      intro b member
      rw [first]
      intro present
      rcases List.mem_append.mp present with old | added
      · exact new b (List.mem_cons_of_mem _ member) old
      · exact once (List.mem_singleton.mp added ▸ member)) distinct
    rw [first, List.append_assoc] at rest
    exact rest

theorem assigns_assignAll_of_dst {w : Wiring} {wires : List Assignment}
    (new : ∀ a ∈ wires, a.dst ∉ w.assigns.map (·.dst)) (distinct : (wires.map (·.dst)).Nodup) :
    (w.assignAll wires).assigns = w.assigns ++ wires :=
  assigns_assignAll (fun a member present => new a member (List.mem_map.mpr ⟨a, present, rfl⟩))
    distinct.of_map

end Wiring

/-- The wires of addresses. -/
def addressWires (mem : String) (addrs : List Pin) (guard : Guard) : List Assignment :=
  addrs.zipIdx.map fun entry => ⟨.cell mem s!"addr{entry.2}", .pin entry.1, guard⟩

/-- The wires from a memory into a register. -/
def dataWires (mem : String) (select : Guard) (reg : String) : List Assignment :=
  [⟨.cell reg "in", .pin (.cell mem "read_data"), (Guard.cycle 1).both select⟩,
    ⟨.cell reg "write_en", .high,
      ((Guard.cycle 1).both select).both (.pin (.cell mem "read_done"))⟩]

/-- The wires that ask a memory for an element. -/
def requestWires (mem : String) (addrs : List Pin) (select : Guard) : List Assignment :=
  addressWires mem addrs ((Guard.cycle 0).both select) ++
    [⟨.cell mem "read_en", .high, (Guard.cycle 0).both select⟩]

/-- The wires of a write to a memory, and of the end of its group. -/
def storeWires (group mem : String) (addrs : List Pin) (data : Pin) : List Assignment :=
  addressWires mem addrs .always ++
    [⟨.cell mem "write_data", .pin data, .always⟩, ⟨.cell mem "write_en", .high, .always⟩,
      ⟨.done group, .pin (.cell mem "write_done"), .always⟩]

/-- The wires of a write to a register, and of the end of its group. -/
def latchWires (group reg : String) (data : Pin) : List Assignment :=
  [⟨.cell reg "in", .pin data, .always⟩, ⟨.cell reg "write_en", .high, .always⟩,
    ⟨.done group, .pin (.cell reg "done"), .always⟩]

namespace Wiring

theorem assignAll_append (w : Wiring) (first second : List Assignment) :
    w.assignAll (first ++ second) = (w.assignAll first).assignAll second :=
  List.foldl_append

theorem address_eq (w : Wiring) (mem : String) (addrs : List Pin) (guard : Guard) :
    w.address mem addrs guard = w.assignAll (addressWires mem addrs guard) := by
  rw [assignAll, addressWires, List.foldl_map]
  rfl

theorem capture_eq (w : Wiring) (mem : String) (addrs : List Pin) (select : Guard) (reg : String) :
    w.capture mem addrs select reg =
      w.assignAll (requestWires mem addrs select ++ dataWires mem select reg) := by
  rw [assignAll_append, requestWires, assignAll_append, ← address_eq]
  rfl

theorem store_eq (w : Wiring) (group mem : String) (addrs : List Pin) (data : Pin) :
    w.store group mem addrs data = w.assignAll (storeWires group mem addrs data) := by
  rw [storeWires, assignAll_append, ← address_eq]
  rfl

theorem latch_eq (w : Wiring) (group reg : String) (data : Pin) :
    w.latch group reg data = w.assignAll (latchWires group reg data) := rfl

end Wiring

/-! ### Address ports -/

theorem addressPort_ne {port : String} (other : port.toList.head? ≠ some 'a') (k : Nat) :
    s!"addr{k}" ≠ port := by
  rintro rfl
  apply other
  show (FreeName.numbered "addr" k).toList.head? = _
  rw [FreeName.toList_numbered]
  rfl

theorem dst_addressWires (mem : String) (addrs : List Pin) (guard : Guard) :
    ((addressWires mem addrs guard).map (·.dst)).Nodup := by
  have ports : (addressWires mem addrs guard).map (·.dst) =
      (addrs.zipIdx.map Prod.snd).map fun k => .cell mem (FreeName.numbered "addr" k) := by
    rw [addressWires, List.map_map, List.map_map]
    rfl
  rw [ports, List.zipIdx_map_snd]
  refine (List.nodup_range' 1 (by decide)).map ?_
  intro j k same
  injection same with _ port
  exact FreeName.numbered_injective "addr" port

theorem mem_addressWires {mem : String} {addrs : List Pin} {guard : Guard} {a : Assignment} :
    a ∈ addressWires mem addrs guard ↔
      ∃ (k : Nat) (p : Pin), addrs[k]? = some p ∧ a = ⟨.cell mem s!"addr{k}", .pin p, guard⟩ := by
  simp only [addressWires, List.mem_map, Prod.exists, List.mk_mem_zipIdx_iff_getElem?]
  constructor
  · rintro ⟨p, k, found, rfl⟩
    exact ⟨k, p, found, rfl⟩
  · rintro ⟨k, p, found, rfl⟩
    exact ⟨p, k, found, rfl⟩

/-- The address ports of a memory. -/
theorem mem_inputs_address {width size k : Nat} {sizes : List Nat} (few : sizes.length ≤ 4)
    (found : sizes[k]? = some size) :
    (s!"addr{k}", bitsNeeded (size - 1)) ∈
      (Part.memory width sizes (sizes.map fun size => bitsNeeded (size - 1))).inputs := by
  have inside : k < sizes.length := (List.getElem?_eq_some_iff.mp found).1
  have port : Part.addressPorts[k]? = some s!"addr{k}" := by
    match k, Nat.lt_of_lt_of_le inside few with
    | 0, _ => rfl
    | 1, _ => rfl
    | 2, _ => rfl
    | 3, _ => rfl
  refine List.mem_cons_of_mem _ (List.mem_cons_of_mem _ (List.mem_cons_of_mem _ ?_))
  refine List.mem_of_getElem? (i := k) ?_
  rw [List.getElem?_zip_eq_some]
  exact ⟨port, by rw [List.getElem?_map, found]; rfl⟩

/-! ### Schedules -/

/-- The groups of one kind. -/
def Workspace.scheduled (w : Workspace) (static : Bool) : List String :=
  (w.groups.filter (·.isStatic == static)).map (·.name)

/-- The groups that were added are those that the controls enable or test, each once. -/
structure Schedules (w : Workspace) (cs : List Control) (v : Workspace) : Prop where
  enables : ∀ name, (v.scheduled true).count name =
    (w.scheduled true).count name + (cs.flatMap Control.enables).count name
  conds : ∀ name, (v.scheduled false).count name =
    (w.scheduled false).count name + (cs.flatMap Control.conds).count name

namespace Schedules

variable {w v u : Workspace} {cs ds : List Control}

theorem of_groups (same : v.groups = w.groups) : Schedules w [] v := by
  constructor <;> intro name <;> rw [Workspace.scheduled, same] <;> rfl

theorem trans (first : Schedules w cs v) (second : Schedules v ds u) :
    Schedules w (cs ++ ds) u := by
  constructor
  · intro name
    rw [second.enables, first.enables, List.flatMap_append, List.count_append, Nat.add_assoc]
  · intro name
    rw [second.conds, first.conds, List.flatMap_append, List.count_append, Nat.add_assoc]

/-- A group that is enabled where it is added. -/
theorem enable {g : Group} (static : g.isStatic = true) (groups : v.groups = w.groups ++ [g])
    (pos : Option Nat) : Schedules w [.enable g.name pos] v := by
  constructor
  · intro name
    simp [Workspace.scheduled, groups, static, Control.enables]
  · intro name
    simp [Workspace.scheduled, groups, static, Control.conds, Control.conditions]

theorem quote (scheduled : Schedules w cs v) (s : Setting) (pos : Nat) :
    Schedules w cs (v.quote s pos) := ⟨scheduled.enables, scheduled.conds⟩

end Schedules

/-! ### Combinational wiring -/

/-- Every wire feeds a combinational part, no pin is driven twice, and the slice of an iterator is
driven by its own register. -/
structure LegalWiring (cells : List Cell) (env : Env) (W : Wiring) : Prop where
  links : ∀ a ∈ W.assigns, Feeding cells W.assigns a
  distinct : (W.assigns.map (·.dst)).Nodup
  slices : ∀ name reg slice width, env.get? name = some (.iterator reg (some slice) width) →
    ∀ a ∈ W.assigns, a.dst = .cell slice "in" → a = ⟨.cell slice "in", .pin (.out reg), .always⟩

/-- What lowering did to a wiring and to the workspace. -/
structure Lowered (exact : Prop) (env : Env) (w : Workspace) (W : Wiring) (v : Workspace)
    (W' : Wiring) : Prop where
  extends_ : Extends exact w v
  wired : LegalWiring v.cells env W'
  more : W.assigns ⊆ W'.assigns
  before : ∃ cs, W'.before = W.before ++ cs ∧ Enabling cs ∧ Schedules w cs v

section

variable {exact : Prop} {env : Env} {w v u : Workspace} {W W' W'' : Wiring}

theorem legalWiring_empty (cells : List Cell) (env : Env) : LegalWiring cells env {} where
  links := nofun
  distinct := List.nodup_nil
  slices := nofun

theorem LegalWiring.mono {cells cells' : List Cell} (wired : LegalWiring cells env W)
    (grown : cells <+: cells') : LegalWiring cells' env W :=
  ⟨fun a member => (wired.links a member).mono grown (List.Subset.refl _), wired.distinct,
    wired.slices⟩

/-- Pins of cells that are not combinational, or not there, are not driven. -/
theorem LegalWiring.not_driven {cells : List Cell} (wired : LegalWiring cells env W) {name : String}
    (undriven : ∀ part, partOf? cells name = some part → part.isCombinational = false)
    (port : String) : .cell name port ∉ W.assigns.map (·.dst) := by
  intro member
  obtain ⟨a, inside, same⟩ := List.mem_map.mp member
  cases wired.links a inside with
  | wire found combinational =>
    cases same
    rw [undriven _ found] at combinational
    cases combinational

theorem LegalWiring.not_done {cells : List Cell} (wired : LegalWiring cells env W)
    (group port : String) : .hole group port ∉ W.assigns.map (·.dst) := by
  intro member
  obtain ⟨a, inside, same⟩ := List.mem_map.mp member
  cases wired.links a inside
  cases same

/-- A new wire into a combinational part. Into a slice it must come from the register. -/
theorem LegalWiring.connect {cells : List Cell} (wired : LegalWiring cells env W)
    {name port : String} {part : Part} {p : Pin} {width : Nat}
    (found : partOf? cells name = some part) (combinational : part.isCombinational = true)
    (input : (port, width) ∈ part.inputs) (source : Sourced cells W.assigns p width)
    (earlier : Earlier cells name p) (new : .cell name port ∉ W.assigns.map (·.dst))
    (owned : ∀ other reg slice bits, env.get? other = some (.iterator reg (some slice) bits) →
      name = slice → p = .out reg) :
    LegalWiring cells env (W.connect (.cell name port) p) ∧
      (W.connect (.cell name port) p).assigns =
        W.assigns ++ [⟨.cell name port, .pin p, .always⟩] := by
  have assigns : (W.connect (.cell name port) p).assigns =
      W.assigns ++ [⟨.cell name port, .pin p, .always⟩] :=
    @Wiring.assigns_assign W ⟨.cell name port, .pin p, .always⟩ fun present =>
      new (List.mem_map.mpr ⟨_, present, rfl⟩)
  refine ⟨⟨?_, ?_, ?_⟩, assigns⟩
  · rw [assigns]
    intro a member
    have more : W.assigns ⊆ W.assigns ++ [⟨.cell name port, .pin p, .always⟩] :=
      List.subset_append_left _ _
    rcases List.mem_append.mp member with old | added
    · exact (wired.links a old).mono List.prefix_rfl more
    · rw [List.mem_singleton.mp added]
      exact .wire found combinational input (source.mono List.prefix_rfl more) earlier
  · rw [assigns, List.map_append]
    refine List.nodup_append.mpr ⟨wired.distinct, List.nodup_singleton _, ?_⟩
    rintro old inside added member rfl
    rw [List.mem_singleton.mp member] at inside
    exact new inside
  · intro other reg slice bits visible a member same
    rw [assigns] at member
    rcases List.mem_append.mp member with old | added
    · exact wired.slices other reg slice bits visible a old same
    · rw [List.mem_singleton.mp added] at same ⊢
      injection same with isSlice isPort
      rw [owned other reg slice bits visible isSlice, isSlice, isPort]

namespace Lowered

theorem of_extends (wired : LegalWiring w.cells env W) (grown : Extends exact w v)
    (groups : v.groups = w.groups) : Lowered exact env w W v W :=
  ⟨grown, wired.mono grown.cells, List.Subset.refl _, [], (List.append_nil _).symm, nofun,
    .of_groups groups⟩

theorem trans (first : Lowered exact env w W v W') (second : Lowered exact env v W' u W'') :
    Lowered exact env w W u W'' := by
  obtain ⟨cs, before, enabling, scheduled⟩ := first.before
  obtain ⟨ds, after, enabling', scheduled'⟩ := second.before
  refine ⟨first.extends_.trans second.extends_, second.wired,
    fun _ member => second.more (first.more member), cs ++ ds, ?_, ?_, scheduled.trans scheduled'⟩
  · rw [after, before, List.append_assoc]
  · intro c member
    rcases List.mem_append.mp member with early | late
    · exact enabling c early
    · exact enabling' c late

/-- Wires are added in a workspace that stays as it is. -/
theorem rewire (first : Lowered exact env w W v W') (wired : LegalWiring v.cells env W'')
    (more : W'.assigns ⊆ W''.assigns) (before : W''.before = W'.before) :
    Lowered exact env w W v W'' := by
  refine ⟨first.extends_, wired, fun _ member => more (first.more member), ?_⟩
  rw [before]
  exact first.before

end Lowered

/-- What is newly installed is no slice and is not driven. -/
theorem Installs.not_slice {name : String} {part : Part} (installs : Installs exact w name part v)
    (legal : w.Legal exact) (named : LegalEnv w.cells env) :
    ∀ other reg slice bits, env.get? other = some (.iterator reg (some slice) bits) →
      name ≠ slice := by
  rintro other reg slice bits visible rfl
  have member := (named.stored other _ visible).mem name (List.mem_cons_of_mem _ List.mem_cons_self)
  exact legal.not_cell installs.new member

theorem Installs.not_driven {name : String} {part : Part} (installs : Installs exact w name part v)
    (legal : w.Legal exact) (wired : LegalWiring w.cells env W) (port : String) :
    .cell name port ∉ W.assigns.map (·.dst) :=
  wired.not_driven (fun _ found => absurd (mem_of_partOf? found) (legal.not_cell installs.new)) port

theorem Sourced.earlier {name : String} {part : Part} (installs : Installs exact w name part v)
    {assigns : List Assignment} {p : Pin} {width : Nat} (source : Sourced w.cells assigns p width) :
    Earlier v.cells name p := by
  cases source with
  | output found =>
    have member := mem_of_partOf? found
    have grown := installs.extends_.cells
    refine .output _ (partOf?_of_isPrefix grown found) fun _ => .inr ?_
    rw [installs.last]
    obtain ⟨added, same⟩ := grown
    rw [← same, position_append member]
    exact position_lt member

theorem Sourced.constant {cells : List Cell} {assigns : List Assignment} {cell : String}
    {width value : Nat} (found : partOf? cells cell = some (.constant width value)) :
    Sourced cells assigns (.out cell) width :=
  .output found List.mem_cons_self nofun

theorem Sourced.register {cells : List Cell} {assigns : List Assignment} {cell : String}
    {width : Nat} (found : partOf? cells cell = some (.register width)) :
    Sourced cells assigns (.out cell) width :=
  .output found List.mem_cons_self nofun

/-- The adapter that `adapt` adds. -/
def adapterOf (width target : Nat) (signed : Bool) : Library.Adapter :=
  if target < width then .slice else if signed then .signext else .pad

theorem adapter_part (width target : Nat) {signed : Bool} {stem : String}
    (chosen : stem = if target < width then "slice" else if signed then "signext" else "pad") :
    Library.part? s!"std_{stem}" [width, target] =
      some (.adapter (adapterOf width target signed) width target) := by
  subst chosen
  unfold adapterOf
  split
  · rfl
  · split <;> rfl

theorem adapt_lowered {pin pin' : Pin} {width target : Nat} {signed : Bool} (legal : w.Legal exact)
    (named : LegalEnv w.cells env) (wired : LegalWiring w.cells env W)
    (source : Sourced w.cells W.assigns pin width)
    (ran : (adapt W pin width target signed).run w = .ok ((pin', W'), v)) :
    Lowered exact env w W v W' ∧ Sourced v.cells W'.assigns pin' target := by
  unfold adapt at ran
  split at ran
  · next same =>
    cases ran
    subst same
    exact ⟨.of_extends wired legal.extends_refl rfl, source⟩
  · obtain ⟨cell, between, added, rest⟩ := run_bind_ok_iff.mp ran
    cases rest
    have installs := addPrimitive_installs _ legal (adapter_part width target rfl) nofun added
    have grown := installs.extends_
    obtain ⟨connected, assigns⟩ := (wired.mono grown.cells).connect installs.found rfl
      List.mem_cons_self (source.mono grown.cells (List.Subset.refl _)) (source.earlier installs)
      (installs.not_driven legal wired "in")
      (fun other reg slice bits visible same =>
        absurd same (installs.not_slice legal named other reg slice bits visible))
    refine ⟨(Lowered.of_extends wired grown installs.groups).rewire connected ?_ ?_, ?_⟩
    · rw [assigns]
      exact List.subset_append_left _ _
    · exact Wiring.before_assign _ _ _ _
    · refine .output installs.found List.mem_cons_self ?_
      intro _ input member
      rw [List.mem_singleton.mp member, assigns]
      exact ⟨pin, List.mem_append_right _ List.mem_cons_self⟩

end

end Lowering

end BankedLoops
