import BankedLoops.Proofs.Netlist.Legality
import BankedLoops.Proofs.Words
import BankedLoops.Proofs.Lowering.Growth

/-!
# The parts of a component under construction

`Legal` is the invariant of a workspace: names differ, tables lead to the cells that they promise,
and every group that is closed is legally wired. `Extends` says that a workspace was legally built
from another one. Both are parameterised by whether the bits of every wire are known to agree; the
rest holds of any program.
-/

namespace BankedLoops

namespace Lowering

open Library (Part)

/-! ### Wires -/

/-- The place of a cell in the order of construction. -/
def position (cells : List Cell) (name : String) : Nat := cells.findIdx (·.name == name)

theorem position_append {cells added : List Cell} {name : String}
    (member : name ∈ cells.map (·.name)) : position (cells ++ added) name = position cells name := by
  obtain ⟨c, inside, rfl⟩ := List.mem_map.mp member
  have found : cells.findIdx (·.name == c.name) < cells.length :=
    List.findIdx_lt_length_of_exists ⟨c, inside, beq_self_eq_true _⟩
  rw [position, List.findIdx_append, if_pos found]
  rfl

theorem position_lt {cells : List Cell} {name : String} (member : name ∈ cells.map (·.name)) :
    position cells name < cells.length := by
  obtain ⟨c, inside, rfl⟩ := List.mem_map.mp member
  exact List.findIdx_lt_length_of_exists ⟨c, inside, beq_self_eq_true _⟩

theorem position_fresh {cells : List Cell} {c : Cell} (fresh : c.name ∉ cells.map (·.name)) :
    position (cells ++ [c]) c.name = cells.length := by
  have absent : cells.findIdx (·.name == c.name) = cells.length := by
    rw [List.findIdx_eq_length]
    intro other inside
    rw [beq_eq_false_iff_ne]
    exact fun same => fresh (List.mem_map.mpr ⟨other, inside, same⟩)
  simp [position, List.findIdx_append, absent]

/-- A pin of `width` bits that carries a value: the output of a part that has its inputs driven, if
it is combinational. -/
inductive Sourced (cells : List Cell) (assigns : List Assignment) : Pin → Nat → Prop where
  | output {name port : String} {part : Part} {width : Nat} (found : partOf? cells name = some part)
      (shown : (port, width) ∈ part.outputs)
      (driven : part.isCombinational = true → ∀ input ∈ part.inputs,
        ∃ src, ⟨.cell name input.1, .pin src, .always⟩ ∈ assigns) :
      Sourced cells assigns (.cell name port) width

def Supplies (cells : List Cell) (assigns : List Assignment) (width : Nat) : Atom → Prop
  | .pin p => Sourced cells assigns p width
  | .const bits value => bits = width ∧ value < Word.capacity bits

/-- A pin that cannot depend on the cell `name` within a cycle: nothing drives its cell, or the cell
was there first. -/
inductive Earlier (cells : List Cell) (name : String) : Pin → Prop where
  | output {other : String} {part : Part} (port : String) (found : partOf? cells other = some part)
      (order : part.isCombinational = true → part.inputs = [] ∨
        position cells other < position cells name) :
      Earlier cells name (.cell other port)

/-- A wire into a combinational part. -/
inductive Feeding (cells : List Cell) (assigns : List Assignment) : Assignment → Prop where
  | wire {name port : String} {part : Part} {p : Pin} {width : Nat}
      (found : partOf? cells name = some part) (combinational : part.isCombinational = true)
      (input : (port, width) ∈ part.inputs) (source : Sourced cells assigns p width)
      (earlier : Earlier cells name p) : Feeding cells assigns ⟨.cell name port, .pin p, .always⟩

/-- A wire into a register, a memory or the end of the group. Only if `exact` are its bits known to
be those of the port. -/
inductive Clocked (exact : Prop) (cells : List Cell) (assigns : List Assignment) (group : String) :
    Assignment → Prop where
  | done {p : Pin} (source : Sourced cells assigns p 1) :
      Clocked exact cells assigns group ⟨.done group, .pin p, .always⟩
  | port {name port : String} {part : Part} {src : Atom} {guard : Guard} {width : Nat}
      (found : partOf? cells name = some part) (timed : part.isCombinational = false)
      (sink : port ∉ part.outputs.map Prod.fst) (source : Supplies cells assigns width src)
      (fits : exact → (port, width) ∈ part.inputs)
      (guards : ∀ p ∈ guard.pins, Sourced cells assigns p 1) :
      Clocked exact cells assigns group ⟨.cell name port, src, guard⟩

def Link (exact : Prop) (cells : List Cell) (assigns : List Assignment) (group : String)
    (a : Assignment) : Prop :=
  Feeding cells assigns a ∨ Clocked exact cells assigns group a

structure LegalGroup (exact : Prop) (cells : List Cell) (g : Group) : Prop where
  links : ∀ a ∈ g.assignments, Link exact cells g.assignments g.name a
  single : ∀ p, (g.drivers p).length ≤ 1 ∨ g.Multiplexed cells p

section

variable {exact : Prop} {cells cells' : List Cell} {assigns assigns' : List Assignment}

theorem Sourced.mono (grown : cells <+: cells') (more : assigns ⊆ assigns') {p : Pin} {width : Nat} :
    Sourced cells assigns p width → Sourced cells' assigns' p width
  | .output found shown driven => by
    refine .output (partOf?_of_isPrefix grown found) shown ?_
    intro combinational input member
    obtain ⟨src, inside⟩ := driven combinational input member
    exact ⟨src, more inside⟩

theorem Supplies.mono (grown : cells <+: cells') (more : assigns ⊆ assigns') {width : Nat} :
    {src : Atom} → Supplies cells assigns width src → Supplies cells' assigns' width src
  | .pin _, source => Sourced.mono grown more source
  | .const .., same => same

theorem Earlier.mono (grown : cells <+: cells') {name : String} {p : Pin}
    (member : name ∈ cells.map (·.name)) : Earlier cells name p → Earlier cells' name p
  | .output port found order => by
    refine .output port (partOf?_of_isPrefix grown found) ?_
    obtain ⟨added, rfl⟩ := grown
    rw [position_append member, position_append (mem_of_partOf? found)]
    exact order

theorem Feeding.mono (grown : cells <+: cells') (more : assigns ⊆ assigns') {a : Assignment} :
    Feeding cells assigns a → Feeding cells' assigns' a
  | .wire found combinational input source earlier =>
    .wire (partOf?_of_isPrefix grown found) combinational input (source.mono grown more)
      (earlier.mono grown (mem_of_partOf? found))

theorem Clocked.mono (grown : cells <+: cells') (more : assigns ⊆ assigns') {group : String}
    {a : Assignment} : Clocked exact cells assigns group a → Clocked exact cells' assigns' group a
  | .done source => .done (source.mono grown more)
  | .port found timed sink source fits guards =>
    .port (partOf?_of_isPrefix grown found) timed sink (source.mono grown more) fits
      fun p member => (guards p member).mono grown more

theorem Link.mono (grown : cells <+: cells') (more : assigns ⊆ assigns') {group : String}
    {a : Assignment} (link : Link exact cells assigns group a) :
    Link exact cells' assigns' group a :=
  link.imp (Feeding.mono grown more) (Clocked.mono grown more)

theorem multiplexed_mono (grown : cells <+: cells') {g : Group} {p : Pin}
    (multiplexed : g.Multiplexed cells p) : g.Multiplexed cells' p := by
  obtain ⟨reg, width, select, numbers, found, isPort, reads, distinct, selects⟩ := multiplexed
  refine ⟨reg, width, select, numbers, partOf?_of_isPrefix grown found, isPort, ?_, distinct, ?_⟩
  · intro a member
    obtain ⟨mem, elem, sizes, widths, source, isMemory⟩ := reads a member
    exact ⟨mem, elem, sizes, widths, source, partOf?_of_isPrefix grown isMemory⟩
  · refine selects.imp ?_
    rintro a number ⟨eq, const, bits, guarded, isEq, left, right, isConst⟩
    exact ⟨eq, const, bits, guarded, partOf?_of_isPrefix grown isEq, left, right,
      partOf?_of_isPrefix grown isConst⟩

theorem LegalGroup.mono (grown : cells <+: cells') {g : Group} (legal : LegalGroup exact cells g) :
    LegalGroup exact cells' g where
  links := fun a member => (legal.links a member).mono grown (List.Subset.refl _)
  single := fun p => (legal.single p).imp_right (multiplexed_mono grown)

end

/-! ### Workspaces -/

def Workspace.groupNames (w : Workspace) : List String := w.groups.map (·.name)

structure Workspace.Legal (exact : Prop) (w : Workspace) : Prop where
  distinct : (w.cellNames ++ w.groupNames).Nodup
  used : w.cellNames ++ w.groupNames ⊆ w.names.used
  consts : ∀ width value cell, w.consts.lookup (width, value) = some cell →
    partOf? w.cells cell = some (.constant width value)
  instances : ∀ func cell, w.instances.lookup func = some cell → cell ∈ w.cellNames
  constants : exact → ∀ c ∈ w.cells, ∀ width value, c.part? = some (.constant width value) →
    value < Word.capacity width
  groups : ∀ g ∈ w.groups, LegalGroup exact w.cells g

theorem Workspace.legal_empty (exact : Prop) (quotes : Statements) :
    Workspace.Legal exact { quotes } where
  distinct := List.nodup_nil
  used := List.nil_subset _
  consts := nofun
  instances := nofun
  constants := nofun
  groups := nofun

/-- A name that is taken, but not yet given to a cell or a group. -/
structure Reserved (w : Workspace) (name : String) : Prop where
  used : name ∈ w.names.used
  open_ : name ∉ w.cellNames ++ w.groupNames

structure Extends (exact : Prop) (w w' : Workspace) : Prop where
  cells : w.cells <+: w'.cells
  groups : w.groups <+: w'.groups
  used : w.names.used ⊆ w'.names.used
  fresh : ∀ name ∈ w.names.used, name ∈ w'.cellNames ++ w'.groupNames →
    name ∈ w.cellNames ++ w.groupNames
  legal : w'.Legal exact

section

variable {exact : Prop} {w v u : Workspace}

theorem Workspace.Legal.extends_refl (legal : w.Legal exact) : Extends exact w w :=
  ⟨List.prefix_rfl, List.prefix_rfl, List.Subset.refl _, fun _ _ => id, legal⟩

namespace Extends

theorem trans (first : Extends exact w v) (second : Extends exact v u) : Extends exact w u where
  cells := first.cells.trans second.cells
  groups := first.groups.trans second.groups
  used := fun _ member => second.used (first.used member)
  fresh := fun name old now => first.fresh name old (second.fresh name (first.used old) now)
  legal := second.legal

theorem cellNames (grown : Extends exact w v) : w.cellNames ⊆ v.cellNames :=
  (grown.cells.map _).subset

/-- Quoting a statement touches neither cells nor groups. -/
theorem quote (grown : Extends exact w v) (s : Setting) (pos : Nat) :
    Extends exact w (v.quote s pos) where
  cells := grown.cells
  groups := grown.groups
  used := grown.used
  fresh := grown.fresh
  legal := ⟨grown.legal.distinct, grown.legal.used, grown.legal.consts, grown.legal.instances,
    grown.legal.constants, grown.legal.groups⟩

theorem reserved (grown : Extends exact w v) {name : String} (reserved : Reserved w name) :
    Reserved v name :=
  ⟨grown.used reserved.used, fun now => reserved.open_ (grown.fresh name reserved.used now)⟩

end Extends

theorem Workspace.Legal.not_cell (legal : w.Legal exact) {name : String}
    (new : name ∉ w.names.used) : name ∉ w.cellNames :=
  fun member => new (legal.used (List.mem_append_left _ member))

/-- A name is taken and nothing else happens. -/
structure Takes (w : Workspace) (name : String) (w' : Workspace) : Prop where
  new : name ∉ w.names.used
  used : w'.names.used = name :: w.names.used
  space : w' = { w with names := w'.names }

theorem freshName_takes {stem name : String} (ran : (freshName stem).run w = .ok (name, v)) :
    Takes w name v := by
  obtain ⟨rfl, rfl⟩ := freshName_ok ran
  obtain ⟨new, used⟩ := @Names.fresh_ok w.names _ stem _ rfl
  exact ⟨new, used, rfl⟩

theorem uniqueName_takes {base name : String} (ran : (uniqueName base).run w = .ok (name, v)) :
    Takes w name v := by
  cases ran
  obtain ⟨new, used⟩ := @Names.unique_ok w.names _ base _ rfl
  exact ⟨new, used, rfl⟩

theorem Takes.extends {name : String} (takes : Takes w name v) (legal : w.Legal exact) :
    Extends exact w v ∧ Reserved v name := by
  obtain ⟨new, used, space⟩ := takes
  have cells : v.cells = w.cells := by rw [space]
  have groups : v.groups = w.groups := by rw [space]
  have names : v.cellNames ++ v.groupNames = w.cellNames ++ w.groupNames := by
    rw [Workspace.cellNames, Workspace.groupNames, cells, groups]
    rfl
  have grows : w.names.used ⊆ v.names.used := by
    rw [used]
    exact List.subset_cons_self _ _
  refine ⟨⟨cells ▸ List.prefix_rfl, groups ▸ List.prefix_rfl, grows, ?_, ?_⟩, ?_, ?_⟩
  · intro other _ now
    rwa [names] at now
  · constructor
    · rw [names]
      exact legal.distinct
    · rw [names]
      exact fun _ member => grows (legal.used member)
    · rw [space]
      exact legal.consts
    · rw [space]
      exact legal.instances
    · rw [space]
      exact legal.constants
    · rw [space]
      exact legal.groups
  · rw [used]
    exact List.mem_cons_self
  · rw [names]
    exact fun member => new (legal.used member)

/-- Adding a cell under a name that was taken for it. -/
theorem Extends.addCell (before : Extends exact w v) {c : Cell} (new : c.name ∉ w.names.used)
    (reserved : Reserved v c.name)
    (fits : exact → ∀ width value, c.part? = some (.constant width value) →
      value < Word.capacity width) :
    Extends exact w { v with cells := v.cells ++ [c] } := by
  have legal := before.legal
  have grown : v.cells <+: v.cells ++ [c] := List.prefix_append _ _
  have names : Workspace.cellNames { v with cells := v.cells ++ [c] } = v.cellNames ++ [c.name] :=
    List.map_append
  have listed (name : String) : name ∈ (v.cellNames ++ [c.name]) ++ v.groupNames ↔
      name = c.name ∨ name ∈ v.cellNames ++ v.groupNames := by
    simp only [List.mem_append, List.mem_singleton]
    tauto
  refine ⟨before.cells.trans grown, before.groups, before.used, ?_, ?_⟩
  · intro name old now
    rw [names] at now
    rcases (listed name).mp now with rfl | now
    · exact absurd old new
    · exact before.fresh name old now
  · constructor
    · rw [names]
      have perm : ((v.cellNames ++ [c.name]) ++ v.groupNames).Perm
          (c.name :: (v.cellNames ++ v.groupNames)) := by
        rw [List.append_assoc]
        exact List.perm_middle
      exact perm.nodup_iff.mpr (List.nodup_cons.mpr ⟨reserved.open_, legal.distinct⟩)
    · intro name member
      rw [names] at member
      rcases (listed name).mp member with rfl | member
      · exact reserved.used
      · exact legal.used member
    · intro width value cell found
      exact partOf?_of_isPrefix grown (legal.consts width value cell found)
    · intro func cell found
      rw [names]
      exact List.mem_append_left _ (legal.instances func cell found)
    · intro known other member
      rcases List.mem_append.mp member with old | added
      · exact legal.constants known other old
      · rw [List.mem_singleton.mp added]
        exact fits known
    · exact fun g member => (legal.groups g member).mono grown

/-- Adding a group under a name that was taken for it. -/
theorem Extends.addGroup (before : Extends exact w v) {g : Group} (new : g.name ∉ w.names.used)
    (reserved : Reserved v g.name) (wired : LegalGroup exact v.cells g) :
    Extends exact w { v with groups := v.groups ++ [g] } := by
  have legal := before.legal
  have names : v.cellNames ++ Workspace.groupNames { v with groups := v.groups ++ [g] } =
      (v.cellNames ++ v.groupNames) ++ [g.name] := by
    rw [List.append_assoc]
    exact congrArg (v.cellNames ++ ·) List.map_append
  refine ⟨before.cells, before.groups.trans (List.prefix_append _ _), before.used, ?_, ?_⟩
  · intro name old now
    rw [show Workspace.cellNames { v with groups := v.groups ++ [g] } = v.cellNames from rfl,
      names] at now
    rcases List.mem_append.mp now with now | added
    · exact before.fresh name old now
    · rw [List.mem_singleton.mp added] at old
      exact absurd old new
  · constructor
    · rw [show Workspace.cellNames { v with groups := v.groups ++ [g] } = v.cellNames from rfl,
        names]
      exact List.nodup_append.mpr ⟨legal.distinct, List.nodup_singleton _, by
        rintro old inside added member rfl
        rw [List.mem_singleton.mp member] at inside
        exact reserved.open_ inside⟩
    · rw [show Workspace.cellNames { v with groups := v.groups ++ [g] } = v.cellNames from rfl,
        names]
      intro name member
      rcases List.mem_append.mp member with old | added
      · exact legal.used old
      · rw [List.mem_singleton.mp added]
        exact reserved.used
    · exact legal.consts
    · exact legal.instances
    · exact legal.constants
    · intro other member
      rcases List.mem_append.mp member with old | added
      · exact legal.groups other old
      · rw [List.mem_singleton.mp added]
        exact wired

/-- Closing a group under a name that was just taken. -/
theorem Takes.addGroup {g : Group} (takes : Takes w g.name v) (legal : w.Legal exact)
    (closed : LegalGroup exact w.cells g) :
    Extends exact w { v with groups := v.groups ++ [g] } ∧ v.groups ++ [g] = w.groups ++ [g] := by
  obtain ⟨grown, reserved⟩ := takes.extends legal
  have cells : v.cells = w.cells := by rw [takes.space]
  have groups : v.groups = w.groups := by rw [takes.space]
  exact ⟨grown.addGroup takes.new reserved (cells ▸ closed), congrArg (· ++ [g]) groups⟩

/-! ### Cells -/

/-- One part is added, and no group. -/
structure Installs (exact : Prop) (w : Workspace) (name : String) (part : Part) (v : Workspace) :
    Prop where
  extends_ : Extends exact w v
  new : name ∉ w.names.used
  found : partOf? v.cells name = some part
  last : position v.cells name = w.cells.length
  groups : v.groups = w.groups

theorem Takes.installs {name : String} (takes : Takes w name v) (legal : w.Legal exact) {c : Cell}
    (named : c.name = name) {part : Part} (isPart : c.part? = some part)
    (fits : exact → ∀ width value, part = .constant width value → value < Word.capacity width) :
    Installs exact w name part { v with cells := v.cells ++ [c] } := by
  subst named
  obtain ⟨grown, reserved⟩ := takes.extends legal
  have cells : v.cells = w.cells := by rw [takes.space]
  have fresh : c.name ∉ v.cells.map (·.name) := cells ▸ legal.not_cell takes.new
  refine ⟨grown.addCell takes.new reserved ?_, takes.new, ?_, ?_, ?_⟩
  · intro known width value same
    exact fits known width value (Option.some.inj (isPart.symm.trans same))
  · rw [partOf?_append fresh, isPart]
  · rw [position_fresh fresh, cells]
  · show v.groups = w.groups
    rw [takes.space]

theorem addPrimitive_installs {stem primitive name : String} {params : List Nat} (part : Part)
    (legal : w.Legal exact) (isPart : Library.part? primitive params = some part)
    (fits : exact → ∀ width value, part = .constant width value → value < Word.capacity width)
    (ran : (addPrimitive stem primitive params).run w = .ok (name, v)) :
    Installs exact w name part v := by
  obtain ⟨given, between, named, rest⟩ := run_bind_ok_iff.mp ran
  cases rest
  exact (freshName_takes named).installs legal rfl isPart fits

theorem addRegister_installs {base name : String} {width : Nat} (legal : w.Legal exact)
    (ran : (addRegister base width).run w = .ok (name, v)) :
    Installs exact w name (.register width) v := by
  obtain ⟨given, between, named, rest⟩ := run_bind_ok_iff.mp ran
  cases rest
  exact (uniqueName_takes named).installs legal rfl rfl nofun

/-- Constants of a table stay where they are, and a new one gets a cell of its own. -/
theorem constant_legal {width value : Nat} {pin : Pin} (legal : w.Legal exact)
    (wide : exact → Word.sizeBits ≤ width → value < Word.capacity width)
    (ran : (constant width value).run w = .ok (pin, v)) :
    Extends exact w v ∧ v.groups = w.groups ∧
      ∃ cell, pin = .out cell ∧ partOf? v.cells cell = some (.constant width value) := by
  unfold constant at ran
  split at ran
  · cases ran
  next fits =>
  obtain ⟨_, _, got, ran⟩ := run_bind_ok_iff.mp ran
  cases got
  split at ran
  · next cell found =>
    cases ran
    exact ⟨legal.extends_refl, rfl, cell, rfl, legal.consts _ _ _ found⟩
  · next absent =>
    obtain ⟨cell, between, added, ran⟩ := run_bind_ok_iff.mp ran
    have small : exact → value < Word.capacity width := by
      intro known
      by_cases narrow : width < Word.sizeBits
      · exact Nat.lt_of_not_le fun large => fits ⟨narrow, large⟩
      · exact wide known (Nat.le_of_not_lt narrow)
    have installs := addPrimitive_installs (.constant width value) legal rfl
      (by
        intro known _ _ same
        cases same
        exact small known) added
    cases ran
    have grown := installs.extends_
    refine ⟨⟨grown.cells, grown.groups, grown.used, grown.fresh, ?_⟩, installs.groups, cell, rfl,
      installs.found⟩
    refine { grown.legal with consts := ?_ }
    intro width' value' cell' found
    rw [List.lookup_cons] at found
    split at found
    · next same =>
      cases found
      cases eq_of_beq same
      exact installs.found
    · exact grown.legal.consts _ _ _ found

theorem instanceOf_legal {func cell : String} (legal : w.Legal exact)
    (ran : (instanceOf func).run w = .ok (cell, v)) :
    Extends exact w v ∧ v.groups = w.groups ∧ cell ∈ v.cellNames := by
  unfold instanceOf at ran
  obtain ⟨_, _, got, ran⟩ := run_bind_ok_iff.mp ran
  cases got
  split at ran
  · next found =>
    cases ran
    exact ⟨legal.extends_refl, rfl, legal.instances _ _ found⟩
  · obtain ⟨given, between, named, rest⟩ := run_bind_ok_iff.mp ran
    have takes := freshName_takes named
    obtain ⟨grown, reserved⟩ := takes.extends legal
    have added := @Extends.addCell _ _ _ grown { name := given, prototype := .component func }
      takes.new reserved nofun
    have member : given ∈ Workspace.cellNames
        { between with cells := between.cells ++ [{ name := given, prototype := .component func }] } :=
      List.mem_map.mpr ⟨_, List.mem_append_right _ List.mem_cons_self, rfl⟩
    cases rest
    refine ⟨⟨added.cells, added.groups, added.used, added.fresh, ?_⟩, ?_, member⟩
    · refine { added.legal with instances := ?_ }
      intro func' cell' found
      rw [List.lookup_cons] at found
      split at found
      · cases found
        exact member
      · exact added.legal.instances _ _ found
    · show between.groups = w.groups
      rw [takes.space]

end

/-! ### Names -/

/-- Every cell behind a name. -/
def Store.cells : Store → List String
  | .register cell _ => [cell]
  | .iterator cell slice _ => cell :: slice.toList
  | .memory m => [m.cell]

/-- The cells of a store are the parts that it promises. -/
inductive Stored (cells : List Cell) : Store → Prop where
  | register {cell : String} {width : Nat} (found : partOf? cells cell = some (.register width)) :
      Stored cells (.register cell width)
  | whole {cell : String} {width : Nat} (found : partOf? cells cell = some (.register width)) :
      Stored cells (.iterator cell none width)
  | sliced {cell slice : String} {wide width : Nat}
      (found : partOf? cells cell = some (.register wide))
      (narrowed : partOf? cells slice = some (.adapter .slice wide width)) (narrower : width < wide) :
      Stored cells (.iterator cell (some slice) width)
  | memory {m : Memory} {widths : List Nat}
      (found : partOf? cells m.cell = some (.memory m.width m.sizes widths))
      (addressed : addressWidths m.sizes = .ok widths) (few : m.sizes.length ≤ 4) :
      Stored cells (.memory m)

/-- Names lead to the parts that they promise, and no cell is behind two names. -/
structure LegalEnv (cells : List Cell) (env : Env) : Prop where
  stored : ∀ name store, env.get? name = some store → Stored cells store
  apart : ∀ name other store store', env.get? name = some store → env.get? other = some store' →
    ∀ cell ∈ store.cells, cell ∈ store'.cells → name = other

section

variable {cells cells' : List Cell} {env : Env}

theorem Stored.mono (grown : cells <+: cells') {store : Store} :
    Stored cells store → Stored cells' store
  | .register found => .register (partOf?_of_isPrefix grown found)
  | .whole found => .whole (partOf?_of_isPrefix grown found)
  | .sliced found narrowed narrower =>
    .sliced (partOf?_of_isPrefix grown found) (partOf?_of_isPrefix grown narrowed) narrower
  | .memory found addressed few => .memory (partOf?_of_isPrefix grown found) addressed few

theorem Stored.mem {store : Store} (stored : Stored cells store) :
    ∀ cell ∈ store.cells, cell ∈ cells.map (·.name) := by
  intro cell member
  cases stored with
  | register found => exact List.mem_singleton.mp member ▸ mem_of_partOf? found
  | whole found => exact List.mem_singleton.mp member ▸ mem_of_partOf? found
  | sliced found narrowed =>
    rcases List.mem_cons.mp member with rfl | slice
    · exact mem_of_partOf? found
    · exact List.mem_singleton.mp slice ▸ mem_of_partOf? narrowed
  | memory found => exact List.mem_singleton.mp member ▸ mem_of_partOf? found

theorem legalEnv_empty (cells : List Cell) : LegalEnv cells {} := ⟨nofun, nofun⟩

namespace LegalEnv

theorem mono (legal : LegalEnv cells env) (grown : cells <+: cells') : LegalEnv cells' env :=
  ⟨fun name store found => (legal.stored name store found).mono grown, legal.apart⟩

theorem enter (legal : LegalEnv cells env) : LegalEnv cells env.enter :=
  ⟨legal.stored, legal.apart⟩

/-- Binding a name to cells of its own. -/
theorem rebind (legal : LegalEnv cells env) (grown : cells <+: cells') {store : Store}
    (stored : Stored cells' store) (fresh : ∀ cell ∈ store.cells, cell ∉ cells.map (·.name))
    (name : String) : LegalEnv cells' (env.rebind name store) where
  stored := by
    intro other found visible
    rw [Scope.get?_rebind] at visible
    split at visible
    · cases visible
      exact stored
    · exact (legal.stored other found visible).mono grown
  apart := by
    intro left right first second foundFirst foundSecond cell member member'
    rw [Scope.get?_rebind] at foundFirst foundSecond
    split at foundFirst
    · next same =>
      split at foundSecond
      · next same' => exact same.trans same'.symm
      · cases foundFirst
        exact absurd ((legal.stored right second foundSecond).mem cell member') (fresh cell member)
    · split at foundSecond
      · cases foundSecond
        exact absurd ((legal.stored left first foundFirst).mem cell member) (fresh cell member')
      · exact legal.apart left right first second foundFirst foundSecond cell member member'

end LegalEnv

end

end Lowering

end BankedLoops
