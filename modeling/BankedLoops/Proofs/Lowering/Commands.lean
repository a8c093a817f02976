import BankedLoops.Proofs.Lowering.Controls
import BankedLoops.Proofs.Lowering.Components

/-!
# Lowered components

Loops and declarations, and with them every command and every component: what `assemble` builds is
legal, and its control schedules exactly the groups that were added.
-/

namespace BankedLoops

namespace Lowering

open Library (Part)

/-! ### Loops -/

section

variable {exact : Prop} {w v u : Workspace} {iter reg : String} {width : Nat}

/-- The wires of a register and a constant into a part that combines them. -/
def operandWires (cell reg const : String) : List Assignment :=
  [⟨.cell cell "left", .pin (.out reg), .always⟩, ⟨.cell cell "right", .pin (.out const), .always⟩]

/-- A part that works on a register and a constant, of which the constant came later. -/
theorem Installs.operands {cell const : String} {part : Part} {value out : Nat}
    (installs : Installs exact w cell part v) (combinational : part.isCombinational = true)
    (inputs : part.inputs = [("left", width), ("right", width)]) (outputs : part.outputs = [("out", out)])
    (isRegister : partOf? w.cells reg = some (.register width)) (grown : Extends exact v u)
    (isConst : partOf? u.cells const = some (.constant width value)) :
    ∃ W : Wiring, W.assigns = operandWires cell reg const ∧
      LegalWiring u.cells {} W ∧ Sourced u.cells W.assigns (.out cell) out := by
  have known := partOf?_of_isPrefix (installs.extends_.trans grown).cells isRegister
  obtain ⟨wired, assigns, source⟩ := (legalWiring_empty u.cells {}).operate
    (partOf?_of_isPrefix grown.cells installs.found) combinational inputs outputs (.register known)
    (.constant isConst) (.output _ known nofun) (.output _ isConst fun _ => .inl rfl) (fun _ => nofun)
    nofun
  exact ⟨_, assigns, wired, source⟩

theorem addInit_closes {start : Nat} {init : String} (legal : w.Legal exact)
    (isRegister : partOf? w.cells reg = some (.register width))
    (word : exact → start < Word.capacity Word.sizeBits)
    (ran : (addInit iter reg width start).run w = .ok (init, v)) : ∃ const, Extends exact w v ∧
      v.groups = w.groups ++ [⟨init, some 1, latchWires init reg (.out const)⟩] ∧
      partOf? v.cells const = some (.constant width start) := by
  obtain ⟨name, given, naming, ran⟩ := run_bind_ok_iff.mp ran
  obtain ⟨first, started, starting, ran⟩ := run_bind_ok_iff.mp ran
  cases ran
  have takes := uniqueName_takes naming
  obtain ⟨named, reserved⟩ := takes.extends legal
  obtain ⟨grown, groups, const, rfl, isConst⟩ := constant_legal named.legal
    (fun known => word_of_capacity (word known)) starting
  have both := named.trans grown
  obtain ⟨assigns, closed⟩ := @legalGroup_latch exact _ _ _ (legalWiring_empty started.cells {}) _ _ _
    (partOf?_of_isPrefix both.cells isRegister) _ (.constant isConst) (fun _ => rfl) init
  have added := both.addGroup (g := ⟨init, some 1, latchWires init reg (.out const)⟩) takes.new
    (grown.reserved reserved) closed
  have same : started.groups = w.groups := by rw [groups, takes.space]
  exact ⟨const, added, congrArg (· ++ [_]) same, isConst⟩

theorem addInit_planned {start : Nat} {init : String} (legal : w.Legal exact)
    (isRegister : partOf? w.cells reg = some (.register width))
    (word : exact → start < Word.capacity Word.sizeBits)
    (ran : (addInit iter reg width start).run w = .ok (init, v)) (pos : Option Nat) :
    Planned exact w [.enable init pos] v := by
  obtain ⟨_, grown, groups, _⟩ := addInit_closes legal isRegister word ran
  exact .enable grown rfl groups pos

theorem addCond_closes {stop : Nat} {cond lt : String} (legal : w.Legal exact)
    (isRegister : partOf? w.cells reg = some (.register width))
    (word : exact → stop < Word.capacity Word.sizeBits)
    (ran : (addCond iter reg width stop).run w = .ok ((cond, lt), v)) : ∃ const, Extends exact w v ∧
      v.groups = w.groups ++ [⟨cond, none, operandWires lt reg const⟩] ∧
      partOf? v.cells lt = some (.operator .lt width) ∧
      partOf? v.cells const = some (.constant width stop) ∧
      Sourced v.cells (operandWires lt reg const) (.out lt) 1 := by
  obtain ⟨name, given, naming, ran⟩ := run_bind_ok_iff.mp ran
  obtain ⟨cell, compared, comparing, ran⟩ := run_bind_ok_iff.mp ran
  obtain ⟨bound, bounded, bounding, ran⟩ := run_bind_ok_iff.mp ran
  cases ran
  have takes := uniqueName_takes naming
  obtain ⟨named, reserved⟩ := takes.extends legal
  have installs := addPrimitive_installs (.operator .lt width) named.legal rfl nofun comparing
  obtain ⟨grown, groups, const, rfl, isConst⟩ := constant_legal installs.extends_.legal
    (fun known => word_of_capacity (word known)) bounding
  have both := named.trans (installs.extends_.trans grown)
  obtain ⟨W, assigns, wired, source⟩ := installs.operands rfl rfl rfl
    (partOf?_of_isPrefix named.cells isRegister) grown isConst
  have closed : LegalGroup exact bounded.cells ⟨cond, none, W.assigns⟩ :=
    ⟨fun a member => .inl (wired.links a member), fun p => .inl (length_drivers_le wired.distinct p)⟩
  have added := both.addGroup takes.new ((installs.extends_.trans grown).reserved reserved) closed
  have same : bounded.groups = w.groups := by rw [groups, installs.groups, takes.space]
  rw [assigns] at added source
  exact ⟨const, added, congrArg (· ++ [_]) same, partOf?_of_isPrefix grown.cells installs.found, isConst,
    source⟩

theorem addCond_planned {stop : Nat} {cond lt : String} (legal : w.Legal exact)
    (isRegister : partOf? w.cells reg = some (.register width))
    (word : exact → stop < Word.capacity Word.sizeBits)
    (ran : (addCond iter reg width stop).run w = .ok ((cond, lt), v)) (trips : Option Nat) :
    Planned exact w [.loop (.out lt) (some cond) .empty trips] v := by
  obtain ⟨const, grown, groups, _, _, source⟩ := addCond_closes legal isRegister word ran
  refine ⟨grown, ?_, .test rfl groups rfl rfl⟩
  intro c member
  rw [List.mem_singleton.mp member]
  refine ⟨?_, nofun⟩
  intro entry isTest
  rw [List.mem_singleton.mp isTest]
  refine ⟨_, source, ⟨cond, none, operandWires lt reg const⟩, ?_, rfl, rfl⟩
  rw [groups]
  exact List.mem_append_right _ List.mem_cons_self

theorem addIncr_closes {incr : String} (legal : w.Legal exact)
    (isRegister : partOf? w.cells reg = some (.register width))
    (ran : (addIncr iter reg width).run w = .ok (incr, v)) : ∃ add const, Extends exact w v ∧
      v.groups = w.groups ++
        [⟨incr, some 1, operandWires add reg const ++ latchWires incr reg (.out add)⟩] ∧
      partOf? v.cells add = some (.operator .add width) ∧
      partOf? v.cells const = some (.constant width 1) := by
  obtain ⟨name, given, naming, ran⟩ := run_bind_ok_iff.mp ran
  obtain ⟨cell, operated, operating, ran⟩ := run_bind_ok_iff.mp ran
  obtain ⟨one, stepped, stepping, ran⟩ := run_bind_ok_iff.mp ran
  cases ran
  have takes := uniqueName_takes naming
  obtain ⟨named, reserved⟩ := takes.extends legal
  have installs := addPrimitive_installs (.operator .add width) named.legal rfl nofun operating
  obtain ⟨grown, groups, const, rfl, isConst⟩ := constant_legal installs.extends_.legal
    (fun _ => word_of_capacity (by decide)) stepping
  have both := named.trans (installs.extends_.trans grown)
  obtain ⟨W, assigns, wired, source⟩ := installs.operands rfl rfl rfl
    (partOf?_of_isPrefix named.cells isRegister) grown isConst
  obtain ⟨_, closed⟩ := @legalGroup_latch exact _ _ _ wired _ _ _
    (partOf?_of_isPrefix both.cells isRegister) _ source (fun _ => rfl) incr
  have added := both.addGroup takes.new ((installs.extends_.trans grown).reserved reserved) closed
  have same : stepped.groups = w.groups := by rw [groups, installs.groups, takes.space]
  rw [assigns] at added
  exact ⟨cell, const, added, congrArg (· ++ [_]) same, partOf?_of_isPrefix grown.cells installs.found,
    isConst⟩

theorem addIncr_planned {incr : String} (legal : w.Legal exact)
    (isRegister : partOf? w.cells reg = some (.register width))
    (ran : (addIncr iter reg width).run w = .ok (incr, v)) (pos : Option Nat) :
    Planned exact w [.enable incr pos] v := by
  obtain ⟨_, _, grown, groups, _⟩ := addIncr_closes legal isRegister ran
  exact .enable grown rfl groups pos

/-- The hardware of a loop: storage for the iterator, and the groups around its body. -/
structure Framed (exact : Prop) (w : Workspace) (h : LoopHeader) (frame : LoopFrame)
    (v : Workspace) : Prop where
  planned : ∀ pos trips, Planned exact w [.enable frame.init pos,
    .loop (.out frame.lt) (some frame.cond) (.enable frame.incr pos) trips] v
  stored : Stored v.cells (.iterator frame.reg frame.slice frame.width)
  fresh : ∀ cell ∈ (Store.iterator frame.reg frame.slice frame.width).cells, cell ∉ w.cellNames
  width : frame.width = bitsNeeded (h.stop - 1)

/-- What counts and compares the register of a loop. -/
theorem counts_planned {h : LoopHeader} {init cond lt incr : String} {started compared : Workspace}
    (legal : w.Legal exact)
    (isRegister : partOf? w.cells reg = some (.register width))
    (words : exact → h.start < Word.capacity Word.sizeBits ∧ h.stop < Word.capacity Word.sizeBits)
    (starting : (addInit iter reg width h.start).run w = .ok (init, started))
    (comparing : (addCond iter reg width h.stop).run started = .ok ((cond, lt), compared))
    (counting : (addIncr iter reg width).run compared = .ok (incr, v)) (pos trips : Option Nat) :
    Planned exact w [.enable init pos, .loop (.out lt) (some cond) (.enable incr pos) trips] v := by
  have first := addInit_planned legal isRegister (fun known => (words known).1) starting pos
  have second := addCond_planned first.extends_.legal
    (partOf?_of_isPrefix first.extends_.cells isRegister) (fun known => (words known).2) comparing trips
  have grown := first.extends_.trans second.extends_
  have third := addIncr_planned grown.legal (partOf?_of_isPrefix grown.cells isRegister) counting pos
  have all := first.trans (second.trans third)
  refine ⟨all.extends_, ?_, all.schedules.congr ?_ ?_⟩
  · intro c member
    rcases List.mem_cons.mp member with rfl | member
    · exact legalControl_enable _ _ _
    · rw [List.mem_singleton.mp member]
      have test := all.legal (.loop (.out lt) (some cond) .empty trips) (by simp)
      exact ⟨test.tests, test.invoked⟩
  · exact .refl _
  · exact .refl _

/-- How the hardware of a loop is added: first its storage, then what counts and compares it. -/
structure Staged (exact : Prop) (w : Workspace) (h : LoopHeader) (frame : LoopFrame)
    (u v : Workspace) : Prop where
  extends_ : Extends exact w u
  groups : u.groups = w.groups
  register : partOf? u.cells frame.reg = some (.register (bitsNeeded h.stop))
  stored : Stored u.cells (.iterator frame.reg frame.slice frame.width)
  fresh : ∀ cell ∈ (Store.iterator frame.reg frame.slice frame.width).cells, cell ∉ w.cellNames
  width : frame.width = bitsNeeded (h.stop - 1)
  counts : ∃ started compared,
    (addInit h.iter frame.reg (bitsNeeded h.stop) h.start).run u = .ok (frame.init, started) ∧
    (addCond h.iter frame.reg (bitsNeeded h.stop) h.stop).run started =
      .ok ((frame.cond, frame.lt), compared) ∧
    (addIncr h.iter frame.reg (bitsNeeded h.stop)).run compared = .ok (frame.incr, v)

theorem addLoop_staged {h : LoopHeader} {frame : LoopFrame} (legal : w.Legal exact)
    (ran : (addLoop h).run w = .ok (frame, v)) : ∃ u, Staged exact w h frame u v := by
  unfold addLoop at ran
  obtain ⟨last, _, subtracted, ran⟩ := run_bind_ok_iff.mp ran
  obtain ⟨counted, rfl⟩ := run_lift_ok_iff.mp subtracted
  obtain ⟨_, rfl⟩ := Word.sub_eq_ok_iff.mp counted
  obtain ⟨reg, registered, adding, ran⟩ := run_bind_ok_iff.mp ran
  have installs := addRegister_installs legal adding
  have fresh := legal.not_cell installs.new
  split at ran
  · next narrower =>
    obtain ⟨slice, sliced, slicing, ran⟩ := run_bind_ok_iff.mp ran
    obtain ⟨init, started, starting, ran⟩ := run_bind_ok_iff.mp ran
    obtain ⟨⟨cond, lt⟩, compared, comparing, ran⟩ := run_bind_ok_iff.mp ran
    obtain ⟨incr, counted, counting, ran⟩ := run_bind_ok_iff.mp ran
    cases ran
    rw [map_eq_pure_bind] at slicing
    obtain ⟨name, _, narrowing, same⟩ := run_bind_ok_iff.mp slicing
    cases same
    have narrows := addPrimitive_installs
      (.adapter .slice (bitsNeeded h.stop) (bitsNeeded (h.stop - 1))) installs.extends_.legal
      rfl nofun narrowing
    have found := partOf?_of_isPrefix narrows.extends_.cells installs.found
    refine ⟨sliced, installs.extends_.trans narrows.extends_, narrows.groups.trans installs.groups, found,
      .sliced found narrows.found narrower, ?_, rfl, started, compared, starting, comparing, counting⟩
    intro cell member
    rcases List.mem_cons.mp member with rfl | member
    · exact fresh
    · rw [List.mem_singleton.mp member]
      exact fun inside => narrows.new (installs.extends_.legal.used
        (List.mem_append_left _ (installs.extends_.cellNames inside)))
  · next whole =>
    obtain ⟨slice, _, unsliced, ran⟩ := run_bind_ok_iff.mp ran
    obtain ⟨init, started, starting, ran⟩ := run_bind_ok_iff.mp ran
    obtain ⟨⟨cond, lt⟩, compared, comparing, ran⟩ := run_bind_ok_iff.mp ran
    obtain ⟨incr, counted, counting, ran⟩ := run_bind_ok_iff.mp ran
    cases ran
    cases unsliced
    have same : bitsNeeded h.stop = bitsNeeded (h.stop - 1) := by
      have le : bitsNeeded (h.stop - 1) ≤ bitsNeeded h.stop := bitsNeeded_mono (Nat.sub_le _ _)
      omega
    refine ⟨registered, installs.extends_, installs.groups, installs.found, .whole (same ▸ installs.found),
      ?_, rfl, started, compared, starting, comparing, counting⟩
    intro cell member
    rw [List.mem_singleton.mp member]
    exact fresh

theorem addLoop_framed {h : LoopHeader} {frame : LoopFrame} (legal : w.Legal exact)
    (words : exact → h.start < Word.capacity Word.sizeBits ∧ h.stop < Word.capacity Word.sizeBits)
    (ran : (addLoop h).run w = .ok (frame, v)) : Framed exact w h frame v := by
  obtain ⟨u, staged⟩ := addLoop_staged legal ran
  obtain ⟨started, compared, starting, comparing, counting⟩ := staged.counts
  have planned := counts_planned staged.extends_.legal staged.register words starting comparing counting
  have later := (planned none none).extends_
  refine ⟨fun pos trips => ?_, staged.stored.mono later.cells, staged.fresh, staged.width⟩
  exact (Planned.of_extends staged.extends_ staged.groups).trans (planned pos trips)

theorem Framed.fits {h : LoopHeader} {frame : LoopFrame} (framed : Framed exact w h frame v) :
    (Slot.iterator h.stop).Fits (.iterator frame.reg frame.slice frame.width) := by
  rw [framed.width]
  exact .iterator h.stop frame.reg frame.slice

end

/-! ### Declarations -/

section

variable {exact : Prop} {s : Setting} {env env' : Env} {w v : Workspace}

theorem memoryName_takes {d : Decl} {exposure : Exposure} {name : String}
    (ran : (memoryName s d exposure).run w = .ok (name, v)) : Takes w name v := by
  unfold memoryName at ran
  split at ran
  · exact uniqueName_takes ran
  · obtain ⟨_, _, got, ran⟩ := run_bind_ok_iff.mp ran
    cases got
    split at ran
    · next reserved =>
      cases ran
      obtain ⟨new, used⟩ := Names.reserve?_some reserved
      exact ⟨new, used, rfl⟩
    · cases ran

/-- The library has memories of one to four dimensions. -/
theorem memory_part {sizes widths : List Nat} (some_ : sizes ≠ []) (few : sizes.length ≤ 4)
    (paired : widths.length = sizes.length) (width : Nat) :
    Library.part? s!"seq_mem_d{sizes.length}" (width :: sizes ++ widths) =
      some (.memory width sizes widths) := by
  have counted : (sizes ++ widths).length = 2 * sizes.length := by
    rw [List.length_append, paired]
    omega
  have split : Library.memory? sizes.length width (sizes ++ widths) =
      some (.memory width sizes widths) := by
    rw [Library.memory?, if_pos counted, List.take_left, List.drop_left]
  have positive : 0 < sizes.length := List.length_pos_iff.mpr some_
  rw [List.cons_append]
  generalize sizes.length = dims at split few positive
  match dims, positive, few with
  | 1, _, _ => exact split
  | 2, _, _ => exact split
  | 3, _, _ => exact split
  | 4, _, _ => exact split

theorem declare_installs {d : Decl} {exposure : Exposure} (legal : w.Legal exact)
    (tidy : TidyTy d.ty) (ran : (declare s env d exposure).run w = .ok (env', v)) :
    ∃ cell part, Installs exact w cell part v ∧ Stored v.cells (.ofTy cell d.ty) ∧
      env' = env.rebind d.name (.ofTy cell d.ty) := by
  unfold declare at ran
  split at ran
  · next elem dims isArray =>
    split at ran
    · cases ran
    next few =>
    obtain ⟨name, given, naming, ran⟩ := run_bind_ok_iff.mp ran
    obtain ⟨widths, _, counting, ran⟩ := run_bind_ok_iff.mp ran
    obtain ⟨counted, rfl⟩ := run_lift_ok_iff.mp counting
    cases ran
    have addressed := addressWidths_eq counted
    have some_ : dims.map Dim.size ≠ [] := by
      simpa using tidy elem dims isArray
    have few' : (dims.map Dim.size).length ≤ 4 := by
      rw [List.length_map]
      omega
    have paired : widths.length = (dims.map Dim.size).length := by
      rw [addressed, List.length_map]
    have isMemory := memory_part some_ few' paired elem.width
    rw [List.length_map] at isMemory
    have installs := (memoryName_takes naming).installs legal (c := ⟨name, .primitive
      s!"seq_mem_d{dims.length}" (elem.width :: dims.map Dim.size ++ widths),
      exposure = .external, exposure = .reference⟩) rfl isMemory
      (by intro _ width value same; cases same)
    refine ⟨name, _, installs, ?_, ?_⟩
    · rw [isArray]
      exact .memory installs.found counted few'
    · rw [isArray, Store.ofTy]
  · next notArray =>
    obtain ⟨name, added, adding, ran⟩ := run_bind_ok_iff.mp ran
    obtain ⟨rfl, rfl⟩ := run_pure_ok_iff.mp ran
    have installs := addRegister_installs legal adding
    have scalar : Store.ofTy name d.ty = .register name d.ty.width := by
      rw [Store.ofTy]
      exact notArray
    exact ⟨name, _, installs, scalar ▸ .register installs.found, by rw [scalar]⟩

theorem Store.cells_ofTy (cell : String) (ty : Ty) : (Store.ofTy cell ty).cells = [cell] := by
  cases ty <;> rfl

/-- What holds between the names of a program and the parts behind them. -/
structure Furnished (slots : Slots) (env : Env) (cells : List Cell) : Prop where
  named : LegalEnv cells env
  matched : Matches slots env

namespace Furnished

variable {slots : Slots} {cells cells' : List Cell}

theorem mono (furnished : Furnished slots env cells) (grown : cells <+: cells') :
    Furnished slots env cells' :=
  ⟨furnished.named.mono grown, furnished.matched⟩

theorem enter (furnished : Furnished slots env cells) : Furnished slots.enter env.enter cells :=
  ⟨furnished.named.enter, furnished.matched.enter⟩

theorem rebind (furnished : Furnished slots env cells) (grown : cells <+: cells') {slot : Slot}
    {store : Store} (stored : Stored cells' store) (fits : slot.Fits store)
    (fresh : ∀ cell ∈ store.cells, cell ∉ cells.map (·.name)) (name : String) :
    Furnished (slots.rebind name slot) (env.rebind name store) cells' :=
  ⟨furnished.named.rebind grown stored fresh name, furnished.matched.rebind fits name⟩

end Furnished

theorem declare_furnished {slots : Slots} {d : Decl} {exposure : Exposure} (legal : w.Legal exact)
    (furnished : Furnished slots env w.cells) (tidy : TidyTy d.ty)
    (ran : (declare s env d exposure).run w = .ok (env', v)) :
    Planned exact w [] v ∧ Furnished (slots.rebind d.name (.ofTy d.ty)) env' v.cells := by
  obtain ⟨cell, part, installs, stored, rfl⟩ := declare_installs legal tidy ran
  refine ⟨.of_extends installs.extends_ installs.groups,
    furnished.rebind installs.extends_.cells stored (Slot.fits_ofTy cell d.ty) ?_ d.name⟩
  intro other member
  rw [Store.cells_ofTy] at member
  rw [List.mem_singleton.mp member]
  exact legal.not_cell installs.new

/-- The names of declarations. -/
def slotsOf (slots : Slots) (ds : List Decl) : Slots :=
  ds.foldl (fun slots d => slots.rebind d.name (.ofTy d.ty)) slots

theorem declareAll_furnished {exposure : Exposure} {ds : List Decl} {slots : Slots}
    (legal : w.Legal exact) (furnished : Furnished slots env w.cells) (tidy : ∀ d ∈ ds, TidyTy d.ty)
    (ran : (declareAll s exposure env ds).run w = .ok (env', v)) :
    Planned exact w [] v ∧ Furnished (slotsOf slots ds) env' v.cells := by
  induction ds generalizing env slots w with
  | nil =>
    cases ran
    exact ⟨.refl legal, furnished⟩
  | cons d ds ih =>
    obtain ⟨between, declared, declaring, ran⟩ := run_bind_ok_iff.mp ran
    obtain ⟨first, furnished⟩ := declare_furnished legal furnished (tidy d List.mem_cons_self) declaring
    obtain ⟨rest, furnished⟩ := ih first.extends_.legal furnished
      (fun e member => tidy e (List.mem_cons_of_mem _ member)) ran
    exact ⟨first.trans rest, furnished⟩

end

/-! ### Commands -/

section

variable {exact : Prop} {s : Setting}

section

variable {slots : Slots} {env env' : Env} {w v : Workspace} {control : Control} {pos : Nat}

theorem define_planned {name cell : String} {ty : Ty} {init : TypedExpr} {u : Workspace}
    (legal : w.Legal exact) (furnished : Furnished slots env w.cells) (tidy : Tidy init)
    (typed : exact → Physical slots init) (adding : (addRegister name ty.width).run w = .ok (cell, u))
    (assigning : (assignRegister s env pos cell ty.width "let" init).run u = .ok (control, v)) :
    Planned exact w [control] v ∧
      Furnished (slots.rebind name (.scalar ty)) (env.rebind name (.register cell ty.width)) v.cells := by
  have installs := addRegister_installs legal adding
  have grown := installs.extends_
  have planned := assignRegister_planned grown.legal (furnished.named.mono grown.cells)
    furnished.matched tidy typed installs.found assigning
  have all := (Planned.of_extends grown installs.groups).trans planned
  refine ⟨all, furnished.rebind all.extends_.cells ?_ (.scalar ty cell) ?_ name⟩
  · exact .register (partOf?_of_isPrefix planned.extends_.cells installs.found)
  · intro other member
    rw [List.mem_singleton.mp member]
    exact legal.not_cell installs.new

/-- What plans the controls of a command and names nothing new. -/
theorem Planned.furnished {controls : List Control} (planned : Planned exact w controls v)
    (furnished : Furnished slots env w.cells) :
    Planned exact w controls v ∧ Furnished slots env v.cells :=
  ⟨planned, furnished.mono planned.extends_.cells⟩

end

mutual

theorem lowerCommand_planned {slots : Slots} {env env' : Env} {w v : Workspace} {control : Control}
    (legal : w.Legal exact) (furnished : Furnished slots env w.cells) : {cmd : TypedCommand} →
    TidyCommand cmd → (exact → PhysicalCommand slots cmd) →
    (lowerCommand s env cmd).run w = .ok ((control, env'), v) →
    Planned exact w [control] v ∧ Furnished (slotsAfter slots cmd) env' v.cells
  | .decl pos name ty, tidy, typed, ran => by
    cases lowerCommand_ok ran with
    | decl declaring =>
      obtain ⟨planned, furnished⟩ := declare_furnished (d := ⟨pos, name, ty⟩) legal furnished tidy declaring
      exact ⟨planned.free (legalControl_empty _) rfl rfl, furnished⟩
  | .define .., tidy, typed, ran => by
    cases lowerCommand_ok ran with
    | define adding assigning =>
      exact define_planned legal furnished tidy (fun known => (typed known).1) adding assigning
  | .seq pos cmds, tidy, typed, ran => by
    cases lowerCommand_ok ran with
    | seq lowering =>
      obtain ⟨planned, furnished⟩ := lowerSeq_planned legal furnished tidy typed lowering
      exact ⟨planned.sequence, furnished⟩
  | .branch pos cond onTrue onFalse, tidy, typed, ran => by
    cases lowerCommand_ok ran with
    | branch testing loweringTrue loweringFalse =>
      have first := lowerCondition_planned legal furnished.named furnished.matched tidy.1
        (fun known => (typed known).1) testing
      obtain ⟨second, _⟩ := lowerCommand_planned first.extends_.legal
        (furnished.mono first.extends_.cells).enter tidy.2.1 (fun known => (typed known).2.1) loweringTrue
      have grown := first.extends_.trans second.extends_
      have third := lowerElse_planned grown.legal (furnished.mono grown.cells).enter tidy.2.2
        (fun known => (typed known).2.2) loweringFalse
      exact (first.branch second third).sequence.furnished furnished
  | .loop pos header body, tidy, typed, ran => by
    cases lowerCommand_ok ran with
    | loop adding lowering =>
      have framed := addLoop_framed legal (fun known => by
        obtain ⟨runs, word, _⟩ := typed known
        exact ⟨Nat.lt_trans runs word, word⟩) adding
      have first := framed.planned (s.position pos) (some (header.stop - header.start))
      obtain ⟨second, _⟩ := lowerCommand_planned first.extends_.legal
        (furnished.enter.rebind first.extends_.cells framed.stored framed.fits framed.fresh header.iter)
        (by exact tidy) (fun known => (typed known).2.2) lowering
      exact (((first.round second).sequence.quote s pos).quote s pos).furnished furnished
  | .update pos target value, tidy, typed, ran => by
    cases lowerCommand_ok ran with
    | update lowering =>
      exact (lowerUpdate_planned legal furnished.named furnished.matched tidy.1
        (fun known => (typed known).1) tidy.2 (fun known => (typed known).2.1) lowering).furnished furnished
  | .reduce pos op target value, tidy, typed, ran => by
    cases lowerCommand_ok ran with
    | reduce lowering =>
      have planned := lowerReduce_planned legal furnished.named furnished.matched tidy.1
        (fun known => (typed known).2.2.1) tidy.2 (fun known => (typed known).2.2.2.1)
        (fun known => by
          have arithmetic := (typed known).1
          cases op <;> first | rfl | cases arithmetic) lowering
      exact planned.furnished furnished
  | .eval .., tidy, typed, ran => by
    cases lowerCommand_ok ran with
    | call lowering => exact (lowerCall_planned legal furnished.named lowering).furnished furnished
    | eval other lowering =>
      rw [physicalCommand_eval other] at typed
      exact (discard_hoisted furnished.matched legal furnished.named tidy typed
        lowering).planned.sequence.furnished furnished
  | .advance .., tidy, typed, ran => by cases lowerCommand_ok ran
  | .skip pos, tidy, typed, ran => by
    cases lowerCommand_ok ran
    exact ⟨(Planned.refl legal).free (legalControl_empty _) rfl rfl, furnished⟩

theorem lowerSeq_planned {slots : Slots} {env env' : Env} {w v : Workspace} {controls : List Control}
    (legal : w.Legal exact) (furnished : Furnished slots env w.cells) : {cmds : List TypedCommand} →
    TidySeq cmds → (exact → PhysicalSeq slots cmds) →
    (lowerSeq s env cmds).run w = .ok ((controls, env'), v) →
    Planned exact w controls v ∧ Furnished (slotsAfterSeq slots cmds) env' v.cells
  | [], tidy, typed, ran => by
    obtain ⟨rfl, rfl, rfl⟩ := lowerSeq_nil_ok ran
    exact ⟨.refl legal, furnished⟩
  | cmd :: cmds, tidy, typed, ran => by
    obtain ⟨_, _, _, _, lowering, others, rfl⟩ := lowerSeq_cons_ok ran
    obtain ⟨first, furnished⟩ := lowerCommand_planned legal furnished tidy.1
      (fun known => (typed known).1) lowering
    obtain ⟨second, furnished⟩ := lowerSeq_planned first.extends_.legal furnished tidy.2
      (fun known => (typed known).2) others
    exact ⟨first.trans second, furnished⟩

theorem lowerElse_planned {slots : Slots} {env : Env} {w v : Workspace} {control : Control}
    (legal : w.Legal exact) (furnished : Furnished slots env w.cells) : {cmd : Option TypedCommand} →
    TidyElse cmd → (exact → PhysicalElse slots cmd) →
    (lowerElse s env cmd).run w = .ok (control, v) → Planned exact w [control] v
  | none, tidy, typed, ran => by
    obtain ⟨rfl, rfl⟩ := lowerElse_none_ok ran
    exact (Planned.refl legal).free (legalControl_empty _) rfl rfl
  | some cmd, tidy, typed, ran => by
    obtain ⟨_, lowering⟩ := lowerElse_some_ok ran
    exact (lowerCommand_planned legal furnished tidy typed lowering).1

end

/-! ### Components -/

theorem instantiateAll_planned {funcs : List String} {w v : Workspace} (legal : w.Legal exact)
    (ran : (instantiateAll funcs).run w = .ok ((), v)) : Planned exact w [] v := by
  induction funcs generalizing w with
  | nil =>
    cases ran
    exact .refl legal
  | cons func funcs ih =>
    obtain ⟨cell, between, first, ran⟩ := run_bind_ok_iff.mp ran
    obtain ⟨grown, groups, _⟩ := instanceOf_legal legal first
    exact (Planned.of_extends grown groups).trans (ih grown.legal ran)

/-- What a component is built from: memories of some dimensions, and a tidy body. -/
structure TidyBody (ds : List Decl) (body : Option TypedCommand) : Prop where
  decls : ∀ d ∈ ds, TidyTy d.ty
  body : TidyElse body

theorem assemble_planned {quotes : Statements} {exposure : Exposure} {ds : List Decl} {instances : List String}
    {body : Option TypedCommand} {control : Control} {v : Workspace} (tidy : TidyBody ds body)
    (typed : exact → PhysicalElse (slotsOf {} ds) body)
    (ran : (assemble s exposure ds instances body).run { quotes } = .ok (control, v)) :
    Planned exact { quotes } [control] v := by
  obtain ⟨env, declared, declaring, ran⟩ := run_bind_ok_iff.mp ran
  obtain ⟨_, instantiated, instantiating, ran⟩ := run_bind_ok_iff.mp ran
  obtain ⟨first, furnished⟩ := declareAll_furnished (Workspace.legal_empty exact _)
    ⟨legalEnv_empty _, Matches.empty _⟩ tidy.decls declaring
  have second := instantiateAll_planned first.extends_.legal instantiating
  have third := lowerElse_planned second.extends_.legal (furnished.mono second.extends_.cells)
    tidy.body typed ran
  exact first.trans (second.trans third)

end

end Lowering

end BankedLoops
