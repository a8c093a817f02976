import BankedLoops.Proofs.Lowering.Wirings

/-!
# Groups that read memories

A read takes a group of its own, which captures an element of one memory, or the selected one of
several memories, in a register. With these groups every expression can be followed through its
lowering: `lowerExpr_lowered` is the result.
-/

namespace BankedLoops

namespace Lowering

open Library (Part)

/-! ### Closing a group -/

section

variable {exact : Prop} {env : Env} {cells : List Cell} {W : Wiring} {group : String}

/-- A pin that is the target of one wire has one driver. -/
theorem length_drivers_le {wires : List Assignment} (distinct : (wires.map (·.dst)).Nodup) (p : Pin) :
    (wires.filter (·.dst = p)).length ≤ 1 := by
  have counted : (wires.filter (·.dst = p)).length = (wires.map (·.dst)).count p := by
    rw [List.count_eq_countP, List.countP_map, List.countP_eq_length_filter]
    congr 2
  rw [counted]
  exact List.nodup_iff_count_le_one.mp distinct p

theorem Clocked.not_driven {assigns : List Assignment} {a : Assignment}
    (clocked : Clocked exact cells assigns group a) (wired : LegalWiring cells env W) :
    a.dst ∉ W.assigns.map (·.dst) := by
  cases clocked with
  | done => exact wired.not_done _ _
  | port found timed =>
    refine wired.not_driven ?_ _
    intro part same
    rw [found] at same
    cases same
    exact timed

/-- Wires into registers and memories behind combinational wiring. -/
theorem legalGroup_of_clocked (wired : LegalWiring cells env W) {wires : List Assignment}
    (clocked : ∀ a ∈ wires, Clocked exact cells (W.assigns ++ wires) group a)
    (distinct : (wires.map (·.dst)).Nodup) (latency : Option Nat) :
    (W.assignAll wires).assigns = W.assigns ++ wires ∧
      LegalGroup exact cells ⟨group, latency, W.assigns ++ wires⟩ := by
  have apart (a : Assignment) (member : a ∈ wires) : a.dst ∉ W.assigns.map (·.dst) :=
    (clocked a member).not_driven wired
  refine ⟨Wiring.assigns_assignAll_of_dst apart distinct, ?_, ?_⟩
  · intro a member
    rcases List.mem_append.mp member with inner | outer
    · exact .inl ((wired.links a inner).mono List.prefix_rfl (List.subset_append_left _ _))
    · exact .inr (clocked a outer)
  · intro p
    refine .inl (length_drivers_le ?_ p)
    show ((W.assigns ++ wires).map (·.dst)).Nodup
    rw [List.map_append]
    refine List.nodup_append.mpr ⟨wired.distinct, distinct, ?_⟩
    rintro pin inner pin' outer rfl
    obtain ⟨a, member, rfl⟩ := List.mem_map.mp outer
    exact apart a member inner

/-! ### Memories -/

variable {assigns : List Assignment} {guard select : Guard} {m : Memory} {reg : String}

theorem clocked_high {name port : String} {part : Part} (found : partOf? cells name = some part)
    (timed : part.isCombinational = false) (sink : port ∉ part.outputs.map Prod.fst)
    (input : (port, 1) ∈ part.inputs) (guards : ∀ p ∈ guard.pins, Sourced cells assigns p 1) :
    Clocked exact cells assigns group ⟨.cell name port, .high, guard⟩ :=
  .port found timed sink ⟨rfl, by decide⟩ (fun _ => input) guards

/-- Addresses of the widths that the memory asks for, if it is known to be of the same sizes. -/
theorem clocked_address (stored : Stored cells (.memory m)) {addrs : List Pin} {sizes : List Nat}
    (sources : List.Forall₂ (fun p size => Sourced cells assigns p (bitsNeeded (size - 1)))
      addrs sizes)
    (alike : exact → m.sizes = sizes) (guards : ∀ p ∈ guard.pins, Sourced cells assigns p 1) :
    ∀ a ∈ addressWires m.cell addrs guard, Clocked exact cells assigns group a := by
  intro a member
  obtain ⟨k, p, found, rfl⟩ := mem_addressWires.mp member
  cases stored with
  | memory isMemory addressed few =>
    have inside : k < addrs.length := (List.getElem?_eq_some_iff.mp found).1
    have counted := sources.length_eq
    have paired := (List.forall₂_iff_get.mp sources).2 k inside (counted ▸ inside)
    have source : Sourced cells assigns p (bitsNeeded (sizes[k] - 1)) := by
      have same : addrs[k] = p := (List.getElem?_eq_some_iff.mp found).2
      simpa [same] using paired
    refine .port isMemory rfl ?_ source ?_ guards
    · have apart (port : String) (other : port.toList.head? ≠ some 'a') := addressPort_ne other k
      simp only [Part.outputs, List.map_cons, List.map_nil, List.mem_cons, List.not_mem_nil, or_false,
        not_or]
      exact ⟨apart _ (by decide), apart _ (by decide), apart _ (by decide)⟩
    · intro known
      have same := alike known
      rw [addressWidths_eq addressed]
      refine mem_inputs_address few ?_
      rw [same, List.getElem?_eq_getElem (counted ▸ inside)]

theorem guards_both {first : Nat} (guards : ∀ p ∈ select.pins, Sourced cells assigns p 1) :
    ∀ p ∈ ((Guard.cycle first).both select).pins, Sourced cells assigns p 1 := by
  rw [Guard.pins_both]
  exact guards

theorem clocked_request (stored : Stored cells (.memory m)) {addrs : List Pin} {sizes : List Nat}
    (sources : List.Forall₂ (fun p size => Sourced cells assigns p (bitsNeeded (size - 1)))
      addrs sizes)
    (alike : exact → m.sizes = sizes) (guards : ∀ p ∈ select.pins, Sourced cells assigns p 1) :
    ∀ a ∈ requestWires m.cell addrs select, Clocked exact cells assigns group a := by
  intro a member
  rcases List.mem_append.mp member with address | enable
  · exact clocked_address stored sources alike (guards_both guards) a address
  · rw [List.mem_singleton.mp enable]
    cases stored with
    | memory found =>
      exact clocked_high found rfl (show "read_en" ∉ ["read_data", "read_done", "write_done"] by decide)
        List.mem_cons_self (guards_both guards)

theorem clocked_data (stored : Stored cells (.memory m)) {width : Nat}
    (isRegister : partOf? cells reg = some (.register width)) (wide : exact → m.width = width)
    (guards : ∀ p ∈ select.pins, Sourced cells assigns p 1) :
    ∀ a ∈ dataWires m.cell select reg, Clocked exact cells assigns group a := by
  cases stored with
  | memory found =>
    have ready : Sourced cells assigns (.cell m.cell "read_done") 1 :=
      .output found (List.mem_cons_of_mem _ List.mem_cons_self) nofun
    have data : Sourced cells assigns (.cell m.cell "read_data") m.width :=
      .output found List.mem_cons_self nofun
    intro a member
    rcases List.mem_cons.mp member with rfl | member
    · refine .port isRegister rfl (show "in" ∉ ["out", "done"] by decide) data ?_ (guards_both guards)
      intro known
      rw [wide known]
      exact List.mem_cons_self
    · rw [List.mem_singleton.mp member]
      refine clocked_high isRegister rfl (show "write_en" ∉ ["out", "done"] by decide)
        (List.mem_cons_of_mem _ List.mem_cons_self) ?_
      intro p inside
      rw [Guard.pins_both] at inside
      rcases List.mem_append.mp inside with selected | ended
      · exact guards_both guards p selected
      · rw [List.mem_singleton.mp ended]
        exact ready

/-- A memory and a register are different cells. -/
theorem Stored.memory_ne (stored : Stored cells (.memory m)) {name : String} {part : Part}
    (found : partOf? cells name = some part) (other : ∀ width sizes widths, part ≠ .memory width sizes widths) :
    m.cell ≠ name := by
  rintro rfl
  cases stored with
  | memory isMemory =>
    rw [found] at isMemory
    exact other _ _ _ (Option.some.inj isMemory)

theorem dst_requestWires (mem : String) (addrs : List Pin) (select : Guard) :
    ((requestWires mem addrs select).map (·.dst)).Nodup := by
  rw [requestWires, List.map_append]
  refine List.nodup_append.mpr ⟨dst_addressWires _ _ _, List.nodup_singleton _, ?_⟩
  rintro p address p' enable rfl
  obtain ⟨a, member, same⟩ := List.mem_map.mp address
  obtain ⟨k, _, _, rfl⟩ := mem_addressWires.mp member
  rw [List.mem_singleton.mp enable] at same
  injection same with _ port
  exact addressPort_ne (by decide) k port

/-- Where the wires of a request lead. -/
theorem cell_of_requestWires {mem : String} {addrs : List Pin} {a : Assignment}
    (member : a ∈ requestWires mem addrs select) : ∃ port, a.dst = .cell mem port := by
  rcases List.mem_append.mp member with address | enable
  · obtain ⟨k, _, _, rfl⟩ := mem_addressWires.mp address
    exact ⟨_, rfl⟩
  · rw [List.mem_singleton.mp enable]
    exact ⟨_, rfl⟩

end

/-! ### A read of one memory -/

/-- What must run before a group. -/
structure Hoisted (exact : Prop) (w : Workspace) (cs : List Control) (v : Workspace) : Prop where
  extends_ : Extends exact w v
  enabling : Enabling cs
  schedules : Schedules w cs v

/-- A construction that yields a source of `width` bits. -/
def LowersPin (exact : Prop) (env : Env) (width : Nat)
    (lower : Wiring → Build (Pin × Wiring)) : Prop :=
  ∀ w W pin W' v, w.Legal exact → LegalEnv w.cells env → LegalWiring w.cells env W →
    (lower W).run w = .ok ((pin, W'), v) →
    Lowered exact env w W v W' ∧ Sourced v.cells W'.assigns pin width

/-- A construction that yields one source for each dimension. -/
def LowersPins (exact : Prop) (env : Env) (lower : AddressLowering) : Prop :=
  ∀ sizes w W pins W' v, w.Legal exact → LegalEnv w.cells env → LegalWiring w.cells env W →
    (lower sizes W).run w = .ok ((pins, W'), v) →
    Lowered exact env w W v W' ∧
      List.Forall₂ (fun p size => Sourced v.cells W'.assigns p (bitsNeeded (size - 1))) pins sizes

section

variable {exact : Prop} {env : Env} {w v : Workspace} {W W' : Wiring} {s : Setting} {pos : Nat}
  {reg : String}

theorem memoryOf_ok {name : String} {m : Memory}
    (ran : (memoryOf env name).run w = .ok (m, v)) : env.get? name = some (.memory m) ∧ w = v := by
  unfold memoryOf at ran
  split at ran
  · next found =>
    cases ran
    exact ⟨found, rfl⟩
  · cases ran

theorem finishRead_hoisted {controls : List Control} (legal : w.Legal exact)
    (closed : ∀ group, LegalGroup exact w.cells
      ⟨group, some 2, (W.connect (.done group) (.cell reg "done")).assigns⟩)
    (ran : (finishRead s pos reg W).run w = .ok (controls, v)) :
    ∃ last, controls = W.before ++ last ∧ Hoisted exact w last v := by
  obtain ⟨group, between, named, ran⟩ := run_bind_ok_iff.mp ran
  cases ran
  obtain ⟨grown, groups⟩ :=
    Takes.addGroup (g := ⟨group, some 2, _⟩) (freshName_takes named) legal (closed group)
  have scheduled : Schedules w [s.enable group pos] { between with groups := between.groups ++ [_] } :=
    .enable (g := ⟨group, some 2, _⟩) rfl groups _
  refine ⟨_, rfl, grown.quote s pos, ?_, scheduled.quote s pos⟩
  intro c member
  rw [List.mem_singleton.mp member]
  exact ⟨group, _, rfl⟩

/-- The reads of the addresses, then the read itself. -/
theorem Lowered.hoisted {controls : List Control} (lowered : Lowered exact env w {} v W)
    {u : Workspace} (finished : ∃ last, controls = W.before ++ last ∧ Hoisted exact v last u) :
    Hoisted exact w controls u := by
  obtain ⟨cs, before, enabling, scheduled⟩ := lowered.before
  obtain ⟨last, rfl, hoisted⟩ := finished
  rw [List.nil_append] at before
  rw [before]
  refine ⟨lowered.extends_.trans hoisted.extends_, ?_, scheduled.trans hoisted.schedules⟩
  intro c member
  rcases List.mem_append.mp member with early | late
  · exact enabling c early
  · exact hoisted.enabling c late

/-- The wires of a read and of the end of its group. -/
def readWires (group mem : String) (addrs : List Pin) (reg : String) : List Assignment :=
  requestWires mem addrs .always ++ dataWires mem .always reg ++
    [⟨.done group, .pin (.cell reg "done"), .always⟩]

theorem capture_connect (W : Wiring) (group mem : String) (addrs : List Pin) (reg : String) :
    (W.capture mem addrs .always reg).connect (.done group) (.cell reg "done") =
      W.assignAll (readWires group mem addrs reg) := by
  rw [Wiring.capture_eq, readWires, Wiring.assignAll_append _ _ [_]]
  rfl

theorem legalGroup_read {cells : List Cell} (wired : LegalWiring cells env W) {m : Memory}
    {width : Nat} (stored : Stored cells (.memory m))
    (isRegister : partOf? cells reg = some (.register width)) (wide : exact → m.width = width)
    {addrs : List Pin}
    (sources : List.Forall₂ (fun p size => Sourced cells W.assigns p (bitsNeeded (size - 1)))
      addrs m.sizes) (group : String) :
    (W.assignAll (readWires group m.cell addrs reg)).assigns =
        W.assigns ++ readWires group m.cell addrs reg ∧
      LegalGroup exact cells ⟨group, some 2, W.assigns ++ readWires group m.cell addrs reg⟩ := by
  have more : W.assigns ⊆ W.assigns ++ readWires group m.cell addrs reg :=
    List.subset_append_left _ _
  refine legalGroup_of_clocked wired ?_ ?_ _
  · intro a member
    rcases List.mem_append.mp member with member | ended
    · rcases List.mem_append.mp member with request | data
      · exact clocked_request stored (sources.imp fun _ _ source => source.mono List.prefix_rfl more)
          (fun _ => rfl) (List.forall_mem_nil _) a request
      · exact clocked_data stored isRegister wide (List.forall_mem_nil _) a data
    · rw [List.mem_singleton.mp ended]
      exact .done (.output isRegister (List.mem_cons_of_mem _ List.mem_cons_self) nofun)
  · have different : m.cell ≠ reg := stored.memory_ne isRegister nofun
    rw [readWires, List.append_assoc, List.map_append]
    refine List.nodup_append.mpr ⟨dst_requestWires _ _ _, ?_, ?_⟩
    · simp [dataWires, Pin.done]
    · rintro p request p' others rfl
      obtain ⟨a, member, rfl⟩ := List.mem_map.mp request
      obtain ⟨port, same⟩ := cell_of_requestWires member
      simp [same, dataWires, Pin.done, different] at others

theorem readMemory_hoisted {mem : String} {addresses : AddressLowering} {controls : List Control}
    {width : Nat} (legal : w.Legal exact) (named : LegalEnv w.cells env)
    (lowers : LowersPins exact env addresses)
    (isRegister : partOf? w.cells reg = some (.register width))
    (wide : exact → ∀ m, env.get? mem = some (.memory m) → m.width = width)
    (ran : (readMemory s env pos reg mem addresses).run w = .ok (controls, v)) :
    Hoisted exact w controls v := by
  obtain ⟨m, _, looked, ran⟩ := run_bind_ok_iff.mp ran
  obtain ⟨found, rfl⟩ := memoryOf_ok looked
  obtain ⟨⟨addrs, W⟩, between, addressed, ran⟩ := run_bind_ok_iff.mp ran
  obtain ⟨lowered, sources⟩ := lowers _ _ _ _ _ _ legal named (legalWiring_empty _ _) addressed
  have grown := lowered.extends_
  have finished := finishRead_hoisted grown.legal (by
    intro group
    obtain ⟨assigns, closed⟩ := legalGroup_read lowered.wired
      ((named.stored mem _ found).mono grown.cells) (partOf?_of_isPrefix grown.cells isRegister)
      (fun known => wide known m found) sources group
    rw [capture_connect, assigns]
    exact closed) ran
  rw [Wiring.capture_eq, Wiring.before_assignAll] at finished
  exact lowered.hoisted finished

end

/-! ### A read of several memories -/

/-- One memory of several: its comparison with the select, and the constant of its number. -/
structure BankWire where
  mem : Memory
  eq : String
  const : String

namespace BankWire

variable (reg : String) (select : Pin) (addrs : List Pin) (b : BankWire)

/-- The wires of the comparison, and of the request to the memory. -/
def asks : List Assignment :=
  [⟨.cell b.eq "left", .pin select, .always⟩, ⟨.cell b.eq "right", .pin (.out b.const), .always⟩] ++
    requestWires b.mem.cell addrs (.pin (.out b.eq))

def wires : List Assignment := b.asks select addrs ++ dataWires b.mem.cell (.pin (.out b.eq)) reg

end BankWire

/-- The comparison of the select with `number`. -/
structure Compares (cells : List Cell) (width : Nat) (select : Pin) (b : BankWire) (number : Nat) :
    Prop where
  isEq : partOf? cells b.eq = some (.operator .eq width)
  isConst : partOf? cells b.const = some (.constant width number)
  earlier : Earlier cells b.eq select

theorem Compares.mono {cells cells' : List Cell} (grown : cells <+: cells') {width number : Nat}
    {select : Pin} {b : BankWire} (compares : Compares cells width select b number) :
    Compares cells' width select b number :=
  ⟨partOf?_of_isPrefix grown compares.isEq, partOf?_of_isPrefix grown compares.isConst,
    compares.earlier.mono grown (mem_of_partOf? compares.isEq)⟩

/-- Targets and guards name only the given cells. -/
def Within (names : List String) (wires : List Assignment) : Prop :=
  ∀ a ∈ wires, ∀ p ∈ a.dst :: a.guard.pins, ∀ name ∈ p.cellName?, name ∈ names

section

variable {reg : String} {select : Pin} {addrs : List Pin} {b : BankWire}

theorem guard_requestWires {mem : String} {guard : Guard} {a : Assignment}
    (member : a ∈ requestWires mem addrs guard) : a.guard = (Guard.cycle 0).both guard := by
  rcases List.mem_append.mp member with address | enable
  · obtain ⟨_, _, _, rfl⟩ := mem_addressWires.mp address
    rfl
  · rw [List.mem_singleton.mp enable]

/-- Every wire of a bank names the comparison as its target or in its guard. -/
theorem BankWire.names_eq {a : Assignment} (member : a ∈ b.wires reg select addrs) :
    ∃ p ∈ a.dst :: a.guard.pins, p.cellName? = some b.eq := by
  rcases List.mem_append.mp member with asks | data
  · rcases List.mem_append.mp asks with compared | request
    · rcases List.mem_cons.mp compared with rfl | compared
      · exact ⟨_, List.mem_cons_self, rfl⟩
      · rw [List.mem_singleton.mp compared]
        exact ⟨_, List.mem_cons_self, rfl⟩
    · refine ⟨.out b.eq, List.mem_cons_of_mem _ ?_, rfl⟩
      rw [guard_requestWires request, Guard.pins_both]
      exact List.mem_cons_self
  · refine ⟨.out b.eq, List.mem_cons_of_mem _ ?_, rfl⟩
    rcases List.mem_cons.mp data with rfl | data
    · exact List.mem_cons_self
    · rw [List.mem_singleton.mp data]
      exact List.mem_cons_self

theorem BankWire.within {names : List String} (eq : b.eq ∈ names) (mem : b.mem.cell ∈ names)
    (reg_ : reg ∈ names) : Within names (b.wires reg select addrs) := by
  intro a member p inside name isCell
  rcases List.mem_append.mp member with asks | data
  · rcases List.mem_append.mp asks with compared | request
    · rcases List.mem_cons.mp compared with rfl | compared
      · rw [List.mem_singleton.mp inside] at isCell
        cases isCell
        exact eq
      · rw [List.mem_singleton.mp compared] at inside
        rw [List.mem_singleton.mp inside] at isCell
        cases isCell
        exact eq
    · obtain ⟨port, dst⟩ := cell_of_requestWires request
      rw [dst, guard_requestWires request, Guard.pins_both] at inside
      rcases List.mem_cons.mp inside with rfl | guarded
      · cases isCell
        exact mem
      · rw [List.mem_singleton.mp guarded] at isCell
        cases isCell
        exact eq
  · have pins : p ∈ [.cell reg "in", .cell reg "write_en", .out b.eq, .cell b.mem.cell "read_done"] := by
      rcases List.mem_cons.mp data with rfl | data
      · rcases List.mem_cons.mp inside with rfl | guarded
        · exact List.mem_cons_self
        · rw [List.mem_singleton.mp guarded]
          simp
      · rw [List.mem_singleton.mp data] at inside
        rcases List.mem_cons.mp inside with rfl | guarded
        · simp
        · simpa [Guard.both, Guard.pins] using .inr (.inr (by simpa [Guard.both, Guard.pins] using guarded))
    simp only [List.mem_cons, List.not_mem_nil, or_false] at pins
    rcases pins with rfl | rfl | rfl | rfl <;> cases isCell
    · exact reg_
    · exact reg_
    · exact eq
    · exact mem

theorem BankWire.dst_asks (different : b.mem.cell ≠ b.eq) :
    ((b.asks select addrs).map (·.dst)).Nodup := by
  rw [asks, List.map_append]
  refine List.nodup_append.mpr ⟨by simp, dst_requestWires _ _ _, ?_⟩
  rintro p compared p' request rfl
  obtain ⟨a, member, rfl⟩ := List.mem_map.mp request
  obtain ⟨port, same⟩ := cell_of_requestWires member
  simp [same, different] at compared

/-- Where the wires of a comparison and a request lead. -/
theorem BankWire.cell_of_asks {a : Assignment} (member : a ∈ b.asks select addrs) :
    ∃ name port, a.dst = .cell name port ∧ (name = b.eq ∨ name = b.mem.cell) := by
  rcases List.mem_append.mp member with compared | request
  · simp only [List.mem_cons, List.not_mem_nil, or_false] at compared
    rcases compared with rfl | rfl
    · exact ⟨_, _, rfl, .inl rfl⟩
    · exact ⟨_, _, rfl, .inl rfl⟩
  · obtain ⟨port, same⟩ := cell_of_requestWires request
    exact ⟨_, port, same, .inr rfl⟩

theorem BankWire.dst_wires (different : b.mem.cell ≠ b.eq) (memory : b.mem.cell ≠ reg)
    (eq : b.eq ≠ reg) : ((b.wires reg select addrs).map (·.dst)).Nodup := by
  rw [wires, List.map_append]
  refine List.nodup_append.mpr ⟨dst_asks different, by simp [dataWires], ?_⟩
  rintro p asked p' captured rfl
  obtain ⟨a, member, rfl⟩ := List.mem_map.mp asked
  obtain ⟨name, port, same, isEq | isMem⟩ := cell_of_asks member
  · simp [same, isEq, eq, dataWires] at captured
  · simp [same, isMem, memory, dataWires] at captured

end

section

variable {exact : Prop} {env : Env} {w v : Workspace} {W W' : Wiring} {reg : String} {select : Pin}
  {width : Nat} {addrs : List Pin}

theorem LegalWiring.within {cells : List Cell} (wired : LegalWiring cells env W) :
    Within (cells.map (·.name)) W.assigns := by
  intro a member p inside name isCell
  cases wired.links a member with
  | wire found =>
    rw [List.mem_singleton.mp inside] at isCell
    cases isCell
    exact mem_of_partOf? found

/-- What the wires of several memories are made of. -/
structure Captures (exact : Prop) (env : Env) (w : Workspace) (W : Wiring) (reg : String)
    (select : Pin) (width : Nat) (addrs : List Pin) (first : Nat) (banks : List String)
    (entries : List BankWire) (v : Workspace) (W' : Wiring) : Prop where
  extends_ : Extends exact w v
  groups : v.groups = w.groups
  assigns : W'.assigns = W.assigns ++ entries.flatMap (·.wires reg select addrs)
  before : W'.before = W.before
  memories : List.Forall₂ (fun bank b => env.get? bank = some (.memory b.mem)) banks entries
  numbered : List.Forall₂ (Compares v.cells width select) entries
    (List.range' first banks.length)
  distinct : (entries.map (·.eq)).Nodup
  new : ∀ b ∈ entries, b.eq ∉ w.names.used

theorem captureBanks_captures {assigns : List Assignment} {k : Nat} {banks : List String}
    (legal : w.Legal exact) (named : LegalEnv w.cells env) (within : Within w.cellNames W.assigns)
    {bits : Nat} (isRegister : partOf? w.cells reg = some (.register bits))
    (source : Sourced w.cells assigns select width)
    (fits : k + banks.length ≤ Word.capacity width)
    (ran : (captureBanks env reg select width addrs W k banks).run w = .ok (W', v)) :
    ∃ entries, Captures exact env w W reg select width addrs k banks entries v W' := by
  induction banks generalizing w W k with
  | nil =>
    cases ran
    exact ⟨[], legal.extends_refl, rfl, (List.append_nil _).symm, rfl, .nil, .nil, List.nodup_nil,
      nofun⟩
  | cons bank banks ih =>
    obtain ⟨m, _, looked, ran⟩ := run_bind_ok_iff.mp ran
    obtain ⟨found, rfl⟩ := memoryOf_ok looked
    obtain ⟨eq, compared, added, ran⟩ := run_bind_ok_iff.mp ran
    obtain ⟨number, counted, constant, ran⟩ := run_bind_ok_iff.mp ran
    have installs := addPrimitive_installs (.operator .eq width) legal rfl nofun added
    rw [List.length_cons] at fits
    obtain ⟨grown, groups, const, rfl, isConst⟩ :=
      constant_legal installs.extends_.legal (by
        intro _ _
        omega) constant
    have built := installs.extends_.trans grown
    have stored := named.stored bank _ found
    have inEq : eq ∈ counted.cellNames := grown.cellNames (mem_of_partOf? installs.found)
    have inMem : m.cell ∈ w.cellNames := stored.mem _ List.mem_cons_self
    have notEq (name : String) (member : name ∈ w.cellNames) : name ≠ eq :=
      fun same => legal.not_cell installs.new (same ▸ member)
    have inReg : reg ∈ w.cellNames := mem_of_partOf? isRegister
    have memory : m.cell ≠ reg := stored.memory_ne isRegister nofun
    have fresh (a : Assignment) (member : a ∈ BankWire.wires reg select addrs ⟨m, eq, const⟩) :
        a ∉ W.assigns := by
      intro present
      obtain ⟨p, mentioned, isEq⟩ := BankWire.names_eq member
      exact notEq eq (within a present p mentioned eq isEq) rfl
    have wires : ((((W.connect (.cell eq "left") select).connect (.cell eq "right")
        (.out const)).capture m.cell addrs (.pin (.out eq)) reg)) =
        W.assignAll (BankWire.wires reg select addrs ⟨m, eq, const⟩) := by
      rw [Wiring.capture_eq, BankWire.wires, BankWire.asks, List.append_assoc,
        Wiring.assignAll_append _ [_, _]]
      rfl
    have assigned := Wiring.assigns_assignAll fresh
      (BankWire.dst_wires (notEq _ inMem) memory (notEq _ inReg).symm).of_map
    dsimp only at ran
    rw [wires] at ran
    obtain ⟨entries, captures⟩ := ih grown.legal (named.mono built.cells) (by
        rw [assigned]
        intro a member
        rcases List.mem_append.mp member with old | new
        · intro p inside name isCell
          exact built.cellNames (within a old p inside name isCell)
        · exact BankWire.within inEq (built.cellNames inMem) (built.cellNames inReg) a new)
      (partOf?_of_isPrefix built.cells isRegister)
      (source.mono built.cells (List.Subset.refl _)) (by omega) ran
    have later := captures.extends_
    have compares : Compares v.cells width select ⟨m, eq, const⟩ k :=
      Compares.mono later.cells ⟨partOf?_of_isPrefix grown.cells installs.found, isConst,
        (source.earlier installs).mono grown.cells (mem_of_partOf? installs.found)⟩
    refine ⟨⟨m, eq, const⟩ :: entries, built.trans later, ?_, ?_, ?_, .cons found captures.memories,
      .cons compares captures.numbered, ?_, ?_⟩
    · rw [captures.groups, groups, installs.groups]
    · rw [captures.assigns, assigned, List.append_assoc, List.flatMap_cons]
    · rw [captures.before, Wiring.before_assignAll]
    · refine List.nodup_cons.mpr ⟨?_, captures.distinct⟩
      intro member
      obtain ⟨b, inside, same⟩ := List.mem_map.mp member
      exact captures.new b inside (same ▸ grown.legal.used (List.mem_append_left _ inEq))
    · intro b member
      rcases List.mem_cons.mp member with rfl | member
      · exact installs.new
      · exact fun used => captures.new b member (built.used used)

/-- Memories of different names are different cells. -/
theorem Captures.cells_distinct {first : Nat} {banks : List String} {entries : List BankWire}
    (captures : Captures exact env w W reg select width addrs first banks entries v W')
    (named : LegalEnv w.cells env) (distinct : banks.Nodup) :
    (entries.map (·.mem.cell)).Nodup := by
  have memories := captures.memories
  clear captures
  induction memories with
  | nil => exact List.nodup_nil
  | @cons bank b banks entries found others ih =>
    obtain ⟨once, distinct⟩ := List.nodup_cons.mp distinct
    refine List.nodup_cons.mpr ⟨?_, ih distinct⟩
    intro member
    obtain ⟨b', inside, same⟩ := List.mem_map.mp member
    obtain ⟨k, lt, rfl⟩ := List.getElem_of_mem inside
    have counted := others.length_eq
    have paired := (List.forall₂_iff_get.mp others).2 k (counted ▸ lt) lt
    have same : bank = banks[k] := named.apart bank _ _ _ found paired b.mem.cell
      List.mem_cons_self (List.mem_singleton.mpr same.symm)
    exact once (same ▸ List.getElem_mem _)

end

/-- Only the wires of data lead into the register. -/
theorem filter_dataWires {p : Pin} {entries : List BankWire} {reg : String} {select : Pin}
    {addrs : List Pin} (apart : ∀ b ∈ entries, b.eq ≠ reg ∧ b.mem.cell ≠ reg)
    (isPort : p = .cell reg "in" ∨ p = .cell reg "write_en") :
    (entries.flatMap (·.wires reg select addrs)).filter (·.dst = p) =
      entries.flatMap fun b => (dataWires b.mem.cell (.pin (.out b.eq)) reg).filter (·.dst = p) := by
  rw [List.filter_flatMap]
  refine List.flatMap_congr ?_
  intro b member
  obtain ⟨notEq, notMem⟩ := apart b member
  have none : (b.asks select addrs).filter (·.dst = p) = [] := by
    rw [List.filter_eq_nil_iff]
    intro a inside same
    obtain ⟨name, port, dst, which⟩ := BankWire.cell_of_asks inside
    have target : name = reg := by
      rcases isPort with rfl | rfl <;> simp [dst] at same <;> exact same.1
    rcases which with rfl | rfl
    · exact notEq target
    · exact notMem target
  rw [BankWire.wires, List.filter_append, none, List.nil_append]

/-- No other wire does. -/
theorem filter_asks {p : Pin} {entries : List BankWire} {reg : String} {select : Pin}
    {addrs : List Pin} (other : p ≠ .cell reg "in" ∧ p ≠ .cell reg "write_en") :
    (entries.flatMap (·.wires reg select addrs)).filter (·.dst = p) =
      (entries.flatMap (·.asks select addrs)).filter (·.dst = p) := by
  rw [List.filter_flatMap, List.filter_flatMap]
  refine List.flatMap_congr ?_
  intro b _
  have none : (dataWires b.mem.cell (.pin (.out b.eq)) reg).filter (·.dst = p) = [] := by
    simp [dataWires, Ne.symm other.1, Ne.symm other.2]
  rw [BankWire.wires, List.filter_append, none, List.append_nil]

theorem exists_of_forall₂ {α β : Type} {R : α → β → Prop} {as : List α} {bs : List β}
    (related : List.Forall₂ R as bs) : ∀ a ∈ as, ∃ b, R a b := by
  induction related with
  | nil => exact nofun
  | cons first _ ih =>
    intro a member
    rcases List.mem_cons.mp member with rfl | member
    · exact ⟨_, first⟩
    · exact ih a member

section

variable {exact : Prop} {env : Env} {w v : Workspace} {W W' : Wiring} {reg : String} {select : Pin}
  {width bits first : Nat} {addrs : List Pin} {sizes : List Nat} {banks : List String}
  {entries : List BankWire}

/-- Every wire of a read of several memories is legal. -/
theorem Captures.links
    (captures : Captures exact env w W reg select width addrs first banks entries v W')
    (named : LegalEnv w.cells env) (isRegister : partOf? w.cells reg = some (.register bits))
    {assigns : List Assignment} (inside : W.assigns ⊆ assigns)
    (wired : ∀ b ∈ entries, b.wires reg select addrs ⊆ assigns)
    (source : Sourced w.cells W.assigns select width)
    (sources : List.Forall₂ (fun p size => Sourced w.cells W.assigns p (bitsNeeded (size - 1)))
      addrs sizes)
    (alike : exact → ∀ b ∈ entries, b.mem.sizes = sizes ∧ b.mem.width = bits) (group : String) :
    ∀ b ∈ entries, ∀ a ∈ b.wires reg select addrs, Link exact v.cells assigns group a := by
  intro b member a wire
  have grown := captures.extends_.cells
  obtain ⟨number, isEq, isConst, earlier⟩ := exists_of_forall₂ captures.numbered b member
  have stored : Stored v.cells (.memory b.mem) := by
    obtain ⟨bank, found⟩ := exists_of_forall₂ captures.memories.flip b member
    exact (named.stored bank _ found).mono grown
  have left : ⟨.cell b.eq "left", .pin select, .always⟩ ∈ assigns :=
    wired b member (List.mem_append_left _ (List.mem_append_left _ List.mem_cons_self))
  have right : ⟨.cell b.eq "right", .pin (.out b.const), .always⟩ ∈ assigns :=
    wired b member (List.mem_append_left _ (List.mem_append_left _
      (List.mem_cons_of_mem _ List.mem_cons_self)))
  have selected : ∀ p ∈ (Guard.pin (.out b.eq)).pins, Sourced v.cells assigns p 1 := by
    intro p isOut
    rw [List.mem_singleton.mp isOut]
    refine .output isEq List.mem_cons_self ?_
    intro _ input isInput
    simp only [Part.inputs, List.mem_cons, List.not_mem_nil, or_false] at isInput
    rcases isInput with rfl | rfl
    · exact ⟨_, left⟩
    · exact ⟨_, right⟩
  rcases List.mem_append.mp wire with asks | data
  · rcases List.mem_append.mp asks with compared | request
    · simp only [List.mem_cons, List.not_mem_nil, or_false] at compared
      rcases compared with rfl | rfl
      · exact .inl (.wire isEq rfl List.mem_cons_self (source.mono grown inside) earlier)
      · exact .inl (.wire isEq rfl (List.mem_cons_of_mem _ List.mem_cons_self) (.constant isConst)
          (.output _ isConst fun _ => .inl rfl))
    · exact .inr (clocked_request stored (sources.imp fun _ _ source => source.mono grown inside)
        (fun known => (alike known b member).1) selected a request)
  · exact .inr (clocked_data stored (partOf?_of_isPrefix grown isRegister)
      (fun known => (alike known b member).2) selected a data)

/-- Outside of the register, no pin is driven twice. -/
theorem Captures.dst_distinct
    (captures : Captures exact env w W reg select width addrs first banks entries v W')
    (legal : w.Legal exact) (named : LegalEnv w.cells env) (wired : LegalWiring w.cells env W)
    (distinct : banks.Nodup) (group : String) :
    ((W.assigns ++ entries.flatMap (·.asks select addrs) ++
      [⟨.done group, .pin (.cell reg "done"), .always⟩] : List Assignment).map (·.dst)).Nodup := by
  have isMemory (b : BankWire) (member : b ∈ entries) : Stored w.cells (.memory b.mem) := by
    obtain ⟨bank, found⟩ := exists_of_forall₂ captures.memories.flip b member
    exact named.stored bank _ found
  have notEq (b : BankWire) (member : b ∈ entries) : b.eq ∉ w.cellNames :=
    legal.not_cell (captures.new b member)
  have apart (b : BankWire) (member : b ∈ entries) (b' : BankWire) (member' : b' ∈ entries) :
      b.mem.cell ≠ b'.eq := fun same =>
    notEq b' member' (same ▸ (isMemory b member).mem _ List.mem_cons_self)
  have cells := captures.cells_distinct named distinct
  have asks : ((entries.flatMap (·.asks select addrs)).map (·.dst)).Nodup := by
    rw [List.map_flatMap, List.nodup_flatMap]
    refine ⟨fun b member => BankWire.dst_asks (apart b member b member), ?_⟩
    have eqs := captures.distinct
    rw [List.Nodup, List.pairwise_map] at eqs cells
    refine (eqs.and cells).imp_of_mem ?_
    intro b b' member member' different p here there
    obtain ⟨a, inside, rfl⟩ := List.mem_map.mp here
    obtain ⟨a', inside', same⟩ := List.mem_map.mp there
    obtain ⟨name, port, dst, which⟩ := BankWire.cell_of_asks inside
    obtain ⟨name', port', dst', which'⟩ := BankWire.cell_of_asks inside'
    rw [dst, dst'] at same
    injection same with same
    rcases which with isEq | isMem <;> rcases which' with isEq' | isMem'
    · exact different.1 (isEq.symm.trans (same.symm.trans isEq'))
    · exact apart b' member' b member (isMem'.symm.trans (same.trans isEq))
    · exact apart b member b' member' (isMem.symm.trans (same.symm.trans isEq'))
    · exact different.2 (isMem.symm.trans (same.symm.trans isMem'))
  rw [List.map_append, List.map_append]
  refine List.nodup_append.mpr ⟨List.nodup_append.mpr ⟨wired.distinct, asks, ?_⟩,
    List.nodup_singleton _, ?_⟩
  · rintro p inner p' outer rfl
    obtain ⟨a, inside, rfl⟩ := List.mem_map.mp outer
    obtain ⟨b, member, inside⟩ := List.mem_flatMap.mp inside
    obtain ⟨name, port, dst, which⟩ := BankWire.cell_of_asks inside
    rw [dst] at inner
    refine wired.not_driven ?_ port inner
    intro part found
    rcases which with rfl | rfl
    · exact absurd (mem_of_partOf? found) (notEq b member)
    · cases isMemory b member with
      | memory isMemory =>
        rw [isMemory] at found
        cases found
        rfl
  · rintro p driven p' ended rfl
    rw [List.mem_singleton.mp ended] at driven
    rcases List.mem_append.mp driven with inner | outer
    · exact wired.not_done _ _ inner
    · obtain ⟨a, inside, same⟩ := List.mem_map.mp outer
      obtain ⟨b, member, inside⟩ := List.mem_flatMap.mp inside
      obtain ⟨name, port, dst, _⟩ := BankWire.cell_of_asks inside
      rw [dst] at same
      cases same

/-- The drivers of the register are told apart by the select. -/
theorem Captures.multiplexed
    (captures : Captures exact env w W reg select width addrs first banks entries v W')
    (legal : w.Legal exact) (named : LegalEnv w.cells env) (wired : LegalWiring w.cells env W)
    (isRegister : partOf? w.cells reg = some (.register bits)) {g : Group} {p : Pin}
    (assigned : g.assignments = W'.assigns ++ [⟨.done g.name, .pin (.cell reg "done"), .always⟩])
    (isPort : p = .cell reg "in" ∨ p = .cell reg "write_en") : g.Multiplexed v.cells p := by
  have grown := captures.extends_.cells
  have apart (b : BankWire) (member : b ∈ entries) : b.eq ≠ reg ∧ b.mem.cell ≠ reg := by
    obtain ⟨bank, found⟩ := exists_of_forall₂ captures.memories.flip b member
    exact ⟨fun same => legal.not_cell (captures.new b member) (same ▸ mem_of_partOf? isRegister),
      (named.stored bank _ found).memory_ne isRegister nofun⟩
  have wires (b : BankWire) (member : b ∈ entries) : b.wires reg select addrs ⊆ g.assignments := by
    intro a inside
    rw [assigned, captures.assigns]
    exact List.mem_append_left _ (List.mem_append_right _ (List.mem_flatMap.mpr ⟨b, member, inside⟩))
  have drivers (q : Pin) (isPort : q = .cell reg "in" ∨ q = .cell reg "write_en") :
      g.drivers q = entries.flatMap fun b =>
        (dataWires b.mem.cell (.pin (.out b.eq)) reg).filter (·.dst = q) := by
    have inner : W.assigns.filter (·.dst = q) = [] := by
      rw [List.filter_eq_nil_iff]
      intro a inside same
      have driven : q ∈ W.assigns.map (·.dst) :=
        List.mem_map.mpr ⟨a, inside, of_decide_eq_true same⟩
      rcases isPort with rfl | rfl <;>
      · refine wired.not_driven ?_ _ driven
        intro part found
        rw [isRegister] at found
        cases found
        rfl
    have ended : ([⟨.done g.name, .pin (.cell reg "done"), .always⟩] : List Assignment).filter
        (·.dst = q) = [] := by
      rcases isPort with rfl | rfl <;> rfl
    rw [Group.drivers, assigned, captures.assigns, List.filter_append, List.filter_append, inner,
      ended, List.append_nil, List.nil_append, filter_dataWires apart isPort]
  refine ⟨reg, bits, select, List.range' first banks.length, partOf?_of_isPrefix grown isRegister,
    isPort, ?_, List.nodup_range' 1 (by decide), ?_⟩
  · intro a member
    rw [drivers _ (.inl rfl)] at member
    obtain ⟨b, inside, member⟩ := List.mem_flatMap.mp member
    obtain ⟨bank, found⟩ := exists_of_forall₂ captures.memories.flip b inside
    cases named.stored bank _ found with
    | memory isMemory =>
      simp [dataWires] at member
      rw [member]
      exact ⟨_, _, _, _, rfl, partOf?_of_isPrefix grown isMemory⟩
  · obtain ⟨data, driven, guarded⟩ : ∃ data : BankWire → Assignment,
        (∀ b : BankWire, (dataWires b.mem.cell (.pin (.out b.eq)) reg).filter (·.dst = p) = [data b]) ∧
        ∀ b, .out b.eq ∈ (data b).guard.pins := by
      rcases isPort with rfl | rfl
      · exact ⟨fun b => ⟨.cell reg "in", .pin (.cell b.mem.cell "read_data"), _⟩,
          fun b => by simp [dataWires]; rfl, fun b => List.mem_cons_self⟩
      · exact ⟨fun b => ⟨.cell reg "write_en", .high, _⟩,
          fun b => by simp [dataWires]; rfl, fun b => List.mem_cons_self⟩
    have listed : g.drivers p = entries.map data := by
      rw [drivers p isPort, List.flatMap_congr fun b _ => driven b, List.map_eq_flatMap]
    rw [listed, List.forall₂_map_left_iff]
    have inside : ∀ b ∈ entries, ∀ number, Compares v.cells width select b number →
        g.Selects v.cells select (data b) number := by
      intro b member number compares
      refine ⟨b.eq, b.const, width, guarded b, compares.isEq, ?_, ?_, compares.isConst⟩
      · exact wires b member (List.mem_append_left _ (List.mem_append_left _ List.mem_cons_self))
      · exact wires b member (List.mem_append_left _ (List.mem_append_left _
          (List.mem_cons_of_mem _ List.mem_cons_self)))
    have numbered := (List.forall₂_and_left entries _).mpr
      ⟨fun b (member : b ∈ entries) => member, captures.numbered⟩
    exact numbered.imp fun b number related => inside b related.1 number related.2

theorem Captures.legalGroup
    (captures : Captures exact env w W reg select width addrs first banks entries v W')
    (legal : w.Legal exact) (named : LegalEnv w.cells env) (wired : LegalWiring w.cells env W)
    (isRegister : partOf? w.cells reg = some (.register bits)) (distinct : banks.Nodup)
    (source : Sourced w.cells W.assigns select width)
    (sources : List.Forall₂ (fun p size => Sourced w.cells W.assigns p (bitsNeeded (size - 1)))
      addrs sizes)
    (alike : exact → ∀ b ∈ entries, b.mem.sizes = sizes ∧ b.mem.width = bits) (group : String) :
    LegalGroup exact v.cells
      ⟨group, some 2, (W'.connect (.done group) (.cell reg "done")).assigns⟩ := by
  have grown := captures.extends_.cells
  have apart := captures.dst_distinct legal named wired distinct group
  have new : (⟨.done group, .pin (.cell reg "done"), .always⟩ : Assignment) ∉ W'.assigns := by
    rw [captures.assigns]
    intro member
    rcases List.mem_append.mp member with inner | outer
    · exact wired.not_done _ _ (List.mem_map.mpr ⟨_, inner, rfl⟩)
    · obtain ⟨b, _, inside⟩ := List.mem_flatMap.mp outer
      rcases List.mem_append.mp inside with asks | data
      · obtain ⟨_, _, dst, _⟩ := BankWire.cell_of_asks asks
        cases dst
      · simp [dataWires, Pin.done] at data
  have assigned : (W'.connect (.done group) (.cell reg "done")).assigns =
      W'.assigns ++ [⟨.done group, .pin (.cell reg "done"), .always⟩] :=
    Wiring.assigns_assign new
  rw [assigned]
  constructor
  · intro a member
    have inside : W.assigns ⊆ W'.assigns ++ [⟨.done group, .pin (.cell reg "done"), .always⟩] := by
      rw [captures.assigns]
      exact fun _ old => List.mem_append_left _ (List.mem_append_left _ old)
    have wires (b : BankWire) (isEntry : b ∈ entries) : b.wires reg select addrs ⊆
        W'.assigns ++ [⟨.done group, .pin (.cell reg "done"), .always⟩] := by
      rw [captures.assigns]
      exact fun _ wire => List.mem_append_left _ (List.mem_append_right _
        (List.mem_flatMap.mpr ⟨b, isEntry, wire⟩))
    rcases List.mem_append.mp member with member | ended
    · rw [captures.assigns] at member
      rcases List.mem_append.mp member with inner | outer
      · exact .inl ((wired.links a inner).mono grown inside)
      · obtain ⟨b, isEntry, wire⟩ := List.mem_flatMap.mp outer
        exact captures.links named isRegister inside wires source sources alike group b isEntry a wire
    · rw [List.mem_singleton.mp ended]
      exact .inr (.done (.output (partOf?_of_isPrefix grown isRegister)
        (List.mem_cons_of_mem _ List.mem_cons_self) nofun))
  · intro p
    by_cases isPort : p = .cell reg "in" ∨ p = .cell reg "write_en"
    · exact .inr (captures.multiplexed legal named wired isRegister rfl isPort)
    · refine .inl ?_
      have once := length_drivers_le apart p
      rw [List.filter_append, List.filter_append] at once
      rw [Group.drivers, captures.assigns, List.filter_append, List.filter_append,
        filter_asks (not_or.mp isPort)]
      exact once

/-- The stages of a read of several memories: the select, the addresses, the captures, and the end of
the group. -/
theorem readBanks_ok {s : Setting} {pos : Nat} {selecting : Nat → Wiring → Build (Pin × Wiring)}
    {addresses : AddressLowering} {controls : List Control} (legal : w.Legal exact)
    (named : LegalEnv w.cells env) (lowersSelect : ∀ width, LowersPin exact env width (selecting width))
    (lowers : LowersPins exact env addresses)
    (isRegister : partOf? w.cells reg = some (.register bits))
    (ran : (readBanks s env pos reg banks selecting addresses).run w = .ok (controls, v)) :
    ∃ bank ∈ banks, ∃ m select W chosen addrs W' placed entries W'' captured,
      env.get? bank = some (.memory m) ∧
      (selecting (bitsNeeded (banks.length - 1)) {}).run w = .ok ((select, W), chosen) ∧
      (addresses m.sizes W).run chosen = .ok ((addrs, W'), placed) ∧
      Captures exact env placed W' reg select (bitsNeeded (banks.length - 1)) addrs 0 banks entries
        captured W'' ∧
      (finishRead s pos reg W'').run captured = .ok (controls, v) := by
  cases banks with
  | nil => cases ran
  | cons bank banks =>
    obtain ⟨m, _, looked, ran⟩ := run_bind_ok_iff.mp ran
    obtain ⟨found, rfl⟩ := memoryOf_ok looked
    obtain ⟨last, _, subtracted, ran⟩ := run_bind_ok_iff.mp ran
    obtain ⟨counted, rfl⟩ := run_lift_ok_iff.mp subtracted
    obtain ⟨_, rfl⟩ := Word.sub_eq_ok_iff.mp counted
    obtain ⟨⟨select, W⟩, chosen, selected, ran⟩ := run_bind_ok_iff.mp ran
    obtain ⟨⟨addrs, W'⟩, placed, addressed, ran⟩ := run_bind_ok_iff.mp ran
    obtain ⟨W'', captured, wires, ran⟩ := run_bind_ok_iff.mp ran
    obtain ⟨lowered, source⟩ :=
      lowersSelect _ _ _ _ _ _ legal named (legalWiring_empty _ _) selected
    obtain ⟨lowered', _⟩ := lowers _ _ _ _ _ _ lowered.extends_.legal
      (named.mono lowered.extends_.cells) lowered.wired addressed
    have grown := lowered.extends_.trans lowered'.extends_
    have inside : 0 + (bank :: banks).length ≤
        Word.capacity (bitsNeeded ((bank :: banks).length - 1)) := by
      have fits := lt_capacity_bitsNeeded ((bank :: banks).length - 1)
      rw [List.length_cons] at fits ⊢
      omega
    obtain ⟨entries, captures⟩ := captureBanks_captures grown.legal (named.mono grown.cells)
      lowered'.wired.within (partOf?_of_isPrefix grown.cells isRegister)
      (source.mono lowered'.extends_.cells lowered'.more) inside wires
    exact ⟨bank, List.mem_cons_self, m, select, W, chosen, addrs, W', placed, entries, W'', captured,
      found, selected, addressed, captures, ran⟩

theorem readBanks_hoisted {s : Setting} {pos : Nat} {selecting : Nat → Wiring → Build (Pin × Wiring)}
    {addresses : AddressLowering} {controls : List Control} (legal : w.Legal exact)
    (named : LegalEnv w.cells env) (lowersSelect : ∀ width, LowersPin exact env width (selecting width))
    (lowers : LowersPins exact env addresses) (distinct : banks.Nodup)
    (isRegister : partOf? w.cells reg = some (.register bits))
    (alike : exact → ∀ bank ∈ banks, ∀ m, env.get? bank = some (.memory m) →
      m.width = bits ∧ ∀ other ∈ banks, ∀ m', env.get? other = some (.memory m') →
        m.sizes = m'.sizes)
    (ran : (readBanks s env pos reg banks selecting addresses).run w = .ok (controls, v)) :
    Hoisted exact w controls v := by
  obtain ⟨bank, isBank, m, select, W, chosen, addrs, W', placed, entries, W'', captured, found, selected,
    addressed, captures, ran⟩ := readBanks_ok legal named lowersSelect lowers isRegister ran
  obtain ⟨lowered, source⟩ := lowersSelect _ _ _ _ _ _ legal named (legalWiring_empty _ _) selected
  obtain ⟨lowered', sources⟩ := lowers _ _ _ _ _ _ lowered.extends_.legal
    (named.mono lowered.extends_.cells) lowered.wired addressed
  have grown := lowered.extends_.trans lowered'.extends_
  have finished := finishRead_hoisted captures.extends_.legal (fun group =>
    captures.legalGroup grown.legal (named.mono grown.cells) lowered'.wired
      (partOf?_of_isPrefix grown.cells isRegister) distinct
      (source.mono lowered'.extends_.cells lowered'.more) sources
      (by
        intro known b member
        obtain ⟨k, lt, rfl⟩ := List.getElem_of_mem member
        have paired := captures.memories.length_eq
        have bound := (List.forall₂_iff_get.mp captures.memories).2 k (paired ▸ lt) lt
        obtain ⟨wide, same⟩ := alike known _ (List.getElem_mem _) _ bound
        exact ⟨same bank isBank m found, wide⟩) group) ran
  rw [captures.before] at finished
  refine (lowered.trans lowered').hoisted ?_
  obtain ⟨final, rfl, hoisted⟩ := finished
  exact ⟨final, rfl, captures.extends_.trans hoisted.extends_, hoisted.enabling,
    (Schedules.of_groups captures.groups).trans hoisted.schedules⟩

end

end Lowering

end BankedLoops
