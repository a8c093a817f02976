import BankedLoops.Proofs.Lowering.Groups

/-!
# What lowered expressions compute

An expression runs its reads one after the other, each into a register of its own, and then its pin
carries its value in every group that takes the wiring over. The cells that were there before keep
what they hold, so an operand stays what it is while the reads of the next one run.
-/

namespace BankedLoops

namespace Lowering

open Library (Part)
open Semantics (FixedProduct pattern pattern_lt pattern_of_lt pattern_bit toInt toInt_unsigned resized
  resized_unsigned resized_lt)
open Execution

/-! ### Reads that a wiring waits for -/

/-- What was put in front of a wiring leaves the given cells as they are, and `post` holds behind it. -/
def Readies (d : Device) (c : Component) (names : Set String) (W W' : Wiring) (σ : State)
    (post : State → Prop) : Prop :=
  ∃ cs, W'.before = W.before ++ cs ∧
    Ensures d c (.seq cs) σ fun τ => Agree names σ τ ∧ post τ

namespace Readies

variable {d : Device} {c : Component} {names others : Set String} {W W' W'' : Wiring} {σ : State}
  {post between : State → Prop}

theorem refl (before : W'.before = W.before) (holds : post σ) : Readies d c names W W' σ post :=
  ⟨[], by rw [before, List.append_nil], .nil ⟨.refl _ _, holds⟩⟩

theorem rewire (first : Readies d c names W W' σ between) (before : W''.before = W'.before)
    (weaker : ∀ τ, Agree names σ τ → between τ → post τ) : Readies d c names W W'' σ post := by
  obtain ⟨cs, added, ensures⟩ := first
  exact ⟨cs, before.trans added, ensures.mono fun τ holds => ⟨holds.1, weaker τ holds.1 holds.2⟩⟩

theorem trans (first : Readies d c names W W' σ between) (more : names ⊆ others)
    (second : ∀ τ, Agree names σ τ → between τ → Readies d c others W' W'' τ post) :
    Readies d c names W W'' σ post := by
  obtain ⟨cs, added, ensures⟩ := first
  obtain ⟨τ, ran⟩ := ensures.1
  obtain ⟨same, holds⟩ := ensures.2 τ ran
  obtain ⟨ds, later, _⟩ := second τ same holds
  refine ⟨cs ++ ds, by rw [later, added, List.append_assoc], ensures.append ?_⟩
  rintro τ ⟨same, holds⟩
  obtain ⟨ds', later', rest⟩ := second τ same holds
  -- what was put in front does not depend on the state
  obtain rfl : ds = ds' := List.append_cancel_left (later.symm.trans later')
  exact rest.mono fun υ ends => ⟨same.trans (ends.1.mono more), ends.2⟩

/-- The reads of a wiring that started without any. -/
theorem ensures (first : Readies d c names W W' σ post) (none : W.before = []) :
    Ensures d c (.seq W'.before) σ fun τ => Agree names σ τ ∧ post τ := by
  obtain ⟨cs, added, ensures⟩ := first
  rw [none, List.nil_append] at added
  exact added ▸ ensures

end Readies

/-- A construction whose pin carries the value of `e` at `width` bits. -/
def Delivers (d : Device) (c : Component) (env : Env) (lower : Wiring → Build (Pin × Wiring))
    (width : Nat) (e : TypedExpr) : Prop :=
  ∀ w W pin W' v, w.Legal True → LegalEnv w.cells env → LegalWiring w.cells env W →
    (lower W).run w = .ok ((pin, W'), v) → Kept v c → ∀ hidden, Hides w env hidden →
    ∀ σ x, value d.product env σ e = some x →
    Readies d c (w.built hidden) W W' σ fun τ =>
      Carries d.product c (v.built hidden) W'.assigns τ pin (resized width e.ty x)

/-- A construction whose pins carry the element that `addr` names. -/
def DeliversAll (d : Device) (c : Component) (env : Env) (lower : AddressLowering)
    (addr : List TypedExpr) : Prop :=
  ∀ sizes w W pins W' v, w.Legal True → LegalEnv w.cells env → LegalWiring w.cells env W →
    (lower sizes W).run w = .ok ((pins, W'), v) → Kept v c → ∀ hidden, Hides w env hidden →
    ∀ σ idxs, offsets d.product env σ addr sizes = some idxs →
    Readies d c (w.built hidden) W W' σ fun τ =>
      List.Forall₂ (Carries d.product c (v.built hidden) W'.assigns τ) pins idxs

/-- A construction that reads the value of `e` into a register. -/
def ReadsInto (d : Device) (c : Component) (env : Env) (read : String → Build (List Control))
    (bits : Nat) (e : TypedExpr) : Prop :=
  ∀ reg w controls v, w.Legal True → LegalEnv w.cells env →
    partOf? w.cells reg = some (.register bits) → (read reg).run w = .ok (controls, v) → Kept v c →
    ∀ hidden, Hides w env hidden → ∀ σ x, value d.product env σ e = some x →
      Ensures d c (.seq controls) σ (Agree (w.built hidden) (σ.set x (.register reg)))

/-! ### Groups that read -/

section

variable {env : Env} {cells : List Cell} {W : Wiring} {reg : String}

theorem LegalWiring.not_write (wired : LegalWiring cells env W) {a : Assignment} (member : a ∈ W.assigns)
    (name : String) : a.dst ≠ .cell name "write_en" :=
  (wired.links a member).not_write name

theorem requestWires_not_write {mem : String} {addrs : List Pin} {select : Guard} {a : Assignment}
    (member : a ∈ requestWires mem addrs select) (name : String) : a.dst ≠ .cell name "write_en" := by
  intro same
  rcases List.mem_append.mp member with address | enable
  · obtain ⟨k, _, _, rfl⟩ := mem_addressWires.mp address
    injection same with _ port
    exact addressPort_ne (by decide) k port
  · rw [List.mem_singleton.mp enable] at same
    injection same with _ port
    exact absurd port (by decide)

theorem writesLate_dataWires {mem : String} {select : Guard} {a : Assignment}
    (member : a ∈ dataWires mem select reg) : WritesLate reg a := by
  intro name same
  rcases List.mem_cons.mp member with rfl | member
  · injection same with _ port
    exact absurd port (by decide)
  · rw [List.mem_singleton.mp member] at same ⊢
    injection same with isReg
    refine ⟨isReg.symm, fun level holds => ?_⟩
    exact absurd ((Guard.holds_both ..).mp ((Guard.holds_both ..).mp holds).1).1 Nat.one_ne_zero

theorem writesLate_of_not_write {a : Assignment} (other : ∀ name, a.dst ≠ .cell name "write_en") :
    WritesLate reg a :=
  fun name same => absurd same (other name)

theorem writesLate_readWires (wired : LegalWiring cells env W) {group mem : String} {addrs : List Pin}
    {a : Assignment} (member : a ∈ (W.assignAll (readWires group mem addrs reg)).assigns) :
    WritesLate reg a := by
  rcases Wiring.mem_assignAll.mp member with inner | outer
  · exact writesLate_of_not_write (wired.not_write inner)
  · rcases List.mem_append.mp outer with wires | ended
    · rcases List.mem_append.mp wires with request | data
      · exact writesLate_of_not_write (requestWires_not_write request)
      · exact writesLate_dataWires data
    · rw [List.mem_singleton.mp ended]
      exact writesLate_of_not_write nofun

theorem BankWire.writesLate {select : Pin} {addrs : List Pin} {b : BankWire} {a : Assignment}
    (member : a ∈ b.wires reg select addrs) : WritesLate reg a := by
  rcases List.mem_append.mp member with asks | data
  · rcases List.mem_append.mp asks with compared | request
    · refine writesLate_of_not_write fun name same => ?_
      simp only [List.mem_cons, List.not_mem_nil, or_false] at compared
      rcases compared with rfl | rfl <;> exact absurd (Pin.cell.inj same).2 (by decide)
    · exact writesLate_of_not_write (requestWires_not_write request)
  · exact writesLate_dataWires data

end

section

variable {d : Device} {c : Component} {env : Env} {w v : Workspace} {W W' : Wiring} {s : Setting}
  {pos : Nat} {reg : String} {σ : State} {controls : List Control}

theorem finishRead_ok (kept : Kept v c)
    (ran : (finishRead s pos reg W).run w = .ok (controls, v)) :
    ∃ group, controls = W.before ++ [s.enable group pos] ∧ Kept w c ∧
      ⟨group, some 2, (W.connect (.done group) (.cell reg "done")).assigns⟩ ∈ c.groups := by
  obtain ⟨group, between, named, ran⟩ := run_bind_ok_iff.mp ran
  cases ran
  have space := (freshName_takes named).space
  refine ⟨group, rfl, ⟨?_, ?_⟩, kept.groups.subset (List.mem_append_right _ List.mem_cons_self)⟩
  · have cells : between.cells = w.cells := by rw [space]
    exact cells ▸ kept.cells
  · have groups : between.groups = w.groups := by rw [space]
    exact groups ▸ (List.prefix_append _ _).trans kept.groups

/-- The reads that a group waits for, then the group. -/
theorem Readies.finish {names : Set String} {post : State → Prop} {last : Control} {place : Place}
    {x : Nat} (first : Readies d c names {} W σ post)
    (second : ∀ τ, Agree names σ τ → post τ → Ensures d c last τ (Agree Set.univ (τ.set x place))) :
    Ensures d c (.seq (W.before ++ [last])) σ (Agree names (σ.set x place)) := by
  refine (first.ensures rfl).append ?_
  rintro τ ⟨same, holds⟩
  refine (second τ same holds).singleton.mono fun υ ends => ?_
  exact (same.set x).trans (ends.mono fun _ _ => trivial)

theorem carried_of_forall₂ {names : Set String} {assigns : List Assignment} {pins : List Pin}
    {xs : List Nat} (carried : List.Forall₂ (Carries d.product c names assigns σ) pins xs) {g : Group}
    (member : g ∈ c.groups) (wires : assigns ⊆ g.assignments) {τ : State} (agree : Agree names σ τ)
    {cycle : Nat} {level : Pin → Nat} (consistent : Consistent d.product c.cells g cycle τ level) :
    pins.map level = xs := by
  induction carried with
  | nil => rfl
  | cons first _ ih =>
    rw [List.map_cons, ih, first g member wires cycle τ level agree consistent]

/-- The group of a read, whose addresses are carried. -/
theorem readGroup_captures {cells : List Cell} {names : Set String} {m : Memory} {addrs : List Pin}
    {idxs : List Nat} {bits : Nat} {group : String} (finished : Finished c)
    (wired : LegalWiring cells env W) (isRegister : partOf? c.cells reg = some (.register bits))
    (stored : Stored c.cells (.memory m)) (counted : addrs.length = m.sizes.length)
    (added : ⟨group, some 2, (W.assignAll (readWires group m.cell addrs reg)).assigns⟩ ∈ c.groups)
    (carried : List.Forall₂ (Carries d.product c names W.assigns σ) addrs idxs) (pos : Option Nat) :
    Ensures d c (.enable group pos) σ
      (Agree Set.univ (σ.set (pattern m.width (σ.mems m.cell idxs)) (.register reg))) := by
  have wires {a : Assignment} (member : a ∈ readWires group m.cell addrs reg) :
      a ∈ (W.assignAll (readWires group m.cell addrs reg)).assigns :=
    Wiring.mem_assignAll.mpr (.inr member)
  refine finished.captures added rfl isRegister stored
    (fun a member => writesLate_readWires wired member)
    (fun a request => wires (List.mem_append_left _ (List.mem_append_left _ request)))
    (fun a data => wires (List.mem_append_left _ (List.mem_append_right _ data))) counted ?_ _
  intro τ agree cycle level consistent
  exact ⟨carried_of_forall₂ carried added (fun a old => Wiring.mem_assignAll.mpr (.inl old))
    (agree.mono fun _ _ => trivial) consistent, trivial⟩

theorem readMemory_reads {ty : Ty} {mem : String} {addr : List TypedExpr} {addresses : AddressLowering}
    {bits : Nat} (finished : Finished c) (lowers : LowersPins True env addresses)
    (delivers : DeliversAll d c env addresses addr) :
    ReadsInto d c env (fun reg => readMemory s env pos reg mem addresses) bits (.mem ty mem addr) := by
  intro reg w controls v legal named isRegister ran kept hidden hides σ x computed
  simp only [value, Option.bind_eq_bind, Option.bind_eq_some_iff, Option.some.injEq] at computed
  obtain ⟨m, isMemory, idxs, located, rfl⟩ := computed
  obtain ⟨m', _, looked, ran⟩ := run_bind_ok_iff.mp ran
  obtain ⟨found, rfl⟩ := memoryOf_ok looked
  rw [memoryOf?_eq_some isMemory] at found
  cases found
  obtain ⟨⟨addrs, W⟩, between, addressed, ran⟩ := run_bind_ok_iff.mp ran
  obtain ⟨lowered, sources⟩ := lowers _ _ _ _ _ _ legal named (legalWiring_empty _ _) addressed
  obtain ⟨group, rfl, kept, added⟩ := finishRead_ok kept ran
  rw [capture_connect] at added
  rw [Wiring.capture_eq, Wiring.before_assignAll]
  have grown := lowered.extends_.cells.trans kept.cells
  have stored := named.stored mem _ (memoryOf?_eq_some isMemory)
  refine (delivers _ _ _ _ _ _ legal named (legalWiring_empty _ _) addressed kept hidden hides
    σ idxs located).finish fun τ same carried => ?_
  rw [mems_congr (hides.sees named) same isMemory]
  exact readGroup_captures finished lowered.wired (partOf?_of_isPrefix grown isRegister)
    (stored.mono grown) sources.length_eq added carried _

/-- The wires of the memory that the select numbers. -/
theorem Captures.chosen {exact : Prop} {select : Pin} {width : Nat} {addrs : List Pin}
    {banks : List String} {entries : List BankWire}
    (captures : Captures exact env w W reg select width addrs 0 banks entries v W') {bank : String}
    {k : Nat} {m : Memory} (listed : banks[k]? = some bank) (found : env.get? bank = some (.memory m)) :
    ∃ b ∈ entries, b.mem = m ∧ Compares v.cells width select b k := by
  obtain ⟨inside, rfl⟩ := List.getElem?_eq_some_iff.mp listed
  have counted := captures.memories.length_eq
  have isMemory := (List.forall₂_iff_get.mp captures.memories).2 k inside (counted ▸ inside)
  have numbered := (List.forall₂_iff_get.mp captures.numbered).2 k (counted ▸ inside) (by simpa using inside)
  refine ⟨entries[k], List.getElem_mem _, ?_, ?_⟩
  · rw [List.get_eq_getElem, found] at isMemory
    cases isMemory
    rfl
  · simpa using numbered

theorem writesLate_banks {exact : Prop} {cells : List Cell} (wired : LegalWiring cells env W)
    {select : Pin} {width : Nat} {addrs : List Pin} {banks : List String} {entries : List BankWire}
    (captures : Captures exact env w W reg select width addrs 0 banks entries v W') {group : String}
    {a : Assignment} (member : a ∈ (W'.connect (.done group) (.cell reg "done")).assigns) :
    WritesLate reg a := by
  rcases (@Wiring.mem_assignAll W' [⟨.done group, .pin (.cell reg "done"), .always⟩] a).mp member with
    wires | ended
  · rw [captures.assigns] at wires
    rcases List.mem_append.mp wires with inner | outer
    · exact writesLate_of_not_write (wired.not_write inner)
    · obtain ⟨b, _, wire⟩ := List.mem_flatMap.mp outer
      exact b.writesLate wire
  · rw [List.mem_singleton.mp ended]
    exact writesLate_of_not_write nofun

theorem readBanks_reads {ty : Ty} {banks : List String} {select : TypedExpr} {addr : List TypedExpr}
    {selecting : Nat → Wiring → Build (Pin × Wiring)} {addresses : AddressLowering} {bits : Nat}
    (finished : Finished c) (lowersSelect : ∀ width, LowersPin True env width (selecting width))
    (lowers : LowersPins True env addresses)
    (deliversSelect : ∀ width, Delivers d c env (selecting width) width select)
    (delivers : DeliversAll d c env addresses addr)
    (alike : ∀ bank ∈ banks, ∀ m, env.get? bank = some (.memory m) → m.width = bits ∧
      ∀ other ∈ banks, ∀ m', env.get? other = some (.memory m') → m.sizes = m'.sizes) :
    ReadsInto d c env (fun reg => readBanks s env pos reg banks selecting addresses) bits
      (.muxRead ty banks select addr) := by
  intro reg w controls v legal named isRegister ran kept hidden hides σ x computed
  simp only [value, Option.bind_eq_bind, Option.bind_eq_some_iff, Option.some.injEq] at computed
  obtain ⟨number, numbered, k, inRange, bank, listed, m, isMemory, idxs, located, rfl⟩ := computed
  obtain ⟨other, isBank, m', pin, W, chosen, addrs, W', placed, entries, W'', captured, found, selected,
    addressed, captures, ran⟩ := readBanks_ok legal named lowersSelect lowers isRegister ran
  have sizes := (alike bank (List.mem_of_getElem? listed) m (memoryOf?_eq_some isMemory)).2 other isBank
    m' found
  rw [sizes] at located
  obtain ⟨lowered, source⟩ := lowersSelect _ _ _ _ _ _ legal named (legalWiring_empty _ _) selected
  have namedSelect := named.mono lowered.extends_.cells
  obtain ⟨lowered', sources⟩ :=
    lowers _ _ _ _ _ _ lowered.extends_.legal namedSelect lowered.wired addressed
  obtain ⟨group, rfl, kept, added⟩ := finishRead_ok kept ran
  have keptPlaced := kept.of_extends captures.extends_
  have readied : Readies d c (w.built hidden) {} W' σ fun τ =>
      Carries d.product c (placed.built hidden) W'.assigns τ pin k ∧
        List.Forall₂ (Carries d.product c (placed.built hidden) W'.assigns τ) addrs idxs := by
    refine (deliversSelect _ _ _ _ _ _ legal named (legalWiring_empty _ _) selected
      (keptPlaced.of_extends lowered'.extends_) hidden hides σ number numbered).trans
      (lowered.extends_.built hidden) ?_
    intro τ same carried
    rw [resized_of_index? inRange] at carried
    rw [offsets_congr (hides.sees named) same] at located
    refine (delivers _ _ _ _ _ _ lowered.extends_.legal namedSelect lowered.wired addressed keptPlaced
      hidden (hides.mono lowered.extends_) τ idxs located).rewire rfl fun υ unchanged placed => ⟨?_, placed⟩
    exact carried.mono (lowered'.extends_.built hidden) lowered'.more unchanged
  have grown := (lowered.extends_.trans lowered'.extends_).cells.trans keptPlaced.cells
  have stored := named.stored bank _ (memoryOf?_eq_some isMemory)
  have more : W''.assigns ⊆ (W''.connect (.done group) (.cell reg "done")).assigns :=
    Wiring.subset_connect ..
  obtain ⟨b, isEntry, rfl, compares⟩ := captures.chosen listed (memoryOf?_eq_some isMemory)
  have wires : b.wires reg pin addrs ⊆ (W''.connect (.done group) (.cell reg "done")).assigns := by
    intro a wire
    refine more ?_
    rw [captures.assigns]
    exact List.mem_append_right _ (List.mem_flatMap.mpr ⟨b, isEntry, wire⟩)
  have older : W'.assigns ⊆ (W''.connect (.done group) (.cell reg "done")).assigns := by
    intro a old
    refine more ?_
    rw [captures.assigns]
    exact List.mem_append_left _ old
  rw [captures.before]
  refine readied.finish fun τ same carried => ?_
  rw [mems_congr (hides.sees named) same isMemory]
  refine finished.captures added rfl (partOf?_of_isPrefix grown isRegister) (stored.mono grown)
    (fun a member => writesLate_banks lowered'.wired captures member)
    (fun a request => wires (List.mem_append_left _ (List.mem_append_right _ request)))
    (fun a data => wires (List.mem_append_right _ data)) (sizes ▸ sources.length_eq) ?_ _
  intro υ agree cycle level consistent
  have agree' : Agree (placed.built hidden) τ υ := agree.mono fun _ _ => trivial
  refine ⟨carried_of_forall₂ carried.2 added older agree' consistent, ?_⟩
  have isNumber := carried.1 _ added older cycle υ level agree' consistent
  have compared := (finished.legal _ added).level_eq finished.fit consistent
    (kept.partOf? compares.isEq)
    (wires (List.mem_append_left _ (List.mem_append_left _ List.mem_cons_self)))
    (wires (List.mem_append_left _ (List.mem_append_left _
      (List.mem_cons_of_mem _ List.mem_cons_self)))) (kept.partOf? compares.isConst)
  rw [isNumber, decide_eq_true rfl] at compared
  exact compared

/-! ### Expressions -/

/-- An adapter takes no time. -/
theorem Readies.adapt {names hidden : Set String} {u : Workspace} {W'' : Wiring} {pin pin' : Pin}
    {width target x : Nat} {signed : Bool}
    (first : Readies d c names W W' σ fun τ => Carries d.product c (v.built hidden) W'.assigns τ pin x)
    (finished : Finished c) (legal : v.Legal True) (lt : x < Word.capacity width) (kept : Kept u c)
    (ran : (adapt W' pin width target signed).run v = .ok ((pin', W''), u)) :
    Readies d c names W W'' σ fun τ =>
      Carries d.product c (u.built hidden) W''.assigns τ pin' (pattern target (toInt signed width x)) := by
  refine first.trans (fun _ member => member) fun τ _ carries => ?_
  obtain ⟨adapted, before⟩ := adapt_carries finished legal carries lt kept ran
  exact .refl before adapted

/-- A fresh register, the reads into it, and an adapter behind it. -/
theorem capture_delivers {width : Nat} {e : TypedExpr} {read : String → Build (List Control)}
    (finished : Finished c)
    (hoists : ∀ reg w controls v, w.Legal True → LegalEnv w.cells env →
      partOf? w.cells reg = some (.register e.ty.width) → (read reg).run w = .ok (controls, v) →
      Hoisted True w controls v)
    (reads : ReadsInto d c env read e.ty.width e)
    (bounded : ∀ σ x, value d.product env σ e = some x → x < Word.capacity e.ty.width) :
    Delivers d c env (fun W => do
      let reg ← addFreshRegister "r" e.ty.width
      let controls ← read reg
      adapt (W.after controls) (.out reg) e.ty.width width e.ty.isSigned) width e := by
  intro w W pin W' v legal named wired ran kept hidden hides σ x computed
  obtain ⟨reg, registered, added, ran⟩ := run_bind_ok_iff.mp ran
  obtain ⟨controls, hoisted, reading, ran⟩ := run_bind_ok_iff.mp ran
  have installs := addPrimitive_installs (.register e.ty.width) legal rfl nofun added
  have grown := installs.extends_
  have namedRegister := named.mono grown.cells
  have later := hoists reg _ _ _ grown.legal namedRegister installs.found reading
  have found := partOf?_of_isPrefix later.extends_.cells installs.found
  obtain ⟨adapted, _⟩ := adapt_lowered later.extends_.legal
    (namedRegister.mono later.extends_.cells) (later.lowered (wired.mono grown.cells)).wired
    (.register found) ran
  have keptRead := kept.of_extends adapted.extends_
  have lt := bounded σ x computed
  have fresh := legal.not_cell installs.new
  have shown := hides.new fresh
  refine Readies.adapt ⟨controls, rfl, ?_⟩ finished later.extends_.legal lt kept ran
  refine (reads reg _ _ _ grown.legal namedRegister installs.found reading keptRead hidden
    (hides.mono grown) σ x computed).mono fun τ agree => ⟨?_, ?_⟩
  · refine ((Agree.refl _ σ).set_of_not_mem ?_ x).trans (agree.mono (grown.built hidden))
    exact fun member => fresh member.1
  · have holds : τ.regs reg = x :=
      ((agree reg ⟨mem_of_partOf? installs.found, shown⟩).1.symm.trans (Function.update_self ..) :)
    have member : reg ∈ hoisted.built hidden := ⟨mem_of_partOf? found, shown⟩
    refine (carries_register _ τ (keptRead.partOf? found) member).congr ?_
    rw [holds, pattern_of_lt lt]

theorem readName_width {slots : Slots} (matched : Matches slots env) {ty : Ty} {name : String} {pin : Pin}
    {width : Nat} (typed : Physical slots (.var ty name))
    (ran : (readName s env pos W name).run w = .ok ((pin, width, W'), v)) : width = ty.width := by
  have shape : ∃ store, env.get? name = some store ∧
      ((∃ cell, store = .register cell ty.width) ∨ ∃ cell slice, store = .iterator cell slice ty.width) := by
    cases typed with
    | scalar bound =>
      obtain ⟨store, visible, fits⟩ := matched _ _ bound
      cases fits
      exact ⟨_, visible, .inl ⟨_, rfl⟩⟩
    | iterator unroll found =>
      obtain ⟨store, visible, fits⟩ := matched _ _ found
      cases fits
      exact ⟨_, visible, .inr ⟨_, _, rfl⟩⟩
  obtain ⟨store, visible, ⟨cell, rfl⟩ | ⟨cell, slice, rfl⟩⟩ := shape
  all_goals
    obtain ⟨-, read⟩ := readName_ok ran
    cases read <;> simp_all

end

section

variable {d : Device} {c : Component} {slots : Slots} {env : Env} {s : Setting} {pos : Nat}

theorem binop_delivers {width : Nat} {ty : Ty} {op : BinOp} {lhs rhs : TypedExpr} (finished : Finished c)
    (matched : Matches slots env) (tidyLeft : Tidy lhs) (tidyRight : Tidy rhs)
    (typed : Physical slots (.binop ty op lhs rhs))
    (left : ∀ width, Delivers d c env (fun W => lowerExpr s env pos width W lhs) width lhs)
    (right : ∀ width, Delivers d c env (fun W => lowerExpr s env pos width W rhs) width rhs) :
    Delivers d c env (fun W => lowerExpr s env pos width W (.binop ty op lhs rhs)) width
      (.binop ty op lhs rhs) := by
  intro w W pin W' v legal named wired ran kept hidden hides σ x computed
  dsimp only at ran
  rcases ty.static_or with ⟨n, rfl⟩ | notStatic
  · rw [lowerExpr] at ran
    obtain ⟨cell, between, given, rest⟩ := run_bind_ok_iff.mp ran
    cases rest
    obtain rfl := Option.some.inj (computed.symm.trans (typed.value_of_static rfl))
    refine .refl rfl ((constant_carries legal typed.word_of_static kept given).congr ?_)
    exact (resized_unsigned rfl _ _).symm
  · rw [lowerExpr_computed notStatic] at ran
    obtain ⟨⟨leftPin, W₁⟩, v₁, ranLeft, ran⟩ := run_bind_ok_iff.mp ran
    obtain ⟨⟨rightPin, W₂⟩, v₂, ranRight, ran⟩ := run_bind_ok_iff.mp ran
    obtain ⟨cell, v₃, operator, ran⟩ := run_bind_ok_iff.mp ran
    have bounded := typed.value_lt matched computed
    cases typed with
    | binop typedLeft typedRight operates =>
      obtain ⟨lowered₁, source₁⟩ := lowerExpr_lowered matched _ lhs tidyLeft (fun _ => typedLeft)
        _ _ _ _ _ legal named wired ranLeft
      have named₁ := named.mono lowered₁.extends_.cells
      obtain ⟨lowered₂, source₂⟩ := lowerExpr_lowered matched _ rhs tidyRight (fun _ => typedRight)
        _ _ _ _ _ lowered₁.extends_.legal named₁ lowered₁.wired ranRight
      have named₂ := named₁.mono lowered₂.extends_.cells
      obtain ⟨lowered₃, source₃⟩ := operate_lowered lowered₂.extends_.legal named₂ lowered₂.wired
        (source₁.mono lowered₂.extends_.cells lowered₂.more) source₂ operator
      rw [← operatorWidths_snd] at source₃
      obtain ⟨lowered₄, _⟩ := adapt_lowered lowered₃.extends_.legal
        (named₂.mono lowered₃.extends_.cells) lowered₃.wired source₃ ran
      have kept₃ := kept.of_extends lowered₄.extends_
      have kept₂ := kept₃.of_extends lowered₃.extends_
      have kept₁ := kept₂.of_extends lowered₂.extends_
      simp only [value, Option.bind_eq_bind, Option.bind_eq_some_iff, Option.some.injEq] at computed
      obtain ⟨a, isLeft, b, isRight, rfl⟩ := computed
      have operated : operate d.product op _ _ _ _ _ = _ :=
        operates.operate_eq d.product notStatic (typedLeft.value_lt matched isLeft)
          (typedRight.value_lt matched isRight) (by
            -- a literal became a constant, which had to fit
            rintro n rfl
            cases isRight
            cases typedRight with
            | int word =>
              obtain ⟨_, _, given, _⟩ := run_bind_ok_iff.mp ranRight
              exact constant_fits word given)
      obtain ⟨sameWidth, sameSign⟩ := operates.yields notStatic
      rw [sameWidth, sameSign] at ran
      refine Readies.adapt ?_ finished lowered₃.extends_.legal bounded kept ran
      refine (left _ _ _ _ _ _ legal named wired ranLeft kept₁ hidden hides σ a isLeft).trans
        (lowered₁.extends_.built hidden) fun τ same carriesLeft => ?_
      rw [value_congr (hides.sees named) same] at isRight
      refine (right _ _ _ _ _ _ lowered₁.extends_.legal named₁ lowered₁.wired ranRight kept₂ hidden
        (hides.mono lowered₁.extends_) τ b isRight).rewire ?_ ?_
      · exact (Wiring.before_assign ..).trans (Wiring.before_assign ..)
      · intro υ unchanged carriesRight
        rw [← operated]
        exact addOperator_carries finished lowered₂.extends_.legal
          (carriesLeft.mono (lowered₂.extends_.built hidden) lowered₂.more unchanged) carriesRight kept₃
          operator

/-! ### Reads -/

theorem length_of_offsets {product : FixedProduct} {σ : State} {es : List TypedExpr} {sizes idxs : List Nat}
    (located : offsets product env σ es sizes = some idxs) : es.length = sizes.length := by
  induction es generalizing sizes idxs with
  | nil =>
    cases sizes with
    | nil => rfl
    | cons => cases located
  | cons e es ih =>
    cases sizes with
    | nil => cases located
    | cons size sizes =>
      simp only [offsets, Option.bind_eq_bind, Option.bind_eq_some_iff] at located
      obtain ⟨_, _, _, _, _, rest, _⟩ := located
      exact congrArg Nat.succ (ih rest)

theorem addressing_delivers {addr : List TypedExpr}
    (delivers : DeliversAll d c env (fun sizes W => lowerAddrs s env pos W addr sizes) addr) :
    DeliversAll d c env (addressing s env pos addr) addr := by
  intro sizes w W pins W' v legal named wired ran
  unfold addressing lowerCounted at ran
  split at ran
  · cases ran
  · exact delivers sizes w W pins W' v legal named wired ran

theorem mem_reads {ty : Ty} {mem : String} {addr : List TypedExpr} (finished : Finished c)
    (matched : Matches slots env) (tidy : TidyAll addr) (typed : Physical slots (.mem ty mem addr))
    (delivers : DeliversAll d c env (addressing s env pos addr) addr) :
    ReadsInto d c env (fun reg => readInto s env pos reg (.mem ty mem addr)) ty.width
      (.mem ty mem addr) := by
  have addressed : PhysicalAll slots addr := by
    cases typed
    assumption
  exact readMemory_reads finished (addressing_lowers matched tidy fun _ => addressed) delivers

theorem muxRead_reads {ty : Ty} {banks : List String} {select : TypedExpr} {addr : List TypedExpr}
    (finished : Finished c) (matched : Matches slots env)
    (tidy : Tidy (.muxRead ty banks select addr)) (typed : Physical slots (.muxRead ty banks select addr))
    (deliversSelect : ∀ width, Delivers d c env (fun W => lowerExpr s env pos width W select) width select)
    (delivers : DeliversAll d c env (addressing s env pos addr) addr) :
    ReadsInto d c env (fun reg => readInto s env pos reg (.muxRead ty banks select addr)) ty.width
      (.muxRead ty banks select addr) := by
  obtain ⟨selected, addressed⟩ : Physical slots select ∧ PhysicalAll slots addr := by
    cases typed
    exact ⟨‹_›, ‹_›⟩
  have lowersSelect (width : Nat) :
      LowersPin True env width (fun W => lowerExpr s env pos width W select) :=
    lowerExpr_lowered matched width select tidy.2.1 fun _ => selected
  have lowers : LowersPins True env (addressing s env pos addr) :=
    addressing_lowers matched tidy.2.2 fun _ => addressed
  have alike := typed.alike_of_muxRead matched
  have reads := @readBanks_reads d c env s pos ty banks select addr _ _ ty.width finished lowersSelect
    lowers deliversSelect delivers alike
  exact reads

theorem read_delivers {width : Nat} {e : TypedExpr} (finished : Finished c) (matched : Matches slots env)
    (tidy : Tidy e) (typed : Physical slots e)
    (reads : ReadsInto d c env (fun reg => readInto s env pos reg e) e.ty.width e)
    (lowers : ∀ W, lowerExpr s env pos width W e = do
      let reg ← addFreshRegister "r" e.ty.width
      let controls ← readInto s env pos reg e
      adapt (W.after controls) (.out reg) e.ty.width width e.ty.isSigned) :
    Delivers d c env (fun W => lowerExpr s env pos width W e) width e := by
  rw [funext lowers]
  exact capture_delivers finished
    (fun _ _ _ _ legal named isRegister => readInto_hoisted legal named matched tidy (fun _ => typed)
      isRegister)
    reads fun _ _ => typed.value_lt matched

mutual

/-- The pin of an expression carries its value at the width that was asked for. -/
theorem lowerExpr_delivers (finished : Finished c) (matched : Matches slots env) (width : Nat) :
    (e : TypedExpr) → Tidy e → Physical slots e →
      Delivers d c env (fun W => lowerExpr s env pos width W e) width e
  | .int ty n, _, typed => by
    intro w W pin W' v legal named wired ran kept hidden hides σ x computed
    obtain ⟨cell, between, given, rest⟩ := run_bind_ok_iff.mp ran
    cases rest
    cases computed
    cases typed with
    | int word =>
      refine .refl rfl ((constant_carries legal word kept given).congr ?_)
      exact (resized_unsigned rfl _ _).symm
  | .bool ty b, _, typed => by
    intro w W pin W' v legal named wired ran kept hidden hides σ x computed
    obtain ⟨cell, between, given, ran⟩ := run_bind_ok_iff.mp ran
    cases computed
    cases typed
    have word : b.toNat < Word.capacity Word.sizeBits := by
      cases b <;> decide
    obtain ⟨grown, _, cell, rfl, found⟩ := constant_legal legal (fun _ wide => word_of_capacity word wide)
      given
    obtain ⟨adapted, _⟩ := adapt_lowered grown.legal (named.mono grown.cells)
      (wired.mono grown.cells) (.constant found) ran
    have carries := @constant_carries d.product c _ _ W σ hidden legal _ _ _ word
      (kept.of_extends adapted.extends_) given
    rw [pattern_bit] at carries
    exact Readies.adapt (.refl rfl carries) finished grown.legal (Bool.toNat_lt b) kept ran
  | .var ty name, _, typed => by
    intro w W pin W' v legal named wired ran kept hidden hides σ x computed
    obtain ⟨⟨source, stored, W''⟩, between, read, ran⟩ := run_bind_ok_iff.mp ran
    obtain ⟨lowered, sourced⟩ := readName_lowered legal named wired read
    obtain ⟨adapted, _⟩ := adapt_lowered lowered.extends_.legal
      (named.mono lowered.extends_.cells) lowered.wired sourced ran
    obtain rfl := readName_width matched typed read
    obtain ⟨rfl, before, _, y, held, carries⟩ := @readName_carries d.product _ _ _ _ _ _ σ _ _ hidden
      finished named hides _ _ _ (kept.of_extends adapted.extends_) read
    obtain rfl : pattern ty.width y = x := Option.some.inj (held.symm.trans computed)
    exact Readies.adapt (.refl before carries) finished legal (pattern_lt _ _) kept ran
  | .binop ty op lhs rhs, tidy, typed =>
    binop_delivers finished matched tidy.1 tidy.2 typed
      (fun width => lowerExpr_delivers finished matched width lhs tidy.1 (by
        cases typed
        assumption))
      (fun width => lowerExpr_delivers finished matched width rhs tidy.2 (by
        cases typed
        assumption))
  | .mem ty mem addr, tidy, typed => by
    have addresses : PhysicalAll slots addr := by
      cases typed
      assumption
    have delivers := lowerAddrs_delivers finished matched addr tidy addresses
    refine read_delivers finished matched tidy typed
      (mem_reads finished matched tidy typed (addressing_delivers delivers)) fun W => ?_
    rw [lowerExpr]
    rfl
  | .muxRead ty banks select addr, tidy, typed => by
    obtain ⟨selected, addressed⟩ : Physical slots select ∧ PhysicalAll slots addr := by
      cases typed
      exact ⟨‹_›, ‹_›⟩
    have select_delivers (width : Nat) :=
      lowerExpr_delivers finished matched width select tidy.2.1 selected
    have delivers := lowerAddrs_delivers finished matched addr tidy.2.2 addressed
    refine read_delivers finished matched tidy typed
      (muxRead_reads finished matched tidy typed select_delivers (addressing_delivers delivers)) fun W => ?_
    rw [lowerExpr]
    rfl
  | .access _ array _, _, _ => by
    intro w W pin W' v _ _ _ ran
    cases ran
  | .app _ func _, _, _ => by
    intro w W pin W' v _ _ _ ran
    cases ran

/-- The pins of addresses carry the element that they name. -/
theorem lowerAddrs_delivers (finished : Finished c) (matched : Matches slots env) :
    (es : List TypedExpr) → TidyAll es → PhysicalAll slots es →
      DeliversAll d c env (fun sizes W => lowerAddrs s env pos W es sizes) es
  | [], _, _ => by
    intro sizes w W pins W' v legal named wired ran kept hidden hides σ idxs located
    cases sizes with
    | nil =>
      cases ran
      cases located
      exact .refl rfl .nil
    | cons => cases located
  | e :: es, tidy, typed => by
    intro sizes w W pins W' v legal named wired ran kept hidden hides σ idxs located
    cases sizes with
    | nil => cases located
    | cons size sizes =>
      dsimp only at ran
      unfold lowerAddrs at ran
      obtain ⟨last, _, lifted, ran⟩ := run_bind_ok_iff.mp ran
      obtain ⟨subtracted, rfl⟩ := run_lift_ok_iff.mp lifted
      obtain ⟨_, rfl⟩ := Word.sub_eq_ok_iff.mp subtracted
      obtain ⟨⟨pin, W₁⟩, v₁, first, ran⟩ := run_bind_ok_iff.mp ran
      obtain ⟨⟨pins, W₂⟩, v₂, others, rest⟩ := run_bind_ok_iff.mp ran
      cases rest
      simp only [offsets, Option.bind_eq_bind, Option.bind_eq_some_iff, Option.some.injEq] at located
      obtain ⟨x, computed, i, inRange, idxs, located, rfl⟩ := located
      obtain ⟨typedFirst, typedRest⟩ : Physical slots e ∧ PhysicalAll slots es := by
        cases typed
        exact ⟨‹_›, ‹_›⟩
      obtain ⟨lowered₁, source⟩ := lowerExpr_lowered matched _ e tidy.1 (fun _ => typedFirst)
        _ _ _ _ _ legal named wired first
      have named₁ := named.mono lowered₁.extends_.cells
      obtain ⟨lowered₂, _⟩ := lowerAddrs_lowered matched es tidy.2 (fun _ => typedRest) sizes
        _ _ _ _ _ (length_of_offsets located) lowered₁.extends_.legal named₁ lowered₁.wired others
      have delivers := lowerExpr_delivers finished matched (bitsNeeded (size - 1)) e tidy.1 typedFirst
      have delivers' := lowerAddrs_delivers finished matched es tidy.2 typedRest
      refine (delivers _ _ _ _ _ legal named wired first (kept.of_extends lowered₂.extends_) hidden hides
        σ x computed).trans (lowered₁.extends_.built hidden) fun τ same carries => ?_
      rw [resized_of_index? inRange] at carries
      rw [offsets_congr (hides.sees named) same] at located
      refine (delivers' _ _ _ _ _ _ lowered₁.extends_.legal named₁ lowered₁.wired others kept hidden
        (hides.mono lowered₁.extends_) τ idxs located).rewire rfl fun υ unchanged rest => ?_
      exact .cons (carries.mono (lowered₂.extends_.built hidden) lowered₂.more unchanged) rest

end

end

end Lowering

end BankedLoops
