import BankedLoops.Proofs.Lowering.Computed

/-!
# What leaf commands do

The control of a definition, an update or a reduction writes the value of its right side, combined
with the old one in a reduction, to the place that it names. The other cells that were there before
keep what they hold.
-/

namespace BankedLoops

namespace Lowering

open Semantics (operation pattern pattern_lt pattern_of_lt resized)
open Execution

/-! ### Groups that write -/

section

variable {d : Device} {c : Component} {env : Env} {cells : List Cell} {w v : Workspace} {W : Wiring}
  {σ : State} {names others : Set String}

theorem Kept.of_takes {name : String} (kept : Kept v c) (takes : Takes w name v) : Kept w c := by
  have cells : v.cells = w.cells := by rw [takes.space]
  have groups : v.groups = w.groups := by rw [takes.space]
  exact ⟨cells ▸ kept.cells, groups ▸ kept.groups⟩

/-- A group of one cycle under a fresh name. -/
theorem closeGroup_ok {s : Setting} {pos : Nat} {stem : String} {close : String → Wiring}
    {control : Control} (kept : Kept v c)
    (ran : (do
      let group ← freshName stem
      finishGroup s pos group (close group)).run w = .ok (control, v)) :
    ∃ group, control = .sequence ((close group).before ++ [s.enable group pos]) ∧ Kept w c ∧
      ⟨group, some 1, (close group).assigns⟩ ∈ c.groups := by
  obtain ⟨group, between, naming, ran⟩ := run_bind_ok_iff.mp ran
  cases ran
  have keptGroup : Kept between c := ⟨kept.cells, (List.prefix_append _ _).trans kept.groups⟩
  exact ⟨group, rfl, keptGroup.of_takes (freshName_takes naming),
    kept.groups.subset (List.mem_append_right _ List.mem_cons_self)⟩

theorem LegalWiring.writesOnly (wired : LegalWiring cells env W) {wires : List Assignment}
    {target : String}
    (only : ∀ a ∈ wires, ∀ name, a.dst = .cell name "write_en" → name = target) (group : String)
    (latency : Option Nat) : WritesOnly ⟨group, latency, (W.assignAll wires).assigns⟩ target := by
  intro a member name same
  rcases Wiring.mem_assignAll.mp member with inner | outer
  · exact absurd same (wired.not_write inner name)
  · exact only a outer name same

/-- Reads, then a group that latches a register. -/
theorem Readies.latch {reg : String} {data : Pin} {x width : Nat}
    (first : Readies d c names {} W σ fun τ => Carries d.product c others W.assigns τ data x)
    (finished : Finished c) (wired : LegalWiring cells env W)
    (isRegister : partOf? c.cells reg = some (.register width)) {group : String}
    (added : ⟨group, some 1, (W.latch group reg data).assigns⟩ ∈ c.groups) (s : Setting) (pos : Nat) :
    Ensures d c (.sequence (W.before ++ [s.enable group pos])) σ
      (Agree names (σ.set x (.register reg))) := by
  rw [Wiring.latch_eq] at added
  refine (first.finish fun τ _ carries => ?_).sequence
  refine finished.latches added rfl isRegister (wired.writesOnly ?_ _ _)
    (fun _ wire => Wiring.mem_assignAll.mpr (.inr wire)) (fun level consistent => ?_) _
  · intro a member name same
    simp only [latchWires, List.mem_cons, List.not_mem_nil, or_false] at member
    rcases member with rfl | rfl | rfl
    · exact absurd (Pin.cell.inj same).2 (by decide)
    · exact (Pin.cell.inj same).1.symm
    · cases same
  · exact carries _ added (fun _ wire => Wiring.mem_assignAll.mpr (.inl wire)) 0 τ level (.refl _ _)
      consistent

/-- The group of a store, whose addresses and data are carried. -/
theorem storeGroup_stores {m : Memory} {addrs : List Pin} {idxs : List Nat} {data : Pin} {x : Nat}
    (finished : Finished c) (wired : LegalWiring cells env W) (stored : Stored c.cells (.memory m))
    (counted : addrs.length = m.sizes.length) {group : String}
    (added : ⟨group, some 1, (W.store group m.cell addrs data).assigns⟩ ∈ c.groups)
    (located : List.Forall₂ (Carries d.product c names W.assigns σ) addrs idxs)
    (carries : Carries d.product c names W.assigns σ data x) (pos : Option Nat) :
    Ensures d c (.enable group pos) σ (Agree Set.univ (σ.set x (.element m.cell idxs))) := by
  rw [Wiring.store_eq] at added
  have older {a : Assignment} (wire : a ∈ W.assigns) :
      a ∈ (W.assignAll (storeWires group m.cell addrs data)).assigns :=
    Wiring.mem_assignAll.mpr (.inl wire)
  refine finished.stores added rfl stored (wired.writesOnly ?_ _ _)
    (fun _ wire => Wiring.mem_assignAll.mpr (.inr wire)) counted (fun level consistent => ?_) _
  · intro a member name same
    rcases List.mem_append.mp member with address | rest
    · obtain ⟨k, _, _, rfl⟩ := mem_addressWires.mp address
      exact absurd (Pin.cell.inj same).2 (addressPort_ne (by decide) k)
    · simp only [List.mem_cons, List.not_mem_nil, or_false] at rest
      rcases rest with rfl | rfl | rfl
      · exact absurd (Pin.cell.inj same).2 (by decide)
      · exact (Pin.cell.inj same).1.symm
      · cases same
  · exact ⟨carried_of_forall₂ located added (fun _ wire => older wire) (.refl _ _) consistent,
      carries _ added (fun _ wire => older wire) 0 σ level (.refl _ _) consistent⟩

end

/-! ### Assignments -/

section

variable {d : Device} {c : Component} {slots : Slots} {env : Env} {s : Setting} {pos : Nat}
  {w v : Workspace} {σ : State} {control : Control}

theorem readInto_reads (finished : Finished c) (matched : Matches slots env) {e : TypedExpr}
    (tidy : Tidy e) (typed : Physical slots e) :
    ReadsInto d c env (fun reg => readInto s env pos reg e) e.ty.width e := by
  cases e with
  | mem ty mem addr =>
    have addressed : PhysicalAll slots addr := by
      cases typed
      assumption
    exact mem_reads finished matched tidy typed
      (addressing_delivers (lowerAddrs_delivers finished matched addr tidy addressed))
  | muxRead ty banks select addr =>
    obtain ⟨selected, addressed⟩ : Physical slots select ∧ PhysicalAll slots addr := by
      cases typed
      exact ⟨‹_›, ‹_›⟩
    exact muxRead_reads finished matched tidy typed
      (fun width => lowerExpr_delivers finished matched width select tidy.2.1 selected)
      (addressing_delivers (lowerAddrs_delivers finished matched addr tidy.2.2 addressed))
  | _ =>
    intro reg w controls v _ _ _ ran
    cases ran

theorem assignRegister_writes {reg stem : String} {ty : Ty} {e : TypedExpr} {x : Nat}
    (finished : Finished c) (legal : w.Legal True) (named : LegalEnv w.cells env)
    (matched : Matches slots env) (tidy : Tidy e) (typed : Physical slots e)
    (fits : assignable e.ty ty = true) (isRegister : partOf? w.cells reg = some (.register ty.width))
    (ran : (assignRegister s env pos reg ty.width stem e).run w = .ok (control, v)) (kept : Kept v c)
    (computed : value d.product env σ e = some x) :
    Ensures d c control σ (Agree (w.built ∅) (σ.set x (.register reg))) := by
  have hides := Hides.empty w env
  have latched (ran : (do
      let lowered ← lowerExpr s env pos ty.width {} e
      let group ← freshName stem
      finishGroup s pos group (lowered.2.latch group reg lowered.1)).run w = .ok (control, v)) :
      Ensures d c control σ (Agree (w.built ∅) (σ.set x (.register reg))) := by
    obtain ⟨⟨pin, W⟩, lowered_, lowering, ran⟩ := run_bind_ok_iff.mp ran
    obtain ⟨group, rfl, kept, added⟩ := closeGroup_ok kept ran
    obtain ⟨lowered, _⟩ := lowerExpr_lowered matched ty.width e tidy (fun _ => typed) _ _ _ _ _ legal
      named (legalWiring_empty _ _) lowering
    have delivers := lowerExpr_delivers finished matched ty.width e tidy typed _ _ _ _ _ legal named
      (legalWiring_empty _ _) lowering kept ∅ hides σ x computed
    rw [resized_of_assignable fits (typed.value_lt matched computed)] at delivers
    rw [Wiring.latch_eq, Wiring.before_assignAll]
    exact delivers.latch finished lowered.wired
      (kept.partOf? (partOf?_of_isPrefix lowered.extends_.cells isRegister)) added s pos
  have direct {controls : List Control} {u : Workspace} (same : e.ty.width = ty.width) (kept : Kept u c)
      (reading : (readInto s env pos reg e).run w = .ok (controls, u)) :
      Ensures d c (.sequence controls) σ (Agree (w.built ∅) (σ.set x (.register reg))) :=
    (readInto_reads finished matched tidy typed reg _ _ _ legal named (same ▸ isRegister) reading kept
      ∅ hides σ x computed).sequence
  unfold assignRegister at ran
  split at ran
  · split at ran
    · next same =>
      obtain ⟨controls, between, reading, rest⟩ := run_bind_ok_iff.mp ran
      cases rest
      exact direct same kept reading
    · exact latched ran
  · split at ran
    · next same =>
      obtain ⟨controls, between, reading, rest⟩ := run_bind_ok_iff.mp ran
      cases rest
      exact direct same kept reading
    · exact latched ran
  · exact latched ran

theorem storeMemory_writes {mem : String} {addr : List TypedExpr} {e : TypedExpr} {x : Nat} {m : Memory}
    {idxs : List Nat} {ty : Ty} (finished : Finished c) (legal : w.Legal True)
    (named : LegalEnv w.cells env) (matched : Matches slots env) (tidyAddr : TidyAll addr)
    (typedAddr : PhysicalAll slots addr) (tidy : Tidy e) (typed : Physical slots e)
    (fits : assignable e.ty ty = true)
    (ran : (storeMemory s env pos mem addr e).run w = .ok (control, v)) (kept : Kept v c)
    (found : memoryOf? env mem = some m) (wide : m.width = ty.width)
    (located : offsets d.product env σ addr m.sizes = some idxs)
    (computed : value d.product env σ e = some x) :
    Ensures d c control σ (Agree (w.built ∅) (σ.set x (.element m.cell idxs))) := by
  obtain ⟨m', _, looked, ran⟩ := run_bind_ok_iff.mp ran
  obtain ⟨visible, rfl⟩ := memoryOf_ok looked
  rw [memoryOf?_eq_some found] at visible
  cases visible
  obtain ⟨⟨addrs, W⟩, addressed, placing, ran⟩ := run_bind_ok_iff.mp ran
  obtain ⟨⟨data, W'⟩, lowered_, lowering, ran⟩ := run_bind_ok_iff.mp ran
  obtain ⟨group, rfl, kept, added⟩ := closeGroup_ok kept ran
  obtain ⟨placed, sources⟩ := addressing_lowers matched tidyAddr (fun _ => typedAddr) _ _ _ _ _ _ legal
    named (legalWiring_empty _ _) placing
  have namedAddrs := named.mono placed.extends_.cells
  obtain ⟨lowered, _⟩ := lowerExpr_lowered matched m.width e tidy (fun _ => typed) _ _ _ _ _
    placed.extends_.legal namedAddrs placed.wired lowering
  have hides := Hides.empty w env
  have grown := placed.extends_.cells.trans (lowered.extends_.cells.trans kept.cells)
  have stored := (named.stored mem _ (memoryOf?_eq_some found)).mono grown
  have readied : Readies d c (w.built ∅) {} W' σ fun τ =>
      List.Forall₂ (Carries d.product c (lowered_.built ∅) W'.assigns τ) addrs idxs ∧
        Carries d.product c (lowered_.built ∅) W'.assigns τ data x := by
    refine (addressing_delivers (lowerAddrs_delivers finished matched addr tidyAddr typedAddr)
      _ _ _ _ _ _ legal named (legalWiring_empty _ _) placing (kept.of_extends lowered.extends_) ∅ hides
      σ idxs located).trans (placed.extends_.built ∅) fun τ same carried => ?_
    rw [value_congr (hides.sees named) same] at computed
    refine (lowerExpr_delivers finished matched m.width e tidy typed _ _ _ _ _ placed.extends_.legal
      namedAddrs placed.wired lowering kept ∅ (hides.mono placed.extends_) τ x computed).rewire rfl
      fun υ unchanged carries => ⟨?_, ?_⟩
    · exact carried.imp fun _ _ old => old.mono (lowered.extends_.built ∅) lowered.more unchanged
    · rw [wide, resized_of_assignable fits (typed.value_lt matched computed)] at carries
      exact carries
  rw [Wiring.store_eq, Wiring.before_assignAll]
  exact (readied.finish fun τ _ carried => storeGroup_stores finished lowered.wired stored
    sources.length_eq added carried.1 carried.2 _).sequence

/-! ### Reductions -/

/-- The wires of the operands of a part. -/
abbrev Wiring.operands (W : Wiring) (cell : String) (left right : Pin) : Wiring :=
  (W.connect (.cell cell "left") left).connect (.cell cell "right") right

theorem Wiring.before_operands (W : Wiring) (cell : String) (left right : Pin) :
    (W.operands cell left right).before = W.before :=
  (Wiring.before_assign ..).trans (Wiring.before_assign ..)

theorem combine_carries {op : BinOp} {ty other : Ty} {W : Wiring} {cell : String} {left right : Pin}
    {old x : Nat} {hidden : Set String} (finished : Finished c) (legal : w.Legal True)
    (arithmetic : op.isArithmetic = true) (fits : assignable other ty = true)
    (before : old < Word.capacity ty.width) (lt : x < Word.capacity other.width)
    (isLeft : Carries d.product c (w.built hidden) W.assigns σ left old)
    (isRight : Carries d.product c (w.built hidden) W.assigns σ right (resized ty.width other x))
    (kept : Kept v c) (ran : (addOperator op ty.width ty.isSigned ty.frac?).run w = .ok (cell, v)) :
    Carries d.product c (v.built hidden) (W.operands cell left right).assigns σ (.out cell)
      (operation d.product op ty ty other old x) := by
  rw [resized_of_assignable fits lt] at isRight
  rw [← operate_eq_reduction d.product arithmetic fits before lt]
  exact addOperator_carries finished legal isLeft isRight kept ran

theorem reduceRegister_writes {op : BinOp} {ty : Ty} {reg : String} {e : TypedExpr} {x : Nat}
    (finished : Finished c) (legal : w.Legal True) (named : LegalEnv w.cells env)
    (matched : Matches slots env) (tidy : Tidy e) (typed : Physical slots e)
    (arithmetic : op.isArithmetic = true) (fits : assignable e.ty ty = true)
    (isRegister : partOf? w.cells reg = some (.register ty.width))
    (ran : (reduceRegister s env pos op ty reg ty.width e).run w = .ok (control, v)) (kept : Kept v c)
    (computed : value d.product env σ e = some x) :
    Ensures d c control σ (Agree (w.built ∅)
      (σ.set (operation d.product op ty ty e.ty (pattern ty.width (σ.regs reg)) x) (.register reg))) := by
  obtain ⟨⟨right, W⟩, lowered_, lowering, ran⟩ := run_bind_ok_iff.mp ran
  obtain ⟨cell, operated, operating, ran⟩ := run_bind_ok_iff.mp ran
  obtain ⟨group, rfl, kept, added⟩ := closeGroup_ok kept ran
  obtain ⟨lowered, source⟩ := lowerExpr_lowered matched ty.width e tidy (fun _ => typed) _ _ _ _ _ legal
    named (legalWiring_empty _ _) lowering
  have found := partOf?_of_isPrefix lowered.extends_.cells isRegister
  obtain ⟨combined, _⟩ := operate_lowered lowered.extends_.legal (named.mono lowered.extends_.cells)
    lowered.wired (.register found) source operating
  have keptValue := kept.of_extends combined.extends_
  have readied : Readies d c (w.built ∅) {} (W.operands cell (.out reg) right) σ fun τ =>
      Carries d.product c (operated.built ∅) (W.operands cell (.out reg) right).assigns τ (.out cell)
        (operation d.product op ty ty e.ty (pattern ty.width (σ.regs reg)) x) := by
    refine (lowerExpr_delivers finished matched ty.width e tidy typed _ _ _ _ _ legal named
      (legalWiring_empty _ _) lowering keptValue ∅ (.empty w env) σ x computed).rewire
      (Wiring.before_operands ..) fun τ same carries => ?_
    have old := @carries_register d.product c (lowered_.built ∅) W.assigns τ _ _
      (keptValue.partOf? found) ⟨mem_of_partOf? found, nofun⟩
    rw [← (same reg ⟨mem_of_partOf? isRegister, nofun⟩).1] at old
    exact combine_carries finished lowered.extends_.legal arithmetic fits (pattern_lt _ _)
      (typed.value_lt matched computed) old carries kept operating
  rw [Wiring.latch_eq, Wiring.before_assignAll]
  exact readied.latch finished combined.wired
    (kept.partOf? (partOf?_of_isPrefix combined.extends_.cells found)) added s pos

/-- The old element is read into a register of its own, then combined and stored. -/
theorem oldGroup_combines {op : BinOp} {ty other : Ty} {m : Memory} {addrs : List Pin} {idxs : List Nat}
    {W W' : Wiring} {old cell read write : String} {right : Pin} {x : Nat} {cells cells' : List Cell}
    (finished : Finished c) (legal : w.Legal True) (shared : LegalWiring cells env { assigns := W.assigns })
    (wired : LegalWiring cells' env (W'.operands cell (.out old) right)) (more : W.assigns ⊆ W'.assigns)
    (isOld : partOf? w.cells old = some (.register m.width)) (stored : Stored c.cells (.memory m))
    (counted : addrs.length = m.sizes.length)
    (addedRead : oldGroup read m.cell W.assigns addrs old ∈ c.groups)
    (addedWrite : ⟨write, some 1, ((W'.operands cell (.out old) right).store write m.cell addrs
      (.out cell)).assigns⟩ ∈ c.groups)
    (arithmetic : op.isArithmetic = true) (fits : assignable other ty = true)
    (lt : x < Word.capacity other.width) (wide : m.width = ty.width)
    (located : List.Forall₂ (Carries d.product c (w.built {old}) W.assigns σ) addrs idxs)
    (carries : Carries d.product c (w.built {old}) W'.assigns σ right (resized m.width other x))
    (kept : Kept v c) (operating : (addOperator op m.width ty.isSigned ty.frac?).run w = .ok (cell, v)) :
    Ensures d c (.seq [s.enable read pos, s.enable write pos]) σ (Agree {name | name ≠ old}
      (σ.set (operation d.product op ty ty other (pattern m.width (σ.mems m.cell idxs)) x)
        (.element m.cell idxs))) := by
  have keptOperands := kept.of_extends (addOperator_installs legal operating).extends_
  have reading := readGroup_captures finished shared (keptOperands.partOf? isOld) stored counted
    (show ⟨read, some 2, _⟩ ∈ c.groups from capture_connect .. ▸ addedRead) located (s.position pos)
  refine reading.cons fun τ captured => ?_
  have outside : (Place.register old).cell ∉ {name | name ≠ old} := fun other => other rfl
  have same : Agree {name | name ≠ old} σ τ :=
    ((Agree.refl _ σ).set_of_not_mem outside _).trans (captured.mono fun _ _ => trivial)
  have hidden : Agree (w.built {old}) σ τ := same.mono fun _ member => member.2
  have shows_ : w.built {old} ⊆ w.built ∅ := fun _ member => ⟨member.1, nofun⟩
  have holds : τ.regs old = pattern m.width (σ.mems m.cell idxs) :=
    ((captured old trivial).1.symm.trans (Function.update_self ..) :)
  have isLeft := @carries_register d.product c (w.built ∅) W'.assigns τ _ _ (keptOperands.partOf? isOld)
    ⟨mem_of_partOf? isOld, nofun⟩
  rw [holds, pattern_of_lt (pattern_lt _ _)] at isLeft
  have isRight := carries.mono shows_ (List.Subset.refl _) hidden
  rw [wide] at isRight operating
  have combined := combine_carries finished legal arithmetic fits (wide ▸ pattern_lt _ _) lt isLeft isRight
    kept operating
  have wires : W.assigns ⊆ (W'.operands cell (.out old) right).assigns := fun _ wire =>
    Wiring.subset_connect _ _ _ (Wiring.subset_connect _ _ _ (more wire))
  have grown := (addOperator_installs legal operating).extends_.built ∅
  have placed := located.imp fun _ _ carried =>
    carried.mono (fun _ member => grown (shows_ member)) wires hidden
  refine (storeGroup_stores finished wired stored counted addedWrite placed combined _).singleton.mono
    fun υ ends => ?_
  exact (same.set _).trans (ends.mono fun _ _ => trivial)

/-- The old element is read after the reads of the address and of the value, and only then written. -/
theorem reduceMemory_writes {op : BinOp} {ty : Ty} {mem : String} {addr : List TypedExpr}
    {e : TypedExpr} {x : Nat} {m : Memory} {idxs : List Nat} (finished : Finished c)
    (legal : w.Legal True) (named : LegalEnv w.cells env) (matched : Matches slots env)
    (tidyAddr : TidyAll addr) (typedAddr : PhysicalAll slots addr) (tidy : Tidy e)
    (typed : Physical slots e) (arithmetic : op.isArithmetic = true) (fits : assignable e.ty ty = true)
    (ran : (reduceMemory s env pos op ty mem addr e).run w = .ok (control, v)) (kept : Kept v c)
    (found : memoryOf? env mem = some m) (wide : m.width = ty.width)
    (located : offsets d.product env σ addr m.sizes = some idxs)
    (computed : value d.product env σ e = some x) :
    Ensures d c control σ (Agree (w.built ∅) (σ.set
      (operation d.product op ty ty e.ty (pattern m.width (σ.mems m.cell idxs)) x)
      (.element m.cell idxs))) := by
  obtain ⟨m', _, looked, ran⟩ := run_bind_ok_iff.mp ran
  obtain ⟨visible, rfl⟩ := memoryOf_ok looked
  rw [memoryOf?_eq_some found] at visible
  cases visible
  obtain ⟨⟨addrs, W⟩, addressed, placing, ran⟩ := run_bind_ok_iff.mp ran
  obtain ⟨old, registered, adding, ran⟩ := run_bind_ok_iff.mp ran
  obtain ⟨read, readNamed, readNaming, ran⟩ := run_bind_ok_iff.mp ran
  obtain ⟨_, readAdded, readAdding, ran⟩ := run_bind_ok_iff.mp ran
  obtain ⟨⟨right, W'⟩, lowered_, lowering, ran⟩ := run_bind_ok_iff.mp ran
  obtain ⟨cell, operated, operating, ran⟩ := run_bind_ok_iff.mp ran
  obtain ⟨write, writeNamed, writeNaming, ran⟩ := run_bind_ok_iff.mp ran
  cases ran
  obtain ⟨placed, sources⟩ := addressing_lowers matched tidyAddr (fun _ => typedAddr) _ _ _ _ _ _ legal
    named (legalWiring_empty _ _) placing
  have stored := named.stored mem _ (memoryOf?_eq_some found)
  obtain ⟨installs, readGrown, readGroups, shared⟩ := oldGroup_extends placed.extends_.legal placed.wired
    (stored.mono placed.extends_.cells) sources adding readNaming readAdding
  have toRead := installs.extends_.trans readGrown
  have namedRead := named.mono (placed.extends_.trans toRead).cells
  obtain ⟨lowered, source⟩ := lowerExpr_lowered matched m.width e tidy (fun _ => typed) _ _ _ _ _
    readGrown.legal namedRead shared lowering
  have isOld := partOf?_of_isPrefix (readGrown.trans lowered.extends_).cells installs.found
  obtain ⟨combined, _⟩ := operate_lowered lowered.extends_.legal
    (namedRead.mono lowered.extends_.cells) lowered.wired (.register isOld) source operating
  have keptWrite : Kept writeNamed c := ⟨kept.cells, (List.prefix_append _ _).trans kept.groups⟩
  have keptOperated := keptWrite.of_takes (freshName_takes writeNaming)
  have keptLowered := keptOperated.of_extends combined.extends_
  have keptRead := keptLowered.of_extends lowered.extends_
  have keptAddressed := keptRead.of_extends toRead
  have addedWrite := kept.groups.subset (List.mem_append_right _ List.mem_cons_self)
  have addedRead : oldGroup read m.cell W.assigns addrs old ∈ c.groups :=
    keptRead.groups.subset (readGroups ▸ List.mem_append_right _ List.mem_cons_self)
  have stored' := stored.mono (placed.extends_.cells.trans keptAddressed.cells)
  have fresh : old ∉ addressed.cellNames := placed.extends_.legal.not_cell installs.new
  have hides : Hides readAdded env {old} := by
    constructor
    · rintro name rfl
      exact readGrown.cellNames (mem_of_partOf? installs.found)
    · rintro name store visible cell member rfl
      exact fresh (placed.extends_.cellNames ((named.stored name store visible).mem _ member))
  have more : addressed.built ∅ ⊆ readAdded.built {old} := fun name member =>
    ⟨toRead.cellNames member.1, fun same => fresh (same ▸ member.1)⟩
  have older : w.built ∅ ⊆ addressed.built ∅ := placed.extends_.built ∅
  rw [show (Wiring.connect (W'.connect _ _) _ _).before = W'.before from Wiring.before_operands ..,
    List.append_assoc]
  have toAddresses := addressing_delivers (lowerAddrs_delivers finished matched addr tidyAddr typedAddr)
    _ _ _ _ _ _ legal named (legalWiring_empty _ _) placing keptAddressed ∅ (.empty w env) σ idxs located
  refine ((toAddresses.ensures rfl).append ?_).sequence
  rintro τ ⟨same, carried⟩
  have computed' := (value_congr ((Hides.empty w env).sees named) same e).symm.trans computed
  have toValue := lowerExpr_delivers finished matched m.width e tidy typed _ _ _ _ _ readGrown.legal
    namedRead shared lowering keptLowered {old} hides τ x computed'
  refine (toValue.ensures rfl).append ?_
  rintro υ ⟨unchanged, carriesRight⟩
  have sameAll : Agree (w.built ∅) σ υ := same.trans (unchanged.mono fun _ member => more (older member))
  rw [mems_congr ((Hides.empty w env).sees named) sameAll found]
  refine (oldGroup_combines finished lowered.extends_.legal shared combined.wired lowered.more isOld stored'
    sources.length_eq addedRead addedWrite arithmetic fits (typed.value_lt matched computed) wide
    (carried.imp fun _ _ before => before.mono (fun _ member => lowered.extends_.built _ (more member))
      (List.Subset.refl _) (unchanged.mono more)) carriesRight keptOperated operating).mono fun φ ends => ?_
  refine (sameAll.set _).trans (ends.mono fun name member => ?_)
  rintro rfl
  exact fresh (older member).1

end

end Lowering

end BankedLoops
