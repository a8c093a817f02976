import BankedLoops.Proofs.Lowering.Levels
import BankedLoops.Proofs.Lowering.Meaning

/-!
# What wired pins carry

`Carries` says what a pin of a wiring shows in every group that takes the wiring over, as long as the
registers built so far hold what they hold. Constants, names, adapters and operators are followed
here; none of them takes time.
-/

namespace BankedLoops

namespace Lowering

open Library (Part)
open Semantics (FixedProduct pattern pattern_toInt pattern_modEq pattern_eq_of_modEq capacity_dvd toInt)
open Execution

/-! ### Finished components -/

/-- What holds of a component once it is built. -/
structure Finished (c : Component) : Prop where
  distinct : (c.groups.map (·.name)).Nodup
  fit : ConstantsFit c.cells
  legal : ∀ g ∈ c.groups, LegalGroup True c.cells g

theorem Workspace.Legal.finished {w : Workspace} (legal : w.Legal True) (name : String)
    (control : Control) : Finished ⟨name, w.cells, w.groups, control⟩ where
  distinct := (List.nodup_append.mp legal.distinct).2.1
  fit := legal.constants trivial
  legal := legal.groups

/-- What was built is still there in the component. -/
structure Kept (w : Workspace) (c : Component) : Prop where
  cells : w.cells <+: c.cells
  groups : w.groups <+: c.groups

theorem Kept.of_extends {exact : Prop} {w v : Workspace} {c : Component} (kept : Kept v c)
    (grown : Extends exact w v) : Kept w c :=
  ⟨grown.cells.trans kept.cells, grown.groups.trans kept.groups⟩

theorem Kept.partOf? {w : Workspace} {c : Component} (kept : Kept w c) {name : String} {part : Part}
    (found : BankedLoops.partOf? w.cells name = some part) :
    BankedLoops.partOf? c.cells name = some part :=
  partOf?_of_isPrefix kept.cells found

/-- The cells that were built, without those that are hidden. -/
def Workspace.built (w : Workspace) (hidden : Set String) : Set String :=
  {name | name ∈ w.cellNames ∧ name ∉ hidden}

theorem Extends.built {exact : Prop} {w v : Workspace} (grown : Extends exact w v)
    (hidden : Set String) : w.built hidden ⊆ v.built hidden :=
  fun _ member => ⟨grown.cellNames member.1, member.2⟩

/-- Cells that no name leads to. -/
structure Hides (w : Workspace) (env : Env) (hidden : Set String) : Prop where
  inside : ∀ name ∈ hidden, name ∈ w.cellNames
  unseen : ∀ name store, env.get? name = some store → ∀ cell ∈ store.cells, cell ∉ hidden

namespace Hides

variable {w v : Workspace} {env : Env} {hidden : Set String}

theorem empty (w : Workspace) (env : Env) : Hides w env ∅ := ⟨nofun, fun _ _ _ _ _ => nofun⟩

theorem mono {exact : Prop} (hides : Hides w env hidden) (grown : Extends exact w v) :
    Hides v env hidden :=
  ⟨fun name member => grown.cellNames (hides.inside name member), hides.unseen⟩

theorem sees (hides : Hides w env hidden) (named : LegalEnv w.cells env) : Sees env (w.built hidden) :=
  fun name store found cell member =>
    ⟨(named.stored name store found).mem cell member, hides.unseen name store found cell member⟩

/-- What is new is not hidden. -/
theorem new (hides : Hides w env hidden) {name : String} (new : name ∉ w.cellNames) : name ∉ hidden :=
  fun member => new (hides.inside name member)

end Hides

/-! ### Pins -/

/-- Whether a pin shows `x` in every cycle of every group with the given wires, as long as the given
cells hold what they hold in `σ`. -/
def Carries (product : FixedProduct) (c : Component) (names : Set String) (assigns : List Assignment)
    (σ : State) (p : Pin) (x : Nat) : Prop :=
  ∀ g ∈ c.groups, assigns ⊆ g.assignments → ∀ cycle τ level, Agree names σ τ →
    Consistent product c.cells g cycle τ level → level p = x

theorem Wiring.mem_connect (W : Wiring) (dst src : Pin) :
    ⟨dst, .pin src, .always⟩ ∈ (W.connect dst src).assigns := by
  unfold connect assign
  dsimp only
  split
  · next present => simpa using present
  · exact List.mem_append_right _ List.mem_cons_self

theorem Wiring.subset_connect (W : Wiring) (dst src : Pin) :
    W.assigns ⊆ (W.connect dst src).assigns := by
  unfold connect assign
  dsimp only
  split
  · exact List.Subset.refl _
  · exact List.subset_append_left _ _

section

variable {product : FixedProduct} {c : Component} {names names' : Set String}
  {assigns assigns' : List Assignment} {σ σ' : State} {p : Pin} {x : Nat}

theorem Carries.mono (carries : Carries product c names assigns σ p x) (more : names ⊆ names')
    (wires : assigns ⊆ assigns') (agree : Agree names σ σ') :
    Carries product c names' assigns' σ' p x :=
  fun g member inside cycle τ level same => carries g member (fun _ wire => inside (wires wire)) cycle
    τ level (agree.trans (same.mono more))

theorem Carries.congr (carries : Carries product c names assigns σ p x) {y : Nat} (same : x = y) :
    Carries product c names assigns σ p y :=
  same ▸ carries

theorem carries_constant (names : Set String) (assigns : List Assignment) (σ : State) {cell : String}
    {width value : Nat} (found : partOf? c.cells cell = some (.constant width value)) :
    Carries product c names assigns σ (.out cell) (pattern width value) :=
  fun _ _ _ _ _ _ _ consistent => consistent.level_constant found

theorem carries_register (assigns : List Assignment) (σ : State) {cell : String} {width : Nat}
    (found : partOf? c.cells cell = some (.register width)) (member : cell ∈ names) :
    Carries product c names assigns σ (.out cell) (pattern width (σ.regs cell)) := by
  intro g _ _ cycle τ level agree consistent
  rw [consistent.level_register found, (agree cell member).1]

/-- Behind an adapter. -/
theorem Carries.adapter (finished : Finished c) (carries : Carries product c names assigns σ p x)
    {cell : String} {kind : Library.Adapter} {width target : Nat}
    (found : partOf? c.cells cell = some (.adapter kind width target)) (inside : assigns ⊆ assigns')
    (wire : ⟨.cell cell "in", .pin p, .always⟩ ∈ assigns') :
    Carries product c names assigns' σ (.out cell) (kind.apply width target x) := by
  intro g member wires cycle τ level agree consistent
  have input := (finished.legal g member).level_input consistent found rfl (wires wire)
  have shown : level (.out cell) = kind.apply width target (level (.cell cell "in")) :=
    consistent.shows_ cell _ found "out" _ rfl
  rw [shown, input, carries g member (fun _ old => wires (inside old)) cycle τ level agree consistent]

theorem shown?_operatorPart (product : FixedProduct) (σ : State) (level : Pin → Nat) (cell : String)
    (op : BinOp) (width : Nat) (signed : Bool) (frac : Option Nat) :
    shown? product σ level cell (operatorPart op width signed frac) "out" =
      some (operate product op width signed frac (level (.cell cell "left"))
        (level (.cell cell "right"))) := by
  cases op <;> cases frac <;> rfl

/-- Behind an operator. -/
theorem Carries.operator (finished : Finished c) {q : Pin} {y : Nat}
    (left : Carries product c names assigns σ p x) (right : Carries product c names assigns σ q y)
    {cell : String} {op : BinOp} {width : Nat} {signed : Bool} {frac : Option Nat}
    (found : partOf? c.cells cell = some (operatorPart op width signed frac))
    (inside : assigns ⊆ assigns') (leftWire : ⟨.cell cell "left", .pin p, .always⟩ ∈ assigns')
    (rightWire : ⟨.cell cell "right", .pin q, .always⟩ ∈ assigns') :
    Carries product c names assigns' σ (.out cell) (operate product op width signed frac x y) := by
  intro g member wires cycle τ level agree consistent
  have legal := finished.legal g member
  have combinational := isCombinational_operatorPart op width signed frac
  have old : assigns ⊆ g.assignments := fun _ wire => wires (inside wire)
  have isLeft := (legal.level_input consistent found combinational (wires leftWire)).trans
    (left g member old cycle τ level agree consistent)
  have isRight := (legal.level_input consistent found combinational (wires rightWire)).trans
    (right g member old cycle τ level agree consistent)
  have out := consistent.shows_ cell _ found "out" _ (shown?_operatorPart ..)
  rw [isLeft, isRight] at out
  exact out

end

/-! ### Wirings without reads -/

section

variable {product : FixedProduct} {c : Component} {env : Env} {w v : Workspace} {W W' : Wiring}
  {σ : State} {s : Setting} {pos : Nat} {hidden : Set String}

theorem constant_carries (legal : w.Legal True) {width n : Nat} {pin : Pin}
    (word : n < Word.capacity Word.sizeBits) (kept : Kept v c)
    (ran : (constant width n).run w = .ok (pin, v)) :
    Carries product c (v.built hidden) W.assigns σ pin (pattern width n) := by
  obtain ⟨_, _, cell, rfl, found⟩ :=
    constant_legal legal (fun _ wide => word_of_capacity word wide) ran
  exact carries_constant _ _ _ (kept.partOf? found)

theorem constant_fits {width n : Nat} {pin : Pin} (word : n < Word.capacity Word.sizeBits)
    (ran : (constant width n).run w = .ok (pin, v)) : n < Word.capacity width := by
  unfold constant at ran
  split at ran
  · cases ran
  · next fits =>
    by_cases narrow : width < Word.sizeBits
    · exact Nat.lt_of_not_le fun large => fits ⟨narrow, large⟩
    · exact word_of_capacity word (Nat.le_of_not_lt narrow)

theorem adapt_carries (finished : Finished c) (legal : w.Legal True) {pin pin' : Pin} {width target x : Nat}
    {signed : Bool} (carries : Carries product c (w.built hidden) W.assigns σ pin x)
    (lt : x < Word.capacity width) (kept : Kept v c)
    (ran : (adapt W pin width target signed).run w = .ok ((pin', W'), v)) :
    Carries product c (v.built hidden) W'.assigns σ pin' (pattern target (toInt signed width x)) ∧
      W'.before = W.before := by
  unfold adapt at ran
  split at ran
  · next same =>
    cases ran
    subst same
    rw [pattern_toInt signed lt]
    exact ⟨carries, rfl⟩
  · obtain ⟨cell, between, added, rest⟩ := run_bind_ok_iff.mp ran
    cases rest
    have installs := addPrimitive_installs _ legal (adapter_part width target rfl) nofun added
    have adapted := carries.adapter finished (kept.partOf? installs.found) (Wiring.subset_connect ..)
      (Wiring.mem_connect W (.cell cell "in") pin)
    refine ⟨?_, Wiring.before_assign ..⟩
    rw [← adapterOf_apply target signed lt]
    exact adapted.mono (installs.extends_.built hidden) (List.Subset.refl _) (.refl _ _)

theorem addOperator_carries (finished : Finished c) (legal : w.Legal True) {op : BinOp} {width : Nat}
    {signed : Bool} {frac : Option Nat} {cell : String} {left right : Pin} {x y : Nat}
    (carriesLeft : Carries product c (w.built hidden) W.assigns σ left x)
    (carriesRight : Carries product c (w.built hidden) W.assigns σ right y) (kept : Kept v c)
    (ran : (addOperator op width signed frac).run w = .ok (cell, v)) :
    let W' := (W.connect (.cell cell "left") left).connect (.cell cell "right") right
    Carries product c (v.built hidden) W'.assigns σ (.out cell) (operate product op width signed frac x y) := by
  have installs := addOperator_installs legal ran
  have operated := carriesLeft.operator finished carriesRight (kept.partOf? installs.found)
    (fun _ old => Wiring.subset_connect _ _ _ (Wiring.subset_connect _ _ _ old))
    (Wiring.subset_connect _ _ _ (Wiring.mem_connect W (.cell cell "left") left))
    (Wiring.mem_connect (W.connect (.cell cell "left") left) (.cell cell "right") right)
  exact operated.mono (installs.extends_.built hidden) (List.Subset.refl _) (.refl _ _)

theorem readName_carries (finished : Finished c) (named : LegalEnv w.cells env)
    (hides : Hides w env hidden) {name : String} {pin : Pin}
    {width : Nat} (kept : Kept v c)
    (ran : (readName s env pos W name).run w = .ok ((pin, width, W'), v)) :
    w = v ∧ W'.before = W.before ∧ W.assigns ⊆ W'.assigns ∧
      ∃ x, scalarOf? env σ name = some (pattern width x) ∧
        Carries product c (v.built hidden) W'.assigns σ pin (pattern width x) := by
  have sees := hides.sees named
  obtain ⟨rfl, read⟩ := readName_ok ran
  cases read with
  | register found =>
    cases named.stored name _ found with
    | register isRegister =>
      refine ⟨rfl, rfl, List.Subset.refl _, _, by rw [scalarOf?, found], ?_⟩
      exact carries_register _ _ (kept.partOf? isRegister) (sees name _ found _ List.mem_cons_self)
  | whole found =>
    cases named.stored name _ found with
    | whole isRegister =>
      refine ⟨rfl, rfl, List.Subset.refl _, _, by rw [scalarOf?, found], ?_⟩
      exact carries_register _ _ (kept.partOf? isRegister) (sees name _ found _ List.mem_cons_self)
  | @sliced cell slice width found =>
    cases named.stored name _ found with
    | @sliced _ _ wide _ isRegister isSlice narrower =>
      refine ⟨rfl, Wiring.before_assign .., Wiring.subset_connect .., _, by rw [scalarOf?, found], ?_⟩
      have whole : Carries product c (w.built hidden) W.assigns σ (.out cell) (pattern wide (σ.regs cell)) :=
        carries_register _ _ (kept.partOf? isRegister) (sees name _ found _ List.mem_cons_self)
      have narrowed := whole.adapter finished (kept.partOf? isSlice) (Wiring.subset_connect ..)
        (Wiring.mem_connect W (.cell slice "in") (.out cell))
      refine narrowed.congr (pattern_eq_of_modEq ?_)
      exact (pattern_modEq wide _).of_dvd (capacity_dvd (Nat.le_of_lt narrower))

end

end Lowering

end BankedLoops
