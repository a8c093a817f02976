import Mathlib.Logic.Relation
import BankedLoops.Lowering.Netlist
import BankedLoops.Proofs.Names
import BankedLoops.Proofs.Preorder
import BankedLoops.Proofs.Success

/-!
# How a component grows

Whatever is lowered, the workspace takes one of a few steps at a time: names are taken, cells of the
library are added and functions are instantiated. `Steps` says so of a construction; it holds of a
bind where it holds of both parts, so it follows the code. With it goes what the reads in front of a
group are: they only enable groups. `Grows` is what every step keeps: cells are only added, and no name
is given to two of them.
-/

namespace BankedLoops

theorem Ty.static_or (ty : Ty) : (∃ n, ty = .static n) ∨ ∀ n, ty ≠ .static n := by
  cases ty with
  | static n => exact .inl ⟨n, rfl⟩
  | _ => exact .inr nofun

theorem Ty.ubit_ne_static (width n : Nat) : Ty.ubit width ≠ .static n :=
  nofun

namespace Lowering

variable {α β : Type}

/-! ### Names -/

theorem Names.fresh_ok {n n' : Names} {stem name : String} (given : n.fresh stem = (name, n')) :
    name ∉ n.used ∧ n'.used = name :: n.used := by
  cases given
  exact ⟨FreeName.firstFree_not_mem (FreeName.numbered_injective stem) _ _, rfl⟩

theorem Names.unique_ok {n n' : Names} {base name : String} (given : n.unique base = (name, n')) :
    name ∉ n.used ∧ n'.used = name :: n.used := by
  cases given
  exact ⟨FreeName.firstFree_not_mem (FreeName.suffixed_injective base) _ _, rfl⟩

theorem Names.reserve?_some {n n' : Names} {name : String} (given : n.reserve? name = some n') :
    name ∉ n.used ∧ n'.used = name :: n.used := by
  unfold reserve? at given
  split at given
  · cases given
  · next free =>
    cases given
    exact ⟨by simpa using free, rfl⟩

/-- Every number below the counter of a stem is that of a used name. -/
def Names.Counted (n : Names) : Prop :=
  ∀ stem k, n.counters.lookup stem = some k → ∀ j < k, FreeName.numbered stem j ∈ n.used

/-- A counter is not ahead of the names that were given out. -/
theorem Names.Counted.le_length {n : Names} (counted : n.Counted) {stem : String} {k : Nat}
    (counter : n.counters.lookup stem = some k) : k ≤ n.used.length := by
  have distinct : ((List.range k).map (FreeName.numbered stem)).Nodup :=
    List.nodup_range.map (FreeName.numbered_injective stem)
  have among : (List.range k).map (FreeName.numbered stem) ⊆ n.used := by
    intro name member
    obtain ⟨j, below, rfl⟩ := List.mem_map.mp member
    exact counted stem k counter j (List.mem_range.mp below)
  have fewer := distinct.length_le_of_subset among
  rwa [List.length_map, List.length_range] at fewer

/-- A name is given out. -/
structure Names.Gives (n : Names) (name : String) (n' : Names) : Prop where
  used : n'.used = name :: n.used
  counted : n.Counted → n'.Counted

theorem Names.gives_fresh (n : Names) (stem : String) :
    n.Gives (n.fresh stem).1 (n.fresh stem).2 where
  used := rfl
  counted := by
    intro counted other k counter j below
    simp only [fresh, List.lookup_cons] at counter ⊢
    split at counter
    · next same =>
      obtain rfl : other = stem := by simpa using same
      cases counter
      rcases Nat.lt_succ_iff_lt_or_eq.mp below with passed | rfl
      · refine List.mem_cons_of_mem _ ?_
        rcases Nat.lt_or_ge j ((n.counters.lookup other).getD 0) with old | searched
        · cases known : n.counters.lookup other with
          | none => simp [known] at old
          | some start =>
            rw [known] at old
            exact counted other start known j old
        · exact FreeName.mem_of_lt_search searched passed
      · exact List.mem_cons_self
    · exact List.mem_cons_of_mem _ (counted other k counter j below)

/-- A name that is not numbered is not counted. -/
theorem Names.gives_of_counters {n n' : Names} {name : String} (used : n'.used = name :: n.used)
    (counters : n'.counters = n.counters) : n.Gives name n' where
  used := used
  counted := by
    intro counted stem k counter j below
    rw [counters] at counter
    rw [used]
    exact List.mem_cons_of_mem _ (counted stem k counter j below)

theorem Names.gives_unique (n : Names) (base : String) :
    n.Gives (n.unique base).1 (n.unique base).2 := gives_of_counters rfl rfl

theorem Names.reserve?_gives {n n' : Names} {name : String} (reserved : n.reserve? name = some n') :
    n.Gives name n' := by
  refine gives_of_counters (reserve?_some reserved).2 ?_
  unfold reserve? at reserved
  split at reserved <;> cases reserved
  rfl

/-! ### Workspaces -/

def Workspace.cellNames (w : Workspace) : List String := w.cells.map (·.name)

/-- No two cells share a name, and every name of a cell counts as used. -/
structure Workspace.Sound (w : Workspace) : Prop where
  nodup : w.cellNames.Nodup
  used : w.cellNames ⊆ w.names.used

theorem Workspace.sound_empty (quotes : Statements) : Workspace.Sound { quotes } :=
  ⟨List.nodup_nil, List.nil_subset _⟩

structure Grows (w w' : Workspace) : Prop where
  cells : w.cells <+: w'.cells
  used : w.names.used ⊆ w'.names.used
  sound : w.Sound → w'.Sound

namespace Grows

variable {w w' w'' : Workspace}

theorem refl (w : Workspace) : Grows w w := ⟨List.prefix_rfl, fun _ => id, id⟩

theorem trans (first : Grows w w') (second : Grows w' w'') : Grows w w'' where
  cells := first.cells.trans second.cells
  used := fun _ member => second.used (first.used member)
  sound := fun sound => second.sound (first.sound sound)

/-- A workspace that differs neither in cells nor in used names. -/
theorem of_eq (cells : w'.cells = w.cells) (used : w'.names.used = w.names.used) : Grows w w' where
  cells := cells ▸ List.prefix_rfl
  used := by
    rw [used]
    exact List.Subset.refl _
  sound := by
    intro sound
    constructor
    · rw [Workspace.cellNames, cells]
      exact sound.nodup
    · rw [Workspace.cellNames, cells, used]
      exact sound.used

/-- Taking a name. -/
theorem of_used {name : String} (cells : w'.cells = w.cells)
    (used : w'.names.used = name :: w.names.used) : Grows w w' where
  cells := cells ▸ List.prefix_rfl
  used := by
    rw [used]
    exact List.subset_cons_self _ _
  sound := by
    intro sound
    constructor
    · rw [Workspace.cellNames, cells]
      exact sound.nodup
    · rw [Workspace.cellNames, cells, used]
      exact fun _ member => List.mem_cons_of_mem _ (sound.used member)

/-- Adding a cell under a name of its own. -/
theorem of_cell {c : Cell} (fresh : c.name ∉ w.names.used) (cells : w'.cells = w.cells ++ [c])
    (used : w'.names.used = c.name :: w.names.used) : Grows w w' where
  cells := by
    rw [cells]
    exact List.prefix_append _ _
  used := by
    rw [used]
    exact List.subset_cons_self _ _
  sound := by
    intro sound
    constructor
    · rw [Workspace.cellNames, cells, List.map_append]
      refine List.nodup_append.mpr ⟨sound.nodup, List.nodup_singleton _, ?_⟩
      intro old inside new added same
      rw [same, List.mem_singleton.mp added] at inside
      exact fresh (sound.used inside)
    · rw [Workspace.cellNames, cells, used, List.map_append]
      intro name member
      rcases List.mem_append.mp member with old | new
      · exact List.mem_cons_of_mem _ (sound.used old)
      · rw [List.mem_singleton.mp new]
        exact List.mem_cons_self

theorem cellNames (grows : Grows w w') : w.cellNames ⊆ w'.cellNames :=
  (grows.cells.map _).subset

end Grows

/-! ### Constructions -/

/-- A construction that only adds. -/
def Adds (x : Build α) : Prop :=
  ∀ w a w', x.run w = .ok (a, w') → Grows w w'

theorem run_bind_ok_iff {x : Build α} {f : α → Build β} {w w'' : Workspace} {b : β} :
    (x >>= f).run w = .ok (b, w'') ↔
      ∃ a w', x.run w = .ok (a, w') ∧ (f a).run w' = .ok (b, w'') := by
  rw [StateT.run_bind, bind_ok_iff]
  exact ⟨fun ⟨⟨a, w'⟩, first, rest⟩ => ⟨a, w', first, rest⟩,
    fun ⟨a, w', first, rest⟩ => ⟨(a, w'), first, rest⟩⟩

theorem run_pure_ok_iff {a b : α} {w w' : Workspace} :
    (pure a : Build α).run w = .ok (b, w') ↔ a = b ∧ w = w' := by
  rw [StateT.run_pure, pure_ok_iff, Prod.mk.injEq]

theorem run_lift_ok_iff {x : Except Fault α} {a : α} {w w' : Workspace} :
    (liftM x : Build α).run w = .ok (a, w') ↔ x = .ok a ∧ w = w' := by
  cases x with
  | error fault => exact ⟨nofun, nofun⟩
  | ok value =>
    show Except.ok (value, w) = .ok (a, w') ↔ _
    rw [Except.ok.injEq, Except.ok.injEq, Prod.mk.injEq]

theorem run_throwInternal_ne {fault : InternalFault} {w : Workspace} {r : α × Workspace} :
    (throwInternal fault : Build α).run w ≠ .ok r := nofun

namespace Adds

theorem pure (a : α) : Adds (Pure.pure a) := by
  intro w b w' ran
  obtain ⟨_, rfl⟩ := run_pure_ok_iff.mp ran
  exact .refl w

theorem bind {x : Build α} {f : α → Build β} (first : Adds x) (rest : ∀ a, Adds (f a)) :
    Adds (x >>= f) := by
  intro w b w'' ran
  obtain ⟨a, w', ranFirst, ranRest⟩ := run_bind_ok_iff.mp ran
  exact (first w a w' ranFirst).trans (rest a w' b w'' ranRest)

end Adds

/-! ### Steps -/

/-- What happens to a workspace at once: a group is closed or a constant is noted, a name is taken, a
cell of the library is added, or one of the allowed functions is instantiated. -/
inductive Step (allowed : String → Prop) (w : Workspace) : Workspace → Prop where
  | note {w' : Workspace} (cells : w'.cells = w.cells) (names : w'.names = w.names)
      (instances : w'.instances = w.instances) : Step allowed w w'
  | take {w' : Workspace} {name : String} (given : w.names.Gives name w'.names)
      (cells : w'.cells = w.cells) (instances : w'.instances = w.instances) : Step allowed w w'
  | install {w' : Workspace} {name primitive : String} {params : List Nat}
      (fresh : name ∉ w.names.used) (given : w.names.Gives name w'.names)
      (cells : w'.cells = w.cells ++ [{ name, prototype := .primitive primitive params }])
      (instances : w'.instances = w.instances) : Step allowed w w'
  | instantiate {w' : Workspace} {func cell : String} (permitted : allowed func)
      (first : w.instances.lookup func = none) (fresh : cell ∉ w.names.used)
      (given : w.names.Gives cell w'.names)
      (cells : w'.cells = w.cells ++ [{ name := cell, prototype := .component func }])
      (instances : w'.instances = (func, cell) :: w.instances) : Step allowed w w'

abbrev Stepped (allowed : String → Prop) : Workspace → Workspace → Prop :=
  Relation.ReflTransGen (Step allowed)

theorem Step.grows {allowed : String → Prop} {w w' : Workspace} : Step allowed w w' → Grows w w'
  | .note cells names _ => .of_eq cells (congrArg Names.used names)
  | .take given cells _ => .of_used cells given.used
  | .install fresh given cells _ => .of_cell fresh cells given.used
  | .instantiate _ _ fresh given cells _ => .of_cell fresh cells given.used

theorem Step.counted {allowed : String → Prop} {w w' : Workspace} :
    Step allowed w w' → w.names.Counted → w'.names.Counted
  | .note _ names _, counted => names ▸ counted
  | .take given .., counted | .install _ given .., counted | .instantiate _ _ _ given .., counted =>
    given.counted counted

theorem Stepped.grows {allowed : String → Prop} {w w' : Workspace} (built : Stepped allowed w w') :
    Grows w w' := by
  induction built with
  | refl => exact .refl w
  | tail _ step ih => exact ih.trans step.grows

theorem Stepped.counted {allowed : String → Prop} {w w' : Workspace} (built : Stepped allowed w w')
    (counted : w.names.Counted) : w'.names.Counted := by
  induction built with
  | refl => exact counted
  | tail _ step ih => exact step.counted ih

/-- How the construction of a component fails: it blames a statement for a memory that it cannot have,
or misses what an earlier pass promised, or has no result on words. No memory that is to be seen from
outside is missing. -/
inductive Usual (blamed : String → Prop) : Failure → Prop where
  | capability {stmt : String} {fault : CapabilityFault} (statement : blamed stmt) :
      Usual blamed (.error (.capability stmt fault))
  | config {fault : ConfigFault} : Usual blamed (.error (.config fault))
  | internal {fault : InternalFault} (other : ∀ bank array, fault ≠ .notExternal bank array) :
      Usual blamed (.error (.internal fault))
  | fault {fault : Fault} : Usual blamed (.fault fault)

/-- How a run ends: with a result for which `R` holds, or with a usual failure. -/
inductive Ends (blamed : String → Prop) (R : α → Workspace → Prop) :
    Except Failure (α × Workspace) → Prop where
  | ok {a : α} {w : Workspace} (holds : R a w) : Ends blamed R (.ok (a, w))
  | error {e : Failure} (usual : Usual blamed e) : Ends blamed R (.error e)

namespace Ends

variable {blamed : String → Prop} {R : α → Workspace → Prop} {S : β → Workspace → Prop} {w : Workspace}

theorem of_ok {a : α} (ends : Ends blamed R (.ok (a, w))) : R a w := by
  cases ends with
  | ok holds => exact holds

theorem mono {R' : α → Workspace → Prop} {ran : Except Failure (α × Workspace)} (ends : Ends blamed R ran)
    (weaker : ∀ a w, R a w → R' a w) : Ends blamed R' ran := by
  cases ends with
  | ok holds => exact .ok (weaker _ _ holds)
  | error usual => exact .error usual

theorem bind {x : Build α} {f : α → Build β} (first : Ends blamed R (x.run w))
    (rest : ∀ a v, R a v → Ends blamed S ((f a).run v)) : Ends blamed S ((x >>= f).run w) := by
  rw [StateT.run_bind]
  generalize x.run w = ran at first
  cases first with
  | ok holds => exact rest _ _ holds
  | error usual => exact .error usual

theorem get : Ends blamed (fun a v => a = w ∧ v = w) ((MonadState.get : Build Workspace).run w) :=
  .ok ⟨rfl, rfl⟩

theorem lift (x : Except Fault α) :
    Ends blamed (fun a v => x = .ok a ∧ v = w) ((liftM x : Build α).run w) := by
  cases x with
  | ok a => exact .ok ⟨rfl, rfl⟩
  | error fault => exact .error .fault

end Ends

/-- A construction that goes by steps, with a result for which `P` holds, or fails as usual. -/
def Steps (allowed blamed : String → Prop) (x : Build α) (P : α → Prop) : Prop :=
  ∀ w, Ends blamed (fun a v => Stepped allowed w v ∧ P a) (x.run w)

namespace Steps

variable {allowed blamed : String → Prop} {P : α → Prop} {Q : β → Prop}

theorem ok {x : Build α} (steps : Steps allowed (fun _ => True) x P) {w w' : Workspace} {a : α}
    (ran : x.run w = .ok (a, w')) : Stepped allowed w w' ∧ P a := by
  have ends := steps w
  rw [ran] at ends
  exact ends.of_ok

theorem adds {x : Build α} (steps : Steps (fun _ => True) (fun _ => True) x P) : Adds x :=
  fun _ _ _ ran => (steps.ok ran).1.grows

theorem result {x : Build α} (steps : Steps (fun _ => True) (fun _ => True) x P) {w w' : Workspace} {a : α}
    (ran : x.run w = .ok (a, w')) : P a :=
  (steps.ok ran).2

theorem pure {a : α} (holds : P a) : Steps allowed blamed (Pure.pure a) P :=
  fun _ => .ok ⟨.refl, holds⟩

theorem bind {x : Build α} {f : α → Build β} (first : Steps allowed blamed x P)
    (rest : ∀ a, P a → Steps allowed blamed (f a) Q) : Steps allowed blamed (x >>= f) Q := by
  intro w
  refine (first w).bind fun a v ⟨built, holds⟩ => (rest a holds v).mono ?_
  exact fun _ _ ⟨more, holds⟩ => ⟨built.trans more, holds⟩

theorem step {x : Build α} (runs : ∀ w, ∃ a w', x.run w = .ok (a, w') ∧ Step allowed w w') :
    Steps allowed blamed x fun _ => True := by
  intro w
  obtain ⟨a, w', ran, taken⟩ := runs w
  rw [ran]
  exact .ok ⟨.single taken, trivial⟩

theorem lift (x : Except Fault α) : Steps allowed blamed (liftM x) fun _ => True :=
  fun _ => (Ends.lift x).mono fun _ _ ⟨_, same⟩ => ⟨same ▸ .refl, trivial⟩

theorem throwInternal {fault : InternalFault} (other : ∀ bank array, fault ≠ .notExternal bank array) :
    Steps allowed blamed (throwInternal fault : Build α) P := by
  intro w
  exact .error (.internal other)

theorem throw_bind {fault : InternalFault} (other : ∀ bank array, fault ≠ .notExternal bank array)
    (f : α → Build β) : Steps allowed blamed (Lowering.throwInternal fault >>= f) Q := by
  refine bind (P := fun _ => False) (throwInternal other) ?_
  exact fun _ never => never.elim

theorem map {x : Build α} (f : α → β) (steps : Steps allowed blamed x P) :
    Steps allowed blamed (f <$> x) fun _ => True := by
  rw [map_eq_pure_bind]
  exact steps.bind fun _ _ => .pure trivial

theorem get : Steps allowed blamed (MonadState.get : Build Workspace) fun _ => True :=
  fun _ => .ok ⟨.refl, trivial⟩

end Steps

/-! ### What runs before a group -/

/-- The controls only enable groups. -/
def Enabling (cs : List Control) : Prop := ∀ c ∈ cs, ∃ group pos, c = .enable group pos

/-- The controls only enable groups, all of them under one annotation. -/
def EnablingAt (mark : Option Nat) (cs : List Control) : Prop :=
  ∀ c ∈ cs, ∃ group, c = .enable group mark

theorem enablingAt_enable (s : Setting) (group : String) (pos : Nat) :
    EnablingAt (s.position pos) [s.enable group pos] := by
  intro c member
  rw [List.mem_singleton.mp member]
  exact ⟨group, rfl⟩

namespace EnablingAt

variable {mark : Option Nat} {cs ds : List Control}

theorem append (first : EnablingAt mark cs) (second : EnablingAt mark ds) :
    EnablingAt mark (cs ++ ds) := by
  intro c member
  rcases List.mem_append.mp member with early | late
  · exact first c early
  · exact second c late

theorem enabling (annotated : EnablingAt mark cs) : Enabling cs := by
  intro c member
  obtain ⟨group, rfl⟩ := annotated c member
  exact ⟨group, mark, rfl⟩

end EnablingAt

/-- Only groups are enabled before the group in the making, all of them under one annotation. -/
def Wiring.Quiet (mark : Option Nat) (W : Wiring) : Prop := EnablingAt mark W.before

theorem quiet_empty {mark : Option Nat} {assigns : List Assignment} : Wiring.Quiet mark { assigns } :=
  nofun

namespace Wiring

@[simp]
theorem before_assign (w : Wiring) (dst : Pin) (src : Atom) (guard : Guard) :
    (w.assign dst src guard).before = w.before := by
  simp only [assign]
  split <;> rfl

@[simp]
theorem before_address (w : Wiring) (mem : String) (addrs : List Pin) (guard : Guard) :
    (w.address mem addrs guard).before = w.before := by
  unfold address
  induction addrs.zipIdx generalizing w with
  | nil => rfl
  | cons entry entries ih => exact (ih _).trans (before_assign _ _ _ _)

@[simp]
theorem before_connect (w : Wiring) (dst src : Pin) : (w.connect dst src).before = w.before :=
  w.before_assign _ _ _

@[simp]
theorem before_capture (w : Wiring) (mem : String) (addrs : List Pin) (select : Guard) (reg : String) :
    (w.capture mem addrs select reg).before = w.before := by
  simp only [capture, before_assign, before_address]

@[simp]
theorem before_store (w : Wiring) (group mem : String) (addrs : List Pin) (data : Pin) :
    (w.store group mem addrs data).before = w.before := by
  simp only [store, before_connect, before_assign, before_address]

@[simp]
theorem before_latch (w : Wiring) (group reg : String) (data : Pin) :
    (w.latch group reg data).before = w.before := by
  simp only [latch, before_connect, before_assign]

namespace Quiet

variable {mark : Option Nat} {W : Wiring}

theorem append (quiet : W.Quiet mark) {cs : List Control} (more : EnablingAt mark cs) :
    EnablingAt mark (W.before ++ cs) :=
  EnablingAt.append quiet more

theorem after (quiet : W.Quiet mark) {cs : List Control} (more : EnablingAt mark cs) :
    (W.after cs).Quiet mark :=
  quiet.append more

theorem connect (quiet : W.Quiet mark) (dst src : Pin) : (W.connect dst src).Quiet mark := by
  rwa [Quiet, before_connect]

theorem capture (quiet : W.Quiet mark) (mem : String) (addrs : List Pin) (select : Guard)
    (reg : String) : (W.capture mem addrs select reg).Quiet mark := by
  rwa [Quiet, before_capture]

theorem store (quiet : W.Quiet mark) (group mem : String) (addrs : List Pin) (data : Pin) :
    (W.store group mem addrs data).Quiet mark := by
  rwa [Quiet, before_store]

theorem latch (quiet : W.Quiet mark) (group reg : String) (data : Pin) :
    (W.latch group reg data).Quiet mark := by
  rwa [Quiet, before_latch]

end Quiet

end Wiring

/-! ### Cells and groups -/

/-- The counter goes up by one, which has to have room in its word. -/
theorem Names.freshWord_ok {n : Names} {stem : String} {given : String × Names} :
    n.freshWord stem = .ok given ↔
      n.nextNumber stem + 1 < Word.capacity Word.counterBits ∧ n.fresh stem = given := by
  simp only [freshWord, bind_ok_iff, Word.add_eq_ok_iff, pure_ok_iff]
  constructor
  · rintro ⟨_, ⟨room, _⟩, same⟩
    exact ⟨room, same⟩
  · rintro ⟨room, same⟩
    exact ⟨_, ⟨room, rfl⟩, same⟩

theorem freshName_ok {stem name : String} {w w' : Workspace}
    (ran : (freshName stem).run w = .ok (name, w')) :
    name = (w.names.fresh stem).1 ∧ w' = { w with names := (w.names.fresh stem).2 } := by
  obtain ⟨_, _, got, ran⟩ := run_bind_ok_iff.mp ran
  cases got
  obtain ⟨given, _, counted, ran⟩ := run_bind_ok_iff.mp ran
  obtain ⟨known, rfl⟩ := run_lift_ok_iff.mp counted
  obtain ⟨_, rfl⟩ := Names.freshWord_ok.mp known
  cases ran
  exact ⟨rfl, rfl⟩

/-- The workspace where the statement at `pos` is quoted. Nothing else about it changes. -/
def Workspace.quote (w : Workspace) (s : Setting) (pos : Nat) : Workspace :=
  { w with quotes := s.quote pos w.quotes }

theorem enableGroup_ok {s : Setting} {group : String} {pos : Nat} {c : Control} {w w' : Workspace}
    (ran : (enableGroup s group pos).run w = .ok (c, w')) :
    c = s.enable group pos ∧ w' = w.quote s pos := by
  cases ran
  exact ⟨rfl, rfl⟩

theorem uniqueName_ok {base name : String} {w w' : Workspace}
    (ran : (uniqueName base).run w = .ok (name, w')) :
    name ∉ w.names.used ∧ w'.cells = w.cells ∧ w'.names.used = name :: w.names.used := by
  cases ran
  obtain ⟨fresh, used⟩ := @Names.unique_ok w.names _ base _ rfl
  exact ⟨fresh, rfl, used⟩

theorem addRegister_ok {base name : String} {width : Nat} {w w' : Workspace}
    (ran : (addRegister base width).run w = .ok (name, w')) :
    name ∉ w.names.used ∧
      w'.cells = w.cells ++ [{ name, prototype := .primitive "std_reg" [width] }] ∧
      w'.names.used = name :: w.names.used := by
  obtain ⟨given, between, named, rest⟩ := run_bind_ok_iff.mp ran
  obtain ⟨fresh, cells, used⟩ := uniqueName_ok named
  cases rest
  exact ⟨fresh, congrArg (· ++ _) cells, used⟩

section

variable {allowed blamed : String → Prop}

theorem freshName_ends (stem : String) (w : Workspace) :
    Ends blamed (fun name v => name = (w.names.fresh stem).1 ∧
      v = { w with names := (w.names.fresh stem).2 }) ((freshName stem).run w) := by
  refine Ends.get.bind fun _ v ⟨same, still⟩ => (Ends.lift _).bind fun given u ⟨counted, kept⟩ => ?_
  subst same still kept
  obtain ⟨_, rfl⟩ := Names.freshWord_ok.mp counted
  exact .ok ⟨rfl, rfl⟩

theorem steps_freshName (stem : String) : Steps allowed blamed (freshName stem) fun _ => True := by
  refine fun w => (freshName_ends stem w).mono fun name v ⟨_, same⟩ => ?_
  subst same
  exact ⟨.single (.take (w.names.gives_fresh stem) rfl rfl), trivial⟩

theorem steps_uniqueName (base : String) : Steps allowed blamed (uniqueName base) fun _ => True :=
  .step fun w => ⟨_, _, rfl, .take (w.names.gives_unique base) rfl rfl⟩

theorem steps_addGroup (name : String) (latency : Option Nat) (assignments : List Assignment) :
    Steps allowed blamed (addGroup name latency assignments) fun _ => True :=
  .step fun _ => ⟨_, _, rfl, .note rfl rfl rfl⟩

theorem steps_addPrimitive (stem primitive : String) (params : List Nat) :
    Steps allowed blamed (addPrimitive stem primitive params) fun _ => True := by
  refine fun w => (freshName_ends stem w).bind fun name v ⟨named, same⟩ => ?_
  subst named same
  obtain ⟨fresh, _⟩ := @Names.fresh_ok w.names _ stem _ rfl
  exact .ok ⟨.single (.install fresh (w.names.gives_fresh stem) rfl rfl), trivial⟩

theorem steps_addRegister (base : String) (width : Nat) :
    Steps allowed blamed (addRegister base width) fun _ => True :=
  .step fun w => by
    obtain ⟨fresh, _⟩ := @Names.unique_ok w.names _ base _ rfl
    exact ⟨_, _, rfl, .install fresh (w.names.gives_unique base) rfl rfl⟩

theorem steps_constant (width value : Nat) : Steps allowed blamed (constant width value) fun _ => True := by
  unfold constant
  split
  · exact .throw_bind (by exact nofun) _
  · refine .bind .get fun w _ => ?_
    split
    · exact .pure trivial
    · exact .bind (steps_addPrimitive _ _ _) fun _ _ =>
        .bind (.step fun _ => ⟨_, _, rfl, .note rfl rfl rfl⟩) fun _ _ => .pure trivial

theorem steps_instanceOf {func : String} (permitted : allowed func) :
    Steps allowed blamed (instanceOf func) fun _ => True := by
  intro w
  refine Ends.get.bind fun _ v ⟨same, still⟩ => ?_
  subst same still
  split
  · exact .ok ⟨.refl, trivial⟩
  · next first =>
    refine (freshName_ends func v).bind fun cell u ⟨named, same⟩ => ?_
    subst named same
    obtain ⟨fresh, _⟩ := @Names.fresh_ok v.names _ func _ rfl
    exact .ok ⟨.single (.instantiate permitted first fresh (v.names.gives_fresh func) rfl rfl), trivial⟩

theorem steps_memoryOf (env : Env) (name : String) :
    Steps allowed blamed (memoryOf env name) fun _ => True := by
  unfold memoryOf
  split
  · exact .pure trivial
  · exact .throwInternal nofun

theorem steps_registerOf (env : Env) (name : String) :
    Steps allowed blamed (registerOf env name) fun _ => True := by
  unfold registerOf
  split
  · exact .pure trivial
  · exact .throwInternal nofun

theorem steps_addOperator (op : BinOp) (width : Nat) (signed : Bool) (frac : Option Nat) :
    Steps allowed blamed (addOperator op width signed frac) fun _ => True :=
  .bind (.lift _) fun _ _ => steps_addPrimitive _ _ _

theorem steps_adapt {mark : Option Nat} {W : Wiring} (quiet : W.Quiet mark) (pin : Pin)
    (width target : Nat) (signed : Bool) :
    Steps allowed blamed (adapt W pin width target signed) fun r => r.2.Quiet mark := by
  unfold adapt
  split
  · exact .pure quiet
  · exact .bind (steps_addPrimitive _ _ _) fun _ _ => .pure (quiet.connect _ _)

theorem steps_quote (s : Setting) (pos : Nat) : Steps allowed blamed (quote s pos) fun _ => True :=
  .step fun _ => ⟨_, _, rfl, .note rfl rfl rfl⟩

theorem steps_enableGroup (s : Setting) (group : String) (pos : Nat) :
    Steps allowed blamed (enableGroup s group pos) fun c => c = s.enable group pos :=
  .bind (steps_quote _ _) fun _ _ => .pure rfl

/-! ### Expressions -/

theorem steps_finishRead (s : Setting) (pos : Nat) (reg : String) {W : Wiring}
    (quiet : W.Quiet (s.position pos)) :
    Steps allowed blamed (finishRead s pos reg W) (EnablingAt (s.position pos)) :=
  .bind (steps_freshName _) fun _ _ => .bind (steps_addGroup _ _ _) fun _ _ =>
    .bind (steps_enableGroup _ _ _) fun _ same =>
    .pure (quiet.append (same ▸ enablingAt_enable _ _ _))

/-- Addresses are lowered into quiet wiring. -/
def StepsAddresses (allowed blamed : String → Prop) (mark : Option Nat) (lower : AddressLowering) : Prop :=
  ∀ sizes (W : Wiring), W.Quiet mark → Steps allowed blamed (lower sizes W) fun r => r.2.Quiet mark

theorem steps_lowerCounted {count : Nat} {mark : Option Nat} {lower : AddressLowering}
    (steps : StepsAddresses allowed blamed mark lower) :
    StepsAddresses allowed blamed mark (lowerCounted count lower) := by
  intro sizes W quiet
  unfold lowerCounted
  split
  · exact .throw_bind (by exact nofun) _
  · exact steps sizes W quiet

theorem steps_readMemory (s : Setting) (env : Env) (pos : Nat) (reg mem : String)
    {addresses : AddressLowering} (steps : StepsAddresses allowed blamed (s.position pos) addresses) :
    Steps allowed blamed (readMemory s env pos reg mem addresses) (EnablingAt (s.position pos)) :=
  .bind (steps_memoryOf _ _) fun _ _ => .bind (steps _ _ quiet_empty) fun _ quiet =>
    steps_finishRead _ _ _ (quiet.capture _ _ _ _)

theorem steps_captureBanks (env : Env) (reg : String) (select : Pin) (width : Nat)
    (addrs : List Pin) {mark : Option Nat} {W : Wiring} (quiet : W.Quiet mark) (k : Nat)
    (banks : List String) :
    Steps allowed blamed (captureBanks env reg select width addrs W k banks) (Wiring.Quiet mark) := by
  induction banks generalizing W k with
  | nil => exact .pure quiet
  | cons bank banks ih =>
    exact .bind (steps_memoryOf _ _) fun _ _ => .bind (steps_addPrimitive _ _ _) fun _ _ =>
      .bind (steps_constant _ _) fun _ _ =>
      ih (((quiet.connect _ _).connect _ _).capture _ _ _ _) _

theorem steps_readBanks (s : Setting) (env : Env) (pos : Nat) (reg : String) (banks : List String)
    {select : Nat → Wiring → Build (Pin × Wiring)} {addresses : AddressLowering}
    (selects : ∀ width (W : Wiring), W.Quiet (s.position pos) →
      Steps allowed blamed (select width W) fun r => r.2.Quiet (s.position pos))
    (steps : StepsAddresses allowed blamed (s.position pos) addresses) :
    Steps allowed blamed (readBanks s env pos reg banks select addresses) (EnablingAt (s.position pos)) := by
  unfold readBanks
  split
  · exact .throwInternal nofun
  · exact .bind (steps_memoryOf _ _) fun _ _ => .bind (.lift _) fun _ _ =>
      .bind (selects _ _ quiet_empty) fun _ quiet => .bind (steps _ _ quiet) fun _ quiet =>
      .bind (steps_captureBanks _ _ _ _ _ quiet _ _) fun _ quiet => steps_finishRead _ _ _ quiet

theorem steps_readName (s : Setting) (env : Env) (pos : Nat) {W : Wiring}
    (quiet : W.Quiet (s.position pos)) (name : String) :
    Steps allowed blamed (readName s env pos W name) fun r => r.2.2.Quiet (s.position pos) := by
  unfold readName
  split
  · exact .pure quiet
  · exact .pure quiet
  · exact .pure (quiet.connect _ _)
  · exact .throwInternal nofun

/-- An operation that is not folded. -/
theorem lowerExpr_computed {s : Setting} {env : Env} {pos width : Nat} {w : Wiring} {ty : Ty}
    {op : BinOp} {lhs rhs : TypedExpr} (computed : ∀ n, ty ≠ .static n) :
    lowerExpr s env pos width w (.binop ty op lhs rhs) = (do
      let widths := operatorWidths op ty lhs.ty rhs.ty
      let (left, w) ← lowerExpr s env pos widths.1 w lhs
      let (right, w) ← lowerExpr s env pos widths.1 w rhs
      let cell ← addOperator op widths.1 (lhs.ty.isSigned || rhs.ty.isSigned)
        (if op.isArithmetic then ty.frac? else none)
      adapt ((w.connect (.cell cell "left") left).connect (.cell cell "right") right) (.out cell)
        widths.2 width (!op.isComparison && !op.isLogical && ty.isSigned)) := by
  rw [lowerExpr]
  exact computed

mutual

theorem steps_lowerExpr (s : Setting) (env : Env) (pos width : Nat) {W : Wiring}
    (quiet : W.Quiet (s.position pos)) : (e : TypedExpr) →
      Steps allowed blamed (lowerExpr s env pos width W e) fun r => r.2.Quiet (s.position pos)
  | .int _ _ => by
    unfold lowerExpr
    exact .bind (steps_constant _ _) fun _ _ => .pure quiet
  | .bool _ _ => by
    unfold lowerExpr
    exact .bind (steps_constant _ _) fun _ _ => steps_adapt quiet _ _ _ _
  | .var _ _ => by
    unfold lowerExpr
    exact .bind (steps_readName _ _ _ quiet _) fun _ quiet => steps_adapt quiet _ _ _ _
  | .binop ty op lhs rhs => by
    rcases ty.static_or with ⟨n, rfl⟩ | computed
    · rw [lowerExpr]
      exact .bind (steps_constant _ _) fun _ _ => .pure quiet
    · rw [lowerExpr_computed computed]
      exact .bind (steps_lowerExpr s env pos _ quiet lhs) fun _ quiet =>
        .bind (steps_lowerExpr s env pos _ quiet rhs) fun _ quiet =>
        .bind (steps_addOperator _ _ _ _) fun _ _ =>
        steps_adapt ((quiet.connect _ _).connect _ _) _ _ _ _
  | .mem ty mem addr => by
    unfold lowerExpr
    exact .bind (steps_addPrimitive _ _ _) fun _ _ =>
      .bind (steps_readMemory _ _ _ _ _ (steps_lowerCounted
        (fun sizes _ quiet => steps_lowerAddrs s env pos quiet addr sizes))) fun _ reads =>
      steps_adapt (quiet.after reads) _ _ _ _
  | .muxRead ty banks select addr => by
    unfold lowerExpr
    exact .bind (steps_addPrimitive _ _ _) fun _ _ =>
      .bind (steps_readBanks _ _ _ _ _
        (fun width _ quiet => steps_lowerExpr s env pos width quiet select)
        (steps_lowerCounted
          (fun sizes _ quiet => steps_lowerAddrs s env pos quiet addr sizes))) fun _ reads =>
      steps_adapt (quiet.after reads) _ _ _ _
  | .access _ _ _ => by
    unfold lowerExpr
    exact .throwInternal nofun
  | .app _ _ _ => by
    unfold lowerExpr
    exact .throwInternal nofun

theorem steps_lowerAddrs (s : Setting) (env : Env) (pos : Nat) {W : Wiring}
    (quiet : W.Quiet (s.position pos)) : (es : List TypedExpr) → (sizes : List Nat) →
      Steps allowed blamed (lowerAddrs s env pos W es sizes) fun r => r.2.Quiet (s.position pos)
  | [], _ => by
    unfold lowerAddrs
    exact .pure quiet
  | _ :: _, [] => by
    unfold lowerAddrs
    exact .pure quiet
  | e :: es, size :: sizes => by
    unfold lowerAddrs
    exact .bind (.lift _) fun _ _ =>
      .bind (steps_lowerExpr s env pos _ quiet e) fun _ quiet =>
      .bind (steps_lowerAddrs s env pos quiet es sizes) fun _ quiet => .pure quiet

end

theorem steps_addressing (s : Setting) (env : Env) (pos : Nat) (addr : List TypedExpr) :
    StepsAddresses allowed blamed (s.position pos) (addressing s env pos addr) :=
  steps_lowerCounted fun sizes _ quiet => steps_lowerAddrs s env pos quiet addr sizes

theorem steps_readInto (s : Setting) (env : Env) (pos : Nat) (reg : String) (e : TypedExpr) :
    Steps allowed blamed (readInto s env pos reg e) (EnablingAt (s.position pos)) := by
  unfold readInto
  split
  · exact steps_readMemory _ _ _ _ _ (steps_addressing _ _ _ _)
  · exact steps_readBanks _ _ _ _ _ (fun _ _ quiet => steps_lowerExpr _ _ _ _ quiet _)
      (steps_addressing _ _ _ _)
  · exact .throwInternal nofun

theorem steps_discard (s : Setting) (env : Env) (pos : Nat) (e : TypedExpr) :
    Steps allowed blamed (discard s env pos e) (EnablingAt (s.position pos)) := by
  fun_induction discard s env pos e with
  | case1 _ _ lhs rhs left right =>
    exact .bind left fun _ first => .bind right fun _ second => .pure (first.append second)
  | case2 => exact .bind (steps_addPrimitive _ _ _) fun _ _ => steps_readInto _ _ _ _ _
  | case3 => exact .bind (steps_addPrimitive _ _ _) fun _ _ => steps_readInto _ _ _ _ _
  | case4 => exact .pure nofun

/-! ### Commands -/

/-- A control that only enables groups, one after another and all under one annotation. -/
def Sequential (mark : Option Nat) (control : Control) : Prop :=
  ∃ cs, EnablingAt mark cs ∧ control = .sequence cs

theorem steps_finishGroup (s : Setting) (pos : Nat) (group : String) {W : Wiring}
    (quiet : W.Quiet (s.position pos)) :
    Steps allowed blamed (finishGroup s pos group W) (Sequential (s.position pos)) :=
  .bind (steps_addGroup _ _ _) fun _ _ => .bind (steps_enableGroup _ _ _) fun _ same =>
    .pure ⟨_, quiet.append (same ▸ enablingAt_enable _ _ _), rfl⟩

theorem steps_assignRegister (s : Setting) (env : Env) (pos : Nat) (reg : String) (width : Nat)
    (stem : String) (value : TypedExpr) :
    Steps allowed blamed (assignRegister s env pos reg width stem value) (Sequential (s.position pos)) := by
  have latched : Steps allowed blamed (do
      let (pin, w) ← lowerExpr s env pos width {} value
      let group ← freshName stem
      finishGroup s pos group (w.latch group reg pin)) (Sequential (s.position pos)) :=
    .bind (steps_lowerExpr _ _ _ _ quiet_empty _) fun _ quiet => .bind (steps_freshName _) fun _ _ =>
      steps_finishGroup _ _ _ (quiet.latch _ _ _)
  have captured : Steps allowed blamed (do
      return .sequence (← readInto s env pos reg value)) (Sequential (s.position pos)) :=
    .bind (steps_readInto _ _ _ _ _) fun _ reads => .pure ⟨_, reads, rfl⟩
  unfold assignRegister
  split
  · split
    · exact captured
    · exact latched
  · split
    · exact captured
    · exact latched
  · exact latched

theorem steps_storeMemory (s : Setting) (env : Env) (pos : Nat) (mem : String)
    (addr : List TypedExpr) (value : TypedExpr) :
    Steps allowed blamed (storeMemory s env pos mem addr value) (Sequential (s.position pos)) :=
  .bind (steps_memoryOf _ _) fun _ _ => .bind (steps_addressing _ _ _ _ _ _ quiet_empty) fun _ quiet =>
    .bind (steps_lowerExpr _ _ _ _ quiet _) fun _ quiet => .bind (steps_freshName _) fun _ _ =>
    steps_finishGroup _ _ _ (quiet.store _ _ _ _)

theorem steps_reduceRegister (s : Setting) (env : Env) (pos : Nat) (op : BinOp) (ty : Ty)
    (reg : String) (width : Nat) (value : TypedExpr) :
    Steps allowed blamed (reduceRegister s env pos op ty reg width value) (Sequential (s.position pos)) :=
  .bind (steps_lowerExpr _ _ _ _ quiet_empty _) fun _ quiet =>
    .bind (steps_addOperator _ _ _ _) fun _ _ => .bind (steps_freshName _) fun _ _ =>
    steps_finishGroup _ _ _ (((quiet.connect _ _).connect _ _).latch _ _ _)

theorem steps_reduceMemory (s : Setting) (env : Env) (pos : Nat) (op : BinOp) (ty : Ty)
    (mem : String) (addr : List TypedExpr) (value : TypedExpr) :
    Steps allowed blamed (reduceMemory s env pos op ty mem addr value) (Sequential (s.position pos)) :=
  .bind (steps_memoryOf _ _) fun _ _ => .bind (steps_addressing _ _ _ _ _ _ quiet_empty) fun _ quiet =>
    .bind (steps_addPrimitive _ _ _) fun _ _ => .bind (steps_freshName _) fun _ _ =>
    .bind (steps_addGroup _ _ _) fun _ _ =>
    .bind (steps_lowerExpr _ _ _ _ quiet_empty _) fun _ writing =>
    .bind (steps_addOperator _ _ _ _) fun _ _ => .bind (steps_freshName _) fun _ _ =>
    .bind (steps_addGroup _ _ _) fun _ _ =>
    .bind (steps_enableGroup _ _ _) fun _ first => .bind (steps_enableGroup _ _ _) fun _ second =>
    .pure ⟨_, (quiet.append ((writing.connect _ _).connect _ _)).append
      ((first ▸ enablingAt_enable _ _ _).append (second ▸ enablingAt_enable _ _ _)), rfl⟩

theorem steps_lowerUpdate (s : Setting) (env : Env) (pos : Nat) (target value : TypedExpr) :
    Steps allowed blamed (lowerUpdate s env pos target value) (Sequential (s.position pos)) := by
  unfold lowerUpdate
  split
  · exact .bind (steps_registerOf _ _) fun _ _ => steps_assignRegister _ _ _ _ _ _ _
  · exact steps_storeMemory _ _ _ _ _ _
  · exact .throwInternal nofun

theorem steps_lowerReduce (s : Setting) (env : Env) (pos : Nat) (op : BinOp)
    (target value : TypedExpr) :
    Steps allowed blamed (lowerReduce s env pos op target value) (Sequential (s.position pos)) := by
  unfold lowerReduce
  split
  · exact .bind (steps_registerOf _ _) fun _ _ => steps_reduceRegister _ _ _ _ _ _ _ _
  · exact steps_reduceMemory _ _ _ _ _ _ _ _
  · exact .throwInternal nofun

theorem steps_lowerCondition (s : Setting) (env : Env) (pos : Nat) (cond : TypedExpr) :
    Steps allowed blamed (lowerCondition s env pos cond) fun r => EnablingAt (s.position pos) r.2.2 := by
  refine .bind (steps_lowerExpr _ _ _ _ quiet_empty _) fun driven quiet => ?_
  show Steps allowed blamed (if driven.2.assigns.isEmpty = true then _ else _) _
  split
  · exact .pure quiet
  · exact .bind (steps_freshName _) fun _ _ => .bind (steps_addGroup _ _ _) fun _ _ => .pure quiet

theorem steps_bindArguments (env : Env) (params args : List String) :
    Steps allowed blamed (bindArguments env params args) fun _ => True := by
  fun_induction bindArguments env params args with
  | case1 param params arg args ih =>
    exact .bind (steps_memoryOf _ _) fun _ _ => .bind ih fun _ _ => .pure trivial
  | case2 => exact .pure trivial

theorem steps_lowerCall (s : Setting) (env : Env) (pos : Nat) {func : String} (args : List String)
    (permitted : allowed func) : Steps allowed blamed (lowerCall s env pos func args) fun control =>
      ∃ cell refs, control = .invoke cell refs (s.position pos) := by
  unfold lowerCall
  split
  · exact .throwInternal nofun
  · split
    · exact .throw_bind (by exact nofun) _
    · exact .bind (steps_bindArguments _ _ _) fun _ _ =>
        .bind (steps_instanceOf permitted) fun _ _ => .bind (steps_quote _ _) fun _ _ =>
        .pure ⟨_, _, rfl⟩

theorem steps_addInit (iter reg : String) (width start : Nat) :
    Steps allowed blamed (addInit iter reg width start) fun _ => True :=
  .bind (steps_uniqueName _) fun _ _ => .bind (steps_constant _ _) fun _ _ =>
    .bind (steps_addGroup _ _ _) fun _ _ => .pure trivial

theorem steps_addCond (iter reg : String) (width stop : Nat) :
    Steps allowed blamed (addCond iter reg width stop) fun _ => True :=
  .bind (steps_uniqueName _) fun _ _ => .bind (steps_addPrimitive _ _ _) fun _ _ =>
    .bind (steps_constant _ _) fun _ _ => .bind (steps_addGroup _ _ _) fun _ _ => .pure trivial

theorem steps_addIncr (iter reg : String) (width : Nat) :
    Steps allowed blamed (addIncr iter reg width) fun _ => True :=
  .bind (steps_uniqueName _) fun _ _ => .bind (steps_addPrimitive _ _ _) fun _ _ =>
    .bind (steps_constant _ _) fun _ _ => .bind (steps_addGroup _ _ _) fun _ _ => .pure trivial

theorem steps_addLoop (h : LoopHeader) : Steps allowed blamed (addLoop h) fun _ => True := by
  have counts (reg : String) (slice : Option String) (last : Nat) : Steps allowed blamed (do
      let init ← addInit h.iter reg (bitsNeeded h.stop) h.start
      let cond ← addCond h.iter reg (bitsNeeded h.stop) h.stop
      let incr ← addIncr h.iter reg (bitsNeeded h.stop)
      pure (LoopFrame.mk reg slice (bitsNeeded last) init cond.1 cond.2 incr)) fun _ => True :=
    .bind (steps_addInit _ _ _ _) fun _ _ => .bind (steps_addCond _ _ _ _) fun _ _ =>
      .bind (steps_addIncr _ _ _) fun _ _ => .pure trivial
  refine .bind (.lift _) fun last _ =>
    .bind (steps_addRegister _ _) fun reg _ => ?_
  split
  · exact .bind (.map _ (steps_addPrimitive _ _ _)) fun slice _ => counts reg slice last
  · exact counts reg none last

/-- A register is added for the loop, next to what counts and compares it. -/
theorem addLoop_ok {h : LoopHeader} {frame : LoopFrame} {w w' : Workspace}
    (ran : (addLoop h).run w = .ok (frame, w')) :
    frame.reg ∉ w.names.used ∧ frame.reg ∈ w'.cellNames ∧ Grows w w' := by
  unfold addLoop at ran
  obtain ⟨last, _, subtracted, ran⟩ := run_bind_ok_iff.mp ran
  obtain ⟨_, rfl⟩ := run_lift_ok_iff.mp subtracted
  obtain ⟨reg, between, added, ran⟩ := run_bind_ok_iff.mp ran
  obtain ⟨fresh, cells, used⟩ := addRegister_ok added
  have counts (slice : Option String) {v : Workspace} (ran : (do
      let init ← addInit h.iter reg (bitsNeeded h.stop) h.start
      let cond ← addCond h.iter reg (bitsNeeded h.stop) h.stop
      let incr ← addIncr h.iter reg (bitsNeeded h.stop)
      pure (LoopFrame.mk reg slice (bitsNeeded last) init cond.1 cond.2 incr)).run v = .ok (frame, w')) :
      frame.reg = reg ∧ Grows v w' := by
    obtain ⟨init, started, initial, ran⟩ := run_bind_ok_iff.mp ran
    obtain ⟨⟨cond, lt⟩, compared, condition, ran⟩ := run_bind_ok_iff.mp ran
    obtain ⟨incr, counted, increment, ran⟩ := run_bind_ok_iff.mp ran
    obtain ⟨rfl, rfl⟩ := run_pure_ok_iff.mp ran
    exact ⟨rfl, ((steps_addInit _ _ _ _).adds _ _ _ initial).trans <|
      ((steps_addCond _ _ _ _).adds _ _ _ condition).trans
        ((steps_addIncr _ _ _).adds _ _ _ increment)⟩
  have later : frame.reg = reg ∧ Grows between w' := by
    split at ran
    · obtain ⟨slice, sliced, narrowed, ran⟩ := run_bind_ok_iff.mp ran
      obtain ⟨same, grows⟩ := counts slice ran
      exact ⟨same, ((Steps.map _ (steps_addPrimitive _ _ _)).adds _ _ _ narrowed).trans grows⟩
    · exact counts none ran
  obtain ⟨rfl, later⟩ := later
  refine ⟨fresh, later.cellNames ?_, (Grows.of_cell fresh cells used).trans later⟩
  rw [Workspace.cellNames, cells, List.map_append]
  exact List.mem_append_right _ List.mem_cons_self

/-! ### Declarations -/

/-- How a cell is bound for a declared type. -/
def Store.ofTy (cell : String) : Ty → Store
  | .array elem dims => .memory ⟨cell, dims.map Dim.size, elem.width⟩
  | ty => .register cell ty.width

theorem addressWidths_eq {sizes widths : List Nat} (counted : addressWidths sizes = .ok widths) :
    widths = sizes.map fun size => bitsNeeded (size - 1) := by
  induction sizes generalizing widths with
  | nil =>
    cases counted
    rfl
  | cons size sizes ih =>
    simp only [addressWidths, List.mapM_cons, bind_ok_iff, Word.sub_eq_ok_iff, pure_ok_iff] at counted
    obtain ⟨_, ⟨_, ⟨_, rfl⟩, rfl⟩, rest, others, rfl⟩ := counted
    rw [List.map_cons, ← ih others]

section

variable {blamed : String → Prop} {s : Setting} {d : Decl}
  (statement : blamed (s.statements.describe d.pos))

include statement

theorem memoryName_ends (exposure : Exposure) (w : Workspace) :
    Ends blamed (fun name v => name ∉ w.names.used ∧ w.names.Gives name v.names ∧
      v = { w with names := v.names } ∧ (exposure ≠ .hidden → name = d.name))
      ((memoryName s d exposure).run w) := by
  unfold memoryName
  split
  · obtain ⟨fresh, _⟩ := @Names.unique_ok w.names _ d.name _ rfl
    exact .ok ⟨fresh, w.names.gives_unique d.name, rfl, fun visible => absurd rfl visible⟩
  · refine Ends.get.bind fun _ _ ⟨same, still⟩ => ?_
    subst same still
    split
    · next reserved =>
      obtain ⟨fresh, _⟩ := Names.reserve?_some reserved
      exact .ok ⟨fresh, Names.reserve?_gives reserved, rfl, fun _ => rfl⟩
    · exact .error (.capability statement)

end

/-- The cell that a declaration adds. -/
def cellOf (d : Decl) (exposure : Exposure) (name : String) : Cell :=
  match d.ty with
  | .array elem dims =>
    let sizes := dims.map Dim.size
    { name
      prototype := .primitive s!"seq_mem_d{dims.length}"
        (elem.width :: sizes ++ sizes.map fun size => bitsNeeded (size - 1))
      isExternal := exposure = .external
      isReference := exposure = .reference }
  | ty => { name, prototype := .primitive "std_reg" [ty.width] }

/-- A declaration adds one cell and binds its name to it. A memory that is seen from outside keeps its
own name. -/
structure Declares (d : Decl) (exposure : Exposure) (env : Env) (w : Workspace) (name : String)
    (env' : Env) (w' : Workspace) : Prop where
  fresh : name ∉ w.names.used
  cells : w'.cells = w.cells ++ [cellOf d exposure name]
  given : w.names.Gives name w'.names
  instances : w'.instances = w.instances
  bound : env' = env.rebind d.name (.ofTy name d.ty)
  kept : d.ty.isArray = true → exposure ≠ .hidden → name = d.name

theorem cellOf_scalar {d : Decl} (exposure : Exposure) (name : String)
    (scalar : ∀ elem dims, d.ty ≠ .array elem dims) :
    cellOf d exposure name = { name, prototype := .primitive "std_reg" [d.ty.width] } := by
  unfold cellOf
  split
  · next isArray => exact absurd isArray (scalar _ _)
  · rfl

theorem cellOf_name (d : Decl) (exposure : Exposure) (name : String) :
    (cellOf d exposure name).name = name := by
  unfold cellOf
  split <;> rfl

theorem declare_ends {blamed : String → Prop} {s : Setting} {d : Decl}
    (statement : blamed (s.statements.describe d.pos)) (env : Env) (exposure : Exposure)
    (w : Workspace) : Ends blamed (fun env' v => ∃ name, Declares d exposure env w name env' v)
      ((declare s env d exposure).run w) := by
  unfold declare
  split
  · next elem dims isArray =>
    split
    · exact .error (.capability statement)
    · refine (memoryName_ends statement exposure w).bind fun name v ⟨fresh, given, space, kept⟩ => ?_
      refine (Ends.lift _).bind fun widths u ⟨counted, same⟩ => ?_
      subst same
      refine .ok ⟨name, fresh, ?_, given, ?_, ?_, fun _ => kept⟩
      · rw [space, cellOf, isArray, addressWidths_eq counted]
      · rw [space]
      · rw [isArray, Store.ofTy]
  · next notArray =>
    obtain ⟨fresh, _⟩ := @Names.unique_ok w.names _ d.name _ rfl
    have scalar (name : String) : Store.ofTy name d.ty = .register name d.ty.width := by
      rw [Store.ofTy]
      exact notArray
    refine .ok ⟨_, fresh, ?_, w.names.gives_unique d.name, rfl, ?_, ?_⟩
    · rw [cellOf_scalar _ _ notArray]
    · rw [scalar]
    · intro isArray
      cases given : d.ty with
      | array elem dims => exact absurd given (notArray elem dims)
      | _ =>
        rw [given] at isArray
        cases isArray

/-- A declaration adds one cell and binds its name to it. -/
theorem declare_ok {s : Setting} {env env' : Env} {d : Decl} {exposure : Exposure}
    {w w' : Workspace} (ran : (declare s env d exposure).run w = .ok (env', w')) :
    ∃ c : Cell, c.name ∉ w.names.used ∧ w'.cells = w.cells ++ [c] ∧
      w'.names.used = c.name :: w.names.used ∧ env' = env.rebind d.name (.ofTy c.name d.ty) ∧
      (d.ty.isArray = true → exposure ≠ .hidden →
        c.name = d.name ∧ c.isExternal = decide (exposure = .external)) := by
  have ends := @declare_ends (fun _ => True) s d trivial env exposure w
  rw [ran] at ends
  obtain ⟨name, declares⟩ := ends.of_ok
  refine ⟨cellOf d exposure name, ?_, declares.cells, ?_, ?_, fun isArray visible => ⟨?_, ?_⟩⟩
  · rw [cellOf_name]
    exact declares.fresh
  · rw [cellOf_name]
    exact declares.given.used
  · rw [cellOf_name]
    exact declares.bound
  · rw [cellOf_name]
    exact declares.kept isArray visible
  · cases given : d.ty with
    | array elem dims => rw [cellOf, given]
    | _ =>
      rw [given] at isArray
      cases isArray

theorem adds_declare (s : Setting) (env : Env) (d : Decl) (exposure : Exposure) :
    Adds (declare s env d exposure) := by
  intro w env' w' ran
  obtain ⟨c, fresh, cells, used, _⟩ := declare_ok ran
  exact .of_cell fresh cells used

theorem steps_declare {s : Setting} {d : Decl} (statement : blamed (s.statements.describe d.pos))
    (env : Env) : Steps allowed blamed (declare s env d .hidden) fun _ => True := by
  intro w
  refine (declare_ends statement env .hidden w).mono fun env' v ⟨name, declares⟩ => ⟨.single ?_, trivial⟩
  obtain ⟨primitive, params, same⟩ : ∃ primitive params,
      cellOf d .hidden name = { name, prototype := .primitive primitive params } := by
    unfold cellOf
    split <;> exact ⟨_, _, rfl⟩
  have cells := declares.cells
  rw [same] at cells
  exact .install declares.fresh declares.given cells declares.instances

mutual

/-- The functions that a command calls. -/
def callees : TypedCommand → List String
  | .seq _ cmds => calleesOfSeq cmds
  | .branch _ _ onTrue onFalse => callees onTrue ++ calleesOfElse onFalse
  | .loop _ _ body => callees body
  | .eval _ (.app _ func _) => [func]
  | _ => []

def calleesOfSeq : List TypedCommand → List String
  | [] => []
  | cmd :: cmds => callees cmd ++ calleesOfSeq cmds

def calleesOfElse : Option TypedCommand → List String
  | none => []
  | some cmd => callees cmd

end

/-- Every one of the commands may be blamed, as the table describes it. -/
abbrev Blamable (blamed : String → Prop) (s : Setting) (cmds : List TypedCommand) : Prop :=
  ∀ cmd ∈ cmds, blamed (s.statements.describe cmd.pos)

mutual

theorem steps_lowerCommand (s : Setting) (env : Env) : (cmd : TypedCommand) →
    (∀ func ∈ callees cmd, allowed func) → Blamable blamed s cmd.preorder →
      Steps allowed blamed (lowerCommand s env cmd) fun _ => True
  | .decl pos name ty, _, blamable => by
    unfold lowerCommand
    exact .bind (steps_declare (blamable _ List.mem_cons_self) _) fun _ _ => .pure trivial
  | .define pos name ty init, _, _ => by
    unfold lowerCommand
    exact .bind (steps_addRegister _ _) fun _ _ =>
      .bind (steps_assignRegister _ _ _ _ _ _ _) fun _ _ => .pure trivial
  | .seq pos cmds, calls, blamable => by
    unfold lowerCommand
    exact .bind (steps_lowerSeq s env cmds calls (List.forall_mem_cons.mp blamable).2) fun _ _ =>
      .pure trivial
  | .branch pos cond onTrue onFalse, calls, blamable => by
    obtain ⟨first, second⟩ := List.forall_mem_append.mp calls
    obtain ⟨yes, no⟩ := List.forall_mem_append.mp (List.forall_mem_cons.mp blamable).2
    unfold lowerCommand
    exact .bind (steps_lowerCondition _ _ _ _) fun _ _ =>
      .bind (steps_lowerCommand s env.enter onTrue first yes) fun _ _ =>
      .bind (steps_lowerElse s env.enter onFalse second no) fun _ _ => .pure trivial
  | .loop pos header body, calls, blamable => by
    unfold lowerCommand
    exact .bind (steps_addLoop _) fun _ _ =>
      .bind (steps_lowerCommand s _ body calls (List.forall_mem_cons.mp blamable).2) fun _ _ =>
      .bind (steps_enableGroup _ _ _) fun _ _ => .bind (steps_enableGroup _ _ _) fun _ _ =>
      .bind (.lift _) fun _ _ => .pure trivial
  | .update pos target value, _, _ => by
    unfold lowerCommand
    exact .bind (steps_lowerUpdate _ _ _ _ _) fun _ _ => .pure trivial
  | .reduce pos op target value, _, _ => by
    unfold lowerCommand
    exact .bind (steps_lowerReduce _ _ _ _ _ _) fun _ _ => .pure trivial
  | .eval pos e, calls, _ => by
    cases e with
    | app ty func args =>
      rw [lowerCommand]
      exact .bind (steps_lowerCall _ _ _ _ (calls func List.mem_cons_self)) fun _ _ => .pure trivial
    | _ =>
      rw [lowerCommand]
      · exact .bind (steps_discard _ _ _ _) fun _ _ => .pure trivial
      · exact nofun
  | .advance pos array, _, _ => by
    unfold lowerCommand
    exact .throwInternal nofun
  | .skip pos, _, _ => by
    unfold lowerCommand
    exact .pure trivial

theorem steps_lowerSeq (s : Setting) (env : Env) : (cmds : List TypedCommand) →
    (∀ func ∈ calleesOfSeq cmds, allowed func) → Blamable blamed s (Command.preorderSeq cmds) →
      Steps allowed blamed (lowerSeq s env cmds) fun _ => True
  | [], _, _ => by
    unfold lowerSeq
    exact .pure trivial
  | cmd :: cmds, calls, blamable => by
    obtain ⟨first, second⟩ := List.forall_mem_append.mp calls
    obtain ⟨head, tail⟩ := List.forall_mem_append.mp blamable
    unfold lowerSeq
    exact .bind (steps_lowerCommand s env cmd first head) fun _ _ =>
      .bind (steps_lowerSeq s _ cmds second tail) fun _ _ => .pure trivial

theorem steps_lowerElse (s : Setting) (env : Env) : (cmd : Option TypedCommand) →
    (∀ func ∈ calleesOfElse cmd, allowed func) → Blamable blamed s (Command.preorderElse cmd) →
      Steps allowed blamed (lowerElse s env cmd) fun _ => True
  | none, _, _ => by
    unfold lowerElse
    exact .pure trivial
  | some cmd, calls, blamable => by
    unfold lowerElse
    exact .bind (steps_lowerCommand s env cmd calls blamable) fun _ _ => .pure trivial

end

end

theorem lowerCommand_stepped {s : Setting} {env : Env} {cmd : TypedCommand} {r : Control × Env}
    {w w' : Workspace} (ran : (lowerCommand s env cmd).run w = .ok (r, w')) :
    Stepped (fun _ => True) w w' :=
  ((steps_lowerCommand s env cmd (fun _ _ => trivial) fun _ _ => trivial).ok ran).1

end Lowering

end BankedLoops
