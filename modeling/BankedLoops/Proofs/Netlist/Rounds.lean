import BankedLoops.Proofs.Netlist.Execution

/-!
# Rounds of a loop

`Rounds` lists the states in which the body of a loop is started, and `Occurs` says which cycles take
place once a control is started, whether or not it comes to its end. A register that none of the enabled
groups drives holds the same in all of them, so a loop that counts such a register has as many rounds as
it has numbers to count.
-/

namespace BankedLoops

/-- No assignment of the group drives a pin of the cell. -/
def Group.Spares (g : Group) (cell : String) : Prop :=
  ∀ a ∈ g.assignments, ∀ port, a.dst ≠ .cell cell port

/-- No group that the control enables drives the cell. -/
def Control.Spares (c : Component) (cell : String) (control : Control) : Prop :=
  ∀ name ∈ control.enables, ∀ g, c.group? name = some g → g.Spares cell

namespace Control

section

variable {c : Component} {cell : String} {pin : Pin} {cond : Option String}

theorem Spares.head {item : Control} {items : List Control}
    (spares : (seq (item :: items)).Spares c cell) : item.Spares c cell :=
  fun name member => spares name (List.mem_append_left _ member)

theorem Spares.tail {item : Control} {items : List Control}
    (spares : (seq (item :: items)).Spares c cell) : (seq items).Spares c cell :=
  fun name member => spares name (List.mem_append_right _ member)

theorem Spares.onTrue {yes no : Control} (spares : (branch pin cond yes no).Spares c cell) :
    yes.Spares c cell :=
  fun name member => spares name (List.mem_append_left _ member)

theorem Spares.onFalse {yes no : Control} (spares : (branch pin cond yes no).Spares c cell) :
    no.Spares c cell :=
  fun name member => spares name (List.mem_append_right _ member)

theorem Spares.body {body : Control} {bound : Option Nat}
    (spares : (loop pin cond body bound).Spares c cell) : body.Spares c cell :=
  spares

end

end Control

namespace Execution

/-! ### Instances -/

/-- Instances leave the registers of the component alone: they work on the memories that are passed to
them and on cells of their own. -/
def Device.Separate (d : Device) : Prop :=
  ∀ cell refs σ σ', d.invoke cell refs σ σ' → σ'.regs = σ.regs

/-- What a call makes of the memories of its caller: those that were passed hold what they hold at the
end of the call, the others what they held before. -/
structure Returns (refs : List (String × String)) (σ τ σ' : State) : Prop where
  regs : σ'.regs = σ.regs
  passed : ∀ ref ∈ refs, σ'.mems ref.2 = τ.mems ref.1
  others : ∀ name, name ∉ refs.map Prod.snd → σ'.mems name = σ.mems name

/-- The component next to the others of its netlist, whose instances it invokes. Calls nest at most as
deep as given. -/
def linked (product : Semantics.FixedProduct) (components : List Component) : Nat → Component → Device
  | 0, _ => ⟨product, fun _ _ _ _ => False⟩
  | depth + 1, c => ⟨product, fun cell refs σ σ' =>
      ∃ instanced callee τ τ', c.cell? cell = some instanced ∧ callee ∈ components ∧
        instanced.prototype = .component callee.name ∧
        (∀ ref ∈ refs, τ.mems ref.1 = σ.mems ref.2) ∧
        Runs (linked product components depth callee) callee callee.control τ τ' ∧
        Returns refs σ τ' σ'⟩

theorem separate_linked (product : Semantics.FixedProduct) (components : List Component) (depth : Nat)
    (c : Component) : (linked product components depth c).Separate := by
  cases depth with
  | zero =>
    intro _ _ _ _ never
    exact never.elim
  | succ depth =>
    rintro cell refs σ σ' ⟨_, _, _, _, _, _, _, _, _, returns⟩
    exact returns.regs

/-! ### Cycles that take place -/

/-- A cycle of a group, with what is held when it begins and the levels of all pins. -/
structure Moment where
  group : Group
  cycle : Nat
  state : State
  level : Pin → Nat

/-- The pins agree with the wires and the parts. -/
def Moment.Consistent (d : Device) (c : Component) (m : Moment) : Prop :=
  Execution.Consistent d.product c.cells m.group m.cycle m.state m.level

/-- The group of a condition is evaluated in the given state. -/
structure Moment.Evaluates (d : Device) (c : Component) (m : Moment) (cond : Option String)
    (σ : State) : Prop where
  group : conditionGroup? c cond = some m.group
  cycle : m.cycle = 0
  state : m.state = σ
  consistent : m.Consistent d c

/-- The cycles that take place once a control is started. -/
inductive Occurs (d : Device) (c : Component) (m : Moment) : Control → State → Prop where
  | enable {name : String} {pos : Option Nat} {latency : Nat} {σ : State}
      (found : c.group? name = some m.group) (static : m.group.latency = some latency)
      (early : m.cycle < latency) (before : Cycles d.product c.cells m.group 0 m.cycle σ m.state)
      (consistent : m.Consistent d c) : Occurs d c m (.enable name pos) σ
  | first {item : Control} {items : List Control} {σ : State} (inside : Occurs d c m item σ) :
      Occurs d c m (.seq (item :: items)) σ
  | later {item : Control} {items : List Control} {σ τ : State} (ran : Runs d c item σ τ)
      (inside : Occurs d c m (.seq items) τ) : Occurs d c m (.seq (item :: items)) σ
  | test {pin : Pin} {cond : Option String} {body : Control} {bound : Option Nat} {σ : State}
      (evaluates : m.Evaluates d c cond σ) : Occurs d c m (.loop pin cond body bound) σ
  | round {pin : Pin} {cond : Option String} {body : Control} {bound : Option Nat} {σ : State}
      (high : Tests d c pin cond σ 1) (inside : Occurs d c m body σ) :
      Occurs d c m (.loop pin cond body bound) σ
  | again {pin : Pin} {cond : Option String} {body : Control} {bound : Option Nat} {σ τ : State}
      (high : Tests d c pin cond σ 1) (ran : Runs d c body σ τ)
      (inside : Occurs d c m (.loop pin cond body bound) τ) :
      Occurs d c m (.loop pin cond body bound) σ
  | choose {pin : Pin} {cond : Option String} {onTrue onFalse : Control} {σ : State}
      (evaluates : m.Evaluates d c cond σ) : Occurs d c m (.branch pin cond onTrue onFalse) σ
  | yes {pin : Pin} {cond : Option String} {onTrue onFalse : Control} {σ : State}
      (high : Tests d c pin cond σ 1) (inside : Occurs d c m onTrue σ) :
      Occurs d c m (.branch pin cond onTrue onFalse) σ
  | no {pin : Pin} {cond : Option String} {onTrue onFalse : Control} {σ : State}
      (low : Tests d c pin cond σ 0) (inside : Occurs d c m onFalse σ) :
      Occurs d c m (.branch pin cond onTrue onFalse) σ

/-- The rounds of a loop, by the states in which its body is started. -/
inductive Rounds (d : Device) (c : Component) (pin : Pin) (cond : Option String) (body : Control) :
    List State → State → State → Prop where
  | exit {σ : State} (low : Tests d c pin cond σ 0) : Rounds d c pin cond body [] σ σ
  | again {entries : List State} {σ τ σ' : State} (high : Tests d c pin cond σ 1)
      (round : Runs d c body σ τ) (rest : Rounds d c pin cond body entries τ σ') :
      Rounds d c pin cond body (σ :: entries) σ σ'

/-- The body of a loop is started for the time numbered from zero, in the given state, whether or not
that round comes to its end. -/
inductive Enters (d : Device) (c : Component) (pin : Pin) (cond : Option String) (body : Control) :
    Nat → State → State → Prop where
  | first {σ : State} (high : Tests d c pin cond σ 1) : Enters d c pin cond body 0 σ σ
  | next {j : Nat} {σ τ entry : State} (high : Tests d c pin cond σ 1) (round : Runs d c body σ τ)
      (rest : Enters d c pin cond body j τ entry) : Enters d c pin cond body (j + 1) σ entry

section

variable {d : Device} {c : Component} {pin : Pin} {cond : Option String} {body : Control}
  {bound : Option Nat} {σ σ' : State}

theorem Rounds.enters {entries : List State} (rounds : Rounds d c pin cond body entries σ σ') (j : Nat)
    (entry : State) (found : entries[j]? = some entry) : Enters d c pin cond body j σ entry := by
  induction rounds generalizing j with
  | exit => cases found
  | again high round _ ih =>
    cases j with
    | zero =>
      cases found
      exact .first high
    | succ j => exact .next high round (ih j found)

/-- A loop runs in rounds. -/
theorem runs_loop_iff :
    Runs d c (.loop pin cond body bound) σ σ' ↔ ∃ entries, Rounds d c pin cond body entries σ σ' := by
  constructor
  · intro ran
    generalize whole : Control.loop pin cond body bound = control at ran
    induction ran with
    | again high round _ _ ih =>
      cases whole
      obtain ⟨entries, rounds⟩ := ih rfl
      exact ⟨_, .again high round rounds⟩
    | exit low =>
      cases whole
      exact ⟨[], .exit low⟩
    | _ => cases whole
  · rintro ⟨entries, rounds⟩
    induction rounds with
    | exit low => exact .exit low
    | again high round _ ih => exact .again high round ih

/-! ### Registers that are spared -/

variable {cell : String}

/-- A register that no wire leads to is not written. -/
theorem Consistent.regs_spared {product : Semantics.FixedProduct} {cells : List Cell} {g : Group}
    {cycle : Nat} {level : Pin → Nat} (consistent : Consistent product cells g cycle σ level)
    (spares : g.Spares cell) : (σ.after cells level).regs cell = σ.regs cell := by
  have low : level (.cell cell "write_en") ≠ 1 := by
    rw [consistent.idle cell _ List.mem_cons_self fun a member same _ => spares a member _ same]
    exact Nat.zero_ne_one
  simp only [State.after]
  split <;> simp [low]

theorem Cycles.regs_spared {product : Semantics.FixedProduct} {cells : List Cell} {g : Group}
    {cycle count : Nat} (cycles : Cycles product cells g cycle count σ σ') (spares : g.Spares cell) :
    σ'.regs cell = σ.regs cell := by
  induction cycles with
  | done => rfl
  | step consistent _ ih => rw [ih, consistent.regs_spared spares]

/-- What a run leaves in a register that its groups spare. -/
theorem Runs.regs_spared {control : Control} (separate : d.Separate) (ran : Runs d c control σ σ')
    (spares : control.Spares c cell) : σ'.regs cell = σ.regs cell := by
  induction ran with
  | empty | nil | exit => rfl
  | enable found _ cycles => exact cycles.regs_spared (spares _ List.mem_cons_self _ found)
  | cons _ _ first rest =>
    rw [rest spares.tail, first spares.head]
  | again _ _ _ round rest => rw [rest spares, round spares.body]
  | yes _ _ ih => exact ih spares.onTrue
  | no _ _ ih => exact ih spares.onFalse
  | invoke called => exact congrFun (separate _ _ _ _ called) cell

/-- What a register that the groups spare holds in every cycle. -/
theorem Occurs.regs_spared {control : Control} {m : Moment} (separate : d.Separate)
    (occurs : Occurs d c m control σ) (spares : control.Spares c cell) :
    m.state.regs cell = σ.regs cell := by
  induction occurs with
  | enable found _ _ before _ => exact before.regs_spared (spares _ List.mem_cons_self _ found)
  | first _ ih => exact ih spares.head
  | later ran _ ih =>
    rw [ih spares.tail, ran.regs_spared separate spares.head]
  | test evaluates | choose evaluates => rw [evaluates.state]
  | round _ _ ih => exact ih spares.body
  | again _ ran _ ih =>
    rw [ih spares, ran.regs_spared separate spares.body]
  | yes _ _ ih => exact ih spares.onTrue
  | no _ _ ih => exact ih spares.onFalse

theorem Occurs.consistent {control : Control} {m : Moment} (occurs : Occurs d c m control σ) :
    m.Consistent d c := by
  induction occurs with
  | enable _ _ _ _ consistent => exact consistent
  | test evaluates | choose evaluates => exact evaluates.consistent
  | first _ ih | later _ _ ih | round _ _ ih | again _ _ _ ih | yes _ _ ih | no _ _ ih => exact ih

theorem Moment.Evaluates.group_mem {m : Moment} (evaluates : m.Evaluates d c cond σ) :
    m.group ∈ c.groups ∨ m.group.assignments = [] := by
  have found := evaluates.group
  cases cond with
  | none => exact .inr (congrArg Group.assignments (Option.some.inj found).symm)
  | some name => exact .inl (List.mem_of_find?_eq_some found)

/-- A group of the component, or none at all where a condition takes none. -/
theorem Occurs.group_mem {control : Control} {m : Moment} (occurs : Occurs d c m control σ) :
    m.group ∈ c.groups ∨ m.group.assignments = [] := by
  induction occurs with
  | enable found _ _ _ _ => exact .inl (List.mem_of_find?_eq_some found)
  | test evaluates | choose evaluates => exact evaluates.group_mem
  | first _ ih | later _ _ ih | round _ _ ih | again _ _ _ ih | yes _ _ ih | no _ _ ih => exact ih

/-! ### Loops that count -/

variable {stop : Nat}

/-- Where a loop goes on below `stop` and counts up in each round, every start of its body finds the
number of the rounds before it. -/
theorem Enters.counts {j : Nat} {entry : State}
    (tests : ∀ τ bit, τ.regs cell ≤ stop → Tests d c pin cond τ bit →
      bit = (decide (τ.regs cell < stop)).toNat)
    (steps : ∀ τ τ', τ.regs cell < stop → Runs d c body τ τ' → τ'.regs cell = τ.regs cell + 1)
    (enters : Enters d c pin cond body j σ entry) (below : σ.regs cell ≤ stop) :
    entry.regs cell = σ.regs cell + j ∧ entry.regs cell < stop := by
  have less (τ : State) (below : τ.regs cell ≤ stop) (high : Tests d c pin cond τ 1) :
      τ.regs cell < stop := by
    have goes := tests τ 1 below high
    by_contra past
    simp [past] at goes
  induction enters with
  | first high => exact ⟨rfl, less _ below high⟩
  | @next j σ τ entry high round _ ih =>
    have next := steps σ τ (less σ below high) round
    obtain ⟨held, under⟩ := ih (next ▸ less σ below high)
    exact ⟨by rw [held, next, Nat.add_assoc, Nat.add_comm 1], under⟩

/-- Such a loop counts up to `stop`. -/
theorem Rounds.counts {entries : List State}
    (tests : ∀ τ bit, τ.regs cell ≤ stop → Tests d c pin cond τ bit →
      bit = (decide (τ.regs cell < stop)).toNat)
    (steps : ∀ τ τ', τ.regs cell < stop → Runs d c body τ τ' → τ'.regs cell = τ.regs cell + 1)
    (rounds : Rounds d c pin cond body entries σ σ') (below : σ.regs cell ≤ stop) :
    σ.regs cell + entries.length = stop ∧ σ'.regs cell = stop := by
  induction rounds with
  | @exit σ low =>
    have stays := tests σ 0 below low
    have same : σ.regs cell = stop := by
      by_contra different
      have less : σ.regs cell < stop := by omega
      simp [less] at stays
    exact ⟨same, same⟩
  | @again entries σ τ σ' high round _ ih =>
    obtain ⟨_, less⟩ := Enters.counts tests steps (.first high) below
    have next := steps σ τ less round
    obtain ⟨counted, ended⟩ := ih (by omega)
    exact ⟨by rw [List.length_cons]; omega, ended⟩

/-- Such a loop comes to its end if each of its rounds does. -/
theorem exists_rounds
    (tests : ∀ τ, τ.regs cell ≤ stop → Tests d c pin cond τ (decide (τ.regs cell < stop)).toNat)
    (steps : ∀ τ τ', τ.regs cell < stop → Runs d c body τ τ' → τ'.regs cell = τ.regs cell + 1)
    (ends : ∀ τ, σ.regs cell ≤ τ.regs cell → τ.regs cell < stop → ∃ τ', Runs d c body τ τ')
    (below : σ.regs cell ≤ stop) :
    ∃ entries σ', Rounds d c pin cond body entries σ σ' := by
  generalize left : stop - σ.regs cell = count
  induction count generalizing σ with
  | zero =>
    have low := tests σ below
    rw [decide_eq_false (by omega)] at low
    exact ⟨[], σ, .exit low⟩
  | succ count ih =>
    have less : σ.regs cell < stop := by omega
    have high := tests σ below
    rw [decide_eq_true less] at high
    obtain ⟨τ, round⟩ := ends σ (Nat.le_refl _) less
    have next := steps σ τ less round
    obtain ⟨entries, σ', rounds⟩ :=
      @ih τ (fun υ above => ends υ (by omega)) (by omega) (by omega)
    exact ⟨σ :: entries, σ', .again high round rounds⟩

end

end Execution

end BankedLoops
