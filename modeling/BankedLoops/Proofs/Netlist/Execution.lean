import BankedLoops.Proofs.Netlist.Legality
import BankedLoops.Proofs.Semantics.Value

/-!
# Execution of components

What a component does, cycle by cycle. In every cycle of a group each pin carries a number: outputs
show what their parts compute or hold, and an assignment whose guard holds drives its target. At the
end of the cycle registers and memories take in what is written to them. A control runs its static
groups for as many cycles as they take.

Nothing is assumed of what the library leaves open: the product of fixed-point numbers, an input that
nobody drives, a pin with two active drivers, and the signals that tell the end of a write.
-/

namespace BankedLoops

open Library (Part)

open Semantics (toInt pattern FixedProduct)

/-! ### Combinational parts -/

namespace Library

/-- The result on patterns of `width` bits. -/
def Operation.apply (op : Operation) (width a b : Nat) : Nat :=
  match op with
  | .add => pattern width (a + b)
  | .sub => pattern width (a - b)
  | .mul => pattern width (a * b)
  | .lt => (decide (a < b)).toNat
  | .slt => (decide (toInt true width a < toInt true width b)).toNat
  | .le => (decide (a ≤ b)).toNat
  | .sle => (decide (toInt true width a ≤ toInt true width b)).toNat
  | .gt => (decide (b < a)).toNat
  | .sgt => (decide (toInt true width b < toInt true width a)).toNat
  | .ge => (decide (b ≤ a)).toNat
  | .sge => (decide (toInt true width b ≤ toInt true width a)).toNat
  | .eq => (decide (a = b)).toNat
  | .ne => (decide (a ≠ b)).toNat
  | .and => a &&& b
  | .or => a ||| b
  | .shl => pattern width (a * Word.capacity b)
  | .shr => a / Word.capacity b
  | .sar => pattern width (toInt true width a / Word.capacity b)

def FixedOperation.apply (product : FixedProduct) (op : FixedOperation) (width frac a b : Nat) : Nat :=
  match op with
  | .add => pattern width (a + b)
  | .sub => pattern width (a - b)
  | .mul => pattern width (product width frac a b)

def Adapter.apply (kind : Adapter) (width target v : Nat) : Nat :=
  match kind with
  | .slice => pattern target v
  | .pad => v
  | .signext => pattern target (toInt true width v)

end Library

namespace Execution

/-! ### Cycles -/

/-- What registers and memories hold, and what memories were asked for in the cycle before. -/
structure State where
  regs : String → Nat
  mems : String → List Nat → Nat
  data : String → Nat
  ready : String → Bool

/-- What an output shows, as far as the library tells. -/
def shown? (product : FixedProduct) (σ : State) (level : Pin → Nat) (name : String) :
    Part → String → Option Nat
  | .register width, "out" => some (pattern width (σ.regs name))
  | .constant width value, "out" => some (pattern width value)
  | .adapter kind width target, "out" => some (kind.apply width target (level (.cell name "in")))
  | .operator op width, "out" =>
    some (op.apply width (level (.cell name "left")) (level (.cell name "right")))
  | .fixed op width frac, "out" =>
    some (op.apply product width frac (level (.cell name "left")) (level (.cell name "right")))
  | .memory width _ _, "read_data" => some (pattern width (σ.data name))
  | .memory .., "read_done" => some (σ.ready name).toNat
  | _, _ => none

end Execution

open Execution

def Guard.Holds (cycle : Nat) (level : Pin → Nat) : Guard → Prop
  | .always => True
  | .pin p => level p = 1
  | .cycle k => k = cycle
  | .and l r => l.Holds cycle level ∧ r.Holds cycle level

instance Guard.decidableHolds (cycle : Nat) (level : Pin → Nat) :
    (g : Guard) → Decidable (g.Holds cycle level)
  | .always => .isTrue trivial
  | .pin p => inferInstanceAs (Decidable (level p = 1))
  | .cycle k => inferInstanceAs (Decidable (k = cycle))
  | .and l r =>
    haveI := decidableHolds cycle level l
    haveI := decidableHolds cycle level r
    inferInstanceAs (Decidable (l.Holds cycle level ∧ r.Holds cycle level))

@[simp]
theorem Guard.holds_both {cycle : Nat} {level : Pin → Nat} (g h : Guard) :
    (g.both h).Holds cycle level ↔ g.Holds cycle level ∧ h.Holds cycle level := by
  unfold both
  split <;> simp [Holds]

/-- The pins of a guard that holds are high. -/
theorem Guard.Holds.pins {cycle : Nat} {level : Pin → Nat} {g : Guard} (holds : g.Holds cycle level) :
    ∀ p ∈ g.pins, level p = 1 := by
  induction g with
  | always => exact nofun
  | pin p => exact List.forall_mem_singleton.mpr holds
  | cycle k => exact nofun
  | and l r left right =>
    intro p member
    rcases List.mem_append.mp member with inLeft | inRight
    · exact left holds.1 p inLeft
    · exact right holds.2 p inRight

def Atom.level (level : Pin → Nat) : Atom → Nat
  | .pin p => level p
  | .const _ value => value

namespace Execution

/-- The ports that are low unless they are driven. -/
def enablePorts : List String := ["write_en", "read_en"]

/-- The levels of all pins in one cycle of a group. -/
structure Consistent (product : FixedProduct) (cells : List Cell) (g : Group) (cycle : Nat)
    (σ : State) (level : Pin → Nat) : Prop where
  shows_ : ∀ name part, partOf? cells name = some part → ∀ port x,
    shown? product σ level name part port = some x → level (.cell name port) = x
  driven : ∀ a ∈ g.assignments, a.guard.Holds cycle level →
    (∀ b ∈ g.assignments, b.dst = a.dst → b.guard.Holds cycle level → b = a) →
    level a.dst = a.src.level level
  idle : ∀ name, ∀ port ∈ enablePorts,
    (∀ a ∈ g.assignments, a.dst = .cell name port → ¬ a.guard.Holds cycle level) →
    level (.cell name port) = 0

section

variable {product : FixedProduct} {cells : List Cell} {g : Group} {cycle : Nat} {σ : State}
  {level : Pin → Nat} {name : String} {width : Nat}

theorem Consistent.level_constant (consistent : Consistent product cells g cycle σ level) {value : Nat}
    (found : partOf? cells name = some (.constant width value)) :
    level (.out name) = pattern width value :=
  consistent.shows_ name _ found "out" _ rfl

theorem Consistent.level_register (consistent : Consistent product cells g cycle σ level)
    (found : partOf? cells name = some (.register width)) :
    level (.out name) = pattern width (σ.regs name) :=
  consistent.shows_ name _ found "out" _ rfl

end

/-- The element that the address ports of a memory name. -/
def addressed (level : Pin → Nat) (name : String) (dims : Nat) : List Nat :=
  (Part.addressPorts.take dims).map fun port => level (.cell name port)

/-- What is held after a cycle. -/
def State.after (σ : State) (cells : List Cell) (level : Pin → Nat) : State where
  regs := fun name =>
    match partOf? cells name with
    | some (.register _) =>
      if level (.cell name "write_en") = 1 then level (.cell name "in") else σ.regs name
    | _ => σ.regs name
  mems := fun name =>
    match partOf? cells name with
    | some (.memory _ sizes _) =>
      if level (.cell name "write_en") = 1 then
        Function.update (σ.mems name) (addressed level name sizes.length)
          (level (.cell name "write_data"))
      else
        σ.mems name
    | _ => σ.mems name
  data := fun name =>
    match partOf? cells name with
    | some (.memory _ sizes _) =>
      if level (.cell name "read_en") = 1 then σ.mems name (addressed level name sizes.length)
      else σ.data name
    | _ => σ.data name
  ready := fun name => level (.cell name "read_en") = 1

/-- A number of cycles of a group from the given one on. -/
inductive Cycles (product : FixedProduct) (cells : List Cell) (g : Group) :
    Nat → Nat → State → State → Prop where
  | done (cycle : Nat) (σ : State) : Cycles product cells g cycle 0 σ σ
  | step {cycle count : Nat} {σ σ' : State} {level : Pin → Nat}
      (consistent : Consistent product cells g cycle σ level)
      (rest : Cycles product cells g (cycle + 1) count (σ.after cells level) σ') :
      Cycles product cells g cycle (count + 1) σ σ'

/-! ### Controls -/

/-- What the execution of a component leaves open: the product of fixed-point numbers, and what an
instance of another component does to the memories that it is given. -/
structure Device where
  product : FixedProduct
  invoke : String → List (String × String) → State → State → Prop

/-- The group that computes a condition; some conditions take none. -/
def conditionGroup? (c : Component) : Option String → Option Group
  | none => some ⟨"", none, []⟩
  | some group => c.group? group

/-- Whether a condition may carry `bit`. -/
def Tests (d : Device) (c : Component) (pin : Pin) (cond : Option String) (σ : State) (bit : Nat) :
    Prop :=
  ∃ g level, conditionGroup? c cond = some g ∧ Consistent d.product c.cells g 0 σ level ∧
    level pin = bit

inductive Runs (d : Device) (c : Component) : Control → State → State → Prop where
  | empty (σ : State) : Runs d c .empty σ σ
  | enable {group : String} {pos : Option Nat} {g : Group} {latency : Nat} {σ σ' : State}
      (found : c.group? group = some g) (static : g.latency = some latency)
      (cycles : Cycles d.product c.cells g 0 latency σ σ') : Runs d c (.enable group pos) σ σ'
  | nil (σ : State) : Runs d c (.seq []) σ σ
  | cons {item : Control} {items : List Control} {σ τ σ' : State} (first : Runs d c item σ τ)
      (rest : Runs d c (.seq items) τ σ') : Runs d c (.seq (item :: items)) σ σ'
  | again {pin : Pin} {cond : Option String} {body : Control} {bound : Option Nat} {σ τ σ' : State}
      (high : Tests d c pin cond σ 1) (round : Runs d c body σ τ)
      (rest : Runs d c (.loop pin cond body bound) τ σ') : Runs d c (.loop pin cond body bound) σ σ'
  | exit {pin : Pin} {cond : Option String} {body : Control} {bound : Option Nat} {σ : State}
      (low : Tests d c pin cond σ 0) : Runs d c (.loop pin cond body bound) σ σ
  | yes {pin : Pin} {cond : Option String} {onTrue onFalse : Control} {σ σ' : State}
      (high : Tests d c pin cond σ 1) (branch : Runs d c onTrue σ σ') :
      Runs d c (.branch pin cond onTrue onFalse) σ σ'
  | no {pin : Pin} {cond : Option String} {onTrue onFalse : Control} {σ σ' : State}
      (low : Tests d c pin cond σ 0) (branch : Runs d c onFalse σ σ') :
      Runs d c (.branch pin cond onTrue onFalse) σ σ'
  | invoke {cell : String} {refs : List (String × String)} {pos : Option Nat} {σ σ' : State}
      (called : d.invoke cell refs σ σ') : Runs d c (.invoke cell refs pos) σ σ'

section

variable {d : Device} {c : Component} {σ σ' : State}

theorem runs_append_iff {cs ds : List Control} :
    Runs d c (.seq (cs ++ ds)) σ σ' ↔ ∃ τ, Runs d c (.seq cs) σ τ ∧ Runs d c (.seq ds) τ σ' := by
  induction cs generalizing σ with
  | nil =>
    constructor
    · exact fun ran => ⟨σ, .nil σ, ran⟩
    · rintro ⟨_, ⟨_⟩, ran⟩
      exact ran
  | cons item items ih =>
    constructor
    · intro ran
      cases ran with
      | cons first rest =>
        obtain ⟨τ, others, last⟩ := ih.mp rest
        exact ⟨τ, .cons first others, last⟩
    · rintro ⟨τ, ran, last⟩
      cases ran with
      | cons first others => exact .cons first (ih.mpr ⟨τ, others, last⟩)

theorem runs_singleton_iff {control : Control} :
    Runs d c (.seq [control]) σ σ' ↔ Runs d c control σ σ' := by
  constructor
  · intro ran
    cases ran with
    | cons first rest =>
      cases rest
      exact first
  · exact fun ran => .cons ran (.nil _)

theorem runs_items_iff {control : Control} :
    Runs d c (.seq control.items) σ σ' ↔ Runs d c control σ σ' := by
  cases control with
  | empty =>
    constructor
    · rintro ⟨_⟩
      exact .empty σ
    · rintro ⟨_⟩
      exact .nil σ
  | seq items => exact Iff.rfl
  | _ => exact runs_singleton_iff

/-- A sequence runs its items in turn, however it is flattened. -/
theorem runs_sequence_iff {cs : List Control} :
    Runs d c (.sequence cs) σ σ' ↔ Runs d c (.seq cs) σ σ' := by
  have flat : Runs d c (.seq (cs.flatMap Control.items)) σ σ' ↔ Runs d c (.seq cs) σ σ' := by
    induction cs generalizing σ with
    | nil => exact Iff.rfl
    | cons item items ih =>
      rw [List.flatMap_cons, runs_append_iff, ← List.singleton_append, runs_append_iff]
      simp only [runs_items_iff, runs_singleton_iff, ih]
  rw [← flat, Control.sequence]
  split
  · next none =>
    rw [none]
    exact (@runs_items_iff d c σ σ' .empty).symm
  · next item one => rw [one, runs_singleton_iff]
  · exact Iff.rfl

/-! ### Total correctness -/

/-- The control can be run to its end, and however it is run, the end satisfies `post`. -/
def Ensures (d : Device) (c : Component) (control : Control) (σ : State) (post : State → Prop) :
    Prop :=
  (∃ σ', Runs d c control σ σ') ∧ ∀ σ', Runs d c control σ σ' → post σ'

namespace Ensures

variable {cs ds : List Control} {control : Control} {post : State → Prop}

theorem nil (holds : post σ) : Ensures d c (.seq []) σ post := by
  refine ⟨⟨σ, .nil σ⟩, ?_⟩
  rintro _ ⟨_⟩
  exact holds

theorem mono {post' : State → Prop} (ensures : Ensures d c control σ post)
    (weaker : ∀ σ', post σ' → post' σ') : Ensures d c control σ post' :=
  ⟨ensures.1, fun σ' ran => weaker σ' (ensures.2 σ' ran)⟩

theorem append {between : State → Prop} (first : Ensures d c (.seq cs) σ between)
    (second : ∀ τ, between τ → Ensures d c (.seq ds) τ post) :
    Ensures d c (.seq (cs ++ ds)) σ post := by
  obtain ⟨⟨τ, ran⟩, holds⟩ := first
  obtain ⟨⟨σ', later⟩, _⟩ := second τ (holds τ ran)
  refine ⟨⟨σ', runs_append_iff.mpr ⟨τ, ran, later⟩⟩, ?_⟩
  intro σ' ran
  obtain ⟨τ, first, rest⟩ := runs_append_iff.mp ran
  exact (second τ (holds τ first)).2 σ' rest

theorem singleton (ensures : Ensures d c control σ post) : Ensures d c (.seq [control]) σ post := by
  simpa only [Ensures, runs_singleton_iff] using ensures

theorem cons {between : State → Prop} (first : Ensures d c control σ between)
    (second : ∀ τ, between τ → Ensures d c (.seq cs) τ post) : Ensures d c (.seq (control :: cs)) σ post :=
  first.singleton.append second

theorem sequence (ensures : Ensures d c (.seq cs) σ post) : Ensures d c (.sequence cs) σ post := by
  simpa only [Ensures, runs_sequence_iff] using ensures

end Ensures

end

end Execution

end BankedLoops
