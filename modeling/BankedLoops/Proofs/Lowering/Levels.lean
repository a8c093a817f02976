import BankedLoops.Proofs.Lowering.Hardware
import BankedLoops.Proofs.Netlist.Execution
import BankedLoops.Proofs.Semantics.Unsigned

/-!
# Levels in legal groups

In a cycle of a legal group no two drivers of a pin are active at once, so every assignment whose
guard holds is obeyed; and since values flow to deeper pins only, levels exist that all parts and
assignments agree with.
-/

namespace BankedLoops

namespace Lowering

open Library (Part)
open Semantics (pattern FixedProduct)
open Execution

section

variable {exact : Prop} {product : FixedProduct} {cells : List Cell} {g : Group} {cycle : Nat}
  {σ : State} {level : Pin → Nat}

/-! ### Drivers -/

theorem mem_drivers {p : Pin} {a : Assignment} :
    a ∈ g.drivers p ↔ a ∈ g.assignments ∧ a.dst = p := by
  simp [Group.drivers]

/-- Only the capture register of a read from several memories has more than one driver. -/
theorem LegalGroup.eq_of_drivers (legal : LegalGroup exact cells g) {name port : String} {part : Part}
    (found : partOf? cells name = some part) (other : ∀ width, part ≠ .register width)
    {a b : Assignment} (first : a ∈ g.drivers (.cell name port))
    (second : b ∈ g.drivers (.cell name port)) : b = a := by
  rcases legal.single (.cell name port) with few | multiplexed
  · match drivers : g.drivers (.cell name port), few with
    | [], _ =>
      rw [drivers] at first
      cases first
    | [_], _ =>
      rw [drivers] at first second
      rw [List.mem_singleton.mp first, List.mem_singleton.mp second]
  · obtain ⟨reg, width, _, _, isRegister, isPort, _⟩ := multiplexed
    have same : name = reg := by
      rcases isPort with isPort | isPort <;> cases isPort <;> rfl
    rw [same, isRegister] at found
    exact absurd (Option.some.inj found).symm (other width)

/-- A wire into a combinational part passes on what its source carries. -/
theorem LegalGroup.level_input (legal : LegalGroup exact cells g)
    (consistent : Consistent product cells g cycle σ level) {name port : String} {part : Part}
    (found : partOf? cells name = some part) (combinational : part.isCombinational = true) {src : Pin}
    (wire : g.Connects (.cell name port) src) : level (.cell name port) = level src := by
  refine consistent.driven _ wire trivial ?_
  intro b member same _
  refine legal.eq_of_drivers found ?_ (mem_drivers.mpr ⟨wire, rfl⟩) (mem_drivers.mpr ⟨member, same⟩)
  rintro width rfl
  cases combinational

/-- Every constant fits its width. -/
def ConstantsFit (cells : List Cell) : Prop :=
  ∀ c ∈ cells, ∀ width value, c.part? = some (.constant width value) → value < Word.capacity width

theorem ConstantsFit.value_lt (fit : ConstantsFit cells) {name : String} {width value : Nat}
    (found : partOf? cells name = some (.constant width value)) : value < Word.capacity width := by
  obtain ⟨c, first, isConstant⟩ := Option.bind_eq_some_iff.mp found
  exact fit c (List.mem_of_find?_eq_some first) width value isConstant

/-- A comparison with a constant is high exactly where the select carries that constant. -/
theorem LegalGroup.level_eq (legal : LegalGroup exact cells g) (fit : ConstantsFit cells)
    (consistent : Consistent product cells g cycle σ level) {eq const : String} {select : Pin}
    {width number : Nat} (isEq : partOf? cells eq = some (.operator .eq width))
    (left : g.Connects (.cell eq "left") select) (right : g.Connects (.cell eq "right") (.out const))
    (isConst : partOf? cells const = some (.constant width number)) :
    level (.out eq) = (decide (level select = number)).toNat := by
  have shown : level (.out eq) =
      (decide (level (.cell eq "left") = level (.cell eq "right"))).toNat :=
    consistent.shows_ eq _ isEq "out" _ rfl
  rw [shown, legal.level_input consistent isEq rfl left, legal.level_input consistent isEq rfl right,
    consistent.level_constant isConst, Semantics.pattern_of_lt (fit.value_lt isConst)]

theorem LegalGroup.level_select (legal : LegalGroup exact cells g) (fit : ConstantsFit cells)
    (consistent : Consistent product cells g cycle σ level) {select : Pin} {a : Assignment}
    {number : Nat} (selects : g.Selects cells select a number) (holds : a.guard.Holds cycle level) :
    level select = number := by
  obtain ⟨eq, const, width, guarded, isEq, left, right, isConst⟩ := selects
  have high := holds.pins _ guarded
  rw [legal.level_eq fit consistent isEq left right isConst] at high
  by_contra different
  simp [different] at high

/-- No two drivers of a pin are active at once. -/
theorem LegalGroup.eq_of_active (legal : LegalGroup exact cells g) (fit : ConstantsFit cells)
    (consistent : Consistent product cells g cycle σ level) {a b : Assignment}
    (first : a ∈ g.assignments) (second : b ∈ g.assignments) (same : b.dst = a.dst)
    (active : a.guard.Holds cycle level) (active' : b.guard.Holds cycle level) : b = a := by
  have isFirst : a ∈ g.drivers a.dst := mem_drivers.mpr ⟨first, rfl⟩
  have isSecond : b ∈ g.drivers a.dst := mem_drivers.mpr ⟨second, same⟩
  rcases legal.single a.dst with few | ⟨_, _, select, numbers, _, _, _, distinct, selects⟩
  · match drivers : g.drivers a.dst, few with
    | [], _ =>
      rw [drivers] at isFirst
      cases isFirst
    | [_], _ =>
      rw [drivers] at isFirst isSecond
      rw [List.mem_singleton.mp isFirst, List.mem_singleton.mp isSecond]
  · -- both guards compare the select, so they find the same number, which only one driver has
    obtain ⟨counted, selects⟩ := List.forall₂_iff_get.mp selects
    obtain ⟨i, below, isA⟩ := List.getElem_of_mem isFirst
    obtain ⟨j, below', isB⟩ := List.getElem_of_mem isSecond
    have selectsA := selects i below (counted ▸ below)
    have selectsB := selects j below' (counted ▸ below')
    simp only [List.get_eq_getElem, isA, isB] at selectsA selectsB
    have number := legal.level_select fit consistent selectsA active
    rw [legal.level_select fit consistent selectsB active'] at number
    obtain rfl := (List.getElem_inj distinct).mp number
    rw [← isA, ← isB]

/-- An assignment whose guard holds is obeyed. -/
theorem LegalGroup.level_dst (legal : LegalGroup exact cells g) (fit : ConstantsFit cells)
    (consistent : Consistent product cells g cycle σ level) {a : Assignment}
    (member : a ∈ g.assignments) (active : a.guard.Holds cycle level) :
    level a.dst = a.src.level level :=
  consistent.driven a member active fun _ inside same active' =>
    legal.eq_of_active fit consistent member inside same active active'

end

/-! ### Levels that all agree with -/

section

variable (product : FixedProduct) (cells : List Cell) (g : Group) (cycle : Nat) (σ : State)

/-- What the first active driver of a pin makes it carry. -/
def drivenTo (level : Pin → Nat) (p : Pin) : Nat :=
  (((g.drivers p).find? fun a => a.guard.Holds cycle level).map (·.src.level level)).getD 0

/-- What a pin shows of itself. -/
def shownAt? (level : Pin → Nat) : Pin → Option Nat
  | .cell name port => (partOf? cells name).bind (shown? product σ level name · port)
  | .hole .. => none

/-- One round in which every pin follows the pins that it depends on. -/
def settle (level : Pin → Nat) (p : Pin) : Nat :=
  (shownAt? product cells σ level p).getD (drivenTo g cycle level p)

/-- The levels after a number of rounds. -/
def settled : Nat → Pin → Nat
  | 0, _ => 0
  | rounds + 1, p => settle product cells g cycle σ (settled rounds) p

end

section

variable {exact : Prop} {product : FixedProduct} {cells : List Cell} {g : Group} {cycle : Nat}
  {σ : State} {level level' : Pin → Nat}

theorem shown?_output {name port : String} {part : Part} {x : Nat}
    (shown : shown? product σ level name part port = some x) : port ∈ part.outputs.map Prod.fst := by
  unfold shown? at shown
  split at shown <;> first | (simp [Part.outputs]; done) | cases shown

theorem shown?_congr {name port : String} {part : Part}
    (same : part.isCombinational = true → port ∈ part.outputs.map Prod.fst →
      ∀ input ∈ part.inputs, level (.cell name input.1) = level' (.cell name input.1)) :
    shown? product σ level name part port = shown? product σ level' name part port := by
  by_cases isOut : port = "out"
  · subst isOut
    cases part with
    | adapter kind width target =>
      have first := same rfl List.mem_cons_self ("in", width) List.mem_cons_self
      simp only [shown?, first]
    | operator op width =>
      have left := same rfl List.mem_cons_self ("left", width) List.mem_cons_self
      have right := same rfl List.mem_cons_self ("right", width)
        (List.mem_cons_of_mem _ List.mem_cons_self)
      simp only [shown?, left, right]
    | fixed op width frac =>
      have left := same rfl List.mem_cons_self ("left", width) List.mem_cons_self
      have right := same rfl List.mem_cons_self ("right", width)
        (List.mem_cons_of_mem _ List.mem_cons_self)
      simp only [shown?, left, right]
    | _ => rfl
  · unfold shown?
    split <;> first | rfl | exact absurd rfl isOut

theorem Guard.holds_congr {guard : Guard} (same : ∀ p ∈ guard.pins, level p = level' p) :
    guard.Holds cycle level ↔ guard.Holds cycle level' := by
  induction guard with
  | always => exact Iff.rfl
  | pin p => rw [Guard.Holds, Guard.Holds, same p List.mem_cons_self]
  | cycle k => exact Iff.rfl
  | and l r left right =>
    exact and_congr (left fun p member => same p (List.mem_append_left _ member))
      (right fun p member => same p (List.mem_append_right _ member))

theorem Atom.level_congr {src : Atom} (same : ∀ p ∈ src.pins, level p = level' p) :
    src.level level = src.level level' := by
  cases src with
  | pin p => exact same p List.mem_cons_self
  | const => rfl

theorem drivenTo_congr {p : Pin}
    (same : ∀ a ∈ g.drivers p, ∀ q ∈ a.reads, level q = level' q) :
    drivenTo g cycle level p = drivenTo g cycle level' p := by
  unfold drivenTo
  generalize g.drivers p = drivers at same
  induction drivers with
  | nil => rfl
  | cons a drivers ih =>
    obtain ⟨first, rest⟩ := List.forall_mem_cons.mp same
    have guarded := @Guard.holds_congr cycle level level' a.guard fun q member =>
      first q (List.mem_append_right _ member)
    by_cases active : a.guard.Holds cycle level
    · simp only [List.find?_cons, active, guarded.mp active, decide_true, Option.map_some,
        Option.getD_some]
      exact Atom.level_congr fun q member => first q (List.mem_append_left _ member)
    · have inactive : ¬ a.guard.Holds cycle level' := fun holds => active (guarded.mpr holds)
      simp only [List.find?_cons, active, inactive, decide_false]
      exact ih rest

/-- A round looks only at the pins that feed a pin. -/
theorem settle_congr {p : Pin} (same : ∀ q, g.Feeds cells q p → level q = level' q) :
    settle product cells g cycle σ level p = settle product cells g cycle σ level' p := by
  have driven : drivenTo g cycle level p = drivenTo g cycle level' p := by
    refine drivenTo_congr fun a member q read => same q ?_
    obtain ⟨inside, rfl⟩ := mem_drivers.mp member
    exact .assigned inside read
  have shown : shownAt? product cells σ level p = shownAt? product cells σ level' p := by
    cases p with
    | hole => rfl
    | cell name port =>
      rw [shownAt?, shownAt?]
      cases found : partOf? cells name with
      | none => rfl
      | some part =>
        refine shown?_congr fun combinational output input read => ?_
        obtain ⟨entry, shown, rfl⟩ := List.mem_map.mp output
        exact same _ (.computed found combinational read shown)
  rw [settle, settle, driven, shown]

theorem depth_le (cells : List Cell) (p : Pin) : depth cells p ≤ 2 * cells.length + 1 := by
  cases p with
  | hole => exact Nat.le_refl _
  | cell name port =>
    rw [depth]
    split
    · exact Nat.zero_le _
    · next found =>
      have inside := position_lt (mem_of_partOf? found)
      split <;> split <;> omega

/-- A pin has its level after as many rounds as it is deep. -/
theorem settled_stable (legal : LegalGroup exact cells g) (rounds : Nat) (p : Pin)
    (deep : depth cells p < rounds) :
    settled product cells g cycle σ (rounds + 1) p = settled product cells g cycle σ rounds p := by
  induction rounds generalizing p with
  | zero => exact absurd deep (Nat.not_lt_zero _)
  | succ rounds ih =>
    refine settle_congr fun q feeds => ih q ?_
    have deeper := depth_lt legal feeds
    omega

theorem Link.sink {group : String} {assigns : List Assignment} {a : Assignment}
    (link : Link exact cells assigns group a) : shownAt? product cells σ level a.dst = none := by
  rw [Option.eq_none_iff_forall_ne_some]
  intro x shown
  rcases link with feeding | clocked
  · cases feeding with
    | wire found _ input =>
      rw [shownAt?, found] at shown
      exact Part.not_input_of_output (shown?_output shown) (List.mem_map.mpr ⟨_, input, rfl⟩)
  · cases clocked with
    | done => cases shown
    | port found _ sink =>
      rw [shownAt?, found] at shown
      exact sink (shown?_output shown)

/-- In every cycle of a legal group there are levels that all parts and assignments agree with. -/
theorem LegalGroup.exists_consistent (legal : LegalGroup exact cells g) (product : FixedProduct)
    (cycle : Nat) (σ : State) : ∃ level, Consistent product cells g cycle σ level := by
  obtain ⟨level, fixed⟩ : ∃ level, ∀ p, level p = settle product cells g cycle σ level p := by
    refine ⟨settled product cells g cycle σ (2 * cells.length + 2), fun p => ?_⟩
    exact (settled_stable legal _ p (Nat.lt_succ_of_le (depth_le cells p))).symm
  refine ⟨level, ?_, ?_, ?_⟩
  · intro name part found port x shown
    rw [fixed, settle, shownAt?, found, Option.bind_some, shown, Option.getD_some]
  · intro a member active once
    rw [fixed, settle, (legal.links a member).sink, Option.getD_none, drivenTo]
    obtain ⟨b, first⟩ : ∃ b, (g.drivers a.dst).find? (fun b => b.guard.Holds cycle level) = some b := by
      rw [← Option.isSome_iff_exists, List.find?_isSome]
      exact ⟨a, mem_drivers.mpr ⟨member, rfl⟩, decide_eq_true active⟩
    obtain ⟨inside, same⟩ := mem_drivers.mp (List.mem_of_find?_eq_some first)
    have chosen := once b inside same (of_decide_eq_true (List.find?_some first :))
    rw [first, chosen]
    rfl
  · intro name port isEnable inactive
    have hidden : shownAt? product cells σ level (.cell name port) = none := by
      rw [Option.eq_none_iff_forall_ne_some]
      intro x shown
      obtain ⟨part, found, shown⟩ := Option.bind_eq_some_iff.mp shown
      simp only [enablePorts, List.mem_cons, List.not_mem_nil, or_false] at isEnable
      rcases isEnable with rfl | rfl <;> cases part <;> cases shown
    have undriven : (g.drivers (.cell name port)).find? (fun a => a.guard.Holds cycle level) = none := by
      rw [List.find?_eq_none]
      intro a member active
      obtain ⟨inside, same⟩ := mem_drivers.mp member
      exact inactive a inside same (of_decide_eq_true active)
    rw [fixed, settle, hidden, Option.getD_none, drivenTo, undriven]
    rfl

end

end Lowering

end BankedLoops
