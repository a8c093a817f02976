import BankedLoops.Proofs.Lowering.Reads
import BankedLoops.Proofs.Lowering.Rules

/-!
# Lowered expressions

Every expression is lowered to a source of exactly the width that is asked for, whatever the names
in it lead to.
-/

namespace BankedLoops

namespace Lowering

open Library (Part)

/-! ### Operators -/

/-- The integer operation of an operator. -/
def integerOperation (op : BinOp) (signed : Bool) : Library.Operation :=
  match op, signed with
  | .add, _ => .add
  | .sub, _ => .sub
  | .mul, _ => .mul
  | .lt, false => .lt
  | .lt, true => .slt
  | .le, false => .le
  | .le, true => .sle
  | .gt, false => .gt
  | .gt, true => .sgt
  | .ge, false => .ge
  | .ge, true => .sge
  | .eq, _ => .eq
  | .ne, _ => .ne
  | .and, _ | .bitAnd, _ => .and
  | .or, _ => .or
  | .shl, _ => .shl
  | .shr, false => .shr
  | .shr, true => .sar

def fixedOperation? : BinOp → Option Library.FixedOperation
  | .add => some .add
  | .sub => some .sub
  | .mul => some .mul
  | _ => none

/-- The part that computes an operator. -/
def operatorPart (op : BinOp) (width : Nat) (signed : Bool) (frac : Option Nat) : Part :=
  match frac, fixedOperation? op with
  | some frac, some fixed => .fixed fixed width frac
  | _, _ => .operator (integerOperation op signed) width

theorem operator_part {op : BinOp} {width : Nat} {signed : Bool} {frac : Option Nat}
    {operator : Operator} (found : Operator.of op width signed frac = .ok operator) :
    Library.part? s!"std_{operator.stem}" operator.params =
      some (operatorPart op width signed frac) := by
  cases frac with
  | none =>
    obtain rfl := Except.ok.inj (found : Except.ok _ = _)
    cases op <;> cases signed <;> rfl
  | some frac =>
    cases op with
    | add | sub | mul =>
      obtain ⟨whole, _, same⟩ := bind_ok_iff.mp found
      cases same
      rfl
    | _ =>
      obtain rfl := Except.ok.inj (found : Except.ok _ = _)
      cases signed <;> rfl

theorem isCombinational_operatorPart (op : BinOp) (width : Nat) (signed : Bool) (frac : Option Nat) :
    (operatorPart op width signed frac).isCombinational = true := by
  unfold operatorPart
  split <;> rfl

theorem inputs_operatorPart (op : BinOp) (width : Nat) (signed : Bool) (frac : Option Nat) :
    (operatorPart op width signed frac).inputs = [("left", width), ("right", width)] := by
  unfold operatorPart
  split <;> rfl

theorem outputs_operatorPart (op : BinOp) (width : Nat) (signed : Bool) (frac : Option Nat) :
    (operatorPart op width signed frac).outputs = [("out", if op.isComparison then 1 else width)] := by
  cases op <;> cases signed <;> cases frac <;> rfl

theorem operatorWidths_snd (op : BinOp) (ty l r : Ty) :
    (operatorWidths op ty l r).2 =
      if op.isComparison then 1 else (operatorWidths op ty l r).1 := by
  cases op <;> rfl

section

variable {exact : Prop} {env : Env} {w v : Workspace} {W W' : Wiring} {s : Setting} {pos : Nat}

theorem addOperator_installs {op : BinOp} {width : Nat} {signed : Bool} {frac : Option Nat}
    {cell : String} (legal : w.Legal exact)
    (ran : (addOperator op width signed frac).run w = .ok (cell, v)) :
    Installs exact w cell (operatorPart op width signed frac) v := by
  obtain ⟨operator, _, lifted, ran⟩ := run_bind_ok_iff.mp ran
  obtain ⟨found, rfl⟩ := run_lift_ok_iff.mp lifted
  refine addPrimitive_installs _ legal (operator_part found) ?_ ran
  intro _ width' value same
  have inputs := inputs_operatorPart op width signed frac
  rw [same] at inputs
  cases inputs

/-- Wires both operands of a part. -/
theorem LegalWiring.operate {cells : List Cell} (wired : LegalWiring cells env W) {cell : String}
    {part : Part} {left right : Pin} {width out : Nat} (found : partOf? cells cell = some part)
    (combinational : part.isCombinational = true)
    (inputs : part.inputs = [("left", width), ("right", width)]) (outputs : part.outputs = [("out", out)])
    (leftSource : Sourced cells W.assigns left width)
    (rightSource : Sourced cells W.assigns right width) (leftEarlier : Earlier cells cell left)
    (rightEarlier : Earlier cells cell right)
    (new : ∀ port, .cell cell port ∉ W.assigns.map (·.dst))
    (owned : ∀ other reg slice bits, env.get? other = some (.iterator reg (some slice) bits) →
      cell ≠ slice) :
    let W' := (W.connect (.cell cell "left") left).connect (.cell cell "right") right
    LegalWiring cells env W' ∧ W'.assigns = W.assigns ++
        [⟨.cell cell "left", .pin left, .always⟩, ⟨.cell cell "right", .pin right, .always⟩] ∧
      Sourced cells W'.assigns (.out cell) out := by
  have isLeft : ("left", width) ∈ part.inputs := by
    rw [inputs]
    exact List.mem_cons_self
  have isRight : ("right", width) ∈ part.inputs := by
    rw [inputs]
    exact List.mem_cons_of_mem _ List.mem_cons_self
  obtain ⟨connectedLeft, leftAssigns⟩ := wired.connect found combinational isLeft leftSource
    leftEarlier (new "left")
    (fun other reg slice bits visible same => absurd same (owned other reg slice bits visible))
  have more : W.assigns ⊆ (W.connect (.cell cell "left") left).assigns := by
    rw [leftAssigns]
    exact List.subset_append_left _ _
  obtain ⟨connected, assigns⟩ := connectedLeft.connect found combinational isRight
    (rightSource.mono List.prefix_rfl more) rightEarlier
    (by
      rw [leftAssigns, List.map_append, List.mem_append, not_or]
      exact ⟨new "right", by simp⟩)
    (fun other reg slice bits visible same => absurd same (owned other reg slice bits visible))
  rw [leftAssigns, List.append_assoc] at assigns
  refine ⟨connected, assigns, .output found (by rw [outputs]; exact List.mem_cons_self) ?_⟩
  intro _ input member
  rw [inputs] at member
  rw [assigns]
  simp only [List.mem_cons, List.not_mem_nil, or_false] at member
  rcases member with rfl | rfl
  · exact ⟨left, List.mem_append_right _ List.mem_cons_self⟩
  · exact ⟨right, List.mem_append_right _ (List.mem_cons_of_mem _ List.mem_cons_self)⟩

/-- An operator and the wires of its operands. -/
theorem operate_lowered {op : BinOp} {width : Nat} {signed : Bool} {frac : Option Nat}
    {cell : String} {left right : Pin} (legal : w.Legal exact) (named : LegalEnv w.cells env)
    (wired : LegalWiring w.cells env W) (leftSource : Sourced w.cells W.assigns left width)
    (rightSource : Sourced w.cells W.assigns right width)
    (ran : (addOperator op width signed frac).run w = .ok (cell, v)) :
    let W' := (W.connect (.cell cell "left") left).connect (.cell cell "right") right
    Lowered exact env w W v W' ∧
      Sourced v.cells W'.assigns (.out cell) (if op.isComparison then 1 else width) := by
  have installs := addOperator_installs legal ran
  have grown := installs.extends_
  have same := List.Subset.refl W.assigns
  obtain ⟨connected, assigns, source⟩ := (wired.mono grown.cells).operate installs.found
    (isCombinational_operatorPart ..) (inputs_operatorPart ..) (outputs_operatorPart ..)
    (leftSource.mono grown.cells same) (rightSource.mono grown.cells same)
    (leftSource.earlier installs) (rightSource.earlier installs) (installs.not_driven legal wired)
    (installs.not_slice legal named)
  refine ⟨(Lowered.of_extends wired grown installs.groups).rewire connected ?_ ?_, source⟩
  · rw [assigns]
    exact List.subset_append_left _ _
  · exact (Wiring.before_assign ..).trans (Wiring.before_assign ..)

/-! ### Names -/

/-- A slice that is already driven keeps its wire; else the register is wired to it. -/
theorem slice_lowered {name cell slice : String} {width : Nat} (legal : w.Legal exact)
    (named : LegalEnv w.cells env) (wired : LegalWiring w.cells env W)
    (found : env.get? name = some (.iterator cell (some slice) width)) :
    let W' := W.connect (.cell slice "in") (.out cell)
    Lowered exact env w W w W' ∧ Sourced w.cells W'.assigns (.out slice) width := by
  cases named.stored name _ found with
  | @sliced _ _ wide _ isRegister isSlice =>
    have driven : ∀ W' : Wiring, ⟨.cell slice "in", .pin (.out cell), .always⟩ ∈ W'.assigns →
        Sourced w.cells W'.assigns (.out slice) width := by
      intro W' member
      refine .output isSlice List.mem_cons_self ?_
      intro _ input isInput
      rw [List.mem_singleton.mp isInput]
      exact ⟨_, member⟩
    by_cases present : .cell slice "in" ∈ W.assigns.map (·.dst)
    · obtain ⟨a, member, dst⟩ := List.mem_map.mp present
      obtain rfl := wired.slices name cell slice width found a member dst
      have kept : W.connect (.cell slice "in") (.out cell) = W := by
        simp only [Wiring.connect, Wiring.assign]
        rw [if_pos (by simpa using member)]
      rw [kept]
      exact ⟨.of_extends wired legal.extends_refl rfl, driven W member⟩
    · obtain ⟨connected, assigns⟩ := wired.connect isSlice rfl List.mem_cons_self
        (.register isRegister) (.output _ isRegister (by rintro ⟨⟩)) present (by
          rintro other reg _ bits visible rfl
          have same := named.apart other name _ _ visible found slice
            (List.mem_cons_of_mem _ List.mem_cons_self) (List.mem_cons_of_mem _ List.mem_cons_self)
          rw [same, found] at visible
          cases visible
          rfl)
      refine ⟨(Lowered.of_extends wired legal.extends_refl rfl).rewire connected ?_
        (Wiring.before_assign ..), driven _ ?_⟩
      · rw [assigns]
        exact List.subset_append_left _ _
      · rw [assigns]
        exact List.mem_append_right _ List.mem_cons_self

theorem readName_lowered {name : String} {pin : Pin} {width : Nat} (legal : w.Legal exact)
    (named : LegalEnv w.cells env) (wired : LegalWiring w.cells env W)
    (ran : (readName s env pos W name).run w = .ok ((pin, width, W'), v)) :
    Lowered exact env w W v W' ∧ Sourced v.cells W'.assigns pin width := by
  obtain ⟨rfl, read⟩ := readName_ok ran
  cases read with
  | register found =>
    cases named.stored name _ found with
    | register isRegister =>
      exact ⟨.of_extends wired legal.extends_refl rfl, .register isRegister⟩
  | whole found =>
    cases named.stored name _ found with
    | whole isRegister => exact ⟨.of_extends wired legal.extends_refl rfl, .register isRegister⟩
  | sliced found => exact slice_lowered legal named wired found

end

/-! ### Expressions -/

section

variable {exact : Prop} {slots : Slots} {env : Env} {s : Setting} {pos : Nat}

theorem lowerCounted_lowers {count : Nat} {lower : AddressLowering}
    (lowers : ∀ sizes w W pins W' v, count = sizes.length → w.Legal exact → LegalEnv w.cells env →
      LegalWiring w.cells env W → (lower sizes W).run w = .ok ((pins, W'), v) →
      Lowered exact env w W v W' ∧
        List.Forall₂ (fun p size => Sourced v.cells W'.assigns p (bitsNeeded (size - 1))) pins sizes) :
    LowersPins exact env (lowerCounted count lower) := by
  intro sizes w W pins W' v legal named wired ran
  unfold lowerCounted at ran
  split at ran
  · cases ran
  · next counted => exact lowers sizes w W pins W' v (by omega) legal named wired ran

/-- The rest of an expression behind the reads that were hoisted. -/
theorem Hoisted.lowered {w v : Workspace} {W : Wiring} {controls : List Control}
    (hoisted : Hoisted exact w controls v) (wired : LegalWiring w.cells env W) :
    Lowered exact env w W v (W.after controls) where
  extends_ := hoisted.extends_
  wired := by
    have grown := wired.mono hoisted.extends_.cells
    exact ⟨grown.links, grown.distinct, grown.slices⟩
  more := List.Subset.refl _
  before := ⟨controls, rfl, hoisted.enabling, hoisted.schedules⟩

/-- A fresh register, the reads into it, and an adapter behind it. -/
theorem capture_lowered {w v : Workspace} {W W' : Wiring} {pin : Pin} {bits width : Nat}
    {signed : Bool} {read : String → Build (List Control)} (legal : w.Legal exact)
    (named : LegalEnv w.cells env) (wired : LegalWiring w.cells env W)
    (hoists : ∀ reg w controls v, w.Legal exact → LegalEnv w.cells env →
      partOf? w.cells reg = some (.register bits) → (read reg).run w = .ok (controls, v) →
      Hoisted exact w controls v)
    (ran : (do
      let reg ← addFreshRegister "r" bits
      let controls ← read reg
      adapt (W.after controls) (.out reg) bits width signed).run w = .ok ((pin, W'), v)) :
    Lowered exact env w W v W' ∧ Sourced v.cells W'.assigns pin width := by
  obtain ⟨reg, registered, added, ran⟩ := run_bind_ok_iff.mp ran
  obtain ⟨controls, read_, hoisting, ran⟩ := run_bind_ok_iff.mp ran
  have installs := addPrimitive_installs (.register bits) legal rfl nofun added
  have grown := installs.extends_
  have hoisted := hoists reg _ _ _ grown.legal (named.mono grown.cells) installs.found hoisting
  have lowered := (Lowered.of_extends wired grown installs.groups).trans
    (hoisted.lowered (wired.mono grown.cells))
  have captured := partOf?_of_isPrefix hoisted.extends_.cells installs.found
  obtain ⟨adapted, source⟩ := adapt_lowered hoisted.extends_.legal
    (named.mono lowered.extends_.cells) lowered.wired (.register captured) ran
  exact ⟨lowered.trans adapted, source⟩

theorem Physical.width_of_mem {ty : Ty} {mem : String} {addr : List TypedExpr}
    (typed : Physical slots (.mem ty mem addr)) (matched : Matches slots env) :
    ∀ m, env.get? mem = some (.memory m) → m.width = ty.width := by
  intro m found
  cases typed with
  | mem isMemory =>
    obtain ⟨store, visible, fits⟩ := matched mem _ isMemory
    rw [visible] at found
    cases found
    cases fits
    rfl

theorem Physical.alike_of_muxRead {ty : Ty} {banks : List String} {select : TypedExpr}
    {addr : List TypedExpr} (typed : Physical slots (.muxRead ty banks select addr))
    (matched : Matches slots env) :
    ∀ bank ∈ banks, ∀ m, env.get? bank = some (.memory m) →
      m.width = ty.width ∧ ∀ other ∈ banks, ∀ m', env.get? other = some (.memory m') →
        m.sizes = m'.sizes := by
  cases typed with
  | @muxRead _ _ _ _ sizes found =>
    have shape (bank : String) (member : bank ∈ banks) (m : Memory)
        (stored : env.get? bank = some (.memory m)) : m.width = ty.width ∧ m.sizes = sizes := by
      obtain ⟨store, visible, fits⟩ := matched bank _ (found bank member)
      rw [visible] at stored
      cases stored
      cases fits
      exact ⟨rfl, rfl⟩
    intro bank member m stored
    obtain ⟨wide, same⟩ := shape bank member m stored
    exact ⟨wide, fun other isBank m' visible => same.trans (shape other isBank m' visible).2.symm⟩

/-- What was folded while checking is a word. -/
theorem Physical.word_of_static {n : Nat} {op : BinOp} {lhs rhs : TypedExpr}
    (typed : Physical slots (.binop (.static n) op lhs rhs)) : n < Word.capacity Word.sizeBits := by
  cases typed with
  | binop _ _ operates =>
    cases operates with
    | folded _ _ _ word => exact word
    | checked _ computed => exact absurd rfl (computed n)

theorem word_of_capacity {n width : Nat} (word : n < Word.capacity Word.sizeBits)
    (wide : Word.sizeBits ≤ width) : n < Word.capacity width :=
  Nat.lt_of_lt_of_le word (Word.capacity_le wide)

mutual

/-- Lowering an expression wires combinational parts, hoists its reads, and ends with a source of
the requested width. -/
theorem lowerExpr_lowered (matched : Matches slots env) (width : Nat) :
    (e : TypedExpr) → Tidy e → (exact → Physical slots e) →
      LowersPin exact env width (fun W => lowerExpr s env pos width W e)
  | .int ty n, _, typed => by
    intro w W pin W' v legal named wired ran
    obtain ⟨cell, between, given, rest⟩ := run_bind_ok_iff.mp ran
    cases rest
    obtain ⟨grown, groups, cell, rfl, found⟩ := constant_legal legal (by
      intro known wide
      cases typed known with
      | int word => exact word_of_capacity word wide) given
    exact ⟨.of_extends wired grown groups, .constant found⟩
  | .bool ty b, _, _ => by
    intro w W pin W' v legal named wired ran
    obtain ⟨cell, between, given, ran⟩ := run_bind_ok_iff.mp ran
    obtain ⟨grown, groups, cell, rfl, found⟩ := constant_legal legal (by
      intro _ wide
      exact absurd wide (by decide)) given
    obtain ⟨adapted, source⟩ := adapt_lowered grown.legal (named.mono grown.cells)
      (wired.mono grown.cells) (.constant found) ran
    exact ⟨(Lowered.of_extends wired grown groups).trans adapted, source⟩
  | .var ty name, _, _ => by
    intro w W pin W' v legal named wired ran
    obtain ⟨⟨pin, stored, W''⟩, between, read, ran⟩ := run_bind_ok_iff.mp ran
    obtain ⟨lowered, source⟩ := readName_lowered legal named wired read
    obtain ⟨adapted, source⟩ := adapt_lowered lowered.extends_.legal
      (named.mono lowered.extends_.cells) lowered.wired source ran
    exact ⟨lowered.trans adapted, source⟩
  | .binop ty op lhs rhs, tidy, typed => by
    intro w W pin W' v legal named wired ran
    rcases ty.static_or with ⟨n, rfl⟩ | computed
    · dsimp only at ran
      rw [lowerExpr] at ran
      obtain ⟨cell, between, given, rest⟩ := run_bind_ok_iff.mp ran
      cases rest
      obtain ⟨grown, groups, cell, rfl, found⟩ := constant_legal legal
        (fun known wide => word_of_capacity (typed known).word_of_static wide) given
      exact ⟨.of_extends wired grown groups, .constant found⟩
    · dsimp only at ran
      rw [lowerExpr_computed computed] at ran
      obtain ⟨⟨left, W₁⟩, v₁, ranLeft, ran⟩ := run_bind_ok_iff.mp ran
      obtain ⟨⟨right, W₂⟩, v₂, ranRight, ran⟩ := run_bind_ok_iff.mp ran
      obtain ⟨cell, v₃, operator, ran⟩ := run_bind_ok_iff.mp ran
      obtain ⟨lowered₁, source₁⟩ := lowerExpr_lowered matched _ lhs tidy.1 (fun known => by
        cases typed known
        assumption) _ _ _ _ _ legal named wired ranLeft
      have named₁ := named.mono lowered₁.extends_.cells
      obtain ⟨lowered₂, source₂⟩ := lowerExpr_lowered matched _ rhs tidy.2 (fun known => by
        cases typed known
        assumption) _ _ _ _ _ lowered₁.extends_.legal named₁ lowered₁.wired ranRight
      have named₂ := named₁.mono lowered₂.extends_.cells
      obtain ⟨lowered₃, source₃⟩ := operate_lowered lowered₂.extends_.legal named₂ lowered₂.wired
        (source₁.mono lowered₂.extends_.cells lowered₂.more) source₂ operator
      rw [← operatorWidths_snd] at source₃
      obtain ⟨adapted, source⟩ := adapt_lowered lowered₃.extends_.legal
        (named₂.mono lowered₃.extends_.cells) lowered₃.wired source₃ ran
      exact ⟨lowered₁.trans (lowered₂.trans (lowered₃.trans adapted)), source⟩
  | .mem ty mem addr, tidy, typed => by
    intro w W pin W' v legal named wired ran
    refine capture_lowered legal named wired ?_ ran
    intro reg w controls v legal named isRegister reading
    exact readMemory_hoisted legal named
      (lowerCounted_lowers fun sizes => lowerAddrs_lowered matched addr tidy (fun known => by
        cases typed known
        assumption) sizes)
      isRegister (fun known => (typed known).width_of_mem matched) reading
  | .muxRead ty banks select addr, tidy, typed => by
    intro w W pin W' v legal named wired ran
    refine capture_lowered legal named wired ?_ ran
    intro reg w controls v legal named isRegister reading
    exact readBanks_hoisted legal named
      (fun width => lowerExpr_lowered matched width select tidy.2.1 fun known => by
        cases typed known
        assumption)
      (lowerCounted_lowers fun sizes => lowerAddrs_lowered matched addr tidy.2.2 (fun known => by
        cases typed known
        assumption) sizes)
      tidy.1 isRegister (fun known => (typed known).alike_of_muxRead matched) reading
  | .access _ array _, _, _ => by
    intro w W pin W' v _ _ _ ran
    cases ran
  | .app _ func _, _, _ => by
    intro w W pin W' v _ _ _ ran
    cases ran

theorem lowerAddrs_lowered (matched : Matches slots env) :
    (es : List TypedExpr) → TidyAll es → (exact → PhysicalAll slots es) → (sizes : List Nat) →
      ∀ w W pins W' v, es.length = sizes.length → w.Legal exact → LegalEnv w.cells env →
      LegalWiring w.cells env W → (lowerAddrs s env pos W es sizes).run w = .ok ((pins, W'), v) →
      Lowered exact env w W v W' ∧
        List.Forall₂ (fun p size => Sourced v.cells W'.assigns p (bitsNeeded (size - 1))) pins sizes
  | [], _, _, [], w, W, pins, W', v, _, legal, named, wired, ran => by
    cases ran
    exact ⟨.of_extends wired legal.extends_refl rfl, .nil⟩
  | e :: es, tidy, typed, size :: sizes, w, W, pins, W', v, counted, legal, named, wired, ran => by
    unfold lowerAddrs at ran
    obtain ⟨last, _, lifted, ran⟩ := run_bind_ok_iff.mp ran
    obtain ⟨subtracted, rfl⟩ := run_lift_ok_iff.mp lifted
    obtain ⟨_, rfl⟩ := Word.sub_eq_ok_iff.mp subtracted
    obtain ⟨⟨pin, W₁⟩, v₁, first, ran⟩ := run_bind_ok_iff.mp ran
    obtain ⟨⟨pins, W₂⟩, v₂, others, rest⟩ := run_bind_ok_iff.mp ran
    cases rest
    obtain ⟨lowered₁, source⟩ := lowerExpr_lowered matched _ e tidy.1 (fun known => by
      cases typed known
      assumption) _ _ _ _ _ legal named wired first
    obtain ⟨lowered₂, sources⟩ := lowerAddrs_lowered matched es tidy.2 (fun known => by
      cases typed known
      assumption) sizes _ _ _ _ _ (Nat.succ.inj counted) lowered₁.extends_.legal
      (named.mono lowered₁.extends_.cells) lowered₁.wired others
    exact ⟨lowered₁.trans lowered₂,
      .cons (source.mono lowered₂.extends_.cells lowered₂.more) sources⟩

end

end

end Lowering

end BankedLoops
