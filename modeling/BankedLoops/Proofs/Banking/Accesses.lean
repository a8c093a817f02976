import BankedLoops.Proofs.Banking.Addresses
import BankedLoops.Proofs.Banking.Image
import BankedLoops.Proofs.Banking.StaticBank

/-!
# Accesses lead to their elements

Where the values of the indices lie inside the dimensions and inside the intervals that are known of
them, the physical form of an access names the bank of the element, or computes its number, and
computes the offsets of the element in the bank. No operation that joins the indices wraps.
-/

namespace BankedLoops

namespace Banking

open Semantics

/-- The number of a bank, as the sum over all dimensions of the bank in the dimension times the
stride. -/
def bankNumber (dims : List Dim) (strides is : List Nat) : Nat :=
  (((dims.zip strides).zip is).map fun (⟨d, stride⟩, i) => i / d.bank * stride).sum

theorem bankNumber_eq {dims : List Dim} {strides : List Nat}
    (strided : Layout.stridesOf dims = .ok strides) (is : List Nat) :
    bankNumber dims strides is = flatBank dims is := by
  induction dims generalizing strides is with
  | nil => rfl
  | cons d dims ih =>
    obtain ⟨rest, rfl, inner⟩ := Layout.stridesOf_cons strided
    cases is with
    | nil => rfl
    | cons i is =>
      rw [flatBank, ← ih inner is]
      rfl

/-- A value of an index: a number of its type that lies in the interval of the index. -/
structure IndexValue (env : Env) (m : Machine) (run : Semantics.Env) (s : State) (idx : TypedExpr)
    (i : Nat) : Prop where
  value : eval m run s false idx = .ok i
  represents : Represents idx.ty i
  between : ∀ range, Interval.ofIndex? env idx = some range → range.lo ≤ i ∧ i ≤ range.hi

/-- A bank that is known at compile time is the bank of the value. -/
theorem IndexValue.div_eq {env : Env} {m : Machine} {run : Semantics.Env} {s : State}
    {idx : TypedExpr} {i k : Nat} {dim : Dim} (index : IndexValue env m run s idx i)
    (divided : dim.splitsEvenly = .ok true) (inside : i < dim.size)
    (static : staticBank? env idx dim = .ok (some k)) : i / dim.bank = k := by
  rcases staticBank?_cases static with ⟨single, rfl⟩ | ⟨range, found, low, high⟩
  · obtain ⟨_, count⟩ := Word.div_eq_ok_iff.mp single
    have bank := div_lt_banks divided inside
    rw [count] at bank
    exact Nat.lt_one_iff.mp bank
  · exact div_eq_of_between low high (index.between range found)

section

variable {ctx : Context} {env : Env} {pos : Nat}

/-- What a placement is worth: the number of the bank and the offsets in it. -/
structure Leads (m : Machine) (run : Semantics.Env) (s : State) (leaf : TypedExpr → Prop)
    (p : Placement) (number : Nat) (offs : List Nat) : Prop where
  terms : ∃ vs, List.Forall₂ (Denotes m run s false leaf) p.terms vs ∧ p.base + vs.sum = number
  addr : List.Forall₂ (Computes m run s false leaf) p.addr offs

/-- The indices of an access lead to the bank and the offsets of the element that their values
number. -/
theorem leads_of_place {array : String} {dims : List Dim} (divided : Divided dims)
    {strides : List Nat} (strided : Layout.stridesOf dims = .ok strides) {idxs : List TypedExpr}
    (count : idxs.length = dims.length) {base : Nat} {p : Placement}
    (placed : (place ctx env pos array base idxs (dims.zip strides)).result = .ok p) :
    ∃ idxs', List.Forall₂ (fun idx idx' => (read ctx env pos idx).result = .ok idx') idxs idxs' ∧
      ∀ m run s (leaf : TypedExpr → Prop) is, (∀ idx ∈ idxs', leaf idx) →
        List.Forall₂ (IndexValue env m run s) idxs' is → inside dims is = true →
        Leads m run s leaf p (base + flatBank dims is) (offsets dims is) := by
  induction dims generalizing strides idxs base p with
  | nil =>
    obtain rfl := List.eq_nil_of_length_eq_zero count
    cases placed
    refine ⟨[], .nil, ?_⟩
    intro m run s leaf is _ values _
    cases values
    exact ⟨⟨[], .nil, rfl⟩, .nil⟩
  | cons d dims ih =>
    obtain ⟨rest, rfl, inner⟩ := Layout.stridesOf_cons strided
    obtain ⟨idx, idxs, rfl⟩ := List.exists_cons_of_length_eq_add_one count
    have count := Nat.succ.inj count
    rw [List.zip_cons_cons] at placed
    obtain ⟨idx', value, ⟨k, offset, p, static, addressed, _, others, rfl⟩ |
      ⟨term, offset, p, _, power, chosen, addressed, others, rfl⟩⟩ := place_cons_ok placed
    · obtain ⟨idxs', reads, leads⟩ := ih divided.tail inner count others
      refine ⟨idx' :: idxs', .cons value reads, ?_⟩
      intro m run s leaf is leaves values within
      cases values with
      | cons index values =>
        simp only [inside, Bool.and_eq_true, decide_eq_true_eq] at within
        obtain ⟨terms, addr⟩ := leads m run s leaf _
          (fun other member => leaves other (List.mem_cons_of_mem _ member)) values within.2
        have first : Denotes m run s false leaf idx' _ :=
          ⟨.leaf (leaves idx' List.mem_cons_self) index.value, index.represents⟩
        obtain rfl := index.div_eq divided.head within.1 static
        have offset := first.staticOffset (Nat.div_mul_le_self _ _) addressed
        rw [← Nat.mod_eq_sub_div_mul] at offset
        refine ⟨?_, .cons offset addr⟩
        rw [flatBank, ← Nat.add_assoc]
        exact terms
    · obtain ⟨idxs', reads, leads⟩ := ih divided.tail inner count others
      refine ⟨idx' :: idxs', .cons value reads, ?_⟩
      intro m run s leaf is leaves values within
      cases values with
      | cons index values =>
        simp only [inside, Bool.and_eq_true, decide_eq_true_eq] at within
        obtain ⟨⟨vs, terms, sum⟩, addr⟩ := leads m run s leaf _
          (fun other member => leaves other (List.mem_cons_of_mem _ member)) values within.2
        have first : Denotes m run s false leaf idx' _ :=
          ⟨.leaf (leaves idx' List.mem_cons_self) index.value, index.represents⟩
        refine ⟨⟨_ :: vs, .cons (first.bankTerm power chosen) terms, ?_⟩,
          .cons (first.maskedOffset power addressed) addr⟩
        rw [List.sum_cons, flatBank]
        dsimp only
        omega

/-- The bank of a placement without terms is the one that its base numbers. -/
theorem Leads.bank {m : Machine} {run : Semantics.Env} {s : State} {leaf : TypedExpr → Prop}
    {p : Placement} {number : Nat} {offs : List Nat} (leads : Leads m run s leaf p number offs)
    (known : p.terms = []) : p.base = number := by
  obtain ⟨vs, terms, sum⟩ := leads.terms
  rw [known] at terms
  cases terms
  exact sum

/-- The flat bank number that is selected among all banks. -/
theorem Leads.selector {m : Machine} {run : Semantics.Env} {s : State} {leaf : TypedExpr → Prop}
    {p : Placement} {number : Nat} {offs : List Nat} (leads : Leads m run s leaf p number offs)
    {flat : TypedExpr} (summed : selector p.base p.terms = .ok flat) :
    Denotes m run s false leaf flat number := by
  obtain ⟨vs, terms, sum⟩ := leads.terms
  rw [← sum]
  exact .selector terms summed

end

/-- The number that selects among the banks: that of the element's bank, moved on by the register
where the banks are rotated. -/
def SelectsAs (m : Machine) (run : Semantics.Env) (s : State) (idxs : List TypedExpr)
    (rotation : Option Rotation) (select : TypedExpr) (number : Nat) : Prop :=
  match rotation with
  | none => Computes m run s false (· ∈ idxs) select number
  | some r => ∀ ty turn, r.ty = .ok ty → scalarOf? run s r.register = some turn → turn < r.banks →
    Computes m run s false (fun e => e ∈ idxs ∨ e = .var ty r.register) select
      ((number + turn) % r.banks)

theorem selectsAs_of_rotated {m : Machine} {run : Semantics.Env} {s : State}
    {idxs : List TypedExpr} {rotation : Option Rotation}
    (powers : ∀ r, rotation = some r → isPowerOfTwo r.banks = true) {flat select : TypedExpr}
    {number : Nat}
    (denotes : ∀ leaf, (∀ idx ∈ idxs, leaf idx) → Denotes m run s false leaf flat number)
    (selected : rotated rotation flat = .ok select) :
    SelectsAs m run s idxs rotation select number := by
  cases rotation with
  | none =>
    cases selected
    exact (denotes _ fun _ member => member).computes
  | some r =>
    intro ty turn typed turned below
    have register : Denotes m run s false (fun e => e ∈ idxs ∨ e = .var ty r.register)
        (.var ty r.register) turn := by
      refine ⟨.leaf (.inr rfl) ?_, ?_⟩
      · rw [eval, turned]
        rfl
      · -- The register has as many bits as the last bank number.
        cases Rotation.eq_of_ty typed
        have last := lt_capacity_bitsNeeded (r.banks - 1)
        refine .of_unsigned rfl ?_
        show turn < Word.capacity (bitsNeeded (r.banks - 1))
        omega
    exact ((denotes _ fun _ member => .inl member).rotated (powers r rfl) typed register
      selected).computes

/-- The physical form of an access to a visible array leads to the bank and the offsets of the
element that the values of its indices number: either it names the bank, or its select computes the
number of the bank, moved on by the register where the banks are rotated. -/
theorem access_leads_to_element {statements : Statements} {body : TypedCommand} {outer : Env}
    {taken : List String} {advanced : List (String × Nat)} {prologue : Prologue}
    (setUp : (setUpRotations statements body outer taken advanced).result = .ok prologue)
    {env : Env} {array : String} {layout : Layout} (bound : env.get? array = some (.array layout))
    (divided : Divided layout.dims) {idxs : List TypedExpr}
    (count : idxs.length = layout.dims.length) {pos : Nat} {ty : Ty} {e : TypedExpr}
    (accessed : (read ⟨statements, prologue.rotations⟩ env pos (.access ty array idxs)).result = .ok e ∨
      (write ⟨statements, prologue.rotations⟩ env pos (.access ty array idxs)).result = .ok e) :
    ∃ idxs' strides names,
      List.Forall₂ (fun idx idx' =>
        (read ⟨statements, prologue.rotations⟩ env pos idx).result = .ok idx') idxs idxs' ∧
      layout.strides = .ok strides ∧ layout.banks = .ok names ∧
      ((∃ bank addr, e = .mem ty bank addr ∧ ∀ m run s is,
          List.Forall₂ (IndexValue env m run s) idxs' is → inside layout.dims is = true →
          names[bankNumber layout.dims strides is]? = some bank ∧
          List.Forall₂ (Computes m run s false (· ∈ idxs')) addr (offsets layout.dims is)) ∨
        ∃ select addr, e = .muxRead ty names select addr ∧ ∀ m run s is,
          List.Forall₂ (IndexValue env m run s) idxs' is → inside layout.dims is = true →
          SelectsAs m run s idxs' (prologue.rotations.lookup array) select
            (bankNumber layout.dims strides is) ∧
          List.Forall₂ (Computes m run s false (· ∈ idxs')) addr (offsets layout.dims is)) := by
  obtain ⟨writes, layout', strides, p, bound', strided, placed, resolved⟩ :
      ∃ writes layout strides p, env.get? array = some (.array layout) ∧
        layout.strides = .ok strides ∧
        (place ⟨statements, prologue.rotations⟩ env pos array 0 idxs
          (layout.dims.zip strides)).result = .ok p ∧
        ResolvedAs ⟨statements, prologue.rotations⟩ array layout ty writes p e := by
    rcases accessed with reads | writes
    · rw [read] at reads
      exact ⟨false, access_ok reads⟩
    · rw [write] at writes
      exact ⟨true, access_ok writes⟩
  obtain rfl : layout = layout' := by
    rw [bound] at bound'
    cases bound'
    rfl
  obtain ⟨idxs', reads, leads⟩ := leads_of_place divided strided count placed
  simp only [Nat.zero_add] at leads
  cases resolved with
  | @direct names bank named known _ found =>
    refine ⟨idxs', strides, names, reads, strided, named, .inl ⟨bank, p.addr, rfl, ?_⟩⟩
    intro m run s is values within
    have leads := leads m run s (· ∈ idxs') is (fun _ member => member) values within
    rw [bankNumber_eq strided, ← leads.bank known]
    exact ⟨found, leads.addr⟩
  | @multiplexed names flat select named _ _ summed selected =>
    refine ⟨idxs', strides, names, reads, strided, named, .inr ⟨select, p.addr, rfl, ?_⟩⟩
    intro m run s is values within
    rw [bankNumber_eq strided]
    refine ⟨selectsAs_of_rotated (fun r found => setUpRotations_powers setUp found) ?_ selected,
      (leads m run s (· ∈ idxs') is (fun _ member => member) values within).addr⟩
    intro leaf leaves
    exact (leads m run s leaf is leaves values within).selector summed

/-- Two rows and four columns of banks. -/
def board : Layout := ⟨"a", .ubit 8, [⟨4, 2⟩, ⟨8, 2⟩]⟩

def boardEnv : Env := (({} : Env).rebind "a" (.array board)).rebind "x" .scalar

/-- The banks of `board` turn with a register of three bits. -/
def turning : Prologue where
  env := boardEnv.rebind "a_bank" .scalar
  rotations := [("a", ⟨"a_bank", 8⟩)]
  setup := [.define 1 "a_bank" (.ubit 3) (.lit 0)]

def turningRun : Semantics.Env :=
  (({} : Semantics.Env).rebind "x" (.scalar 0)).rebind "a_bank" (.scalar 1)

/-- The element `a[3][3]` is in bank 5, which six turns bring to place 3. -/
theorem access_leads_to_element_turning :
    (setUpRotations {} (.advance 1 "a") boardEnv [] [("a", 1)]).result = .ok turning ∧
      ∃ names select addr, (read ⟨{}, turning.rotations⟩ boardEnv 0
          (.access (.ubit 8) "a" [.var (.ubit 2) "x", .lit 3])).result =
          .ok (.muxRead (.ubit 8) names select addr) ∧ board.banks = .ok names ∧
        eval .zero turningRun { scalars := [3, 6] } false select = .ok 3 ∧
        List.Forall₂ (fun e v => eval .zero turningRun { scalars := [3, 6] } false e = .ok v) addr
          [1, 1] := by
  have setUp : (setUpRotations {} (.advance 1 "a") boardEnv [] [("a", 1)]).result = .ok turning :=
    rfl
  obtain ⟨e, accessed⟩ : ∃ e, (read ⟨{}, turning.rotations⟩ boardEnv 0
      (.access (.ubit 8) "a" [.var (.ubit 2) "x", .lit 3])).result = .ok e := ⟨_, rfl⟩
  have bound : boardEnv.get? "a" = some (.array board) := rfl
  obtain ⟨idxs', strides, names, reads, strided, named, placed⟩ :=
    access_leads_to_element setUp bound (by decide) rfl (.inl accessed)
  obtain rfl : [.var (.ubit 2) "x", .lit 3] = idxs' := by
    cases reads with
    | cons first reads =>
      cases reads with
      | cons second reads =>
        cases reads
        cases first
        cases second
        rfl
  have row : IndexValue boardEnv .zero turningRun { scalars := [3, 6] } (.var (.ubit 2) "x") 3 :=
    ⟨rfl, ⟨by decide, rfl⟩, nofun⟩
  have column : IndexValue boardEnv .zero turningRun { scalars := [3, 6] } (.lit 3) 3 := by
    refine ⟨rfl, ⟨by decide, rfl⟩, ?_⟩
    intro range found
    cases found
    exact ⟨Nat.le_refl 3, Nat.le_refl 3⟩
  rcases placed with ⟨_, _, rfl, _⟩ | ⟨select, addr, rfl, leads⟩
  · cases accessed
  · obtain ⟨selects, addressed⟩ :=
      leads .zero turningRun { scalars := [3, 6] } [3, 3] (.cons row (.cons column .nil)) rfl
    cases strided
    exact ⟨setUp, names, select, addr, accessed, named,
      (selects (.ubit 3) 6 rfl rfl (by decide)).eval_eq, addressed.imp fun _ _ => Computes.eval_eq⟩

end Banking

end BankedLoops
