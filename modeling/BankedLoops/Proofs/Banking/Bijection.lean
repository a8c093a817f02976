import Mathlib.Data.Set.Function
import BankedLoops.Proofs.Banking.Image
import BankedLoops.Proofs.Banking.Rules

/-!
# Elements and their places

An access with literal indices names one memory and an offset in each dimension. The elements of an
array and the places in its banks correspond one to one: no element is lost, and no two elements
share a place.
-/

namespace BankedLoops

/-- Where an element of an array is kept: the memory, and the offset in each dimension. -/
def Layout.locate (l : Layout) (is : List Nat) : String × List Nat :=
  (l.memory (Banking.flatBank l.dims is), Banking.offsets l.dims is)

namespace Banking

/-! ### Literal indices -/

theorem staticBank?_lit {env : Env} {dim : Dim} (divided : dim.splitsEvenly = .ok true) {i : Nat}
    (inside : i < dim.size) : staticBank? env (.lit i) dim = .ok (some (i / dim.bank)) := by
  obtain ⟨_, positive, _⟩ := splitsEvenly_iff.mp divided
  have quotient (n : Nat) : Word.div n dim.bank = .ok (n / dim.bank) :=
    Word.div_eq_ok_iff.mpr ⟨Nat.ne_of_gt positive, rfl⟩
  have bank := div_lt_banks divided inside
  simp only [staticBank?, bankCount_ok divided, ok_bind]
  split
  · next single =>
    rw [single] at bank
    rw [Nat.lt_one_iff.mp bank]
    rfl
  · simp only [TypedExpr.lit, Interval.ofIndex?, quotient, ok_bind, if_true]
    rfl

theorem staticOffset_lit (i b : Nat) : staticOffset (.lit i) (i / b * b) = .ok (.lit (i % b)) := by
  have below : i / b * b ≤ i := Nat.div_mul_le_self i b
  have rest : i - i / b * b = i % b := by
    rw [Nat.mul_comm]
    exact (Nat.mod_eq_sub_mul_div).symm
  simp only [TypedExpr.lit, staticOffset, Word.sub, if_pos below, ok_bind, rest]
  rfl

/-- The indices of an element lead to its bank and its offsets. -/
theorem place_lits {ctx : Context} {env : Env} {pos : Nat} {array : String} {dims : List Dim}
    (divided : Divided dims) (sizes : ∀ d ∈ dims, d.size < Word.capacity Word.sizeBits)
    {strides : List Nat} (strided : Layout.stridesOf dims = .ok strides) {is : List Nat}
    (within : Semantics.inside dims is = true) {base : Nat}
    (fits : base + bankTotal dims ≤ Word.capacity Word.sizeBits) :
    (place ctx env pos array base (is.map .lit) (dims.zip strides)).result =
      .ok ⟨base + flatBank dims is, [], (offsets dims is).map .lit⟩ := by
  induction dims generalizing is strides base with
  | nil =>
    obtain rfl := eq_nil_of_inside within
    rfl
  | cons d dims ih =>
    obtain ⟨i, is, rfl, inside, within⟩ := inside_cons within
    obtain ⟨rest, rfl, stridedRest⟩ := Layout.stridesOf_cons strided
    have others := flatBank_lt divided.tail within
    have bank := Nat.mul_le_mul_right (bankTotal dims) (div_lt_banks divided.head inside)
    rw [Nat.succ_mul] at bank
    rw [bankTotal] at fits
    have begins := Nat.div_mul_le_self i d.bank
    have size := sizes d List.mem_cons_self
    have product := Word.mul_eq_ok_iff.mpr ⟨(show i / d.bank * bankTotal dims <
      Word.capacity Word.sizeBits by omega), rfl⟩
    have sum := Word.add_eq_ok_iff.mpr ⟨(show base + i / d.bank * bankTotal dims <
      Word.capacity Word.sizeBits by omega), rfl⟩
    have start := Word.mul_eq_ok_iff.mpr ⟨(show i / d.bank * d.bank <
      Word.capacity Word.sizeBits by omega), rfl⟩
    have room : base + i / d.bank * bankTotal dims + bankTotal dims ≤
        Word.capacity Word.sizeBits := by omega
    have placed := ih divided.tail (fun e member => sizes e (List.mem_cons_of_mem _ member))
      stridedRest within room
    have index : (read ctx env pos (.lit i)).result = .ok (.lit i) := rfl
    simp only [List.map_cons, List.zip_cons_cons, place, Outcome.result_bind, index, ok_bind,
      Outcome.result_lift_fault, lift_ok_iff.mpr (staticBank?_lit divided.head inside),
      lift_ok_iff.mpr product, lift_ok_iff.mpr sum, lift_ok_iff.mpr start,
      lift_ok_iff.mpr (staticOffset_lit i d.bank), placed, Outcome.result_pure]
    simp only [flatBank, offsets, List.map_cons, Nat.add_assoc]

/-- An element of an array whose banks stay in place is read and written where it is kept. -/
theorem access_lits {ctx : Context} {env : Env} {l : Layout}
    (bound : env.get? l.name = some (.array l)) (fixed : ctx.rotations.lookup l.name = none)
    (divided : Divided l.dims) (sizes : ∀ d ∈ l.dims, d.size < Word.capacity Word.sizeBits)
    (fits : bankTotal l.dims < Word.capacity Word.sizeBits) {is : List Nat}
    (within : Semantics.inside l.dims is = true) (pos : Nat) (ty : Ty) (writes : Bool) :
    (do
      let layout ← layoutOf env l.name
      let strides ← layout.strides
      let placed ← place ctx env pos l.name 0 (is.map .lit) (layout.dims.zip strides)
      resolve ctx pos l.name layout ty writes placed : Outcome TypedExpr).result =
      .ok (.mem ty (l.locate is).1 ((l.locate is).2.map .lit)) := by
  have found : layoutOf env l.name = .ok l := by
    rw [layoutOf, bound]
    rfl
  obtain ⟨strides, strided⟩ := Layout.stridesOf_ok divided fits
  obtain ⟨names, named⟩ := Layout.banks_ok divided fits
  have strides_eq : l.strides = .ok strides := strided
  have placed : (place ctx env pos l.name 0 (is.map .lit) (l.dims.zip strides)).result = _ :=
    place_lits divided sizes strided within (by omega)
  have bank := Layout.getElem?_banks named (flatBank_lt divided within)
  rw [Nat.zero_add] at placed
  simp only [Outcome.result_bind, Outcome.result_lift, Outcome.result_lift_fault, found, ok_bind,
    lift_ok_iff.mpr strides_eq, placed, resolve, lift_ok_iff.mpr named, fixed, List.isEmpty_nil,
    Option.isNone_none, Bool.and_self, if_true, bank, Outcome.result_tell, Outcome.result_pure]
  rfl

/-! ### Every place is taken -/

/-- The element at given offsets of a bank. -/
theorem exists_of_bank_offsets {ds : List Dim} (divided : Divided ds) {k : Nat}
    (lt : k < bankTotal ds) {js : List Nat} (within : Semantics.inside (bankDims ds) js = true) :
    ∃ is, Semantics.inside ds is = true ∧ flatBank ds is = k ∧ offsets ds is = js := by
  induction ds generalizing k js with
  | nil =>
    obtain rfl := eq_nil_of_inside within
    refine ⟨[], rfl, ?_, rfl⟩
    rw [bankTotal] at lt
    exact (Nat.lt_one_iff.mp lt).symm
  | cons d ds ih =>
    obtain ⟨j, js, rfl, (offset : j < d.bank), within⟩ := inside_cons within
    obtain ⟨_, _, whole⟩ := splitsEvenly_iff.mp divided.head
    have positive := bankTotal_pos divided.tail
    -- The first dimension's bank is the quotient, the banks of the others the remainder.
    obtain ⟨is, inside, bank, others⟩ := ih divided.tail (Nat.mod_lt k positive) within
    have quotient : k / bankTotal ds < d.size / d.bank := by
      rw [Nat.div_lt_iff_lt_mul positive]
      exact lt
    obtain ⟨index, rest⟩ := div_mod_block (k / bankTotal ds) offset
    have next := Nat.mul_le_mul_right d.bank quotient
    rw [Nat.succ_mul, whole] at next
    refine ⟨(k / bankTotal ds * d.bank + j) :: is, ?_, ?_, ?_⟩
    · show (decide (k / bankTotal ds * d.bank + j < d.size) && Semantics.inside ds is) = true
      rw [inside, decide_eq_true (by omega)]
      rfl
    · rw [flatBank, index, bank, Nat.mul_comm]
      exact Nat.div_add_mod k (bankTotal ds)
    · rw [offsets, rest, others]

theorem mem_banks_iff {l : Layout} {names : List String} (named : l.banks = .ok names)
    {name : String} : name ∈ names ↔ ∃ k < bankTotal l.dims, l.memory k = name := by
  rw [Layout.banks_eq named, List.mem_map]
  simp only [List.mem_range]

/-- The places of the elements of an array are the places in its banks, each once. -/
theorem bijOn_locate {l : Layout} (divided : Divided l.dims) {names : List String}
    (named : l.banks = .ok names) :
    Set.BijOn l.locate {is | Semantics.inside l.dims is = true}
      {place | place.1 ∈ names ∧ Semantics.inside (bankDims l.dims) place.2 = true} := by
  refine ⟨?_, ?_, ?_⟩
  · intro is within
    have bank := flatBank_lt divided within
    exact ⟨(mem_banks_iff named).mpr ⟨_, bank, rfl⟩, inside_offsets divided within⟩
  · intro is left js right same
    obtain ⟨memory, offset⟩ := Prod.mk.inj same
    have bank := Layout.memory_inj (flatBank_lt divided left) (flatBank_lt divided right) memory
    exact eq_of_flatBank_offsets divided left right bank offset
  · rintro ⟨name, js⟩ ⟨member, within⟩
    obtain ⟨k, lt, rfl⟩ := (mem_banks_iff named).mp member
    obtain ⟨is, inside, rfl, rfl⟩ := exists_of_bank_offsets divided lt within
    exact ⟨is, inside, rfl⟩

/-- The banks of an array have different names, as many as are counted. Where they stay in place, an
access with literal indices leads to the place of the element, and these places are all places inside
the banks, each taken by one element. -/
theorem literal_places_biject {l : Layout} (divided : Divided l.dims)
    (sizes : ∀ d ∈ l.dims, d.size < Word.capacity Word.sizeBits)
    (total : bankTotal l.dims < Word.capacity Word.sizeBits) :
    ∃ names, l.banks = .ok names ∧ l.bankCount = .ok names.length ∧ names.Nodup ∧
      (∀ ctx env pos ty is, env.get? l.name = some (.array l) →
        ctx.rotations.lookup l.name = none → Semantics.inside l.dims is = true →
        (read ctx env pos (.access ty l.name (is.map .lit))).result =
          .ok (.mem ty (l.locate is).1 ((l.locate is).2.map .lit)) ∧
        (write ctx env pos (.access ty l.name (is.map .lit))).result =
          .ok (.mem ty (l.locate is).1 ((l.locate is).2.map .lit))) ∧
      ∃ dims, l.bankTy = .array l.elem dims ∧
        Set.BijOn l.locate {is | Semantics.inside l.dims is = true}
          {place | place.1 ∈ names ∧ Semantics.inside dims place.2 = true} := by
  obtain ⟨names, named⟩ := Layout.banks_ok divided total
  refine ⟨names, named, ?_, Layout.nodup_banks named, ?_, bankDims l.dims, rfl,
    bijOn_locate divided named⟩
  · rw [Layout.length_banks named]
    exact Layout.bankCount_ok divided total
  · intro ctx env pos ty is bound fixed within
    have access := access_lits bound fixed divided sizes total within pos ty
    constructor
    · rw [read]
      exact access false
    · rw [write]
      exact access true

/-- Four rows in two banks, six columns in two banks. -/
def grid : Layout := ⟨"a", .ubit 8, [⟨4, 2⟩, ⟨6, 3⟩]⟩

theorem literal_places_biject_grid :
    ∃ names, grid.banks = .ok names ∧ names.length = 4 ∧
      (read ⟨{}, []⟩ (Scope.rebind {} "a" (.array grid)) 0
        (.access (.ubit 8) "a" [.lit 3, .lit 1])).result =
        .ok (.mem (.ubit 8) "a_b2" [.lit 1, .lit 1]) ∧
      Set.BijOn grid.locate {is | Semantics.inside [⟨4, 2⟩, ⟨6, 3⟩] is = true}
        {place | place.1 ∈ names ∧ Semantics.inside [⟨2, 2⟩, ⟨3, 3⟩] place.2 = true} := by
  have divided : Divided grid.dims := by decide
  have sizes : ∀ d ∈ grid.dims, d.size < Word.capacity Word.sizeBits := by decide
  have total : bankTotal grid.dims < Word.capacity Word.sizeBits := by decide
  obtain ⟨names, named, counted, _, accesses, dims, typed, places⟩ :=
    literal_places_biject divided sizes total
  have count := Layout.bankCount_eq counted
  cases typed
  exact ⟨names, named, count, (accesses _ _ _ _ [3, 1] rfl rfl rfl).1, places⟩

end Banking

end BankedLoops
