import Mathlib.Algebra.Ring.Nat
import Mathlib.Tactic.Choose
import BankedLoops.Banking.Layout
import BankedLoops.Proofs.Names
import BankedLoops.Proofs.Success
import BankedLoops.Proofs.Semantics.Growth

/-!
# The banked image of a store

Element `i` of a dimension with bank factor `b` is in bank `i / b` at offset `i % b`, and the banks
of several dimensions are numbered in row-major order. `Image` relates a store of logical arrays to
the store of their banks: the banks of each array stand side by side, those of an earlier array
first. Two different elements never share a place, so a write to one leaves the others alone.
-/

namespace BankedLoops

namespace Banking

/-- Every bank factor cuts its dimension into equal, non-empty parts. -/
def Divided (ds : List Dim) : Prop :=
  ∀ d ∈ ds, d.splitsEvenly = .ok true

instance (ds : List Dim) : Decidable (Divided ds) :=
  inferInstanceAs (Decidable (∀ d ∈ ds, d.splitsEvenly = .ok true))

/-- The number of banks of an array. -/
def bankTotal : List Dim → Nat
  | [] => 1
  | d :: ds => d.size / d.bank * bankTotal ds

/-- The dimensions of each bank. -/
def bankDims (ds : List Dim) : List Dim :=
  ds.map fun d => .unbanked d.bank

/-- The number of the bank that holds an element. -/
def flatBank : List Dim → List Nat → Nat
  | d :: ds, i :: is => i / d.bank * bankTotal ds + flatBank ds is
  | _, _ => 0

/-- The indices of an element in its bank. -/
def offsets : List Dim → List Nat → List Nat
  | d :: ds, i :: is => i % d.bank :: offsets ds is
  | _, _ => []

/-! ### One array -/

/-- The remainder is only taken of a bank factor that is not zero. -/
theorem splitsEvenly_eq (d : Dim) : d.splitsEvenly =
    .ok (decide (0 < d.size ∧ 0 < d.bank ∧ d.size / d.bank * d.bank = d.size)) := by
  have whole : d.size / d.bank * d.bank = d.size ↔ d.size % d.bank = 0 := by
    rw [← Nat.dvd_iff_mod_eq_zero]
    exact ⟨fun same => ⟨_, by rw [Nat.mul_comm, same]⟩, Nat.div_mul_cancel⟩
  unfold Dim.splitsEvenly
  split
  · next empty =>
    have uneven : ¬(0 < d.size ∧ 0 < d.bank ∧ d.size / d.bank * d.bank = d.size) := by omega
    rw [decide_eq_false uneven]
    rfl
  · next positive =>
    obtain ⟨size, bank⟩ := not_or.mp positive
    have rest : Word.mod d.size d.bank = .ok (d.size % d.bank) := if_neg bank
    simp only [rest, ok_bind, whole, Nat.pos_of_ne_zero size, Nat.pos_of_ne_zero bank, true_and]
    rfl

theorem splitsEvenly_iff {d : Dim} :
    d.splitsEvenly = .ok true ↔ 0 < d.size ∧ 0 < d.bank ∧ d.size / d.bank * d.bank = d.size := by
  rw [splitsEvenly_eq, Except.ok.injEq, decide_eq_true_iff]

theorem bankCount_ok {d : Dim} (divided : d.splitsEvenly = .ok true) :
    d.bankCount = .ok (d.size / d.bank) :=
  Word.div_eq_ok_iff.mpr ⟨Nat.ne_of_gt (splitsEvenly_iff.mp divided).2.1, rfl⟩

theorem Divided.head {d : Dim} {ds : List Dim} (divided : Divided (d :: ds)) :
    d.splitsEvenly = .ok true :=
  divided d List.mem_cons_self

theorem Divided.tail {d : Dim} {ds : List Dim} (divided : Divided (d :: ds)) : Divided ds :=
  fun other member => divided other (List.mem_cons_of_mem d member)

/-- An index inside a dimension falls in one of its banks. -/
theorem div_lt_banks {d : Dim} (divided : d.splitsEvenly = .ok true) {i : Nat} (inside : i < d.size) :
    i / d.bank < d.size / d.bank := by
  obtain ⟨_, bank, whole⟩ := splitsEvenly_iff.mp divided
  rw [Nat.div_lt_iff_lt_mul bank, whole]
  exact inside

/-- A bank ends inside the dimension. -/
theorem bank_end_le {d : Dim} (divided : d.splitsEvenly = .ok true) {k : Nat} (lt : k < d.size / d.bank) :
    k * d.bank + d.bank ≤ d.size := by
  obtain ⟨_, _, whole⟩ := splitsEvenly_iff.mp divided
  have next := Nat.mul_le_mul_right d.bank lt
  rw [whole, Nat.succ_mul] at next
  exact next

theorem inside_cons {d : Dim} {ds : List Dim} {is : List Nat}
    (within : Semantics.inside (d :: ds) is = true) :
    ∃ i rest, is = i :: rest ∧ i < d.size ∧ Semantics.inside ds rest = true := by
  cases is with
  | nil => cases within
  | cons i rest =>
    simp only [Semantics.inside, Bool.and_eq_true, decide_eq_true_eq] at within
    exact ⟨i, rest, rfl, within.1, within.2⟩

theorem eq_nil_of_inside {is : List Nat} (within : Semantics.inside [] is = true) : is = [] := by
  cases is with
  | nil => rfl
  | cons i rest => cases within

theorem flatBank_lt {ds : List Dim} (divided : Divided ds) {is : List Nat}
    (within : Semantics.inside ds is = true) : flatBank ds is < bankTotal ds := by
  induction ds generalizing is with
  | nil => exact Nat.one_pos
  | cons d ds ih =>
    obtain ⟨i, rest, rfl, inside, within⟩ := inside_cons within
    have bank := div_lt_banks divided.head inside
    have others := ih divided.tail within
    calc i / d.bank * bankTotal ds + flatBank ds rest
        < i / d.bank * bankTotal ds + bankTotal ds := Nat.add_lt_add_left others _
      _ = (i / d.bank + 1) * bankTotal ds := by rw [Nat.succ_mul]
      _ ≤ d.size / d.bank * bankTotal ds := Nat.mul_le_mul_right _ bank

theorem inside_offsets {ds : List Dim} (divided : Divided ds) {is : List Nat}
    (within : Semantics.inside ds is = true) :
    Semantics.inside (bankDims ds) (offsets ds is) = true := by
  induction ds generalizing is with
  | nil => rfl
  | cons d ds ih =>
    obtain ⟨i, rest, rfl, inside, within⟩ := inside_cons within
    have bank := (splitsEvenly_iff.mp divided.head).2.1
    have others := ih divided.tail within
    show (decide (i % d.bank < d.bank) && Semantics.inside (bankDims ds) (offsets ds rest)) = true
    rw [others, decide_eq_true (Nat.mod_lt i bank)]
    rfl

theorem bankTotal_pos {dims : List Dim} (divided : Divided dims) : 0 < bankTotal dims := by
  induction dims with
  | nil => exact Nat.one_pos
  | cons d dims ih =>
    obtain ⟨size, bank, whole⟩ := splitsEvenly_iff.mp divided.head
    have count : 0 < d.size / d.bank := div_lt_banks divided.head size |> Nat.zero_lt_of_lt
    exact Nat.mul_pos count (ih divided.tail)

theorem bankTotal_le_cons {d : Dim} {dims : List Dim} (divided : Divided (d :: dims)) :
    bankTotal dims ≤ bankTotal (d :: dims) ∧ d.size / d.bank ≤ bankTotal (d :: dims) := by
  obtain ⟨size, _, _⟩ := splitsEvenly_iff.mp divided.head
  have count : 0 < d.size / d.bank := Nat.zero_lt_of_lt (div_lt_banks divided.head size)
  exact ⟨Nat.le_mul_of_pos_left _ count, Nat.le_mul_of_pos_right _ (bankTotal_pos divided.tail)⟩

theorem div_mod_block {n r : Nat} (q : Nat) (lt : r < n) :
    (q * n + r) / n = q ∧ (q * n + r) % n = r := by
  rw [Nat.mul_comm, Nat.mul_add_div (Nat.zero_lt_of_lt lt), Nat.mul_add_mod, Nat.div_eq_of_lt lt,
    Nat.mod_eq_of_lt lt]
  exact ⟨rfl, rfl⟩

/-- The bank and the offsets determine the element. -/
theorem eq_of_flatBank_offsets {ds : List Dim} (divided : Divided ds) {is js : List Nat}
    (left : Semantics.inside ds is = true) (right : Semantics.inside ds js = true)
    (bank : flatBank ds is = flatBank ds js) (offset : offsets ds is = offsets ds js) :
    is = js := by
  induction ds generalizing is js with
  | nil => rw [eq_nil_of_inside left, eq_nil_of_inside right]
  | cons d ds ih =>
    obtain ⟨i, is, rfl, _, left⟩ := inside_cons left
    obtain ⟨j, js, rfl, _, right⟩ := inside_cons right
    have leftLt := flatBank_lt divided.tail left
    have rightLt := flatBank_lt divided.tail right
    -- The number of the first dimension's bank is the quotient, the rest of the number the remainder.
    have quotients := congrArg (· / bankTotal ds) bank
    have remainders := congrArg (· % bankTotal ds) bank
    simp only [flatBank, div_mod_block _ leftLt, div_mod_block _ rightLt] at quotients remainders
    simp only [offsets, List.cons.injEq] at offset
    have first : i = j := by
      rw [← Nat.div_add_mod i d.bank, ← Nat.div_add_mod j d.bank, quotients, offset.1]
    rw [first, ih divided.tail left right remainders offset.2]

/-! ### Layouts -/

end Banking

namespace Layout

open Banking

/-- The name of the memory that holds a bank. -/
def memory (l : Layout) (k : Nat) : String :=
  if bankTotal l.dims = 1 then l.name else bankName l.name k

theorem bankCount_eq {l : Layout} {count : Nat} (counted : l.bankCount = .ok count) :
    count = bankTotal l.dims := by
  have general : ∀ (ds : List Dim) (start count : Nat),
      ds.foldlM (fun count d => do Word.mul Word.sizeBits count (← d.bankCount)) start = .ok count →
      count = start * bankTotal ds := by
    intro ds
    induction ds with
    | nil =>
      intro start count done
      cases done
      exact (Nat.mul_one start).symm
    | cons d ds ih =>
      intro start count folded
      simp only [List.foldlM_cons, bind_ok_iff, Dim.bankCount, Word.div_eq_ok_iff,
        Word.mul_eq_ok_iff] at folded
      obtain ⟨_, ⟨_, ⟨_, rfl⟩, _, rfl⟩, rest⟩ := folded
      rw [ih _ _ rest, bankTotal, Nat.mul_assoc]
  rw [general l.dims 1 count counted, Nat.one_mul]

theorem banks_eq {l : Layout} {names : List String} (named : l.banks = .ok names) :
    names = (List.range (bankTotal l.dims)).map l.memory := by
  simp only [banks, bind_ok_iff] at named
  obtain ⟨count, counted, named⟩ := named
  have total := bankCount_eq counted
  split at named
  · next single =>
    cases named
    have one : bankTotal l.dims = 1 := by omega
    rw [one]
    show [l.name] = [l.memory 0]
    rw [memory, if_pos one]
  · next several =>
    cases named
    rw [← total]
    apply List.map_congr_left
    intro k _
    rw [memory, if_neg (by omega)]

theorem getElem?_banks {l : Layout} {names : List String} (named : l.banks = .ok names) {k : Nat}
    (lt : k < bankTotal l.dims) : names[k]? = some (l.memory k) := by
  rw [banks_eq named, List.getElem?_map, List.getElem?_range lt]
  rfl

theorem length_banks {l : Layout} {names : List String} (named : l.banks = .ok names) :
    names.length = bankTotal l.dims := by
  rw [banks_eq named, List.length_map, List.length_range]

theorem memory_inj {l : Layout} {j k : Nat} (left : j < bankTotal l.dims)
    (right : k < bankTotal l.dims) (same : l.memory j = l.memory k) : j = k := by
  unfold memory at same
  split at same
  · omega
  · exact (bankName_inj same).2

theorem nodup_banks {l : Layout} {names : List String} (named : l.banks = .ok names) :
    names.Nodup := by
  rw [banks_eq named]
  apply List.nodup_range.map_on
  intro j left k right same
  exact memory_inj (List.mem_range.mp left) (List.mem_range.mp right) same

theorem split_eq {l : Layout} {pos : Nat} {ds : List Decl} (split : l.split pos = .ok ds) :
    ds = (List.range (bankTotal l.dims)).map fun k => ⟨pos, l.memory k, l.bankTy⟩ := by
  simp only [Layout.split, bind_ok_iff, pure_ok_iff] at split
  obtain ⟨names, named, rfl⟩ := split
  rw [banks_eq named, List.map_map]
  rfl

theorem stridesOf_cons {d : Dim} {ds : List Dim} {strides : List Nat}
    (strided : stridesOf (d :: ds) = .ok strides) :
    ∃ rest, strides = bankTotal ds :: rest ∧ stridesOf ds = .ok rest := by
  induction ds generalizing d strides with
  | nil =>
    cases strided
    exact ⟨[], rfl, rfl⟩
  | cons e ds ih =>
    simp only [stridesOf, bind_ok_iff] at strided
    obtain ⟨inner, others, strided⟩ := strided
    obtain ⟨rest, rfl, _⟩ := ih others
    simp only [bind_ok_iff, Dim.bankCount, Word.div_eq_ok_iff, Word.mul_eq_ok_iff,
      pure_ok_iff] at strided
    obtain ⟨_, ⟨_, rfl⟩, _, ⟨_, rfl⟩, rfl⟩ := strided
    exact ⟨bankTotal ds :: rest, by rw [bankTotal, Nat.mul_comm], others⟩

theorem length_stridesOf {ds : List Dim} {strides : List Nat}
    (strided : stridesOf ds = .ok strides) : strides.length = ds.length := by
  induction ds generalizing strides with
  | nil =>
    cases strided
    rfl
  | cons d ds ih =>
    obtain ⟨rest, rfl, inner⟩ := stridesOf_cons strided
    exact congrArg (· + 1) (ih inner)

/-! A computation on words stays within them where the number of banks does. -/

theorem bankCount_ok {l : Layout} (divided : Divided l.dims)
    (fits : bankTotal l.dims < Word.capacity Word.sizeBits) :
    l.bankCount = .ok (bankTotal l.dims) := by
  have general : ∀ (ds : List Dim) (start : Nat), Divided ds →
      start * bankTotal ds < Word.capacity Word.sizeBits →
      ds.foldlM (fun count d => do Word.mul Word.sizeBits count (← d.bankCount)) start =
        .ok (start * bankTotal ds) := by
    intro ds
    induction ds with
    | nil =>
      intro start _ _
      rw [List.foldlM_nil, bankTotal, Nat.mul_one]
      rfl
    | cons d ds ih =>
      intro start divided fits
      have rest := bankTotal_pos divided.tail
      have counted := Banking.bankCount_ok divided.head
      rw [bankTotal, ← Nat.mul_assoc] at fits
      have product : Word.mul Word.sizeBits start (d.size / d.bank) =
          .ok (start * (d.size / d.bank)) :=
        Word.mul_eq_ok_iff.mpr ⟨Nat.lt_of_le_of_lt (Nat.le_mul_of_pos_right _ rest) fits, rfl⟩
      rw [List.foldlM_cons, counted, ok_bind, product, ok_bind, ih _ divided.tail fits, bankTotal,
        Nat.mul_assoc]
  have counted := general l.dims 1 divided (by rwa [Nat.one_mul])
  rwa [Nat.one_mul] at counted

theorem bankCount_lt {l : Layout} {count : Nat} (counted : l.bankCount = .ok count) :
    count < Word.capacity Word.sizeBits := by
  have general : ∀ (ds : List Dim) (start : Nat), start < Word.capacity Word.sizeBits →
      ds.foldlM (fun count d => do Word.mul Word.sizeBits count (← d.bankCount)) start = .ok count →
      count < Word.capacity Word.sizeBits := by
    intro ds
    induction ds with
    | nil =>
      intro start fits done
      cases done
      exact fits
    | cons d ds ih =>
      intro start _ folded
      simp only [List.foldlM_cons, bind_ok_iff, Word.mul_eq_ok_iff] at folded
      obtain ⟨_, ⟨_, _, fits, rfl⟩, rest⟩ := folded
      exact ih _ fits rest
  exact general l.dims 1 (by decide) counted

theorem banks_ok {l : Layout} (divided : Divided l.dims)
    (fits : bankTotal l.dims < Word.capacity Word.sizeBits) : ∃ names, l.banks = .ok names := by
  simp only [banks, bankCount_ok divided fits, ok_bind]
  split <;> exact ⟨_, rfl⟩

theorem split_ok {l : Layout} (divided : Divided l.dims)
    (fits : bankTotal l.dims < Word.capacity Word.sizeBits) (pos : Nat) :
    ∃ ds, l.split pos = .ok ds := by
  obtain ⟨names, named⟩ := banks_ok divided fits
  exact ⟨_, by rw [split, named]; rfl⟩

theorem stridesOf_ok {dims : List Dim} (divided : Divided dims)
    (fits : bankTotal dims < Word.capacity Word.sizeBits) :
    ∃ strides, stridesOf dims = .ok strides := by
  induction dims with
  | nil => exact ⟨_, rfl⟩
  | cons d dims ih =>
    have inner := Nat.lt_of_le_of_lt (bankTotal_le_cons divided).1 fits
    obtain ⟨strides, strided⟩ := ih divided.tail inner
    cases dims with
    | nil => exact ⟨_, rfl⟩
    | cons e dims =>
      obtain ⟨rest, rfl, _⟩ := stridesOf_cons strided
      have counted := Banking.bankCount_ok divided.tail.head
      rw [bankTotal, Nat.mul_comm] at inner
      have outer := Word.mul_eq_ok_iff.mpr ⟨inner, rfl⟩
      exact ⟨_, by simp only [stridesOf, strided, ok_bind, counted, outer]; rfl⟩

end Layout

namespace Banking

/-! ### Stores -/

/-- Where the banks of an array begin, among the banks of arrays of the given dimensions. -/
def blockStart (shapes : List (List Dim)) (loc : Nat) : Nat :=
  ((shapes.take loc).map bankTotal).sum

/-- The dimensions of all banks. -/
def bankShapes (shapes : List (List Dim)) : List (List Dim) :=
  shapes.flatMap fun ds => List.replicate (bankTotal ds) (bankDims ds)

theorem length_bankShapes (shapes : List (List Dim)) :
    (bankShapes shapes).length = (shapes.map bankTotal).sum := by
  induction shapes with
  | nil => rfl
  | cons ds shapes ih =>
    rw [bankShapes, List.flatMap_cons, List.length_append, List.length_replicate, List.map_cons,
      List.sum_cons]
    exact congrArg (bankTotal ds + ·) ih

theorem blockStart_cons (ds : List Dim) (shapes : List (List Dim)) (loc : Nat) :
    blockStart (ds :: shapes) (loc + 1) = bankTotal ds + blockStart shapes loc := by
  rw [blockStart, List.take_succ_cons, List.map_cons, List.sum_cons, blockStart]

/-- The banks of an array end before those of a later one begin. -/
theorem blockStart_add_le {shapes : List (List Dim)} {loc later : Nat} {ds : List Dim}
    (found : shapes[loc]? = some ds) (before : loc < later) :
    blockStart shapes loc + bankTotal ds ≤ blockStart shapes later := by
  induction shapes generalizing loc later with
  | nil => cases found
  | cons first shapes ih =>
    obtain ⟨later, rfl⟩ : ∃ n, later = n + 1 := ⟨later - 1, by omega⟩
    rw [blockStart_cons]
    cases loc with
    | zero =>
      cases found
      rw [blockStart, List.take_zero, List.map_nil, List.sum_nil]
      omega
    | succ loc =>
      have rest := ih found (by omega : loc < later)
      rw [blockStart_cons]
      omega

/-- A place among all banks determines the array and the bank. -/
theorem block_inj {shapes : List (List Dim)} {loc other : Nat} {ds es : List Dim}
    (left : shapes[loc]? = some ds) (right : shapes[other]? = some es) {j k : Nat}
    (leftLt : j < bankTotal ds) (rightLt : k < bankTotal es)
    (same : blockStart shapes loc + j = blockStart shapes other + k) : loc = other ∧ j = k := by
  rcases Nat.lt_trichotomy loc other with before | rfl | after
  · have := blockStart_add_le left before
    omega
  · exact ⟨rfl, by omega⟩
  · have := blockStart_add_le right after
    omega

theorem getElem?_bankShapes {shapes : List (List Dim)} {loc k : Nat} {ds : List Dim}
    (found : shapes[loc]? = some ds) (lt : k < bankTotal ds) :
    (bankShapes shapes)[blockStart shapes loc + k]? = some (bankDims ds) := by
  induction shapes generalizing loc with
  | nil => cases found
  | cons first shapes ih =>
    rw [bankShapes, List.flatMap_cons]
    cases loc with
    | zero =>
      cases found
      rw [List.getElem?_append_left (by simpa [blockStart] using lt), List.getElem?_replicate]
      simp [blockStart, lt]
    | succ loc =>
      rw [blockStart_cons, List.getElem?_append_right (by simp; omega), List.length_replicate,
        Nat.add_assoc, Nat.add_sub_cancel_left]
      exact ih found

theorem blockStart_of_isPrefix {shapes all : List (List Dim)} (front : shapes <+: all) {loc : Nat}
    (within : loc ≤ shapes.length) : blockStart all loc = blockStart shapes loc := by
  obtain ⟨rest, rfl⟩ := front
  rw [blockStart, List.take_append_of_le_length within, blockStart]

theorem blockStart_length (shapes : List (List Dim)) :
    blockStart shapes shapes.length = (bankShapes shapes).length := by
  rw [blockStart, List.take_length, length_bankShapes]

open Semantics

/-- The place of an element in its bank. -/
def bankPlace (shapes : List (List Dim)) (loc : Nat) (ds : List Dim) (is : List Nat) : Place :=
  .element (blockStart shapes loc + flatBank ds is) (offsets ds is)

theorem bankPlace_inj {shapes : List (List Dim)} {loc other : Nat} {ds es : List Dim}
    (left : shapes[loc]? = some ds) (right : shapes[other]? = some es) (divided : Divided ds)
    (otherDivided : Divided es) {is js : List Nat} (leftInside : inside ds is = true)
    (rightInside : inside es js = true)
    (same : bankPlace shapes loc ds is = bankPlace shapes other es js) :
    Place.element loc is = .element other js := by
  simp only [bankPlace, Place.element.injEq] at same
  obtain ⟨rfl, bank⟩ := block_inj left right (flatBank_lt divided leftInside)
    (flatBank_lt otherDivided rightInside) same.1
  obtain rfl : ds = es := Option.some.inj (left.symm.trans right)
  rw [eq_of_flatBank_offsets divided leftInside rightInside bank same.2]

/-- Machines whose storage begins with the same contents, with arrays of the given dimensions split
into banks. -/
structure Splits (shapes : List (List Dim)) (m m' : Machine) : Prop where
  product : m'.product = m.product
  scalar : m'.scalar = m.scalar
  memory : ∀ loc ds, shapes[loc]? = some ds → Divided ds → ∀ is, inside ds is = true →
    m'.memory (blockStart shapes loc + flatBank ds is) (offsets ds is) = m.memory loc is

/-- Every initial contents can be split. -/
theorem exists_splits (shapes : List (List Dim)) (m : Machine) : ∃ m', Splits shapes m m' := by
  have origin : ∀ loc' is', ∃ v, ∀ loc ds is, shapes[loc]? = some ds → Divided ds →
      inside ds is = true → bankPlace shapes loc ds is = .element loc' is' →
      v = m.memory loc is := by
    intro loc' is'
    by_cases taken : ∃ loc ds is, shapes[loc]? = some ds ∧ Divided ds ∧ inside ds is = true ∧
        bankPlace shapes loc ds is = .element loc' is'
    · obtain ⟨loc, ds, is, found, divided, within, place⟩ := taken
      refine ⟨m.memory loc is, ?_⟩
      intro other es js otherFound otherDivided otherWithin otherPlace
      have same := bankPlace_inj found otherFound divided otherDivided within otherWithin
        (place.trans otherPlace.symm)
      simp only [Place.element.injEq] at same
      rw [same.1, same.2]
    · refine ⟨0, ?_⟩
      intro loc ds is found divided within place
      exact absurd ⟨loc, ds, is, found, divided, within, place⟩ taken
  choose memory spec using origin
  refine ⟨{ m with memory }, rfl, rfl, ?_⟩
  intro loc ds found divided is within
  exact spec _ _ loc ds is found divided within rfl

/-- The second store holds the scalars of the first, and its arrays in banks. -/
structure Image (shapes : List (List Dim)) (s s' : State) : Prop where
  scalars : s'.scalars = s.scalars
  known : s.shapes <+: shapes
  divided : ∀ ds ∈ s.shapes, Divided ds
  banks : s'.shapes = bankShapes s.shapes
  elements : ∀ loc ds, s.shapes[loc]? = some ds → ∀ is, inside ds is = true →
    s'.get? (bankPlace shapes loc ds is) = s.get? (.element loc is)

namespace Image

variable {shapes : List (List Dim)} {s s' : State}

theorem empty (shapes : List (List Dim)) : Image shapes {} {} where
  scalars := rfl
  known := List.nil_prefix
  divided := by
    intro ds member
    cases member
  banks := rfl
  elements := by
    intro loc ds found
    cases found

theorem setScalar (image : Image shapes s s') (v loc : Nat) :
    Image shapes (s.set v (.scalar loc)) (s'.set v (.scalar loc)) where
  scalars := congrArg (List.set · loc v) image.scalars
  known := image.known
  divided := image.divided
  banks := image.banks
  elements := image.elements

/-- A write to an element is a write to its place in its bank. -/
theorem setElement (image : Image shapes s s') (v : Nat) {loc : Nat} {ds : List Dim}
    (found : s.shapes[loc]? = some ds) {is : List Nat} (within : inside ds is = true) :
    Image shapes (s.set v (.element loc is)) (s'.set v (bankPlace shapes loc ds is)) where
  scalars := image.scalars
  known := by
    rw [State.shapes_set]
    exact image.known
  divided := by
    rw [State.shapes_set]
    exact image.divided
  banks := by
    rw [State.shapes_set, State.shapes_set]
    exact image.banks
  elements := by
    intro other es otherFound js otherWithin
    rw [State.shapes_set] at otherFound
    rw [State.get?_set, State.get?_set, image.elements other es otherFound js otherWithin]
    by_cases same : Place.element other js = .element loc is
    · have place : bankPlace shapes other es js = bankPlace shapes loc ds is := by
        simp only [Place.element.injEq] at same
        obtain ⟨rfl, rfl⟩ := same
        rw [Option.some.inj (otherFound.symm.trans found)]
      rw [if_pos place, if_pos same]
    · rw [if_neg same, if_neg]
      intro place
      exact same (bankPlace_inj (getElem?_of_isPrefix image.known otherFound)
        (getElem?_of_isPrefix image.known found) (image.divided es (List.mem_of_getElem? otherFound))
        (image.divided ds (List.mem_of_getElem? found)) otherWithin within place)

theorem pushScalar (image : Image shapes s s') (v : Nat) :
    Image shapes (s.pushScalar v) (s'.pushScalar v) where
  scalars := congrArg (· ++ [v]) image.scalars
  known := image.known
  divided := image.divided
  banks := image.banks
  elements := image.elements

end Image

end Banking

end BankedLoops
