import BankedLoops.Proofs.Banking.Refusals
import BankedLoops.Proofs.Lowering.Netlists

/-!
# Typed names of split programs

In a component none of whose names looks like a bank of one of its arrays, splitting an array does
not get in the way of other names: every name that the checker sees leads to what it was declared
as, an array under the names of its memories. So a split program is typed again, over physical
memories, and `compile_widthsAgree` follows.
-/

namespace BankedLoops

namespace Lowering

/-! ### Names -/

/-- What a name of the source stands for once arrays are split. -/
inductive Spread (slots : Slots) (name : String) : Typing.Binding → Prop where
  | scalar {ty : Ty} (found : slots.get? name = some (.scalar ty)) : Spread slots name (.scalar ty)
  | iterator {bound : Nat} (unroll : Option Nat) (found : slots.get? name = some (.iterator bound)) :
      Spread slots name (.iterator (.idx bound unroll))
  | array {elem : Ty} {dims : List Dim} (words : ∀ d ∈ dims, IsWord d.bank)
      (found : ∀ k < Banking.bankTotal dims, slots.get? (Layout.memory ⟨name, elem, dims⟩ k) =
        some (.memory elem (dims.map Dim.bank))) :
      Spread slots name (.array elem dims)

theorem Spread.congr {slots slots' : Slots} {name : String} {binding : Typing.Binding}
    (spread : Spread slots name binding) (same : slots'.get? name = slots.get? name)
    (banks : ∀ elem dims k, binding = .array elem dims →
      slots'.get? (Layout.memory ⟨name, elem, dims⟩ k) =
        slots.get? (Layout.memory ⟨name, elem, dims⟩ k)) : Spread slots' name binding := by
  cases spread with
  | scalar found => exact .scalar (same.trans found)
  | iterator unroll found => exact .iterator unroll (same.trans found)
  | array words found =>
    exact .array words fun k lt => (banks _ _ k rfl).trans (found k lt)

/-- The register of a rotation goes by a name that neither the component nor a bank has. -/
structure Turning (names : List String) (slots : Slots) (r : Banking.Rotation) : Prop where
  hidden : r.register ∉ names
  notBank : ∀ array k, r.register ≠ Layout.bankName array k
  word : IsWord r.banks
  stored : ∃ ty, r.ty = .ok ty ∧ slots.get? r.register = some (.scalar ty)

/-- Every visible name is one of the component and leads to what it was declared as. -/
structure Spreads (arrays names : List String) (rotations : List (String × Banking.Rotation))
    (types : Typing.Env) (slots : Slots) : Prop where
  spread : ∀ name binding, types.get? name = some binding → Spread slots name binding
  bound : ∀ name binding, types.get? name = some binding → name ∈ names
  isArray : ∀ name elem dims, types.get? name = some (.array elem dims) → name ∈ arrays
  turns : ∀ turning ∈ rotations, Turning names slots turning.2

namespace Spreads

variable {arrays names : List String} {rotations : List (String × Banking.Rotation)}
  {types : Typing.Env} {slots : Slots}

theorem empty (arrays names : List String) : Spreads arrays names [] {} {} :=
  ⟨nofun, nofun, nofun, nofun⟩

theorem enter (spreads : Spreads arrays names rotations types slots) :
    Spreads arrays names rotations types.enter slots.enter where
  spread := fun name binding found =>
    (spreads.spread name binding found).congr rfl fun _ _ _ _ => rfl
  bound := spreads.bound
  isArray := spreads.isArray
  turns := fun turning member =>
    ⟨(spreads.turns turning member).hidden, (spreads.turns turning member).notBank,
      (spreads.turns turning member).word, (spreads.turns turning member).stored⟩

theorem rebind (spreads : Spreads arrays names rotations types slots) {name : String}
    (fresh : name ∈ names) {binding : Typing.Binding}
    (array : ∀ elem dims, binding = .array elem dims → name ∈ arrays) {slots' : Slots}
    (new : Spread slots' name binding)
    (kept : ∀ other found, other ≠ name → types.get? other = some found →
      slots'.get? other = slots.get? other ∧ ∀ elem dims k, found = .array elem dims →
        slots'.get? (Layout.memory ⟨other, elem, dims⟩ k) =
          slots.get? (Layout.memory ⟨other, elem, dims⟩ k))
    (turned : ∀ turning ∈ rotations,
      slots'.get? turning.2.register = slots.get? turning.2.register) :
    Spreads arrays names rotations (types.rebind name binding) slots' where
  spread := by
    intro other found visible
    rw [Scope.get?_rebind] at visible
    split at visible
    · next same =>
      cases visible
      exact same ▸ new
    · next different =>
      obtain ⟨same, banks⟩ := kept other found different visible
      exact (spreads.spread other found visible).congr same banks
  bound := by
    intro other found visible
    rw [Scope.get?_rebind] at visible
    split at visible
    · next same => exact same ▸ fresh
    · exact spreads.bound other found visible
  isArray := by
    intro other elem dims visible
    rw [Scope.get?_rebind] at visible
    split at visible
    · next same =>
      cases visible
      exact same ▸ array elem dims rfl
    · exact spreads.isArray other elem dims visible
  turns := by
    intro turning member
    obtain ⟨hidden, notBank, word, ty, typed, stored⟩ := spreads.turns turning member
    exact ⟨hidden, notBank, word, ty, typed, (turned turning member).trans stored⟩

/-- Binding a name that is not an array. -/
theorem rebindPlain (spreads : Spreads arrays names rotations types slots)
    (clean : Banking.BankNameClean arrays names) {name : String} (fresh : name ∈ names)
    {binding : Typing.Binding} (plain : ∀ elem dims, binding ≠ .array elem dims) {slot : Slot}
    (new : Spread (slots.rebind name slot) name binding) :
    Spreads arrays names rotations (types.rebind name binding) (slots.rebind name slot) := by
  refine spreads.rebind fresh (fun elem dims same => absurd same (plain elem dims)) new ?_ ?_
  · intro other found different visible
    refine ⟨by rw [Scope.get?_rebind, if_neg different], ?_⟩
    rintro elem dims k rfl
    have member := spreads.isArray other elem dims visible
    have apart := @Banking.memory_ne_name _ _ clean ⟨other, elem, dims⟩ member name fresh
      (Ne.symm different) k
    rw [Scope.get?_rebind, if_neg apart.symm]
  · intro turning member
    have hidden := (spreads.turns turning member).hidden
    have different : turning.2.register ≠ name := fun same => hidden (same ▸ fresh)
    rw [Scope.get?_rebind, if_neg different]

/-- Binding the memories of an array. -/
theorem rebindArray (spreads : Spreads arrays names rotations types slots)
    (clean : Banking.BankNameClean arrays names) {name : String} (fresh : name ∈ names) {elem : Ty}
    {dims : List Dim} (array : name ∈ arrays) {slots' : Slots}
    (new : Spread slots' name (.array elem dims))
    (kept : ∀ key, (∀ k, key ≠ Layout.memory ⟨name, elem, dims⟩ k) →
      slots'.get? key = slots.get? key) :
    Spreads arrays names rotations (types.rebind name (.array elem dims)) slots' := by
  refine spreads.rebind fresh (fun _ _ _ => array) new ?_ ?_
  · intro other found different visible
    have otherBound := spreads.bound other _ visible
    refine ⟨kept other (Banking.memory_ne_name clean array otherBound different), ?_⟩
    rintro otherElem otherDims k rfl
    apply kept
    exact @Banking.memory_ne_memory _ _ clean ⟨other, otherElem, otherDims⟩ ⟨name, elem, dims⟩
      (spreads.isArray other otherElem otherDims visible) array otherBound fresh different k
  · intro turning member
    obtain ⟨hidden, notBank, _, _⟩ := spreads.turns turning member
    apply kept
    intro k
    unfold Layout.memory
    split
    · exact fun same => hidden (same ▸ fresh)
    · exact notBank name k

/-- Binding the register of a rotation. -/
theorem addTurn (spreads : Spreads arrays names rotations types slots) {array : String}
    {r : Banking.Rotation} (hidden : r.register ∉ names)
    (notBank : ∀ other k, r.register ≠ Layout.bankName other k) (word : IsWord r.banks)
    (distinct : ∀ turning ∈ rotations, turning.2.register ≠ r.register) {ty : Ty}
    (typed : r.ty = .ok ty) :
    Spreads arrays names (rotations ++ [(array, r)]) types
      (slots.rebind r.register (.scalar ty)) where
  spread := by
    intro name binding visible
    have different : name ≠ r.register := fun same => hidden (same ▸ spreads.bound name _ visible)
    refine (spreads.spread name binding visible).congr ?_ ?_
    · rw [Scope.get?_rebind, if_neg different]
    · intro elem dims k _
      rw [Scope.get?_rebind, if_neg]
      unfold Layout.memory
      split
      · exact different
      · exact (notBank name k).symm
  bound := spreads.bound
  isArray := spreads.isArray
  turns := by
    intro turning member
    rcases List.mem_append.mp member with old | new
    · obtain ⟨hidden, notBank, word, other, typed, stored⟩ := spreads.turns turning old
      refine ⟨hidden, notBank, word, other, typed, ?_⟩
      rw [Scope.get?_rebind, if_neg (distinct turning old)]
      exact stored
    · rw [List.mem_singleton.mp new]
      exact ⟨hidden, notBank, word, ty, typed, Scope.get?_rebind_self ..⟩

end Spreads

/-! ### Banks -/

theorem get?_slotsOf_map (slots : Slots) (pos : Nat) (ty : Ty) (banks : List String) (key : String) :
    (slotsOf slots (banks.map fun name => ⟨pos, name, ty⟩)).get? key =
      if key ∈ banks then some (.ofTy ty) else slots.get? key := by
  induction banks generalizing slots with
  | nil => rfl
  | cons bank banks ih =>
    have rest : slotsOf slots ((bank :: banks).map fun name => ⟨pos, name, ty⟩) =
        slotsOf (slots.rebind bank (.ofTy ty)) (banks.map fun name => ⟨pos, name, ty⟩) := rfl
    rw [rest, ih, Scope.get?_rebind]
    by_cases later : key ∈ banks
    · rw [if_pos later, if_pos (List.mem_cons_of_mem _ later)]
    · by_cases same : key = bank
      · rw [if_neg later, if_pos same, if_pos (same ▸ List.mem_cons_self)]
      · rw [if_neg later, if_neg same, if_neg (by simp [same, later])]

/-- The names behind the declarations of an array's banks. -/
theorem get?_slotsOf_split {l : Layout} {pos : Nat} {ds : List Decl} (split : l.split pos = .ok ds)
    (slots : Slots) :
    (∀ k < Banking.bankTotal l.dims, (slotsOf slots ds).get? (l.memory k) =
        some (.memory l.elem (l.dims.map Dim.bank))) ∧
      ∀ key, (∀ k, key ≠ l.memory k) → (slotsOf slots ds).get? key = slots.get? key := by
  have listed : ds = ((List.range (Banking.bankTotal l.dims)).map l.memory).map
      fun name => ⟨pos, name, l.bankTy⟩ := by
    rw [Layout.split_eq split, List.map_map]
    rfl
  have slot : Slot.ofTy l.bankTy = .memory l.elem (l.dims.map Dim.bank) := by
    rw [Layout.bankTy, Slot.ofTy, List.map_map]
    rfl
  rw [listed]
  constructor
  · intro k lt
    rw [get?_slotsOf_map, if_pos (List.mem_map.mpr ⟨k, List.mem_range.mpr lt, rfl⟩), slot]
  · intro key different
    rw [get?_slotsOf_map, if_neg]
    intro member
    obtain ⟨k, _, rfl⟩ := List.mem_map.mp member
    exact different k rfl

theorem Spreads.split {arrays names : List String} {rotations : List (String × Banking.Rotation)}
    {types : Typing.Env} {slots : Slots} (spreads : Spreads arrays names rotations types slots)
    (clean : Banking.BankNameClean arrays names) {name : String} {elem : Ty} {dims : List Dim}
    (fresh : name ∈ names) (array : name ∈ arrays) (written : (Ty.array elem dims).Written)
    {pos : Nat} {ds : List Decl} (split : Layout.split ⟨name, elem, dims⟩ pos = .ok ds) :
    Spreads arrays names rotations (types.rebind name (.array elem dims)) (slotsOf slots ds) := by
  obtain ⟨found, kept⟩ := get?_slotsOf_split split slots
  exact spreads.rebindArray clean fresh array (.array (fun d member => (written.2 d member).2) found)
    kept

theorem slotsAfter_declBanks {l : Layout} {pos : Nat} {cmd : TypedCommand}
    (banked : Banking.declBanks l pos = .ok cmd) (slots : Slots) :
    ∃ ds, l.split pos = .ok ds ∧ slotsAfter slots cmd = slotsOf slots ds := by
  have all (ds : List Decl) (slots : Slots) :
      slotsAfterSeq slots (ds.map fun d => .decl pos d.name d.ty) = slotsOf slots ds := by
    induction ds generalizing slots with
    | nil => rfl
    | cons d ds ih => exact ih _
  obtain ⟨ds, split, ⟨d, rfl, rfl⟩ | ⟨_, rfl⟩⟩ := Banking.declBanks_split banked
  · exact ⟨[d], split, rfl⟩
  · exact ⟨ds, split, all ds slots⟩

/-! ### Indices -/

/-- The types of indices, addresses and bank numbers. -/
def Unsigned (ty : Ty) : Prop := ty.isInteger = true ∧ ty.isSigned = false

theorem unsigned_of_indexFits {dim : Dim} {ty : Ty}
    (fits : Typing.IndexFits dim ty) : Unsigned ty := by
  cases fits <;> exact ⟨rfl, rfl⟩

/-- An index over physical memories. -/
structure PhysicalIndex (slots : Slots) (e : TypedExpr) : Prop where
  physical : Physical slots e
  unsigned : Unsigned e.ty

namespace PhysicalIndex

variable {slots : Slots} {e lhs rhs : TypedExpr}

theorem lit {n : Nat} (word : IsWord n) : PhysicalIndex slots (.lit n) := ⟨.int word, rfl, rfl⟩

/-- Unsigned arithmetic that is as wide as its left operand, and as its right one unless that is a
literal. -/
theorem operation {op : BinOp} {width : Nat} (left : PhysicalIndex slots lhs)
    (right : PhysicalIndex slots rhs) (numeric : op.isArithmetic = true ∨ op.isBitwise = true)
    (holds : lhs.ty.width ≤ width) (narrow : rhs.ty.width ≤ width ∨ ∃ n, rhs = .lit n) :
    PhysicalIndex slots (.binop (.ubit width) op lhs rhs) :=
  ⟨.binop left.physical right.physical
    (.unsigned numeric left.unsigned right.unsigned (.inr holds) narrow), rfl, rfl⟩

theorem added (left : PhysicalIndex slots lhs) (right : PhysicalIndex slots rhs)
    (computed : Banking.widened .add lhs rhs = .ok e) : PhysicalIndex slots e := by
  rw [Banking.eq_of_widened computed]
  exact left.operation right (.inl rfl) (Nat.le_succ_of_le (Nat.le_max_left _ _))
    (.inl (Nat.le_succ_of_le (Nat.le_max_right _ _)))

theorem staticOffset {idx : TypedExpr} (index : PhysicalIndex slots idx) {start : Nat}
    (word : IsWord start) (computed : Banking.staticOffset idx start = .ok e) :
    PhysicalIndex slots e := by
  obtain ⟨_, _, rfl, _, rfl⟩ | ⟨_, rfl⟩ | rfl := Banking.staticOffset_cases computed
  · cases index.physical with
    | int small => exact lit (Nat.lt_of_le_of_lt (Nat.sub_le _ _) small)
  · exact index
  · exact index.operation (lit word) (.inl rfl) (Nat.le_refl _) (.inr ⟨start, rfl⟩)

theorem bankTerm {idx : TypedExpr} (index : PhysicalIndex slots idx) {length stride : Nat}
    (long : IsWord length) (word : IsWord stride)
    (computed : Banking.bankTerm idx length stride = .ok e) : PhysicalIndex slots e := by
  have short : IsWord length.log2 := Nat.lt_of_le_of_lt (Nat.log2_le_self _) long
  obtain ⟨bank, divided, scaled⟩ := Banking.bankTerm_ok computed
  have quotient : PhysicalIndex slots bank := by
    cases divided with
    | whole _ => exact index
    | shifted => exact index.operation (lit short) (.inr rfl) (Nat.le_refl _) (.inr ⟨_, rfl⟩)
  rcases scaled with ⟨rfl, _⟩ | rfl
  · exact quotient
  · refine quotient.operation (lit word) (.inl rfl) ?_ (.inr ⟨stride, rfl⟩)
    rw [divided.width]
    exact Nat.le_add_right _ _

theorem maskedOffset {idx : TypedExpr} (index : PhysicalIndex slots idx) {length : Nat}
    (word : IsWord length) (computed : Banking.maskedOffset idx length = .ok e) :
    PhysicalIndex slots e := by
  obtain ⟨_, rfl⟩ | ⟨_, rfl⟩ := Banking.maskedOffset_cases computed
  · exact lit (Word.capacity_pos _)
  · exact index.operation (lit (Nat.lt_of_le_of_lt (Nat.sub_le _ _) word)) (.inr rfl) (Nat.le_refl _)
      (.inr ⟨_, rfl⟩)

theorem selector {base : Nat} (word : IsWord base) {terms : List TypedExpr}
    (all : ∀ term ∈ terms, PhysicalIndex slots term)
    (computed : Banking.selector base terms = .ok e) : PhysicalIndex slots e :=
  Banking.selector_keeps computed (lit word) all fun _ _ _ => added

theorem register {names : List String} {r : Banking.Rotation} {ty : Ty}
    (turning : Turning names slots r) (typed : r.ty = .ok ty) :
    PhysicalIndex slots (.var ty r.register) := by
  obtain ⟨other, typed', stored⟩ := turning.stored
  rw [typed] at typed'
  cases typed'
  cases Banking.Rotation.eq_of_ty typed
  exact ⟨.scalar stored (Typing.storable_bit false (bitsNeeded_pos _)), rfl, rfl⟩

theorem wrap {names : List String} {r : Banking.Rotation} (turning : Turning names slots r)
    (index : PhysicalIndex slots e) {wrapped : TypedExpr} (computed : r.wrap e = .ok wrapped) :
    PhysicalIndex slots wrapped ∧ r.ty = .ok wrapped.ty := by
  obtain ⟨ty, typed, rfl⟩ := Banking.Rotation.eq_of_wrap computed
  refine ⟨?_, typed⟩
  cases Banking.Rotation.eq_of_ty typed
  have word : IsWord (r.banks - 1) := Nat.lt_of_le_of_lt (Nat.sub_le _ _) turning.word
  exact ⟨.binop index.physical (.int word) (.unsigned (.inr rfl) index.unsigned ⟨rfl, rfl⟩
    (.inl rfl) (.inr ⟨_, rfl⟩)), rfl, rfl⟩

end PhysicalIndex

/-! ### Expressions -/

theorem isWord_one : IsWord 1 := show 1 < Word.capacity Word.sizeBits by decide

theorem words_of_stridesOf {dims : List Dim} {strides : List Nat}
    (strided : Layout.stridesOf dims = .ok strides) : ∀ stride ∈ strides, IsWord stride := by
  fun_induction Layout.stridesOf dims generalizing strides with
  | case1 =>
    cases strided
    exact nofun
  | case2 =>
    cases strided
    exact List.forall_mem_singleton.mpr isWord_one
  | case3 first d dims ih =>
    simp only [bind_ok_iff] at strided
    obtain ⟨inner, stridedRest, strided⟩ := strided
    have rest := ih stridedRest
    split at strided
    · cases strided
      exact nofun
    · simp only [bind_ok_iff, Word.mul_eq_ok_iff, pure_ok_iff] at strided
      obtain ⟨_, _, _, ⟨word, rfl⟩, rfl⟩ := strided
      exact List.forall_mem_cons.mpr ⟨word, rest⟩

/-- Placed indices over physical memories. -/
structure PhysicalPlacement (slots : Slots) (p : Banking.Placement) : Prop where
  base : IsWord p.base
  terms : ∀ term ∈ p.terms, PhysicalIndex slots term
  addr : PhysicalAll slots p.addr

section

variable {arrays names : List String} {ctx : Banking.Context} {types : Typing.Env} {slots : Slots}
  {env : Banking.Env} {tctx : Typing.Context}

/-- What is known of the names at a point of a component, in the source and over memories. -/
structure Situated (arrays names : List String) (rotations : List (String × Banking.Rotation))
    (types : Typing.Env) (env : Banking.Env) (slots : Slots) : Prop where
  formed : Typing.WellFormed types
  agrees : Banking.Agrees types env
  spreads : Spreads arrays names rotations types slots

theorem Situated.storable {rotations : List (String × Banking.Rotation)}
    (situated : Situated arrays names rotations types env slots) {name : String} {ty : Ty}
    (bound : types.get? name = some (.scalar ty)) : Typing.Storable ty := by
  cases situated.formed name _ bound with
  | scalar storable => exact storable

theorem Spreads.turning {rotations : List (String × Banking.Rotation)}
    (spreads : Spreads arrays names rotations types slots) {array : String} {r : Banking.Rotation}
    (found : rotations.lookup array = some r) : Turning names slots r := by
  obtain ⟨front, back, same, _⟩ := List.lookup_eq_some_iff.mp found
  exact spreads.turns (array, r) (by rw [same]; simp)

/-- A resolved access leads to the memories of its array. -/
theorem physical_resolved (formed : Typing.WellFormed types)
    (spreads : Spreads arrays names ctx.rotations types slots) {name : String} {elem : Ty}
    {dims : List Dim} (bound : types.get? name = some (.array elem dims)) {writes : Bool}
    {p : Banking.Placement} (placed : PhysicalPlacement slots p) {e : TypedExpr}
    (resolved : Banking.ResolvedAs ctx name ⟨name, elem, dims⟩ elem writes p e) : Physical slots e := by
  have storable : Typing.Storable elem := by
    cases formed name _ bound with
    | array declared => exact (Typing.declared_array declared).1
  cases spreads.spread name _ bound with
  | array words stored =>
    cases resolved with
    | @direct banks bank named known fixed found =>
      have inside : p.base < Banking.bankTotal dims := by
        have lt := (List.getElem?_eq_some_iff.mp found).1
        rwa [Layout.length_banks named] at lt
      have bankIs := Layout.getElem?_banks named inside
      rw [found, Option.some.injEq] at bankIs
      exact .mem (bankIs ▸ stored p.base inside) placed.addr storable
    | @multiplexed banks flat select named _ _ summed selected =>
      have index := PhysicalIndex.selector placed.base placed.terms summed
      refine @Physical.muxRead slots elem banks select p.addr (dims.map Dim.bank) ?_ ?_ placed.addr
        storable
      · intro bank member
        rw [Layout.banks_eq named] at member
        obtain ⟨k, inside, rfl⟩ := List.mem_map.mp member
        exact stored k (List.mem_range.mp inside)
      · obtain ⟨_, rfl⟩ | ⟨r, ty, sum, rotation, typed, added, wrapped⟩ := Banking.rotated_cases selected
        · exact index.physical
        · have turning := spreads.turning rotation
          have total := index.added (.register turning typed) added
          exact (total.wrap turning wrapped).1.physical

mutual

/-- An expression that is read is typed over the memories. -/
theorem physical_read (situated : Situated arrays names ctx.rotations types env slots) :
    {e e' : TypedExpr} → Typing.CheckedExpr tctx types e → e.Written → Banking.ReadAs ctx env e e' →
    Physical slots e'
  | _, _, .int n, written, .int _ _ => .int written
  | _, _, .bool b, _, .bool _ _ => .bool b
  | .var ty name, _, .scalar bound, _, .var _ _ => by
    cases situated.spreads.spread name _ bound with
    | scalar found => exact .scalar found (situated.storable bound)
  | .var ty name, _, .iterator bound, _, .var _ _ => by
    cases situated.spreads.spread name _ bound with
    | iterator unroll found => exact .iterator unroll found
  | .binop ty op lhs rhs, _, .binop left right typed, written, .binop leftRead rightRead => by
    refine .binop (physical_read situated left written.1 leftRead)
      (physical_read situated right written.2 rightRead) ?_
    rcases ty.static_or with ⟨n, rfl⟩ | computed
    · have word := (Typing.CheckedExpr.binop left right typed).word_of_static situated.formed _
        written n rfl
      generalize leftTy : lhs.ty = l at typed
      generalize rightTy : rhs.ty = r at typed
      cases binopType_cases typed with
      | folded _ isLeft isRight value =>
        exact .folded (leftRead.ty_eq.trans (leftTy.trans isLeft))
          (rightRead.ty_eq.trans (rightTy.trans isRight)) value word
      | numeric _ _ joined =>
        rcases numericJoin_cases joined with ⟨_, _, _, _, _, same⟩ | ⟨_, _, same⟩ <;> cases same
    · refine .checked ?_ computed
      rw [leftRead.ty_eq, rightRead.ty_eq]
      exact typed
  | _, _, .access bound indices, written, .access found strided placed resolved => by
    obtain rfl := situated.agrees.layout_eq bound found
    have words := words_of_stridesOf strided
    cases situated.spreads.spread _ _ bound with
    | array small stored =>
      exact physical_resolved situated.formed situated.spreads bound (physical_place situated indices written small
        words (Layout.length_stridesOf strided) (Word.capacity_pos _) placed) resolved

theorem physical_place (situated : Situated arrays names ctx.rotations types env slots) :
    {dims : List Dim} → {idxs : List TypedExpr} → Typing.CheckedIndices tctx types dims idxs →
    TypedExpr.WrittenAll idxs → (∀ d ∈ dims, IsWord d.bank) → {strides : List Nat} →
    (∀ stride ∈ strides, IsWord stride) → strides.length = dims.length → {base : Nat} →
    IsWord base → {p : Banking.Placement} →
    Banking.PlacedAs ctx env base idxs (dims.zip strides) p → PhysicalPlacement slots p
  | _, _, .nil, _, _, _, _, _, _, word, _, .done _ => ⟨word, nofun, .nil⟩
  | _, _, .cons checked fits _ rest, written, small, stride :: strides, words, count, _, _, _,
      .known value _ addressed others inWords => by
    obtain ⟨base, terms, addr⟩ := physical_place situated rest written.2
      (fun d member => small d (List.mem_cons_of_mem _ member))
      (fun stride member => words stride (List.mem_cons_of_mem _ member)) (Nat.succ.inj count)
      inWords.1 others
    have index : PhysicalIndex slots _ := ⟨physical_read situated checked written.1 value,
      value.ty_eq ▸ unsigned_of_indexFits fits⟩
    exact ⟨base, terms, .cons (index.staticOffset inWords.2 addressed).physical addr⟩
  | _, _, .cons checked fits _ rest, written, small, stride :: strides, words, count, _, word, _,
      .varying value _ _ chosen addressed others => by
    obtain ⟨base, terms, addr⟩ := physical_place situated rest written.2
      (fun d member => small d (List.mem_cons_of_mem _ member))
      (fun stride member => words stride (List.mem_cons_of_mem _ member)) (Nat.succ.inj count)
      word others
    have index : PhysicalIndex slots _ := ⟨physical_read situated checked written.1 value,
      value.ty_eq ▸ unsigned_of_indexFits fits⟩
    have length := small _ List.mem_cons_self
    exact ⟨base, List.forall_mem_cons.mpr
      ⟨index.bankTerm length (words stride List.mem_cons_self) chosen, terms⟩,
      .cons (index.maskedOffset length addressed).physical addr⟩

end

/-- What an update or a reduction names. -/
theorem physical_target (situated : Situated arrays names ctx.rotations types env slots)
    {target target' : TypedExpr} (place : Typing.CheckedTarget tctx types target)
    (written : target.Written) (split : Banking.WrittenAs ctx env target target') :
    Physical slots target' ∧ target'.ty = target.ty := by
  cases place with
  | register bound =>
    cases split with
    | other _ =>
      cases situated.spreads.spread _ _ bound with
      | scalar found => exact ⟨.scalar found (situated.storable bound), rfl⟩
  | element checked =>
    cases split with
    | element found strided placed resolved =>
      cases checked with
      | access bound indices =>
        obtain rfl := situated.agrees.layout_eq bound found
        cases situated.spreads.spread _ _ bound with
        | array small stored =>
          refine ⟨physical_resolved situated.formed situated.spreads bound (physical_place situated indices written
            small (words_of_stridesOf strided) (Layout.length_stridesOf strided)
            (Word.capacity_pos _) placed) resolved, ?_⟩
          cases resolved <;> rfl
    | other notAccess => exact absurd rfl (notAccess _ _ _)

end

end Lowering

end BankedLoops
