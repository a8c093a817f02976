import BankedLoops.Proofs.Failures
import BankedLoops.Proofs.Refusals
import BankedLoops.Proofs.Banking.Scopes
import BankedLoops.Proofs.Banking.Ample

/-!
# Splitting into banks fails only for lack of hardware

For a checked program for which words are ample, every layout of an access is found, every computation
on words has a result and every bank that an access names exists. What is left are the refusals of
programs that have no hardware form, and that of an array which is advanced but has no layout.
-/

namespace BankedLoops

namespace Banking

theorem declBanks_ok {l : Layout} (divided : Divided l.dims)
    (fits : bankTotal l.dims < Word.capacity Word.sizeBits) (pos : Nat) :
    ∃ cmd, declBanks l pos = .ok cmd := by
  obtain ⟨ds, split⟩ := Layout.split_ok divided fits pos
  unfold declBanks
  rw [split, ok_bind]
  split <;> exact ⟨_, rfl⟩

/-! ### Bank numbers -/

theorem widened_add_ok {lhs rhs : TypedExpr} {width : Nat} (left : lhs.ty.width ≤ width)
    (right : rhs.ty.width ≤ width) (fits : width + 1 < 4294967296) :
    ∃ e, widened .add lhs rhs = .ok e ∧ e.ty.width ≤ width + 1 := by
  have most : max lhs.ty.width rhs.ty.width ≤ width := Nat.max_le.mpr ⟨left, right⟩
  have sum : Word.add Word.widthBits (max lhs.ty.width rhs.ty.width) 1 =
      .ok (max lhs.ty.width rhs.ty.width + 1) := by
    rw [Word.add_eq_ok_iff, widthCapacity]
    exact ⟨by omega, rfl⟩
  refine ⟨_, by simp only [widened, sum, ok_bind]; rfl, ?_⟩
  rw [TypedExpr.ty, Ty.ubit, Ty.width]
  omega

theorem lit_width {n : Nat} (word : n < Word.capacity Word.sizeBits) :
    (TypedExpr.lit n).ty.width ≤ 64 :=
  (bitsNeeded_le_iff (by omega)).mpr word

theorem foldl_widened_ok {terms : List TypedExpr} {e : TypedExpr} {width : Nat}
    (first : e.ty.width ≤ width) (others : ∀ term ∈ terms, term.ty.width ≤ width)
    (fits : width + terms.length < 4294967296) :
    ∃ sum, terms.foldlM (widened .add) e = .ok sum ∧ sum.ty.width ≤ width + terms.length := by
  induction terms generalizing e width with
  | nil => exact ⟨e, rfl, first⟩
  | cons term terms ih =>
    rw [List.length_cons] at fits
    obtain ⟨next, added, wide⟩ := widened_add_ok first (others term List.mem_cons_self) (by omega)
    have later : ∀ other ∈ terms, other.ty.width ≤ width + 1 := by
      intro other member
      have narrow := others other (List.mem_cons_of_mem _ member)
      omega
    obtain ⟨sum, summed, bound⟩ := ih wide later (by omega)
    refine ⟨sum, by rw [List.foldlM_cons, added, ok_bind, summed], ?_⟩
    rw [List.length_cons]
    omega

theorem selector_ok {base : Nat} {terms : List TypedExpr} {width : Nat}
    (word : base < Word.capacity Word.sizeBits) (wide : 64 ≤ width)
    (narrow : ∀ term ∈ terms, term.ty.width ≤ width) (fits : width + terms.length < 4294967296) :
    ∃ flat, selector base terms = .ok flat ∧ flat.ty.width ≤ width + terms.length := by
  have baseWidth := lit_width word
  unfold selector
  cases terms with
  | nil => exact ⟨_, rfl, Nat.le_trans baseWidth wide⟩
  | cons term terms =>
    rw [List.length_cons] at fits ⊢
    obtain ⟨sum, summed, sumWidth⟩ := foldl_widened_ok (narrow term List.mem_cons_self)
      (fun other member => narrow other (List.mem_cons_of_mem _ member)) (by omega)
    dsimp only
    rw [summed, ok_bind]
    split
    · exact @widened_add_ok sum (.lit base) (width + terms.length) sumWidth (by omega) fits
    · exact ⟨sum, rfl, Nat.le_succ_of_le sumWidth⟩

/-- The number of banks that a rotation counts through. -/
structure Rotation.InWords (r : Rotation) : Prop where
  positive : 0 < r.banks
  word : r.banks < Word.capacity Word.sizeBits

theorem Rotation.ty_ok {r : Rotation} (words : r.InWords) :
    r.ty = .ok (.ubit (bitsNeeded (r.banks - 1))) := by
  have last : Word.sub r.banks 1 = .ok (r.banks - 1) := Word.sub_eq_ok_iff.mpr ⟨words.positive, rfl⟩
  rw [Rotation.ty, last]
  rfl

theorem Rotation.width_le {r : Rotation} (words : r.InWords) : bitsNeeded (r.banks - 1) ≤ 64 :=
  (bitsNeeded_le_iff (by omega)).mpr (Nat.lt_of_le_of_lt (Nat.sub_le _ _) words.word)

theorem Rotation.wrap_ok {r : Rotation} (words : r.InWords) (e : TypedExpr) :
    r.wrap e = .ok (.binop (.ubit (bitsNeeded (r.banks - 1))) .bitAnd e (.lit (r.banks - 1))) := by
  have last : Word.sub r.banks 1 = .ok (r.banks - 1) := Word.sub_eq_ok_iff.mpr ⟨words.positive, rfl⟩
  rw [Rotation.wrap, Rotation.ty_ok words, last]
  rfl

theorem Rotation.step_ok {r : Rotation} (words : r.InWords) (pos : Nat) :
    ∃ cmd, r.step pos = .ok cmd := by
  have narrow := Rotation.width_le words
  obtain ⟨sum, added, _⟩ := @widened_add_ok (.var (.ubit (bitsNeeded (r.banks - 1))) r.register)
    (.lit 1) 64 narrow (lit_width (by decide)) (by omega)
  exact ⟨_, by
    simp only [Rotation.step, Rotation.ty_ok words, ok_bind, added, Rotation.wrap_ok words]
    rfl⟩

theorem rotated_ok {rotation : Option Rotation} (words : ∀ r, rotation = some r → r.InWords)
    {select : TypedExpr} {width : Nat} (wide : 64 ≤ width) (narrow : select.ty.width ≤ width)
    (fits : width + 1 < 4294967296) : ∃ e, rotated rotation select = .ok e := by
  unfold rotated
  cases rotation with
  | none => exact ⟨_, rfl⟩
  | some r =>
    have inWords := words r rfl
    obtain ⟨sum, added, _⟩ := @widened_add_ok select
      (.var (.ubit (bitsNeeded (r.banks - 1))) r.register) width narrow
      (Nat.le_trans (Rotation.width_le inWords) wide) fits
    exact ⟨_, by
      dsimp only
      rw [Rotation.ty_ok inWords, ok_bind, added, ok_bind, Rotation.wrap_ok inWords]⟩

/-! ### Expressions -/

/-- Environments that agree, in which words are ample for every array. -/
structure Surveyed (rank : Nat) (types : Typing.Env) (env : Env) : Prop where
  formed : Typing.WellFormed types
  agrees : Agrees types env
  layouts : Everywhere (Ample rank) env

theorem Surveyed.layoutOf {rank : Nat} {types : Typing.Env} {env : Env}
    (surveyed : Surveyed rank types env) {array : String} {elem : Ty} {dims : List Dim}
    (bound : types.get? array = some (.array elem dims)) :
    env.get? array = some (.array ⟨array, elem, dims⟩) ∧
      layoutOf env array = .ok ⟨array, elem, dims⟩ ∧ Ample rank dims := by
  obtain ⟨found, visible, same⟩ := surveyed.agrees _ _ bound
  cases same
  exact ⟨visible, by rw [Banking.layoutOf, visible]; rfl, surveyed.layouts _ _ visible⟩

section

variable {rank : Nat} {tctx : Typing.Context} {types : Typing.Env} {ctx : Context} {env : Env}
  {pos : Nat}

theorem staticBank?_ok {idx : TypedExpr} {dim : Dim} (divided : dim.splitsEvenly = .ok true) :
    ∃ bank, staticBank? env idx dim = .ok bank := by
  obtain ⟨_, positive, _⟩ := splitsEvenly_iff.mp divided
  have quotient (n : Nat) : Word.div n dim.bank = .ok (n / dim.bank) :=
    Word.div_eq_ok_iff.mpr ⟨by omega, rfl⟩
  have counted : dim.bankCount = .ok (dim.size / dim.bank) := quotient dim.size
  simp only [staticBank?, counted, ok_bind]
  split
  · exact ⟨_, rfl⟩
  · split
    · exact ⟨_, rfl⟩
    · simp only [quotient, ok_bind]
      exact ⟨_, rfl⟩

theorem bankTerm_narrow_ok {idx : TypedExpr} (narrow : idx.ty.width + 64 < 4294967296)
    (length : Nat) {stride : Nat} (word : stride < Word.capacity Word.sizeBits) :
    ∃ term, bankTerm idx length stride = .ok term := by
  have scale {bank : TypedExpr} (width : bank.ty.width = idx.ty.width) :
      ∃ term, (if stride = 1 then pure bank else widened .mul bank (.lit stride)) =
        (.ok term : Except Fault TypedExpr) := by
    split
    · exact ⟨_, rfl⟩
    · have strideWidth := lit_width word
      have sum : Word.add Word.widthBits bank.ty.width (TypedExpr.lit stride).ty.width =
          .ok (bank.ty.width + (TypedExpr.lit stride).ty.width) := by
        rw [Word.add_eq_ok_iff, widthCapacity]
        exact ⟨by omega, rfl⟩
      exact ⟨_, by simp only [widened, sum, ok_bind]; rfl⟩
  unfold bankTerm
  dsimp only
  split
  · rw [pure_bind]
    exact scale rfl
  · simp only [widened, pure_bind]
    exact scale rfl

theorem maskedOffset_ok (idx : TypedExpr) {length : Nat} (positive : 0 < length) :
    ∃ offset, maskedOffset idx length = .ok offset := by
  have last : Word.sub length 1 = .ok (length - 1) := Word.sub_eq_ok_iff.mpr ⟨positive, rfl⟩
  unfold maskedOffset
  split
  · exact ⟨_, rfl⟩
  · rw [last]
    exact ⟨_, rfl⟩

/-- Placing indices whose reads are regular. -/
theorem regular_place {array : String} {dims : List Dim}
    {idxs : List TypedExpr} (indices : Typing.CheckedIndices tctx types dims idxs)
    (words : Ample rank dims) (ample : ∀ site ∈ sitesOfIndices env idxs dims, site.Ample rank)
    (each : ∀ idx, idx ∈ idxs → Typing.CheckedExpr tctx types idx →
      (∀ site ∈ sitesOf env idx, site.Ample rank) → Regular (read ctx env pos idx).result)
    {strides : List Nat} (strided : Layout.stridesOf dims = .ok strides) {base : Nat}
    (fits : base + bankTotal dims ≤ Word.capacity Word.sizeBits) :
    Regular (place ctx env pos array base idxs (dims.zip strides)).result := by
  induction dims generalizing idxs strides base with
  | nil =>
    cases indices
    exact .ok _
  | cons dim dims ih =>
    obtain ⟨rest, rfl, stridedRest⟩ := Layout.stridesOf_cons strided
    cases indices with
    | @cons _ _ idx idxs checked _ _ indices =>
      simp only [sitesOfIndices, List.cons_append, List.mem_cons, List.mem_append] at ample
      have positive := bankTotal_pos words.divided.tail
      have others {base : Nat} (fits : base + bankTotal dims ≤ Word.capacity Word.sizeBits) :=
        ih indices words.tail (fun site member => ample site (.inr (.inr member)))
          (fun idx member => each idx (List.mem_cons_of_mem _ member)) stridedRest fits
      simp only [List.zip_cons_cons, place, Outcome.result_bind, Outcome.result_lift_fault]
      refine .bind (each idx List.mem_cons_self checked fun site inner =>
        ample site (.inr (.inl inner))) ?_
      intro idx' value
      have site := ample _ (.inl rfl)
      have same := (read_ok idx value).staticBank?_eq dim
      refine .bind (.lift (staticBank?_ok words.divided.head)) ?_
      intro found bank
      rw [lift_ok_iff] at bank
      cases found with
      | some k =>
        have below := site.inside k (same ▸ bank)
        have next := Nat.mul_le_mul_right (bankTotal dims) below
        have start := bank_end_le words.divided.head below
        have size := words.sizes dim List.mem_cons_self
        rw [Nat.succ_mul] at next
        rw [bankTotal] at fits
        dsimp only at next
        have product := Word.mul_eq_ok_iff.mpr ⟨(show k * bankTotal dims <
          Word.capacity Word.sizeBits by omega), rfl⟩
        have sum := Word.add_eq_ok_iff.mpr ⟨(show base + k * bankTotal dims <
          Word.capacity Word.sizeBits by omega), rfl⟩
        have begins := Word.mul_eq_ok_iff.mpr ⟨(show k * dim.bank <
          Word.capacity Word.sizeBits by omega), rfl⟩
        obtain ⟨offset, addressed⟩ := staticOffset_ok bank
        simp only [Outcome.result_bind, Outcome.result_lift_fault, Outcome.result_pure,
          lift_ok_iff.mpr product, lift_ok_iff.mpr sum, lift_ok_iff.mpr begins,
          lift_ok_iff.mpr addressed, ok_bind]
        exact .bind (others (by omega)) fun _ _ => .ok _
      | none =>
        have narrow := site.narrow (same ▸ bank)
        rw [widthCapacity, ← (read_ok idx value).ty_eq] at narrow
        obtain ⟨term, chosen⟩ := @bankTerm_narrow_ok idx' (by omega) dim.bank _ words.tail.total
        obtain ⟨offset, addressed⟩ :=
          maskedOffset_ok idx' (splitsEvenly_iff.mp words.divided.head).2.1
        rw [bankTotal] at fits
        have fewer := (bankTotal_le_cons words.divided).1
        rw [bankTotal] at fewer
        dsimp only
        split
        · simp only [Outcome.result_bind, Outcome.result_lift]
          exact .capability_bind _ _ _
        · simp only [Outcome.result_bind, Outcome.result_lift_fault, Outcome.result_pure,
            lift_ok_iff.mpr chosen, lift_ok_iff.mpr addressed, ok_bind]
          exact .bind (others (by omega)) fun _ _ => .ok _

/-- Every rotation counts through a number of banks that is a word. -/
def Context.InWords (ctx : Context) : Prop :=
  ∀ array rotation, ctx.rotations.lookup array = some rotation → rotation.InWords

theorem regular_resolve (rotations : ctx.InWords) (array : String) {layout : Layout}
    (words : Ample rank layout.dims)
    {idxs : List TypedExpr} (ample : ∀ site ∈ sitesOfIndices env idxs layout.dims, site.Ample rank)
    {strides : List Nat} (strided : Layout.stridesOf layout.dims = .ok strides) {p : Placement}
    (placed : PlacedAs ctx env 0 idxs (layout.dims.zip strides) p) (ty : Ty) (writes : Bool) :
    Regular (resolve ctx pos array layout ty writes p).result := by
  obtain ⟨banks, named⟩ := Layout.banks_ok words.divided words.total
  have inside : p.base < bankTotal layout.dims := by
    have below := placed.base_lt words.divided strided ample
    omega
  have few : p.terms.length ≤ rank := by
    have counted := placed.length_terms
    have few := words.few
    rw [List.length_zip] at counted
    omega
  -- Without terms the bank number is a literal, with terms their widths leave room for the sum.
  obtain ⟨width, wide, narrow, fits⟩ : ∃ width, 64 ≤ width ∧
      (∀ term ∈ p.terms, term.ty.width ≤ width) ∧ width + p.terms.length + 1 < 4294967296 := by
    have widths := placed.width_terms words strided ample
    cases terms : p.terms with
    | nil => exact ⟨64, Nat.le_refl _, nofun, by decide⟩
    | cons first others =>
      rw [terms] at widths few
      have room := (widths first List.mem_cons_self).2
      refine ⟨4294967294 - rank, by omega, fun term member => ?_, by omega⟩
      have narrow := (widths term member).1
      omega
  simp only [resolve, Outcome.result_bind, Outcome.result_lift_fault, lift_ok_iff.mpr named, ok_bind]
  split
  · rw [Layout.getElem?_banks named inside]
    exact .ok _
  · split
    · exact .capability _ _
    · obtain ⟨flat, summed, flatWidth⟩ :=
        selector_ok (Nat.lt_trans inside words.total) wide narrow (by omega)
      obtain ⟨select, selected⟩ := rotated_ok (rotations array) (by omega) flatWidth fits
      simp only [Outcome.result_bind, Outcome.result_lift_fault, lift_ok_iff.mpr summed,
        lift_ok_iff.mpr selected, ok_bind]
      exact .ok _

/-- An access whose indices are read regularly. -/
theorem regular_access (surveyed : Surveyed rank types env) (rotations : ctx.InWords)
    {array : String} {elem : Ty} {dims : List Dim} {idxs : List TypedExpr}
    (bound : types.get? array = some (.array elem dims))
    (indices : Typing.CheckedIndices tctx types dims idxs)
    (ample : ∀ site ∈ sitesOfIndices env idxs dims, site.Ample rank)
    (each : ∀ idx, idx ∈ idxs → Typing.CheckedExpr tctx types idx →
      (∀ site ∈ sitesOf env idx, site.Ample rank) → Regular (read ctx env pos idx).result) (ty : Ty)
    (writes : Bool) : Regular (do
      let layout ← layoutOf env array
      let strides ← layout.strides
      let placed ← place ctx env pos array 0 idxs (layout.dims.zip strides)
      resolve ctx pos array layout ty writes placed : Outcome TypedExpr).result := by
  obtain ⟨_, found, words⟩ := surveyed.layoutOf bound
  obtain ⟨strides, strided⟩ := Layout.stridesOf_ok words.divided words.total
  have strides_eq : Layout.strides ⟨array, elem, dims⟩ = .ok strides := strided
  simp only [Outcome.result_bind, Outcome.result_lift, Outcome.result_lift_fault, found, ok_bind,
    lift_ok_iff.mpr strides_eq]
  refine .bind (regular_place indices words ample each strided ?_) ?_
  · have total := words.total
    omega
  · exact fun p placed => regular_resolve rotations array words ample strided (place_ok _ _ placed) ty writes

theorem regular_read (surveyed : Surveyed rank types env) (rotations : ctx.InWords) :
    (e : TypedExpr) → Typing.CheckedExpr tctx types e →
    (∀ site ∈ sitesOf env e, site.Ample rank) → Regular (read ctx env pos e).result
  | _, .int n, _ => .ok _
  | _, .bool b, _ => .ok _
  | .var _ _, _, _ => .ok _
  | .binop ty op lhs rhs, .binop left right typed, ample => by
    simp only [sitesOf, List.mem_append] at ample
    simp only [read, Outcome.result_bind]
    refine .bind (regular_read surveyed rotations lhs left fun site member =>
      ample site (.inl member)) fun _ _ => ?_
    exact .bind (regular_read surveyed rotations rhs right fun site member =>
      ample site (.inr member)) fun _ _ => .ok _
  | .access _ array idxs, .access bound indices, ample => by
    have visible := (surveyed.layoutOf bound).1
    simp only [sitesOf, visible] at ample
    rw [read]
    exact regular_access surveyed rotations bound indices ample
      (fun idx member checked ample => regular_read surveyed rotations idx checked ample) _ _
termination_by e => sizeOf e
decreasing_by
  · simp only [TypedExpr.binop.sizeOf_spec]
    omega
  · simp only [TypedExpr.binop.sizeOf_spec]
    omega
  · have smaller := List.sizeOf_lt_of_mem member
    simp only [TypedExpr.access.sizeOf_spec]
    omega

theorem regular_write (surveyed : Surveyed rank types env) (rotations : ctx.InWords)
    {target : TypedExpr} (place : Typing.CheckedTarget tctx types target)
    (ample : ∀ site ∈ sitesOf env target, site.Ample rank) :
    Regular (write ctx env pos target).result := by
  cases place with
  | register bound => exact .ok _
  | element checked =>
    cases checked with
    | access bound indices =>
      have visible := (surveyed.layoutOf bound).1
      simp only [sitesOf, visible] at ample
      rw [write]
      exact regular_access surveyed rotations bound indices ample
        (fun idx _ checked ample => regular_read surveyed rotations idx checked ample) _ _

theorem regular_banksOf (surveyed : Surveyed rank types env) {args : List String} {params : List Decl}
    (given : Typing.CheckedArguments types args params) : Regular (banksOf env args) := by
  induction given with
  | nil => exact .ok _
  | cons bound _ _ ih =>
    obtain ⟨_, found, words⟩ := surveyed.layoutOf bound
    rw [banksOf, found, ok_bind]
    refine .bind (.lift (Layout.banks_ok words.divided words.total)) fun _ _ => ?_
    exact .bind ih fun _ _ => .ok _

end

/-! ### Commands -/

namespace Surveyed

variable {rank : Nat} {types types' : Typing.Env} {env : Env}

theorem empty : Surveyed rank {} {} := ⟨Typing.WellFormed.empty, Agrees.empty, .empty⟩

theorem enter (surveyed : Surveyed rank types env) : Surveyed rank types.enter env.enter :=
  ⟨surveyed.formed.enter, surveyed.agrees.enter, surveyed.layouts⟩

theorem round (surveyed : Surveyed rank types env) {h : LoopHeader}
    (range : Typing.CheckedHeader h) :
    Surveyed rank (types.enter.rebind h.iter (.iterator (.idx h.stop h.unroll)))
      (env.enter.rebind h.iter (.iterator ⟨h.start, h.stop - 1⟩)) :=
  ⟨range.wellFormed surveyed.formed, surveyed.agrees.round range,
    surveyed.layouts.enter.iterator _ _⟩

theorem after {tctx : Typing.Context} {cmd : TypedCommand} (surveyed : Surveyed rank types env)
    (shaped : ∀ ty ∈ declaredTypes cmd, ty.Shaped (Ample rank))
    (checked : Typing.CheckedCommand tctx types cmd types') :
    Surveyed rank types' (Banking.after env cmd) :=
  ⟨checked.wellFormed surveyed.formed, surveyed.agrees.after checked, surveyed.layouts.after shaped⟩

theorem declared {ds : List Decl} (surveyed : Surveyed rank types env)
    (shaped : ∀ d ∈ ds, d.ty.Shaped (Ample rank)) (checked : Typing.CheckedDecls types ds types') :
    Surveyed rank types' (declared env ds) :=
  ⟨checked.wellFormed surveyed.formed, surveyed.agrees.declared checked,
    surveyed.layouts.declared shaped⟩

theorem setUp (surveyed : Surveyed rank types env) {statements : Statements} {body : TypedCommand}
    {taken : List String} {advanced : List (String × Nat)} {prologue : Prologue}
    (success : (setUpRotations statements body env taken advanced).result = .ok prologue) :
    Surveyed rank types prologue.env :=
  ⟨surveyed.formed, surveyed.agrees.setUpRotations success, surveyed.layouts.setUpRotations success⟩

end Surveyed

theorem regular_decl {rank : Nat} {ctx : Context} {env : Env} {pos : Nat} {name : String} {ty : Ty}
    (shaped : ty.Shaped (Ample rank)) : Regular (bankCommand ctx env (.decl pos name ty)).result := by
  rw [bankCommand]
  split
  · next layout found =>
    have words := shaped.layout found
    obtain ⟨cmd, split⟩ := declBanks_ok words.divided words.total pos
    simp only [Outcome.result_bind, Outcome.result_lift_fault, lift_ok_iff.mpr split, ok_bind]
    exact .ok _
  · exact .ok _

theorem regular_advance {ctx : Context} {env : Env} (rotations : ctx.InWords) (pos : Nat)
    (array : String) : Regular (bankCommand ctx env (.advance pos array)).result := by
  rw [bankCommand]
  split
  · next rotation found =>
    obtain ⟨cmd, stepped⟩ := Rotation.step_ok (rotations array rotation found) pos
    simp only [Outcome.result_bind, Outcome.result_lift_fault, lift_ok_iff.mpr stepped, ok_bind]
    exact .ok _
  · exact .ok _

mutual

theorem regular_bankCommand {rank : Nat} {ctx : Context} (rotations : ctx.InWords)
    {tctx : Typing.Context} {types : Typing.Env} {env : Env} (surveyed : Surveyed rank types env) :
    {cmd : TypedCommand} → {types' : Typing.Env} → (∀ ty ∈ declaredTypes cmd, ty.Shaped (Ample rank)) →
    (∀ site ∈ sitesOfCommand env cmd, site.Ample rank) →
    Typing.CheckedCommand tctx types cmd types' → Regular (bankCommand ctx env cmd).result
  | _, _, shaped, _, .decl _ _ => regular_decl (shaped _ List.mem_cons_self)
  | .define pos name ty init, _, _, ample, .define value _ _ _ => by
    simp only [bankCommand, Outcome.result_bind]
    exact .bind (regular_read surveyed rotations init value ample) fun _ _ => .ok _
  | .seq pos cmds, _, shaped, ample, .seq checked => by
    simp only [bankCommand, Outcome.result_bind]
    exact .bind (regular_bankSeq rotations surveyed shaped ample checked) fun _ _ => .ok _
  | .branch pos cond onTrue onFalse, _, shaped, ample, .branch value _ yes no => by
    simp only [sitesOfCommand, List.mem_append] at ample
    simp only [bankCommand, Outcome.result_bind]
    refine .bind (regular_read surveyed rotations cond value fun site member =>
      ample site (.inl (.inl member))) fun _ _ => ?_
    refine .bind (regular_bankCommand rotations surveyed.enter
      (fun ty member => shaped ty (List.mem_append_left _ member))
      (fun site member => ample site (.inl (.inr member))) yes) fun _ _ => ?_
    refine .bind (regular_bankElse rotations surveyed.enter
      (fun ty member => shaped ty (List.mem_append_right _ member))
      (fun site member => ample site (.inr member)) no) fun _ _ => ?_
    exact .ok _
  | .loop pos header body, _, shaped, ample, .loop range checked => by
    have last : Word.sub header.stop 1 = .ok (header.stop - 1) :=
      Word.sub_eq_ok_iff.mpr ⟨Nat.zero_lt_of_lt range.runs, rfl⟩
    simp only [bankCommand, Outcome.result_bind, Outcome.result_lift_fault, lift_ok_iff.mpr last,
      ok_bind]
    exact .bind (regular_bankCommand rotations (surveyed.round range) shaped ample checked)
      fun _ _ => .ok _
  | .update pos target value, _, _, ample, .update place checked _ => by
    simp only [sitesOfCommand, List.mem_append] at ample
    simp only [bankCommand, Outcome.result_bind]
    refine .bind (regular_write surveyed rotations place fun site member =>
      ample site (.inl member)) fun _ _ => ?_
    exact .bind (regular_read surveyed rotations value checked fun site member =>
      ample site (.inr member)) fun _ _ => .ok _
  | .reduce pos op target value, _, _, ample, .reduce place _ checked _ => by
    simp only [sitesOfCommand, List.mem_append] at ample
    simp only [bankCommand, Outcome.result_bind]
    refine .bind (regular_write surveyed rotations place fun site member =>
      ample site (.inl member)) fun _ _ => ?_
    exact .bind (regular_read surveyed rotations value checked fun site member =>
      ample site (.inr member)) fun _ _ => .ok _
  | .eval pos (.app _ func args), _, _, _, .call _ given => by
    simp only [bankCommand, read, Outcome.result_bind, Outcome.result_lift]
    exact .bind (.bind (regular_banksOf surveyed given) fun _ _ => .ok _) fun _ _ => .ok _
  | .eval pos e, _, _, ample, .eval value => by
    simp only [bankCommand, Outcome.result_bind]
    exact .bind (regular_read surveyed rotations e value ample) fun _ _ => .ok _
  | .advance pos array, _, _, _, .advance _ => regular_advance rotations pos array
  | .skip pos, _, _, _, .skip => .ok _

theorem regular_bankSeq {rank : Nat} {ctx : Context} (rotations : ctx.InWords)
    {tctx : Typing.Context} {types : Typing.Env} {env : Env} (surveyed : Surveyed rank types env) :
    {cmds : List TypedCommand} → {types' : Typing.Env} → (∀ ty ∈ declaredTypesOfSeq cmds, ty.Shaped (Ample rank)) →
    (∀ site ∈ sitesOfSeq env cmds, site.Ample rank) →
    Typing.CheckedSeq tctx types cmds types' → Regular (bankSeq ctx env cmds).result
  | _, _, _, _, .nil => .ok _
  | cmd :: cmds, _, shaped, ample, .cons first rest => by
    have firstShaped : ∀ ty ∈ declaredTypes cmd, ty.Shaped (Ample rank) :=
      fun ty member => shaped ty (List.mem_append_left _ member)
    simp only [bankSeq, Outcome.result_bind]
    refine .bind (regular_bankCommand rotations surveyed firstShaped
      (fun site member => ample site (List.mem_append_left _ member)) first) ?_
    rintro ⟨banked, next⟩ split
    obtain ⟨_, rfl⟩ := bankCommand_ok cmd split
    exact .bind (regular_bankSeq rotations (surveyed.after firstShaped first)
      (fun ty member => shaped ty (List.mem_append_right _ member))
      (fun site member => ample site (List.mem_append_right _ member)) rest) fun _ _ => .ok _

theorem regular_bankElse {rank : Nat} {ctx : Context} (rotations : ctx.InWords)
    {tctx : Typing.Context} {types : Typing.Env} {env : Env} (surveyed : Surveyed rank types env) :
    {cmd : Option TypedCommand} → (∀ ty ∈ declaredTypesOfElse cmd, ty.Shaped (Ample rank)) →
    (∀ site ∈ sitesOfElse env cmd, site.Ample rank) →
    Typing.CheckedElse tctx types cmd → Regular (bankElse ctx env cmd).result
  | _, _, _, .none => .ok _
  | some cmd, shaped, ample, .some checked => by
    simp only [bankElse, Outcome.result_bind]
    exact .bind (regular_bankCommand rotations surveyed shaped ample checked) fun _ _ => .ok _

end

/-! ### Rotations -/

/-- A layout is found for an array that is advanced: it is visible, or its first declaration in the
body is that of an array. -/
def HasLayout (env : Env) (body : TypedCommand) (array : String) : Prop :=
  (∃ layout, env.get? array = some (.array layout)) ∨
    ∃ elem dims, declaredTy? array body = some (.array elem dims)

theorem advancedLayout_ok {env : Env} {body : TypedCommand} {array : String}
    (found : HasLayout env body array) : ∃ layout, advancedLayout env body array = .ok layout := by
  unfold advancedLayout
  split
  · exact ⟨_, rfl⟩
  · next hidden =>
    rcases found with ⟨layout, visible⟩ | ⟨elem, dims, declared⟩
    · exact absurd visible (hidden layout)
    · simp only [declared, Option.bind_some, Layout.ofTy?]
      exact ⟨_, rfl⟩

section

variable {allowed : Failure → Prop}

/-- The layout of an advanced array is found, or it may be missing. -/
theorem fails_advancedLayout_of {env : Env} {body : TypedCommand} {array : String}
    (found : HasLayout env body array ∨ allowed (.error (.internal (.noRotationLayout array)))) :
    Fails allowed (advancedLayout env body array) := by
  rcases found with found | missing
  · obtain ⟨layout, laidOut⟩ := advancedLayout_ok found
    rw [laidOut]
    exact .pure _
  · unfold advancedLayout
    split
    · exact .pure _
    · split
      · exact .pure _
      · exact .refuse missing

theorem HasLayout.rebind_scalar {env : Env} {body : TypedCommand} {array name : String}
    (found : HasLayout env body array) (free : name ∉ env.names) :
    HasLayout (env.rebind name .scalar) body array := by
  rcases found with ⟨layout, visible⟩ | declared
  · refine .inl ⟨layout, ?_⟩
    rw [Scope.get?_rebind, if_neg]
    · exact visible
    · intro same
      exact free (same ▸ Scope.mem_names_of_get? visible)
  · exact .inr declared

theorem fails_setUpRotations_of {rank : Nat} (permitted : ∀ f, Permitted f → allowed f)
    {statements : Statements} {body : TypedCommand} {env : Env} {taken : List String}
    {advanced : List (String × Nat)} (layouts : Everywhere (Ample rank) env)
    (shaped : ∀ ty ∈ declaredTypes body, ty.Shaped (Ample rank))
    (found : ∀ entry ∈ advanced, HasLayout env body entry.1 ∨
      allowed (.error (.internal (.noRotationLayout entry.1)))) :
    Fails allowed (setUpRotations statements body env taken advanced).result := by
  induction advanced generalizing env taken with
  | nil => exact .pure _
  | cons entry advanced ih =>
    obtain ⟨array, pos⟩ := entry
    obtain ⟨first, others⟩ := List.forall_mem_cons.mp found
    simp only [setUpRotations, Outcome.result_bind, Outcome.result_lift, Outcome.result_lift_fault]
    refine .bind_of_ok (fails_advancedLayout_of first) fun layout laidOut => ?_
    have words := shaped_advancedLayout layouts shaped laidOut
    rw [lift_ok_iff.mpr (Layout.bankCount_ok words.divided words.total), ok_bind]
    split
    · exact ih layouts others
    · split
      · simp only [Outcome.result_bind, Outcome.result_lift]
        exact .refuse_bind (permitted _ (.capability _ _)) _
      · have inWords : Rotation.InWords
            ⟨unboundName s!"{array}_bank" env taken, bankTotal layout.dims⟩ :=
          ⟨bankTotal_pos words.divided, words.total⟩
        have free := unboundName_not_mem s!"{array}_bank" env taken
        simp only [Outcome.result_bind, Outcome.result_lift_fault, Outcome.result_tell,
          lift_ok_iff.mpr (Rotation.ty_ok inWords), ok_bind]
        refine .bind (ih (layouts.scalar _) ?_) fun _ => .pure _
        exact fun entry member => (others entry member).imp_left fun found =>
          found.rebind_scalar fun visible => free (List.mem_append_left _ visible)

end

/-- Rotations are set up for numbers of banks that are words. -/
theorem setUpRotations_inWords {statements : Statements} {body : TypedCommand} {env : Env}
    {taken : List String} {advanced : List (String × Nat)} {prologue : Prologue}
    (success : (setUpRotations statements body env taken advanced).result = .ok prologue) :
    (Context.mk statements prologue.rotations).InWords := by
  induction advanced generalizing env taken prologue with
  | nil =>
    cases success
    exact nofun
  | cons entry advanced ih =>
    obtain ⟨_, _, _, counted, ⟨_, rest⟩ | ⟨_, _, inner, _, ⟨_, power⟩, _, rest, rfl⟩⟩ :=
      setUpRotations_cons success
    · exact ih rest
    · intro other rotation found
      dsimp only at found
      rw [List.lookup_cons] at found
      split at found
      · cases found
        exact ⟨pos_of_isPowerOfTwo power, Layout.bankCount_lt counted⟩
      · exact ih rest other rotation found

/-! ### Bodies -/

/-- What the checker leaves open about the body of a component behind the storage `ds`. -/
structure SettledBody (statements : Statements) (ds : List Decl) (body : TypedCommand) : Prop where
  words : ∀ ty ∈ declaredTypes body, ty.InWords
  advanced : ∀ entry ∈ advances body, HasLayout (declared {} ds) body entry.1
  sites : ∀ prologue, (setUpRotations statements body (declared {} ds) (binders body)
      (firstOfEach (advances body))).result = .ok prologue →
    ∀ site ∈ sitesOfCommand prologue.env body, site.Settled

/-- Words are ample for a body behind the storage `ds`, and where an array is advanced that has no
layout, that is allowed. -/
structure AmpleBody (allowed : Failure → Prop) (rank : Nat) (statements : Statements)
    (ds : List Decl) (body : TypedCommand) : Prop where
  shaped : ∀ ty ∈ declaredTypes body, ty.Shaped (Ample rank)
  advanced : ∀ entry ∈ advances body, HasLayout (declared {} ds) body entry.1 ∨
    allowed (.error (.internal (.noRotationLayout entry.1)))
  sites : ∀ prologue, (setUpRotations statements body (declared {} ds) (binders body)
      (firstOfEach (advances body))).result = .ok prologue →
    ∀ site ∈ sitesOfCommand prologue.env body, site.Ample rank

theorem SettledBody.ample {statements : Statements} {ds : List Decl} {body : TypedCommand}
    {tctx : Typing.Context} {types types' : Typing.Env} (settled : SettledBody statements ds body)
    (checked : Typing.CheckedCommand tctx types body types') :
    AmpleBody Permitted (2 ^ 30) statements ds body where
  shaped := fun ty member =>
    ample_of_inWords (declaredTypes_valid checked ty member) (settled.words ty member)
  advanced := fun entry member => .inl (settled.advanced entry member)
  sites := fun prologue setUp site member => (settled.sites prologue setUp site member).ample

section

variable {rank : Nat} {ds : List Decl} (shaped : ∀ d ∈ ds, d.ty.Shaped (Ample rank))

include shaped

theorem regular_bankDecls (env : Env) : Regular (bankDecls env ds) := by
  induction ds generalizing env with
  | nil => exact .ok _
  | cons d ds ih =>
    obtain ⟨first, others⟩ := List.forall_mem_cons.mp shaped
    rw [bankDecls]
    split
    · next layout found =>
      have words := first.layout found
      exact .bind (.lift (Layout.split_ok words.divided words.total d.pos)) fun _ _ =>
        .bind (ih others _) fun _ _ => .ok _
    · exact .bind (ih others _) fun _ _ => .ok _

theorem regular_memoriesOf (memories : Table String (List String)) :
    Regular (memoriesOf memories ds) := by
  induction ds generalizing memories with
  | nil => exact .ok _
  | cons d ds ih =>
    obtain ⟨first, others⟩ := List.forall_mem_cons.mp shaped
    rw [memoriesOf]
    split
    · next layout found =>
      have words := first.layout found
      exact .bind (.lift (Layout.banks_ok words.divided words.total)) fun _ _ => ih others _
    · exact ih others memories

end

section

variable {allowed : Failure → Prop} (permitted : ∀ f, Permitted f → allowed f) {rank : Nat}
  {statements : Statements}

include permitted

theorem fails_bankBody_of_ample {ds : List Decl} {body : TypedCommand} {tctx : Typing.Context}
    {types types' : Typing.Env} (surveyed : Surveyed rank types (declared {} ds))
    (checked : Typing.CheckedCommand tctx types body types')
    (ample : AmpleBody allowed rank statements ds body) :
    Fails allowed (bankBody statements (declared {} ds) body).result := by
  simp only [bankBody, Outcome.result_bind]
  refine .bind_of_ok (fails_setUpRotations_of permitted surveyed.layouts ample.shaped
    fun entry member => ample.advanced entry (firstOfEach_subset _ member)) ?_
  intro prologue setUp
  refine .bind (Fails.mono (regular_bankCommand (setUpRotations_inWords setUp)
    (surveyed.setUp setUp) ample.shaped (ample.sites prologue setUp) checked) permitted) ?_
  intro banked
  split <;> exact .pure _

theorem fails_bankFunctions_of_ample {funcs funcs' : List (String × List Decl)}
    {fs : List (Function Ty TypedExpr)} (checked : Typing.CheckedFunctions funcs fs funcs')
    (shaped : ∀ f ∈ fs, ∀ d ∈ f.params, d.ty.Shaped (Ample rank))
    (ample : ∀ f ∈ fs, AmpleBody allowed rank statements f.params f.body) :
    Fails allowed (bankFunctions statements fs).result := by
  induction checked with
  | nil => exact .pure _
  | @cons _ _ f fs first _ ih =>
    obtain ⟨params, otherParams⟩ := List.forall_mem_cons.mp shaped
    obtain ⟨body, others⟩ := List.forall_mem_cons.mp ample
    obtain ⟨types, types', decls, checkedBody⟩ := first.body
    have surveyed := Surveyed.empty.declared params decls
    simp only [bankFunctions, bankFunction, Outcome.result_bind, Outcome.result_lift,
      Outcome.result_tell, Outcome.result_pure]
    refine .bind (.bind_of_ok (Fails.mono (regular_bankDecls params {}) permitted) ?_) fun _ => ?_
    · rintro ⟨params, env⟩ split
      obtain rfl := bankDecls_env split
      exact .bind (fails_bankBody_of_ample permitted surveyed checkedBody body) fun _ =>
        .bind (.pure ()) fun _ => .pure _
    · exact .bind (ih otherParams others) fun _ => .pure _

end

end Banking

/-! ### Programs -/

/-- What the checker leaves open about a program: no name is that of a bank, the sizes are words,
every array that is advanced has a layout, and every index is settled. -/
structure Program.Settled (statements : Statements) (p : TypedProgram) : Prop where
  clean : p.BankNameClean
  params : ∀ f ∈ p.defs, ∀ d ∈ f.params, d.ty.InWords
  storage : ∀ d ∈ p.decls, d.ty.InWords
  bodies : ∀ ds body, (ds, body) ∈ p.components → Banking.SettledBody statements ds body

theorem Program.Settled.function {statements : Statements} {p : TypedProgram}
    (settled : p.Settled statements) {f : Function Ty TypedExpr} (member : f ∈ p.defs) :
    Banking.SettledBody statements f.params f.body :=
  settled.bodies _ _ (mem_components_of_defs member)

theorem Program.Settled.root {statements : Statements} {p : TypedProgram}
    (settled : p.Settled statements) {body : TypedCommand} (present : p.body = some body) :
    Banking.SettledBody statements p.decls body :=
  settled.bodies _ _ (mem_components_root present)

/-- Words are ample for a program, and where an array is advanced that has no layout, that is
allowed. -/
structure Program.AmpleWords (allowed : Failure → Prop) (rank : Nat) (statements : Statements)
    (p : TypedProgram) : Prop where
  params : ∀ f ∈ p.defs, ∀ d ∈ f.params, d.ty.Shaped (Banking.Ample rank)
  storage : ∀ d ∈ p.decls, d.ty.Shaped (Banking.Ample rank)
  bodies : ∀ ds body, (ds, body) ∈ p.components →
    Banking.AmpleBody allowed rank statements ds body

theorem Program.Settled.ample {statements : Statements} {p : TypedProgram}
    (settled : p.Settled statements) (checked : Typing.CheckedProgram p) :
    p.AmpleWords Permitted (2 ^ 30) statements where
  params := by
    intro f member d param
    obtain ⟨_, _, _, decls, _⟩ := checked.component (mem_components_of_defs member)
    exact Banking.ample_of_inWords (decls.declared param) (settled.params f member d param)
  storage := by
    intro d member
    obtain ⟨_, _, _, decls, _⟩ := checked
    exact Banking.ample_of_inWords (decls.declared member) (settled.storage d member)
  bodies := by
    intro ds body member
    obtain ⟨_, _, _, _, commands⟩ := checked.component member
    exact (settled.bodies ds body member).ample commands

/-- Where words are ample, splitting a checked program into banks fails only for lack of hardware,
or as it is allowed to. -/
theorem Program.fails_toBanks_of_ample {allowed : Failure → Prop}
    (permitted : ∀ f, Permitted f → allowed f) {rank : Nat} {statements : Statements}
    {p : TypedProgram} (checked : Typing.CheckedProgram p)
    (ample : p.AmpleWords allowed rank statements) : Fails allowed (p.toBanks statements).result := by
  obtain ⟨funcs, types, functions, decls, root⟩ := checked
  simp only [toBanks, Outcome.result_bind, Outcome.result_lift]
  refine .bind (Banking.fails_bankFunctions_of_ample permitted functions ample.params
    fun f member => ample.bodies _ _ (mem_components_of_defs member)) fun _ => ?_
  refine .bind_of_ok (Fails.mono (Banking.regular_bankDecls ample.storage {}) permitted) ?_
  rintro ⟨banked, env⟩ split
  obtain rfl := Banking.bankDecls_env split
  refine .bind (Fails.mono (Banking.regular_memoriesOf ample.storage {}) permitted) fun _ => ?_
  split
  · exact .bind (.pure ()) fun _ => .pure _
  · next body present =>
    rw [present] at root
    cases root with
    | some checked =>
      simp only [Outcome.result_bind, Outcome.result_map]
      exact .bind (.map (Banking.fails_bankBody_of_ample permitted
        (Banking.Surveyed.empty.declared ample.storage decls) checked
        (ample.bodies _ _ (mem_components_root present))) _) fun _ =>
        .bind (.pure ()) fun _ => .pure _

theorem Program.regular_toBanks {statements : Statements} {p : TypedProgram}
    (checked : Typing.CheckedProgram p) (settled : p.Settled statements) :
    Regular (p.toBanks statements).result :=
  fails_toBanks_of_ample (fun _ => id) checked (settled.ample checked)

end BankedLoops
