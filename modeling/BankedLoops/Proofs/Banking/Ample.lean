import BankedLoops.Proofs.Banking.Settled

/-!
# Ample words

Splitting an access counts banks, multiplies bank numbers with strides and adds widths. Words are ample
where they hold all of these numbers: the banks of every array can be counted, a bank that is known
exists, and an index whose bank is open is narrow enough for the sum of as many bank numbers as an
array has dimensions.
-/

namespace BankedLoops

/-- The dimensions of an array type satisfy `Q`. -/
def Ty.Shaped (Q : List Dim → Prop) : Ty → Prop
  | .array _ dims => Q dims
  | _ => True

theorem Ty.Shaped.divided {ty : Ty} (declared : Typing.declaredFault? ty = .ok none) :
    ty.Shaped Banking.Divided := by
  cases ty with
  | array elem dims => exact (Typing.declared_array declared).2
  | _ => trivial

theorem Ty.Shaped.layout {Q : List Dim → Prop} {name : String} {ty : Ty} {layout : Layout}
    (shaped : ty.Shaped Q) (found : Layout.ofTy? name ty = some layout) : Q layout.dims := by
  obtain ⟨elem, dims, rfl, rfl⟩ := Banking.isArray_of_ofTy? found
  exact shaped

namespace Banking

/-! ### Arrays in scope -/

/-- Every array in scope has dimensions that satisfy `Q`. -/
def Everywhere (Q : List Dim → Prop) (env : Env) : Prop :=
  ∀ name layout, env.get? name = some (.array layout) → Q layout.dims

namespace Everywhere

variable {Q : List Dim → Prop} {env : Env}

theorem empty : Everywhere Q {} := nofun

theorem layoutOf (everywhere : Everywhere Q env) {array : String} {layout : Layout}
    (found : Banking.layoutOf env array = .ok layout) : Q layout.dims :=
  everywhere array layout (layoutOf_ok found)

theorem rebind (everywhere : Everywhere Q env) (name : String) {binding : Binding}
    (shaped : ∀ layout, binding = .array layout → Q layout.dims) :
    Everywhere Q (env.rebind name binding) := by
  intro other layout bound
  rw [Scope.get?_rebind] at bound
  split at bound
  · exact shaped layout (Option.some.inj bound)
  · exact everywhere other layout bound

theorem enter (everywhere : Everywhere Q env) : Everywhere Q env.enter := everywhere

theorem scalar (everywhere : Everywhere Q env) (name : String) :
    Everywhere Q (env.rebind name .scalar) :=
  everywhere.rebind name fun _ same => nomatch same

theorem iterator (everywhere : Everywhere Q env) (name : String) (range : Interval) :
    Everywhere Q (env.rebind name (.iterator range)) :=
  everywhere.rebind name fun _ same => nomatch same

theorem declare (everywhere : Everywhere Q env) (name : String) {ty : Ty} (shaped : ty.Shaped Q) :
    Everywhere Q (env.rebind name (.ofTy name ty)) := by
  refine everywhere.rebind name fun layout same => ?_
  cases ty with
  | array elem dims =>
    cases same
    exact shaped
  | _ => cases same

mutual

theorem after {env : Env} (everywhere : Everywhere Q env) : {cmd : TypedCommand} →
    (∀ ty ∈ declaredTypes cmd, ty.Shaped Q) → Everywhere Q (after env cmd)
  | .decl .., shaped => everywhere.declare _ (shaped _ List.mem_cons_self)
  | .define .., _ => everywhere.scalar _
  | .seq .., shaped => everywhere.afterSeq shaped
  | .branch .., _ | .loop .., _ | .update .., _ | .reduce .., _ | .eval .., _ | .advance .., _
  | .skip .., _ => everywhere

theorem afterSeq {env : Env} (everywhere : Everywhere Q env) : {cmds : List TypedCommand} →
    (∀ ty ∈ declaredTypesOfSeq cmds, ty.Shaped Q) → Everywhere Q (afterSeq env cmds)
  | [], _ => everywhere
  | _ :: _, shaped =>
    (everywhere.after fun ty member => shaped ty (List.mem_append_left _ member)).afterSeq
      fun ty member => shaped ty (List.mem_append_right _ member)

end

theorem declared (everywhere : Everywhere Q env) {ds : List Decl}
    (shaped : ∀ d ∈ ds, d.ty.Shaped Q) : Everywhere Q (declared env ds) := by
  induction ds generalizing env with
  | nil => exact everywhere
  | cons d ds ih =>
    obtain ⟨first, others⟩ := List.forall_mem_cons.mp shaped
    exact ih (everywhere.declare d.name first) others

/-- Setting up rotations makes nothing but registers. -/
theorem setUpRotations (everywhere : Everywhere Q env) {statements : Statements}
    {body : TypedCommand} {taken : List String} {advanced : List (String × Nat)}
    {prologue : Prologue}
    (success : (setUpRotations statements body env taken advanced).result = .ok prologue) :
    Everywhere Q prologue.env := by
  induction advanced generalizing env taken prologue with
  | nil =>
    cases success
    exact everywhere
  | cons entry advanced ih =>
    obtain ⟨_, _, _, _, ⟨_, rest⟩ | ⟨_, _, inner, _, _, _, rest, rfl⟩⟩ := setUpRotations_cons success
    · exact ih everywhere rest
    · exact @ih _ (everywhere.scalar _) _ inner rest

end Everywhere

mutual

theorem declaredTy?_mem {name : String} {ty : Ty} :
    (cmd : TypedCommand) → declaredTy? name cmd = some ty → ty ∈ declaredTypes cmd
  | .decl pos declared ty', found => by
    rw [declaredTy?] at found
    split at found
    · cases found
      exact List.mem_cons_self
    · cases found
  | .seq pos cmds, found => declaredTyOfSeq?_mem cmds found
  | .branch pos cond onTrue onFalse, found => by
    rw [declaredTy?, Option.or_eq_some_iff] at found
    rcases found with inTrue | ⟨_, inFalse⟩
    · exact List.mem_append_left _ (declaredTy?_mem onTrue inTrue)
    · exact List.mem_append_right _ (declaredTyOfElse?_mem onFalse inFalse)
  | .loop pos header body, found => by
    rw [declaredTy?] at found
    exact declaredTy?_mem body found
  | .define .., found => by cases found
  | .update .., found => by cases found
  | .reduce .., found => by cases found
  | .eval .., found => by cases found
  | .advance .., found => by cases found
  | .skip .., found => by cases found

theorem declaredTyOfSeq?_mem {name : String} {ty : Ty} :
    (cmds : List TypedCommand) → declaredTyOfSeq? name cmds = some ty → ty ∈ declaredTypesOfSeq cmds
  | [], found => by cases found
  | cmd :: cmds, found => by
    rw [declaredTyOfSeq?, Option.or_eq_some_iff] at found
    rcases found with first | ⟨_, later⟩
    · exact List.mem_append_left _ (declaredTy?_mem cmd first)
    · exact List.mem_append_right _ (declaredTyOfSeq?_mem cmds later)

theorem declaredTyOfElse?_mem {name : String} {ty : Ty} :
    (cmd : Option TypedCommand) → declaredTyOfElse? name cmd = some ty → ty ∈ declaredTypesOfElse cmd
  | none, found => by cases found
  | some cmd, found => declaredTy?_mem cmd found

end

/-- An array that is advanced is in scope, or declared in the body. -/
theorem shaped_advancedLayout {Q : List Dim → Prop} {env : Env} (everywhere : Everywhere Q env)
    {body : TypedCommand} (shaped : ∀ ty ∈ declaredTypes body, ty.Shaped Q) {array : String}
    {layout : Layout} (found : advancedLayout env body array = .ok layout) : Q layout.dims := by
  unfold advancedLayout at found
  split at found
  · next visible =>
    cases found
    exact everywhere _ _ visible
  · split at found
    · next inside =>
      cases found
      obtain ⟨ty, declared, laidOut⟩ := Option.bind_eq_some_iff.mp inside
      exact (shaped ty (declaredTy?_mem body declared)).layout laidOut
    · exact (refuse_ok_iff.mp found).elim

mutual

/-- The types that a checked command declares are well formed. -/
theorem declaredTypes_valid {tctx : Typing.Context} {types types' : Typing.Env} :
    {cmd : TypedCommand} → Typing.CheckedCommand tctx types cmd types' →
    ∀ ty ∈ declaredTypes cmd, Typing.declaredFault? ty = .ok none
  | _, .decl declared _ => by
    intro ty member
    rw [List.mem_singleton.mp member]
    exact declared
  | _, .seq checked => declaredTypesOfSeq_valid checked
  | _, .branch _ _ yes no => by
    intro ty member
    rcases List.mem_append.mp member with inTrue | inFalse
    · exact declaredTypes_valid yes ty inTrue
    · exact declaredTypesOfElse_valid no ty inFalse
  | _, .loop _ checked => fun ty member => declaredTypes_valid checked ty member
  | _, .define .. => nofun
  | _, .update .. => nofun
  | _, .reduce .. => nofun
  | _, .call .. => nofun
  | _, .eval .. => nofun
  | _, .advance .. => nofun
  | _, .skip => nofun

theorem declaredTypesOfSeq_valid {tctx : Typing.Context} {types types' : Typing.Env} :
    {cmds : List TypedCommand} → Typing.CheckedSeq tctx types cmds types' →
    ∀ ty ∈ declaredTypesOfSeq cmds, Typing.declaredFault? ty = .ok none
  | _, .nil => nofun
  | _, .cons first rest => by
    intro ty member
    rcases List.mem_append.mp member with inFirst | later
    · exact declaredTypes_valid first ty inFirst
    · exact declaredTypesOfSeq_valid rest ty later

theorem declaredTypesOfElse_valid {tctx : Typing.Context} {types : Typing.Env} :
    {cmd : Option TypedCommand} → Typing.CheckedElse tctx types cmd →
    ∀ ty ∈ declaredTypesOfElse cmd, Typing.declaredFault? ty = .ok none
  | _, .none => nofun
  | _, .some checked => fun ty member => declaredTypes_valid checked ty member

end

theorem divided_declaredTypes {tctx : Typing.Context} {types types' : Typing.Env} {cmd : TypedCommand}
    (checked : Typing.CheckedCommand tctx types cmd types') :
    ∀ ty ∈ declaredTypes cmd, ty.Shaped Divided :=
  fun ty member => .divided (declaredTypes_valid checked ty member)

theorem divided_decls {types types' : Typing.Env} {ds : List Decl}
    (checked : Typing.CheckedDecls types ds types') : ∀ d ∈ ds, d.ty.Shaped Divided :=
  fun _ member => .divided (checked.declared member)

/-! ### Dimensions and indices -/

theorem widthCapacity : Word.capacity Word.widthBits = 4294967296 := by decide

/-- Divided dimensions, at most `rank` of them, whose sizes and number of banks are words. -/
structure Ample (rank : Nat) (dims : List Dim) : Prop where
  divided : Divided dims
  total : bankTotal dims < Word.capacity Word.sizeBits
  sizes : ∀ d ∈ dims, d.size < Word.capacity Word.sizeBits
  few : dims.length ≤ rank

theorem Ample.tail {rank : Nat} {d : Dim} {dims : List Dim} (ample : Ample rank (d :: dims)) :
    Ample rank dims where
  divided := ample.divided.tail
  total := Nat.lt_of_le_of_lt (bankTotal_le_cons ample.divided).1 ample.total
  sizes := fun other member => ample.sizes other (List.mem_cons_of_mem _ member)
  few := Nat.le_trans (Nat.le_succ _) ample.few

theorem InWords.ample {dims : List Dim} (words : InWords dims) (divided : Divided dims) :
    Ample (2 ^ 30) dims :=
  ⟨divided, words.total, words.sizes, words.rank⟩

theorem ample_of_inWords {ty : Ty} (declared : Typing.declaredFault? ty = .ok none)
    (words : ty.InWords) : ty.Shaped (Ample (2 ^ 30)) := by
  cases ty with
  | array elem dims => exact InWords.ample words (Typing.declared_array declared).2
  | _ => trivial

/-- A bank that is known exists. Where the bank is open, the product of the index with a stride and
the sum of `rank` such products and an offset have widths that are words. -/
structure IndexSite.Ample (rank : Nat) (site : IndexSite) : Prop where
  inside : ∀ k, staticBank? site.env site.idx site.dim = .ok (some k) →
    k < site.dim.size / site.dim.bank
  narrow : staticBank? site.env site.idx site.dim = .ok none →
    site.idx.ty.width + rank + 65 < Word.capacity Word.widthBits

theorem IndexSite.Settled.ample {site : IndexSite} (settled : site.Settled) :
    site.Ample (2 ^ 30) where
  inside := settled.inside
  narrow := by
    intro _
    have narrow := settled.narrow
    rw [widthCapacity]
    omega

/-- A literal is not below the start of the bank that it lies in. -/
theorem start_le_of_staticBank {env : Env} {ty : Ty} {n k : Nat} {dim : Dim}
    (known : staticBank? env (.int ty n) dim = .ok (some k)) : k * dim.bank ≤ n := by
  simp only [staticBank?, bind_ok_iff] at known
  obtain ⟨count, _, known⟩ := known
  split at known
  · cases known
    omega
  · simp only [Interval.ofIndex?, bind_ok_iff, Word.div_eq_ok_iff, pure_ok_iff] at known
    obtain ⟨_, ⟨_, rfl⟩, _, ⟨_, rfl⟩, known⟩ := known
    rw [if_pos rfl, Option.some.injEq] at known
    rw [← known]
    exact Nat.div_mul_le_self n dim.bank

theorem staticOffset_ok {env : Env} {idx : TypedExpr} {dim : Dim} {k : Nat}
    (known : staticBank? env idx dim = .ok (some k)) :
    ∃ offset, staticOffset idx (k * dim.bank) = .ok offset := by
  unfold staticOffset
  split
  · rw [Word.sub, if_pos (start_le_of_staticBank known)]
    exact ⟨_, rfl⟩
  · exact ⟨_, rfl⟩

/-! ### Placements -/

section

variable {ctx : Context} {env : Env} {rank : Nat} {dims : List Dim} {idxs : List TypedExpr}
  {strides : List Nat} {base : Nat} {p : Placement}

/-- The known part of the bank number stays below the number of banks. -/
theorem PlacedAs.base_lt (placed : PlacedAs ctx env base idxs (dims.zip strides) p)
    (divided : Divided dims) (strided : Layout.stridesOf dims = .ok strides)
    (ample : ∀ site ∈ sitesOfIndices env idxs dims, site.Ample rank) :
    p.base < base + bankTotal dims := by
  induction dims generalizing idxs strides base p with
  | nil =>
    cases placed
    exact Nat.lt_succ_self _
  | cons dim dims ih =>
    obtain ⟨rest, rfl, stridedRest⟩ := Layout.stridesOf_cons strided
    have positive := bankTotal_pos divided
    cases placed with
    | done _ => exact Nat.lt_add_of_pos_right positive
    | known value static _ others _ =>
      simp only [sitesOfIndices, List.cons_append, List.mem_cons, List.mem_append] at ample
      have below := ih others divided.tail stridedRest fun site member =>
        ample site (.inr (.inr member))
      have next := Nat.mul_le_mul_right (bankTotal dims)
        ((ample _ (.inl rfl)).inside _ (value.staticBank?_eq dim ▸ static))
      rw [Nat.succ_mul] at next
      rw [bankTotal]
      dsimp only at next ⊢
      omega
    | varying _ _ _ _ _ others =>
      simp only [sitesOfIndices, List.cons_append, List.mem_cons, List.mem_append] at ample
      have below := ih others divided.tail stridedRest fun site member =>
        ample site (.inr (.inr member))
      have more := (bankTotal_le_cons divided).1
      dsimp only
      omega

theorem PlacedAs.length_terms {dims : List (Dim × Nat)} (placed : PlacedAs ctx env base idxs dims p) :
    p.terms.length ≤ dims.length := by
  induction dims generalizing idxs base p with
  | nil =>
    cases placed
    exact Nat.le_refl _
  | cons entry dims ih =>
    cases placed with
    | done _ => exact Nat.zero_le _
    | known _ _ _ others _ =>
      have fewer := ih others
      exact Nat.le_succ_of_le fewer
    | varying _ _ _ _ _ others => exact Nat.succ_le_succ (ih others)

/-- A term leaves room for the sum of as many terms as there can be. -/
theorem PlacedAs.width_terms (placed : PlacedAs ctx env base idxs (dims.zip strides) p)
    (fits : Banking.Ample rank dims) (strided : Layout.stridesOf dims = .ok strides)
    (ample : ∀ site ∈ sitesOfIndices env idxs dims, site.Ample rank) :
    ∀ term ∈ p.terms, term.ty.width + rank + 1 < 4294967296 ∧ rank + 65 < 4294967296 := by
  induction dims generalizing idxs strides base p with
  | nil =>
    cases placed
    exact nofun
  | cons dim dims ih =>
    obtain ⟨rest, rfl, stridedRest⟩ := Layout.stridesOf_cons strided
    cases placed with
    | done _ => exact nofun
    | known _ _ _ others _ =>
      simp only [sitesOfIndices, List.cons_append, List.mem_cons, List.mem_append] at ample
      have later := ih others fits.tail stridedRest fun site member =>
        ample site (.inr (.inr member))
      exact later
    | @varying _ _ _ idx' _ _ _ _ _ _ value dynamic _ chosen _ others =>
      simp only [sitesOfIndices, List.cons_append, List.mem_cons, List.mem_append] at ample
      have later := ih others fits.tail stridedRest fun site member =>
        ample site (.inr (.inr member))
      refine List.forall_mem_cons.mpr ⟨?_, later⟩
      have narrow := (ample _ (.inl rfl)).narrow (value.staticBank?_eq dim ▸ dynamic)
      rw [widthCapacity, ← value.ty_eq] at narrow
      have stride : bitsNeeded (bankTotal dims) ≤ 64 :=
        (bitsNeeded_le_iff (by omega)).mpr fits.tail.total
      obtain ⟨bank, quotient, ⟨rfl, _⟩ | rfl⟩ := bankTerm_ok chosen
      · have width := quotient.width
        omega
      · rw [TypedExpr.ty, Ty.ubit, Ty.width]
        omega

end

end Banking

end BankedLoops
