import BankedLoops.Proofs.Banking.Image
import BankedLoops.Proofs.Banking.StaticBank

/-!
# Settled indices

The checker does not look at everything that splitting and lowering an access relies on. `Settled`
states the rest for one index: the bank that its interval names exists, and where the bank of a
folded literal stays open the literal's type is wide enough for the mask of a bank. Together with
the checker's judgement this bounds every number that an access puts into the netlist.
-/

namespace BankedLoops

namespace Banking

structure IndexSite.Settled (site : IndexSite) : Prop where
  inside : ∀ k, staticBank? site.env site.idx site.dim = .ok (some k) →
    k < site.dim.size / site.dim.bank
  wide : ∀ n, site.idx.ty = .static n → staticBank? site.env site.idx site.dim = .ok none →
    site.dim.bank ≤ Word.capacity site.idx.ty.width
  narrow : site.idx.ty.width ≤ 2 ^ 31

/-- The sizes of an array and the number of its banks are words. -/
structure InWords (dims : List Dim) : Prop where
  total : bankTotal dims < Word.capacity Word.sizeBits
  sizes : ∀ d ∈ dims, d.size < Word.capacity Word.sizeBits
  rank : dims.length ≤ 2 ^ 30

end Banking

def Ty.InWords : Ty → Prop
  | .array _ dims => Banking.InWords dims
  | _ => True

namespace Banking

mutual

/-- The types that a command declares. -/
def declaredTypes : TypedCommand → List Ty
  | .decl _ _ ty => [ty]
  | .seq _ cmds => declaredTypesOfSeq cmds
  | .branch _ _ onTrue onFalse => declaredTypes onTrue ++ declaredTypesOfElse onFalse
  | .loop _ _ body => declaredTypes body
  | _ => []

def declaredTypesOfSeq : List TypedCommand → List Ty
  | [] => []
  | cmd :: cmds => declaredTypes cmd ++ declaredTypesOfSeq cmds

def declaredTypesOfElse : Option TypedCommand → List Ty
  | none => []
  | some cmd => declaredTypes cmd

end

/-! ### Intervals of literals -/

section

variable {tctx : Typing.Context} {types : Typing.Env} {env : Env} {ctx : Context}

/-- Reading changes no interval. -/
theorem ReadAs.ofIndex?_eq {e e' : TypedExpr} (read : ReadAs ctx env e e') :
    Interval.ofIndex? env e' = Interval.ofIndex? env e := by
  cases read with
  | binop left right =>
    rw [Interval.ofIndex?, Interval.ofIndex?, left.ofIndex?_eq, right.ofIndex?_eq]
  | access _ _ _ resolved => cases resolved <;> rfl
  | _ => rfl

theorem ReadAs.staticBank?_eq {e e' : TypedExpr} (read : ReadAs ctx env e e') (dim : Dim) :
    staticBank? env e' dim = staticBank? env e dim := by
  rw [staticBank?, staticBank?, read.ofIndex?_eq]

/-- An expression of a literal's type is built of literals. -/
theorem static_cases (formed : Typing.WellFormed types) {e : TypedExpr} {n : Nat}
    (checked : Typing.CheckedExpr tctx types e) (typed : e.ty = .static n) :
    e = .int (.static n) n ∨ ∃ op lhs rhs a b, e = .binop (.static n) op lhs rhs ∧
      Typing.CheckedExpr tctx types lhs ∧ Typing.CheckedExpr tctx types rhs ∧
      lhs.ty = .static a ∧ rhs.ty = .static b ∧ foldStatic op a b = some n := by
  cases checked with
  | int m =>
    cases typed
    exact .inl rfl
  | bool b => cases typed
  | scalar bound =>
    cases typed
    cases formed _ _ bound with
    | scalar storable => exact absurd storable (Typing.not_storable_static n)
  | iterator bound =>
    cases typed
    cases formed _ _ bound
  | @binop ty op lhs rhs left right operation =>
    cases typed
    refine .inr ⟨op, lhs, rhs, ?_⟩
    generalize leftTy : lhs.ty = l at operation
    generalize rightTy : rhs.ty = r at operation
    cases binopType_cases operation with
    | folded _ isLeft isRight value =>
      exact ⟨_, _, rfl, left, right, isLeft, isRight, value⟩
    | numeric _ _ joined =>
      rcases numericJoin_cases joined with ⟨_, _, _, _, _, same⟩ | ⟨_, _, same⟩ <;> cases same
  | access bound indices =>
    cases typed
    exact absurd (formed.array bound).1 (Typing.not_storable_static n)

/-- An iterator is the only expression of an iterator's type. -/
theorem iterator_of_ty (formed : Typing.WellFormed types) {e : TypedExpr} {bound : Nat}
    {unroll : Option Nat} (checked : Typing.CheckedExpr tctx types e)
    (typed : e.ty = .idx bound unroll) :
    ∃ name, e = .var (.idx bound unroll) name ∧
      types.get? name = some (.iterator (.idx bound unroll)) := by
  cases checked with
  | int m => cases typed
  | bool b => cases typed
  | scalar visible =>
    cases typed
    cases formed _ _ visible with
    | scalar storable => exact absurd storable (Typing.not_storable_idx bound unroll)
  | iterator visible =>
    cases typed
    exact ⟨_, rfl, visible⟩
  | binop left right operation =>
    cases typed
    cases binopType_cases operation with
    | numeric _ _ joined =>
      rcases numericJoin_cases joined with ⟨_, _, _, _, _, same⟩ | ⟨_, _, same⟩ <;> cases same
  | access visible indices =>
    cases typed
    cases formed _ _ visible with
    | array declared =>
      exact absurd (Typing.declared_array declared).1 (Typing.not_storable_idx bound unroll)

theorem foldStatic_interval {op : BinOp} {a b n : Nat} {range : Interval}
    (found : (match op with
      | .add => Interval.add? ⟨a, a⟩ ⟨b, b⟩
      | .sub => Interval.sub? ⟨a, a⟩ ⟨b, b⟩
      | .mul => Interval.mul? ⟨a, a⟩ ⟨b, b⟩
      | _ => none) = some range) (value : foldStatic op a b = some n) : range = ⟨n, n⟩ := by
  cases op with
  | add =>
    simp only [Interval.add?, bind, Option.bind_eq_some_iff, pure, Option.some.injEq] at found
    obtain ⟨lo, low, hi, high, rfl⟩ := found
    simp only [foldStatic] at value
    rw [← word?_eq_some low, ← word?_eq_some high, word?_eq_some value]
  | sub =>
    simp only [Interval.sub?, foldStatic] at found value
    split at found
    · split at value
      · cases found
        cases value
        rfl
      · cases value
    · cases found
  | mul =>
    simp only [Interval.mul?, bind, Option.bind_eq_some_iff, pure, Option.some.injEq] at found
    obtain ⟨lo, low, hi, high, rfl⟩ := found
    simp only [foldStatic] at value
    rw [← word?_eq_some low, ← word?_eq_some high, word?_eq_some value]
  | _ => cases found

/-- The interval of a literal, if it has one, holds only its value. -/
theorem ofIndex?_static (formed : Typing.WellFormed types) : (e : TypedExpr) → {n : Nat} →
    Typing.CheckedExpr tctx types e → e.ty = .static n → {range : Interval} →
    Interval.ofIndex? env e = some range → range = ⟨n, n⟩
  | .binop ty op lhs rhs, n, checked, typed, range, found => by
    rcases static_cases formed checked typed with same | ⟨_, _, _, a, b, same, left, right, leftTy,
      rightTy, value⟩
    · cases same
    · cases same
      simp only [Interval.ofIndex?, bind, Option.bind_eq_some_iff] at found
      obtain ⟨x, foundLeft, y, foundRight, found⟩ := found
      have leftIs : x = ⟨a, a⟩ := ofIndex?_static formed lhs left leftTy foundLeft
      have rightIs : y = ⟨b, b⟩ := ofIndex?_static formed rhs right rightTy foundRight
      rw [leftIs, rightIs] at found
      exact foldStatic_interval found value
  | .int ty m, n, checked, typed, range, found => by
    rcases static_cases formed checked typed with same | ⟨_, _, _, _, _, same, _⟩
    · cases same
      cases found
      rfl
    · cases same
  | .bool .., _, _, _, _, found => by cases found
  | .var .., _, checked, typed, _, found => by
    rcases static_cases formed checked typed with same | ⟨_, _, _, _, _, same, _⟩ <;> cases same
  | .access .., _, _, _, _, found => by cases found
  | .app .., _, _, _, _, found => by cases found
  | .mem .., _, _, _, _, found => by cases found
  | .muxRead .., _, _, _, _, found => by cases found

/-- Where the bank stays open, an interval begins and ends in different banks. -/
theorem staticBank?_none {idx : TypedExpr} {dim : Dim} {range : Interval}
    (open_ : staticBank? env idx dim = .ok none) (found : Interval.ofIndex? env idx = some range) :
    range.lo / dim.bank ≠ range.hi / dim.bank := by
  simp only [staticBank?, found, bind_ok_iff] at open_
  obtain ⟨count, _, open_⟩ := open_
  split at open_
  · cases open_
  · simp only [bind_ok_iff, Word.div_eq_ok_iff, pure_ok_iff] at open_
    obtain ⟨_, ⟨_, rfl⟩, _, ⟨_, rfl⟩, open_⟩ := open_
    intro same
    rw [if_pos same] at open_
    cases open_

end

/-! ### One index -/

/-- An index that is checked and settled, and its physical form. -/
structure SettledIndex (ctx : Context) (env : Env) (dim : Dim) (idx idx' : TypedExpr) : Prop where
  checked : ∃ tctx types, Typing.WellFormed types ∧ Agrees types env ∧
    Typing.CheckedExpr tctx types idx
  fits : Typing.IndexFits dim idx'.ty
  divided : dim.splitsEvenly = .ok true
  read : ReadAs ctx env idx idx'
  settled : IndexSite.Settled ⟨env, idx, dim⟩

namespace SettledIndex

variable {ctx : Context} {env : Env} {dim : Dim} {idx idx' : TypedExpr}

theorem interval_static (index : SettledIndex ctx env dim idx idx') {n : Nat}
    (typed : idx'.ty = .static n) {range : Interval}
    (found : Interval.ofIndex? env idx' = some range) : range = ⟨n, n⟩ := by
  obtain ⟨tctx, types, formed, _, checked⟩ := index.checked
  rw [index.read.ofIndex?_eq] at found
  exact ofIndex?_static formed idx checked (index.read.ty_eq ▸ typed) found

/-- The range of an iterator ends at its last value. -/
theorem interval_iterator (index : SettledIndex ctx env dim idx idx') {bound : Nat}
    {unroll : Option Nat} (typed : idx'.ty = .idx bound unroll) :
    ∃ lo, lo < bound ∧ Interval.ofIndex? env idx' = some ⟨lo, bound - 1⟩ := by
  obtain ⟨tctx, types, formed, agrees, checked⟩ := index.checked
  rw [index.read.ofIndex?_eq]
  rw [index.read.ty_eq] at typed
  obtain ⟨name, rfl, visible⟩ := iterator_of_ty formed checked typed
  obtain ⟨found, bound, same⟩ := agrees _ _ visible
  cases same with
  | iterator _ runs => exact ⟨_, runs, by rw [Interval.ofIndex?, bound]⟩

theorem bank_lt (index : SettledIndex ctx env dim idx idx') {k : Nat}
    (known : staticBank? env idx' dim = .ok (some k)) : k < dim.size / dim.bank :=
  index.settled.inside k (index.read.staticBank?_eq dim ▸ known)

/-- The bank of a known index begins inside the dimension. -/
theorem start_lt (index : SettledIndex ctx env dim idx idx') {k : Nat}
    (known : staticBank? env idx' dim = .ok (some k)) : k * dim.bank + dim.bank ≤ dim.size :=
  bank_end_le index.divided (index.bank_lt known)

theorem single_bank (index : SettledIndex ctx env dim idx idx') (single : dim.bankCount = .ok 1) :
    dim.bank = dim.size := by
  obtain ⟨_, _, whole⟩ := splitsEvenly_iff.mp index.divided
  obtain ⟨_, one⟩ := Word.div_eq_ok_iff.mp single
  rw [one, Nat.one_mul] at whole
  exact whole

/-- A literal with a known bank lies in it. -/
theorem known_static (index : SettledIndex ctx env dim idx idx') {k n : Nat}
    (typed : idx'.ty = .static n) (known : staticBank? env idx' dim = .ok (some k)) :
    k * dim.bank ≤ n ∧ n < k * dim.bank + dim.bank := by
  obtain ⟨_, positive, _⟩ := splitsEvenly_iff.mp index.divided
  rcases staticBank?_cases known with ⟨single, rfl⟩ | ⟨range, found, low, _⟩
  · have inside : n < dim.size := by
      have fits := index.fits
      rw [typed] at fits
      cases fits
      assumption
    rw [index.single_bank single]
    omega
  · obtain rfl := index.interval_static typed found
    dsimp only at low
    subst low
    have quotient := Nat.div_add_mod n dim.bank
    have rest := Nat.mod_lt n positive
    rw [Nat.mul_comm] at quotient
    omega

/-- Where a known bank begins is a number of the index's type. -/
theorem start_fits (index : SettledIndex ctx env dim idx idx') {k : Nat}
    (known : staticBank? env idx' dim = .ok (some k)) :
    k * dim.bank < Word.capacity idx'.ty.width := by
  have inside := index.start_lt known
  obtain ⟨_, positive, _⟩ := splitsEvenly_iff.mp index.divided
  have fits := index.fits
  generalize typed : idx'.ty = ty at fits
  cases fits with
  | @literal n _ =>
    have below := (index.known_static typed known).1
    exact Nat.lt_of_le_of_lt below (lt_capacity_bitsNeeded n)
  | @iterator bound unroll _ =>
    obtain ⟨lo, nonempty, found⟩ := index.interval_iterator typed
    have last : k * dim.bank ≤ bound - 1 := by
      rcases staticBank?_cases known with ⟨_, rfl⟩ | ⟨range, found', _, high⟩
      · omega
      · rw [found] at found'
        cases found'
        rw [← high]
        exact Nat.div_mul_le_self _ _
    exact Nat.lt_of_le_of_lt last (lt_capacity_bitsNeeded (bound - 1))
  | @word width nonempty wide =>
    have reach := lt_capacity_bitsNeeded (dim.size - 1)
    have all := Word.capacity_le wide
    rw [Ty.width]
    omega

theorem several_banks (index : SettledIndex ctx env dim idx idx')
    (open_ : staticBank? env idx' dim = .ok none) : dim.bank < dim.size := by
  obtain ⟨size, positive, whole⟩ := splitsEvenly_iff.mp index.divided
  have count : dim.size / dim.bank ≠ 1 := by
    intro one
    have single : dim.bankCount = .ok 1 := Word.div_eq_ok_iff.mpr ⟨by omega, one⟩
    simp only [staticBank?, single, ok_bind, if_true] at open_
    cases open_
  rcases Nat.lt_or_ge dim.bank dim.size with less | more
  · exact less
  · have atMost : dim.size / dim.bank ≤ 1 := Nat.div_le_of_le_mul (by omega)
    have least : 0 < dim.size / dim.bank :=
      Nat.zero_lt_of_lt (div_lt_banks index.divided size)
    omega

/-- Where the bank is open, the type of the index holds the length of a bank. -/
theorem length_fits (index : SettledIndex ctx env dim idx idx')
    (open_ : staticBank? env idx' dim = .ok none) :
    dim.bank ≤ Word.capacity idx'.ty.width := by
  have several := index.several_banks open_
  have fits := index.fits
  generalize typed : idx'.ty = ty at fits
  cases fits with
  | @literal n _ =>
    have sourceTy : idx.ty = .static n := index.read.ty_eq ▸ typed
    have wide := index.settled.wide n sourceTy (index.read.staticBank?_eq dim ▸ open_)
    rwa [sourceTy] at wide
  | @iterator bound unroll _ =>
    obtain ⟨lo, nonempty, found⟩ := index.interval_iterator typed
    have reach := lt_capacity_bitsNeeded (bound - 1)
    have apart := staticBank?_none open_ found
    dsimp only at apart
    rw [Ty.width]
    by_contra short
    rw [Nat.div_eq_of_lt (by omega), Nat.div_eq_of_lt (by omega)] at apart
    exact apart rfl
  | @word width nonempty wide =>
    have reach := lt_capacity_bitsNeeded (dim.size - 1)
    have all := Word.capacity_le wide
    rw [Ty.width]
    omega

end SettledIndex

/-! ### Placements -/

/-- The placement of checked and settled indices, whose physical forms satisfy `P`. -/
inductive SettledPlacement (ctx : Context) (env : Env) (P : TypedExpr → Prop) :
    Nat → List Dim → Placement → Prop where
  | done {base : Nat} : SettledPlacement ctx env P base [] ⟨base, [], []⟩
  | known {base bank : Nat} {idx idx' offset : TypedExpr} {dim : Dim} {dims : List Dim}
      {rest : Placement} (index : SettledIndex ctx env dim idx idx') (holds : P idx')
      (static : staticBank? env idx' dim = .ok (some bank))
      (addressed : staticOffset idx' (bank * dim.bank) = .ok offset)
      (others : SettledPlacement ctx env P (base + bank * bankTotal dims) dims rest) :
      SettledPlacement ctx env P base (dim :: dims) { rest with addr := offset :: rest.addr }
  | varying {base : Nat} {idx idx' term offset : TypedExpr} {dim : Dim} {dims : List Dim}
      {rest : Placement} (index : SettledIndex ctx env dim idx idx') (holds : P idx')
      (dynamic : staticBank? env idx' dim = .ok none) (power : isPowerOfTwo dim.bank = true)
      (chosen : bankTerm idx' dim.bank (bankTotal dims) = .ok term)
      (addressed : maskedOffset idx' dim.bank = .ok offset)
      (others : SettledPlacement ctx env P base dims rest) :
      SettledPlacement ctx env P base (dim :: dims)
        { rest with terms := term :: rest.terms, addr := offset :: rest.addr }

theorem settledPlacement_of_placed {tctx : Typing.Context} {types : Typing.Env} {ctx : Context}
    {env : Env} {P : TypedExpr → Prop} (formed : Typing.WellFormed types)
    (agrees : Agrees types env) {dims : List Dim} {idxs : List TypedExpr}
    (indices : Typing.CheckedIndices tctx types dims idxs) (divided : Divided dims)
    (settled : ∀ site ∈ sitesOfIndices env idxs dims, site.Settled)
    (each : ∀ idx idx', idx ∈ idxs → Typing.CheckedExpr tctx types idx → ReadAs ctx env idx idx' →
      (∀ site ∈ sitesOf env idx, site.Settled) → P idx') {strides : List Nat}
    (strided : Layout.stridesOf dims = .ok strides) {base : Nat} {p : Placement}
    (placed : PlacedAs ctx env base idxs (dims.zip strides) p) :
    SettledPlacement ctx env P base dims p := by
  induction dims generalizing idxs strides base p with
  | nil =>
    cases indices
    cases strided
    cases placed
    exact .done
  | cons dim dims ih =>
    obtain ⟨rest, rfl, stridedRest⟩ := Layout.stridesOf_cons strided
    cases indices with
    | @cons _ _ idx idxs checked fits _ indices =>
      simp only [sitesOfIndices, List.cons_append, List.mem_cons, List.mem_append] at settled
      have index {idx' : TypedExpr} (read : ReadAs ctx env idx idx') :
          SettledIndex ctx env dim idx idx' :=
        ⟨⟨tctx, types, formed, agrees, checked⟩, read.ty_eq ▸ fits, divided.head, read,
          settled _ (.inl rfl)⟩
      have holds {idx' : TypedExpr} (read : ReadAs ctx env idx idx') : P idx' :=
        each idx idx' List.mem_cons_self checked read fun site inner =>
          settled site (.inr (.inl inner))
      have later : ∀ site ∈ sitesOfIndices env idxs dims, site.Settled :=
        fun site member => settled site (.inr (.inr member))
      have others : ∀ idx idx', idx ∈ idxs → Typing.CheckedExpr tctx types idx →
          ReadAs ctx env idx idx' → (∀ site ∈ sitesOf env idx, site.Settled) → P idx' :=
        fun idx idx' member => each idx idx' (List.mem_cons_of_mem _ member)
      cases placed with
      | done ended => rcases ended with none | none <;> cases none
      | known value static addressed rest =>
        exact .known (index value) (holds value) static addressed
          (ih indices divided.tail later others stridedRest rest)
      | varying value dynamic power chosen addressed rest =>
        exact .varying (index value) (holds value) dynamic power chosen addressed
          (ih indices divided.tail later others stridedRest rest)

namespace SettledPlacement

variable {ctx : Context} {env : Env} {P : TypedExpr → Prop} {base : Nat} {dims : List Dim}
  {p : Placement}

/-- The known part of the bank number stays below the number of banks. -/
theorem base_lt (placed : SettledPlacement ctx env P base dims p) (divided : Divided dims) :
    p.base < base + bankTotal dims := by
  induction placed with
  | done => exact Nat.lt_succ_self _
  | @known base bank _ _ _ dim dims _ index _ static _ _ ih =>
    have below := ih divided.tail
    have next := Nat.mul_le_mul_right (bankTotal dims) (index.bank_lt static)
    rw [Nat.succ_mul] at next
    rw [bankTotal]
    dsimp only
    omega
  | varying _ _ _ _ _ _ _ ih =>
    have below := ih divided.tail
    have more := (bankTotal_le_cons divided).1
    dsimp only
    omega

/-- A term that is a literal is the number of a bank. -/
theorem static_terms (placed : SettledPlacement ctx env P base dims p) (divided : Divided dims)
    {term : TypedExpr} (member : term ∈ p.terms) {n : Nat} (typed : term.ty = .static n) :
    n < bankTotal dims := by
  induction placed with
  | done => cases member
  | known _ _ _ _ _ ih =>
    exact Nat.lt_of_lt_of_le (ih divided.tail member) (bankTotal_le_cons divided).1
  | @varying _ idx idx' _ _ dim dims _ index _ _ power chosen _ _ ih =>
    rcases List.mem_cons.mp member with rfl | later
    · obtain ⟨bank, quotient, ⟨rfl, _⟩ | rfl⟩ := bankTerm_ok chosen
      · cases quotient with
        | whole none =>
          have unit : dim.bank = 1 := by
            rw [eq_capacity_of_isPowerOfTwo power, none]
            rfl
          have inside : n < dim.size := by
            have fits := index.fits
            rw [typed] at fits
            cases fits
            assumption
          have count := (bankTotal_le_cons divided).2
          rw [unit, Nat.div_one] at count
          omega
        | shifted => cases typed
      · cases typed
    · exact Nat.lt_of_lt_of_le (ih divided.tail later) (bankTotal_le_cons divided).1

end SettledPlacement

end Banking

end BankedLoops
