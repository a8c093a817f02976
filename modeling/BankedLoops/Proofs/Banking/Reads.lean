import BankedLoops.Proofs.Banking.Addresses
import BankedLoops.Proofs.Banking.Scopes
import BankedLoops.Proofs.Banking.StaticBank

/-!
# Reads and places over banks

An expression over arrays and its physical form have the same value in a store and in its banked
image, and a written element has its place in a bank. The indices of an access lead to the bank and
the offsets of the element, whether the bank is known at compile time or selected at run time.
-/

namespace BankedLoops

namespace Semantics

theorem elementAt_ok {env : Env} {s : State} {array : String} {is : List Nat} {place : Place}
    (found : elementAt env s array is = .ok place) :
    ∃ loc ds, env.get? array = some (.array loc) ∧ s.shapes[loc]? = some ds ∧
      inside ds is = true ∧ place = .element loc is := by
  simp only [elementAt, arrayOf?, bind_ok_iff, orStuck_ok_iff] at found
  obtain ⟨loc, bound, a, stored, found⟩ := found
  split at bound
  · next slot =>
    cases bound
    split at found
    · next within =>
      cases found
      refine ⟨loc, a.dims, slot, ?_, within, rfl⟩
      rw [State.shapes, List.getElem?_map, stored]
      rfl
    · cases found
  · cases bound

theorem elementAt_of_shape {env : Env} {s : State} {array : String} {loc : Nat} {ds : List Dim}
    {is : List Nat} (bound : env.get? array = some (.array loc)) (shaped : s.shapes[loc]? = some ds)
    (within : inside ds is = true) : elementAt env s array is = .ok (.element loc is) := by
  rw [State.shapes, List.getElem?_map, Option.map_eq_some_iff] at shaped
  obtain ⟨a, stored, rfl⟩ := shaped
  simp only [elementAt, arrayOf?, bound, stored, orStuck_some, ok_bind, within, if_true]

end Semantics

namespace Banking

open Semantics

theorem Realises.inRange {shapes : List (List Dim)} {arrays names : List String} {env : Env}
    {run run' : Semantics.Env} (realises : Realises shapes arrays names env run run') :
    InRange env run := by
  intro name range bound
  cases realises.realised name _ bound with
  | iterator left _ low high => exact ⟨_, left, low, high⟩

/-! ### Indices -/

/-- An expression with a value inside an index that is a number of its type. -/
abbrev Worth (m : Machine) (run : Semantics.Env) (s : State) : TypedExpr → Nat → Prop :=
  Denotes m run s true fun _ => True

/-- A register that may index a dimension reaches all of it. -/
theorem fits_of_storable {ty : Ty} {dim : Dim} {v : Nat} (storable : Typing.Storable ty)
    (fits : Typing.IndexFits dim ty) (inside : v < dim.size) : v < Word.capacity ty.width := by
  cases fits with
  | literal _ => exact absurd storable (Typing.not_storable_static _)
  | iterator _ => exact absurd storable (Typing.not_storable_idx _ _)
  | word nonempty wide =>
    have last := lt_capacity_bitsNeeded (dim.size - 1)
    have all := Word.capacity_le wide
    rw [Ty.width]
    omega

section

variable {tctx : Typing.Context} {types : Typing.Env} {ctx : Context} {env : Env}
  {shapes : List (List Dim)} {arrays names : List String} {m m' : Machine}
  {run run' : Semantics.Env} {s s' : State}

/-- An index inside its dimension keeps to its type. -/
theorem index_fits (formed : Typing.WellFormed types) (agrees : Agrees types env)
    (realises : Realises shapes arrays names env run run') {e : TypedExpr} {dim : Dim} {v : Nat}
    (checked : Typing.CheckedExpr tctx types e) (fits : Typing.IndexFits dim e.ty)
    (value : eval m run s true e = .ok v) (inside : v < dim.size) :
    v < Word.capacity e.ty.width := by
  cases checked with
  | int n =>
    cases value
    exact lt_capacity_bitsNeeded v
  | bool b => cases fits
  | scalar bound =>
    cases formed _ _ bound with
    | scalar storable => exact fits_of_storable storable fits inside
  | iterator bound =>
    obtain ⟨found, visible, same⟩ := agrees _ _ bound
    cases same with
    | iterator unroll runs =>
      cases realises.realised _ _ visible with
      | iterator left _ _ high =>
        simp only [eval, scalarOf?, left, orStuck_some, Except.ok.injEq] at value
        subst value
        exact Nat.lt_of_le_of_lt high (lt_capacity_bitsNeeded _)
  | binop left right typed =>
    simp only [eval, bind_ok_iff] at value
    obtain ⟨a, _, b, _, value⟩ := value
    split at value
    · cases value
    · cases value
      exact operation_lt ..
  | access bound indices =>
    exact fits_of_storable (formed.array bound).1 fits inside

theorem indexFits_unsigned {ty : Ty} {dim : Dim} (fits : Typing.IndexFits dim ty) :
    ty.isSigned = false := by
  cases fits <;> rfl

theorem denotes_index (formed : Typing.WellFormed types) (agrees : Agrees types env)
    (realises : Realises shapes arrays names env run run') {idx idx' : TypedExpr} {dim : Dim}
    {v : Nat} (checked : Typing.CheckedExpr tctx types idx) (fits : Typing.IndexFits dim idx.ty)
    (value : eval m run s true idx = .ok v) (inside : v < dim.size) (read : ReadAs ctx env idx idx')
    (physical : eval m' run' s' true idx' = .ok v) : Worth m' run' s' idx' v where
  computes := .leaf trivial physical
  represents := by
    rw [read.ty_eq]
    exact .of_unsigned (indexFits_unsigned fits)
      (index_fits formed agrees realises checked fits value inside)

/-- A bank that is known at compile time is the bank of the index. -/
theorem div_eq_of_staticBank (agrees : Agrees types env)
    (realises : Realises shapes arrays names env run run') {idx idx' : TypedExpr} {dim : Dim}
    {v k : Nat} (checked : Typing.CheckedExpr tctx types idx) (read : ReadAs ctx env idx idx')
    (static : staticBank? env idx' dim = .ok (some k)) (divided : dim.splitsEvenly = .ok true)
    (value : eval m run s true idx = .ok v) (inside : v < dim.size) : v / dim.bank = k := by
  rcases staticBank?_cases static with ⟨single, rfl⟩ | ⟨range, found, low, high⟩
  · obtain ⟨_, count⟩ := Word.div_eq_ok_iff.mp single
    have bank := div_lt_banks divided inside
    rw [count] at bank
    exact Nat.lt_one_iff.mp bank
  · obtain rfl := read.eq_of_interval found
    obtain ⟨x, ideally, between⟩ := ofIndex?_contains realises.inRange found
    have exactly := ideal_of_eval agrees realises.inRange m s _ checked found value
    obtain rfl : x = v := Option.some.inj (ideally.symm.trans exactly)
    exact div_eq_of_between low high between

/-! ### Elements -/

/-- An element is found in its bank, under the name of the bank's memory. -/
theorem elementAt_memory (image : Image shapes s s') {layout : Layout} {loc : Nat}
    (shaped : s.shapes[loc]? = some layout.dims)
    (banks : ∀ k, k < bankTotal layout.dims →
      run'.get? (layout.memory k) = some (.array (blockStart shapes loc + k)))
    {is : List Nat} (within : inside layout.dims is = true) :
    elementAt run' s' (layout.memory (flatBank layout.dims is)) (offsets layout.dims is) =
      .ok (bankPlace shapes loc layout.dims is) := by
  have divided := image.divided layout.dims (List.mem_of_getElem? shaped)
  have bank := flatBank_lt divided within
  refine elementAt_of_shape (banks _ bank) ?_ (inside_offsets divided within)
  rw [image.banks, blockStart_of_isPrefix image.known
    (Nat.le_of_lt (List.getElem?_eq_some_iff.mp shaped).1)]
  exact getElem?_bankShapes shaped bank

/-- What an access to a visible array reads or writes. -/
theorem element_of_access (image : Image shapes s s')
    (realises : Realises shapes arrays names env run run') {array : String} {layout : Layout}
    (visible : env.get? array = some (.array layout)) {is : List Nat} {place : Place}
    (found : elementAt run s array is = .ok place) :
    ∃ loc, s.shapes[loc]? = some layout.dims ∧ inside layout.dims is = true ∧
      place = .element loc is ∧
      elementAt run' s' (layout.memory (flatBank layout.dims is)) (offsets layout.dims is) =
        .ok (bankPlace shapes loc layout.dims is) := by
  obtain ⟨loc, ds, bound, shaped, within, rfl⟩ := elementAt_ok found
  cases realises.realised array _ visible with
  | array named left known right =>
    rw [left] at bound
    cases bound
    obtain rfl : layout.dims = ds :=
      Option.some.inj (known.symm.trans (getElem?_of_isPrefix image.known shaped))
    exact ⟨loc, shaped, within, rfl, elementAt_memory image shaped right within⟩

/-- A placed read gives the element that its indices lead to. -/
theorem eval_resolved (still : ctx.rotations = []) {array : String} {layout : Layout} {ty : Ty}
    {writes : Bool} {p : Placement} {e : TypedExpr}
    (resolved : ResolvedAs ctx array layout ty writes p e)
    {offs vs : List Nat} (addressed : evalIndices m' run' s' p.addr = .ok offs)
    (chosen : List.Forall₂ (Worth m' run' s') p.terms vs)
    (lt : p.base + vs.sum < bankTotal layout.dims) (index : Bool) :
    eval m' run' s' index e =
      (do orStuck (s'.get? (← elementAt run' s' (layout.memory (p.base + vs.sum)) offs))) := by
  cases resolved with
  | direct named known _ found =>
    rw [known] at chosen
    cases chosen
    rw [List.sum_nil, Nat.add_zero] at lt ⊢
    rw [Layout.getElem?_banks named lt] at found
    cases found
    simp only [eval, addressed, ok_bind]
  | multiplexed named _ _ summed selected =>
    rw [still] at selected
    cases selected
    have flat := (Denotes.selector chosen summed).computes.eval_eq
    simp only [eval, flat, Layout.getElem?_banks named lt, addressed, orStuck_some, ok_bind]

/-- A placed write goes to the element that its indices lead to. -/
theorem placeOf_resolved {array : String} {layout : Layout} {ty : Ty} {p : Placement} {e : TypedExpr}
    (resolved : ResolvedAs ctx array layout ty true p e) {offs vs : List Nat}
    (addressed : evalIndices m' run' s' p.addr = .ok offs)
    (chosen : List.Forall₂ (Worth m' run' s') p.terms vs)
    (lt : p.base + vs.sum < bankTotal layout.dims) :
    placeOf m' run' s' e = elementAt run' s' (layout.memory (p.base + vs.sum)) offs := by
  cases resolved with
  | direct named known _ found =>
    rw [known] at chosen
    cases chosen
    rw [List.sum_nil, Nat.add_zero] at lt ⊢
    rw [Layout.getElem?_banks named lt] at found
    cases found
    simp only [placeOf, addressed, ok_bind]
  | multiplexed _ reads _ _ _ => cases reads

/-! ### Expressions -/

mutual

/-- An expression and its physical form have the same value. -/
theorem eval_read (splits : Splits shapes m m') (still : ctx.rotations = [])
    (formed : Typing.WellFormed types) (agrees : Agrees types env)
    (realises : Realises shapes arrays names env run run') (image : Image shapes s s') :
    {e e' : TypedExpr} → ReadAs ctx env e e' → Typing.CheckedExpr tctx types e →
      {index : Bool} → {v : Nat} → eval m run s index e = .ok v →
      eval m' run' s' index e' = .ok v
  | _, _, .int _ _, _, _, _, value => value
  | _, _, .bool _ _, _, _, _, value => value
  | _, _, .var ty name, checked, _, v, value => by
    have visible : ∃ binding, env.get? name = some binding := by
      cases checked with
      | scalar bound =>
        obtain ⟨found, visible, _⟩ := agrees _ _ bound
        exact ⟨found, visible⟩
      | iterator bound =>
        obtain ⟨found, visible, _⟩ := agrees _ _ bound
        exact ⟨found, visible⟩
    obtain ⟨binding, visible⟩ := visible
    simp only [eval, scalarOf?] at value ⊢
    cases realises.realised name binding visible with
    | scalar left right =>
      rw [left] at value
      rw [right]
      exact image.scalars ▸ value
    | iterator left right _ _ =>
      rw [left] at value
      rw [right]
      exact value
    | array _ left _ _ =>
      rw [left] at value
      cases value
  | _, _, .binop left right, checked, index, v, value => by
    cases checked with
    | binop leftChecked rightChecked typed =>
      simp only [eval, bind_ok_iff] at value ⊢
      obtain ⟨a, leftValue, b, rightValue, value⟩ := value
      refine ⟨a, eval_read splits still formed agrees realises image left leftChecked leftValue, b,
        eval_read splits still formed agrees realises image right rightChecked rightValue, ?_⟩
      rw [left.ty_eq, right.ty_eq, splits.product]
      exact value
  | _, _, .access visible strided placed resolved, checked, index, v, value => by
    cases checked with
    | access bound indices =>
      obtain ⟨found, seen, same⟩ := agrees _ _ bound
      cases same
      rw [visible] at seen
      cases seen
      simp only [eval, bind_ok_iff, orStuck_ok_iff] at value
      obtain ⟨is, indexed, place, element, stored⟩ := value
      obtain ⟨loc, shaped, within, rfl, physical⟩ :=
        element_of_access image realises visible element
      have divided := image.divided _ (List.mem_of_getElem? shaped)
      obtain ⟨vs, addressed, chosen, flat⟩ := eval_place splits still formed agrees realises image
        placed indices strided divided indexed within
      rw [Nat.zero_add] at flat
      rw [eval_resolved still resolved addressed chosen (flat ▸ flatBank_lt divided within) index,
        flat, physical, ok_bind, orStuck_ok_iff, image.elements loc _ shaped is within]
      exact stored
  | _, _, .app _, checked, _, _, _ => by cases checked
  | _, _, .mem _ _ _, checked, _, _, _ => by cases checked
  | _, _, .muxRead _ _ _ _, checked, _, _, _ => by cases checked

/-- The indices of an access lead to the bank and the offsets of the element. -/
theorem eval_place (splits : Splits shapes m m') (still : ctx.rotations = [])
    (formed : Typing.WellFormed types) (agrees : Agrees types env)
    (realises : Realises shapes arrays names env run run') (image : Image shapes s s') :
    {base : Nat} → {idxs : List TypedExpr} → {ds : List Dim} → {strides : List Nat} →
      {p : Placement} → PlacedAs ctx env base idxs (ds.zip strides) p →
      Typing.CheckedIndices tctx types ds idxs → Layout.stridesOf ds = .ok strides →
      Divided ds → {is : List Nat} → evalIndices m run s idxs = .ok is → inside ds is = true →
      ∃ vs, evalIndices m' run' s' p.addr = .ok (offsets ds is) ∧
        List.Forall₂ (Worth m' run' s') p.terms vs ∧ p.base + vs.sum = base + flatBank ds is
  | base, _, _, strides, _, placed, .nil, _, _, is, _, _ => by
    cases placed
    exact ⟨[], rfl, .nil, rfl⟩
  | base, _, _, strides, _, placed, .cons checked fits _ rest, strided, divided, is, indexed,
      within => by
    obtain ⟨others, rfl, inner⟩ := Layout.stridesOf_cons strided
    simp only [evalIndices, bind_ok_iff, Except.ok.injEq] at indexed
    obtain ⟨i, value, is, indexed, rfl⟩ := indexed
    simp only [inside, Bool.and_eq_true, decide_eq_true_eq] at within
    rw [List.zip_cons_cons] at placed
    cases placed with
    | done ended => simp at ended
    | known read static addressed placed =>
      have denotes := denotes_index formed agrees realises checked fits value within.1 read
        (eval_read splits still formed agrees realises image read checked value)
      have bank := div_eq_of_staticBank agrees realises checked read static divided.head value
        within.1
      obtain ⟨vs, offset, terms, flat⟩ := eval_place splits still formed agrees realises image
        placed rest inner divided.tail indexed within.2
      subst bank
      have first := (denotes.staticOffset (Nat.div_mul_le_self i _) addressed).eval_eq
      refine ⟨vs, ?_, terms, ?_⟩
      · rw [evalIndices, first, offset, ← Nat.mod_eq_sub_div_mul]
        rfl
      · rw [flat, flatBank, Nat.add_assoc]
    | varying read _ power chosen addressed placed =>
      have denotes := denotes_index formed agrees realises checked fits value within.1 read
        (eval_read splits still formed agrees realises image read checked value)
      obtain ⟨vs, offset, terms, flat⟩ := eval_place splits still formed agrees realises image
        placed rest inner divided.tail indexed within.2
      have first := (denotes.maskedOffset power addressed).eval_eq
      refine ⟨_ :: vs, ?_, .cons (denotes.bankTerm power chosen) terms, ?_⟩
      · rw [evalIndices, first, offset]
        rfl
      · rw [List.sum_cons, flatBank]
        dsimp only
        omega

end

end

end Banking

end BankedLoops
