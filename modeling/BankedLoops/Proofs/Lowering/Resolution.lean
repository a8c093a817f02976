import BankedLoops.Proofs.Banking.Agreement
import BankedLoops.Proofs.Lowering.Renaming

/-!
# Declarations and their cells

The declarations of a component are numbered in the order in which they are lowered. A resolution is
the checker's environment with the number of the declaration that each name leads to, and a ledger
lists the cells that were allocated for each declaration. `Located` replaces the names of a tree by
the cells of the declarations they lead to.
-/

namespace BankedLoops

namespace Scope

variable {α β : Type}

def map (f : α → β) (s : Scope α) : Scope β :=
  ⟨s.inner.map fun entry => (entry.1, f entry.2),
    s.outer.map (List.map fun entry => (entry.1, f entry.2))⟩

theorem lookup_map (f : α → β) (entries : List (String × α)) (name : String) :
    (entries.map fun entry => (entry.1, f entry.2)).lookup name = (entries.lookup name).map f := by
  induction entries with
  | nil => rfl
  | cons entry entries ih =>
    obtain ⟨key, value⟩ := entry
    rw [List.map_cons, List.lookup_cons, List.lookup_cons, ih]
    cases name == key <;> rfl

theorem get?_map (f : α → β) (s : Scope α) (name : String) :
    (s.map f).get? name = (s.get? name).map f := by
  have levels (ls : List (List (String × α))) :
      (ls.map (List.map fun entry => (entry.1, f entry.2))).findSome? (List.lookup name) =
        (ls.findSome? (List.lookup name)).map f := by
    induction ls with
    | nil => rfl
    | cons l ls ih =>
      rw [List.map_cons, List.findSome?_cons, List.findSome?_cons, lookup_map, ih]
      cases l.lookup name <;> rfl
  exact levels (s.inner :: s.outer)

end Scope

namespace Lowering

/-! ### Ledgers -/

def Store.cell : Store → String
  | .register cell _ | .iterator cell _ _ => cell
  | .memory m => m.cell

/-- What was allocated for one declaration. -/
inductive Storage where
  | plain (store : Store)
  /-- The memories of an array in the order of their bank numbers. -/
  | banks (memories : List Memory)

def Storage.stores : Storage → List Store
  | .plain store => [store]
  | .banks memories => memories.map .memory

def storesOf (ledger : List Storage) : List Store := ledger.flatMap Storage.stores

def cellsOf (ledger : List Storage) : List String := (storesOf ledger).map Store.cell

/-- The environment in which every allocated cell goes by its own name. -/
def cellEnv (ledger : List Storage) : Env :=
  ⟨(storesOf ledger).map fun store => (store.cell, store), []⟩

theorem mem_storesOf {ledger : List Storage} {d : Nat} {storage : Storage} {store : Store}
    (found : ledger[d]? = some storage) (member : store ∈ storage.stores) :
    store ∈ storesOf ledger :=
  List.mem_flatMap.mpr ⟨storage, List.mem_of_getElem? found, member⟩

theorem cellsOf_append (ledger added : List Storage) :
    cellsOf (ledger ++ added) = cellsOf ledger ++ cellsOf added := by
  rw [cellsOf, storesOf, List.flatMap_append, List.map_append]
  rfl

theorem get?_cellEnv {ledger : List Storage} (nodup : (cellsOf ledger).Nodup) {store : Store}
    (member : store ∈ storesOf ledger) : (cellEnv ledger).get? store.cell = some store := by
  have general (stores : List Store) (nodup : (stores.map Store.cell).Nodup)
      (member : store ∈ stores) :
      (stores.map fun store => (store.cell, store)).lookup store.cell = some store := by
    induction stores with
    | nil => cases member
    | cons first stores ih =>
      rw [List.map_cons, List.nodup_cons] at nodup
      rw [List.map_cons, List.lookup_cons]
      rcases List.mem_cons.mp member with rfl | later
      · rw [beq_self_eq_true]
      · have different : store.cell ≠ first.cell := by
          intro same
          exact nodup.1 (same ▸ List.mem_map_of_mem later)
        rw [beq_false_of_ne different]
        exact ih nodup.2 later
  simpa [Scope.get?, cellEnv] using general (storesOf ledger) nodup member

/-! ### Located trees -/

/-- The checker's environment, with the number of the declaration behind each name. -/
abbrev Resolution := Scope (Typing.Binding × Nat)

def Resolution.types (r : Resolution) : Typing.Env := r.map Prod.fst

theorem Resolution.get?_of_types {r : Resolution} {name : String} {binding : Typing.Binding}
    (bound : r.types.get? name = some binding) : ∃ d, r.get? name = some (binding, d) := by
  rw [types, Scope.get?_map, Option.map_eq_some_iff] at bound
  obtain ⟨⟨_, d⟩, found, rfl⟩ := bound
  exact ⟨d, found⟩

/-- Built by operators from the given trees and literals. -/
inductive Over (leaves : List TypedExpr) : TypedExpr → Prop where
  | leaf {e : TypedExpr} (member : e ∈ leaves) : Over leaves e
  | int (ty : Ty) (n : Nat) : Over leaves (.int ty n)
  | binop (ty : Ty) (op : BinOp) {lhs rhs : TypedExpr} (left : Over leaves lhs)
      (right : Over leaves rhs) : Over leaves (.binop ty op lhs rhs)

mutual

/-- A tree with cells in place of its names: a scalar is read from the cell of the declaration that
its name leads to, an element from one or from all of the memories of the declaration that the
array leads to. An address is computed from its index, and a bank number from the indices and from
the register that rotates the array. -/
inductive Located (r : Resolution) (ledger : List Storage) (rotors : List (String × TypedExpr)) :
    TypedExpr → TypedExpr → Prop where
  | int (ty : Ty) (n : Nat) : Located r ledger rotors (.int ty n) (.int ty n)
  | bool (ty : Ty) (b : Bool) : Located r ledger rotors (.bool ty b) (.bool ty b)
  | var {ty : Ty} {name : String} {binding : Typing.Binding} {d : Nat} {store : Store}
      (bound : r.get? name = some (binding, d)) (stored : ledger[d]? = some (.plain store)) :
      Located r ledger rotors (.var ty name) (.var ty store.cell)
  | binop (ty : Ty) (op : BinOp) {lhs lhs' rhs rhs' : TypedExpr}
      (left : Located r ledger rotors lhs lhs') (right : Located r ledger rotors rhs rhs') :
      Located r ledger rotors (.binop ty op lhs rhs) (.binop ty op lhs' rhs')
  | direct {ty : Ty} {array : String} {binding : Typing.Binding} {d : Nat} {memories : List Memory}
      {m : Memory} {idxs idxs' addr : List TypedExpr} (bound : r.get? array = some (binding, d))
      (stored : ledger[d]? = some (.banks memories)) (member : m ∈ memories)
      (indices : LocatedAll r ledger rotors idxs idxs')
      (addressed : List.Forall₂ (fun idx a => Over [idx] a) idxs' addr) :
      Located r ledger rotors (.access ty array idxs) (.mem ty m.cell addr)
  | multiplexed {ty : Ty} {array : String} {binding : Typing.Binding} {d : Nat}
      {memories : List Memory} {select : TypedExpr} {idxs idxs' addr : List TypedExpr}
      (bound : r.get? array = some (binding, d)) (stored : ledger[d]? = some (.banks memories))
      (indices : LocatedAll r ledger rotors idxs idxs')
      (selected : Over ((rotors.lookup array).toList ++ idxs') select)
      (addressed : List.Forall₂ (fun idx a => Over [idx] a) idxs' addr) :
      Located r ledger rotors (.access ty array idxs)
        (.muxRead ty (memories.map (·.cell)) select addr)

inductive LocatedAll (r : Resolution) (ledger : List Storage)
    (rotors : List (String × TypedExpr)) : List TypedExpr → List TypedExpr → Prop where
  | nil : LocatedAll r ledger rotors [] []
  | cons {e e' : TypedExpr} {es es' : List TypedExpr} (first : Located r ledger rotors e e')
      (rest : LocatedAll r ledger rotors es es') : LocatedAll r ledger rotors (e :: es) (e' :: es')

end

/-- The memories behind the arguments of a call. -/
inductive LocatedArguments (r : Resolution) (ledger : List Storage) :
    List String → List Memory → Prop where
  | nil : LocatedArguments r ledger [] []
  | cons {arg : String} {args : List String} {binding : Typing.Binding} {d : Nat}
      {memories rest : List Memory} (bound : r.get? arg = some (binding, d))
      (stored : ledger[d]? = some (.banks memories))
      (others : LocatedArguments r ledger args rest) :
      LocatedArguments r ledger (arg :: args) (memories ++ rest)

/-! ### Addresses and bank numbers -/

/-- A property that literals have and that unsigned operators pass on from their operands. -/
structure Inherited (P : TypedExpr → Prop) : Prop where
  literal : ∀ n, P (.lit n)
  unsigned : ∀ width op {lhs rhs : TypedExpr}, P lhs → P rhs → P (.binop (.ubit width) op lhs rhs)

namespace Inherited

variable {P : TypedExpr → Prop} (inherited : Inherited P) {e lhs rhs idx : TypedExpr}

include inherited

theorem widened {op : BinOp} (left : P lhs) (right : P rhs)
    (computed : Banking.widened op lhs rhs = .ok e) : P e := by
  rw [Banking.eq_of_widened computed]
  exact inherited.unsigned _ _ left right

theorem staticOffset {start : Nat} (index : P idx)
    (computed : Banking.staticOffset idx start = .ok e) : P e := by
  obtain ⟨_, _, _, _, rfl⟩ | ⟨_, rfl⟩ | rfl := Banking.staticOffset_cases computed
  · exact inherited.literal _
  · exact index
  · exact inherited.unsigned _ _ index (inherited.literal _)

theorem bankTerm {length stride : Nat} (index : P idx)
    (computed : Banking.bankTerm idx length stride = .ok e) : P e := by
  obtain ⟨bank, divided, scaled⟩ := Banking.bankTerm_ok computed
  have quotient : P bank := by
    cases divided with
    | whole _ => exact index
    | shifted => exact inherited.unsigned _ _ index (inherited.literal _)
  rcases scaled with ⟨rfl, _⟩ | rfl
  · exact quotient
  · exact inherited.unsigned _ _ quotient (inherited.literal _)

theorem maskedOffset {length : Nat} (index : P idx)
    (computed : Banking.maskedOffset idx length = .ok e) : P e := by
  obtain ⟨_, rfl⟩ | ⟨_, rfl⟩ := Banking.maskedOffset_cases computed
  · exact inherited.literal _
  · exact inherited.unsigned _ _ index (inherited.literal _)

theorem selector {base : Nat} {terms : List TypedExpr} (all : ∀ term ∈ terms, P term)
    (computed : Banking.selector base terms = .ok e) : P e :=
  Banking.selector_keeps computed (inherited.literal base) all fun _ _ _ => inherited.widened

theorem wrap {r : Banking.Rotation} {wrapped : TypedExpr} (turned : P e)
    (computed : r.wrap e = .ok wrapped) : P wrapped := by
  obtain ⟨_, typed, rfl⟩ := Banking.Rotation.eq_of_wrap computed
  rw [Banking.Rotation.eq_of_ty typed]
  exact inherited.unsigned _ _ turned (inherited.literal _)

theorem rotated {rotation : Option Banking.Rotation} {select : TypedExpr} (flat : P e)
    (register : ∀ ty name, P (.var ty name))
    (computed : Banking.rotated rotation e = .ok select) : P select := by
  obtain ⟨_, rfl⟩ | ⟨r, ty, sum, _, _, added, wrapped⟩ := Banking.rotated_cases computed
  · exact flat
  · exact inherited.wrap (inherited.widened flat (register ty r.register) added) wrapped

end Inherited

namespace Over

variable {leaves others : List TypedExpr} {e lhs rhs : TypedExpr}

theorem trans (spans : Over leaves e) (inner : ∀ leaf ∈ leaves, Over others leaf) :
    Over others e := by
  induction spans with
  | leaf member => exact inner _ member
  | int ty n => exact .int ty n
  | binop ty op _ _ left right => exact .binop ty op left right

theorem mono (spans : Over leaves e) (subset : leaves ⊆ others) : Over others e :=
  spans.trans fun _ member => .leaf (subset member)

theorem inherited (leaves : List TypedExpr) : Inherited (Over leaves) :=
  ⟨fun n => .int _ n, fun _ op => .binop _ op⟩

theorem widened {op : BinOp} (left : Over leaves lhs) (right : Over leaves rhs)
    (computed : Banking.widened op lhs rhs = .ok e) : Over leaves e :=
  (inherited leaves).widened left right computed

theorem staticOffset {idx : TypedExpr} {start : Nat}
    (computed : Banking.staticOffset idx start = .ok e) : Over [idx] e :=
  (inherited _).staticOffset (.leaf List.mem_cons_self) computed

theorem bankTerm {idx : TypedExpr} {length stride : Nat}
    (computed : Banking.bankTerm idx length stride = .ok e) : Over [idx] e :=
  (inherited _).bankTerm (.leaf List.mem_cons_self) computed

theorem maskedOffset {idx : TypedExpr} {length : Nat}
    (computed : Banking.maskedOffset idx length = .ok e) : Over [idx] e :=
  (inherited _).maskedOffset (.leaf List.mem_cons_self) computed

theorem selector {base : Nat} {terms : List TypedExpr}
    (computed : Banking.selector base terms = .ok e) : Over terms e :=
  (inherited _).selector (fun _ member => .leaf member) computed

theorem wrap {r : Banking.Rotation} (spans : Over leaves e) {wrapped : TypedExpr}
    (computed : r.wrap e = .ok wrapped) : Over leaves wrapped :=
  (inherited leaves).wrap spans computed

/-- A step of a rotation sets its register to a value that is built from the register. -/
theorem step {r : Banking.Rotation} {pos : Nat} {cmd : TypedCommand} (stepped : r.step pos = .ok cmd) :
    ∃ ty next, r.ty = .ok ty ∧ Over [.var ty r.register] next ∧
      cmd = .update pos (.var ty r.register) next := by
  obtain ⟨ty, typed, sum, added, next, wrapped, rfl⟩ := Banking.Rotation.step_update stepped
  have register : Over [.var ty r.register] (.var ty r.register) := .leaf List.mem_cons_self
  exact ⟨ty, next, typed, .wrap (.widened register (.int _ _) added) wrapped, rfl⟩

end Over

/-- Replacing the trees that a tree is built from. -/
theorem Over.renames {env env' : Env} {leaves leaves' : List TypedExpr} {e : TypedExpr}
    (spans : Over leaves e) (all : RenamesAll env env' leaves leaves') :
    ∃ e', Over leaves' e' ∧ Renames env env' e e' := by
  induction spans with
  | leaf member =>
    induction leaves generalizing leaves' with
    | nil => cases member
    | cons leaf leaves ih =>
      cases all with
      | cons first rest =>
        rcases List.mem_cons.mp member with rfl | later
        · exact ⟨_, .leaf List.mem_cons_self, first⟩
        · obtain ⟨e', spans, renames⟩ := ih rest later
          exact ⟨e', spans.mono (List.subset_cons_self _ _), renames⟩
  | int ty n => exact ⟨_, .int ty n, .int ty n⟩
  | binop ty op _ _ left right =>
    obtain ⟨lhs', overLeft, renamesLeft⟩ := left
    obtain ⟨rhs', overRight, renamesRight⟩ := right
    exact ⟨_, .binop ty op overLeft overRight, .binop ty op renamesLeft renamesRight⟩

end Lowering

end BankedLoops
