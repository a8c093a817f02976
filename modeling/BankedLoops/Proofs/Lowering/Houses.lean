import BankedLoops.Proofs.Banking.Scopes
import BankedLoops.Proofs.Lowering.Resolution

/-!
# Names during lowering

In a component none of whose names looks like a bank of one of its arrays, every name of the source
leads to the cells of its own declaration: a scalar and an iterator under their own names, an array
under the names of its memories. `Built` is the invariant of the construction, and its lemmas say
that binding a name, entering a scope and leaving it keep it.
-/

namespace BankedLoops

namespace Lowering

/-- The cells of a declaration are found under the names of its memories. -/
inductive Housed (low : Env) (name : String) : Typing.Binding → Storage → Prop where
  | scalar {ty : Ty} {cell : String} (found : low.get? name = some (.register cell ty.width)) :
      Housed low name (.scalar ty) (.plain (.register cell ty.width))
  | iterator {ty : Ty} {cell : String} {slice : Option String} {width : Nat}
      (found : low.get? name = some (.iterator cell slice width)) :
      Housed low name (.iterator ty) (.plain (.iterator cell slice width))
  | array {elem : Ty} {dims : List Dim} {memories : List Memory}
      (count : memories.length = Banking.bankTotal dims)
      (found : ∀ k m, memories[k]? = some m →
        low.get? (Layout.memory ⟨name, elem, dims⟩ k) = some (.memory m))
      (shaped : ∀ m ∈ memories, m.sizes = dims.map Dim.bank ∧ m.width = elem.width) :
      Housed low name (.array elem dims) (.banks memories)

theorem Housed.congr {low low' : Env} {name : String} {binding : Typing.Binding} {storage : Storage}
    (housed : Housed low name binding storage) (same : low'.get? name = low.get? name)
    (banks : ∀ elem dims k, binding = .array elem dims →
      low'.get? (Layout.memory ⟨name, elem, dims⟩ k) =
        low.get? (Layout.memory ⟨name, elem, dims⟩ k)) :
    Housed low' name binding storage := by
  cases housed with
  | scalar found => exact .scalar (same.trans found)
  | iterator found => exact .iterator (same.trans found)
  | array count found shaped =>
    refine .array count ?_ shaped
    intro k m stored
    exact (banks _ _ k rfl).trans (found k m stored)

/-- Every visible name is one of the component and leads to the cells of its declaration. -/
structure Houses (arrays names : List String) (r : Resolution) (ledger : List Storage)
    (low : Env) : Prop where
  housed : ∀ name binding d, r.get? name = some (binding, d) →
    ∃ storage, ledger[d]? = some storage ∧ Housed low name binding storage
  bound : ∀ name entry, r.get? name = some entry → name ∈ names
  isArray : ∀ name elem dims d, r.get? name = some (.array elem dims, d) → name ∈ arrays

namespace Houses

variable {arrays names : List String} {r : Resolution} {ledger : List Storage} {low : Env}

theorem empty (arrays names : List String) (ledger : List Storage) :
    Houses arrays names {} ledger {} := ⟨nofun, nofun, nofun⟩

theorem enter (houses : Houses arrays names r ledger low) :
    Houses arrays names r.enter ledger low.enter where
  housed := by
    intro name binding d found
    obtain ⟨storage, stored, housed⟩ := houses.housed name binding d found
    exact ⟨storage, stored, housed.congr rfl fun _ _ _ _ => rfl⟩
  bound := houses.bound
  isArray := houses.isArray

theorem extend (houses : Houses arrays names r ledger low) (added : List Storage) :
    Houses arrays names r (ledger ++ added) low where
  housed := by
    intro name binding d found
    obtain ⟨storage, stored, housed⟩ := houses.housed name binding d found
    have inside : d < ledger.length := (List.getElem?_eq_some_iff.mp stored).1
    exact ⟨storage, by rw [List.getElem?_append_left inside, stored], housed⟩
  bound := houses.bound
  isArray := houses.isArray

/-- Binding a name to a declaration that has just been allocated. -/
theorem rebind (houses : Houses arrays names r ledger low) {name : String} (fresh : name ∈ names)
    {binding : Typing.Binding} (array : ∀ elem dims, binding = .array elem dims → name ∈ arrays)
    {storage : Storage} {low' : Env} (new : Housed low' name binding storage)
    (kept : ∀ other found d, other ≠ name → r.get? other = some (found, d) →
      low'.get? other = low.get? other ∧ ∀ elem dims k, found = .array elem dims →
        low'.get? (Layout.memory ⟨other, elem, dims⟩ k) =
          low.get? (Layout.memory ⟨other, elem, dims⟩ k)) :
    Houses arrays names (r.rebind name (binding, ledger.length)) (ledger ++ [storage]) low' where
  housed := by
    intro other found d visible
    rw [Scope.get?_rebind] at visible
    split at visible
    · next same =>
      cases visible
      subst same
      refine ⟨storage, ?_, new⟩
      rw [List.getElem?_append_right (Nat.le_refl _), Nat.sub_self]
      rfl
    · next different =>
      obtain ⟨old, stored, housed⟩ := (houses.extend [storage]).housed other found d visible
      obtain ⟨same, banks⟩ := kept other found d different visible
      exact ⟨old, stored, housed.congr same banks⟩
  bound := by
    intro other entry visible
    rw [Scope.get?_rebind] at visible
    split at visible
    · next same => exact same ▸ fresh
    · exact houses.bound other entry visible
  isArray := by
    intro other elem dims d visible
    rw [Scope.get?_rebind] at visible
    split at visible
    · next same =>
      cases visible
      exact same ▸ array elem dims rfl
    · exact houses.isArray other elem dims d visible

theorem rebindPlain (houses : Houses arrays names r ledger low)
    (clean : Banking.BankNameClean arrays names) {name : String} (fresh : name ∈ names)
    {binding : Typing.Binding} (scalar : ∀ elem dims, binding ≠ .array elem dims) {store : Store}
    (new : Housed (low.rebind name store) name binding (.plain store)) :
    Houses arrays names (r.rebind name (binding, ledger.length)) (ledger ++ [.plain store])
      (low.rebind name store) := by
  refine houses.rebind fresh (fun elem dims same => absurd same (scalar elem dims)) new ?_
  intro other found d different visible
  refine ⟨by rw [Scope.get?_rebind, if_neg different], ?_⟩
  intro elem dims k isArray
  subst isArray
  have member := houses.isArray other elem dims d visible
  have apart := @Banking.memory_ne_name _ _ clean ⟨other, elem, dims⟩ member name fresh
    (Ne.symm different) k
  rw [Scope.get?_rebind, if_neg apart.symm]

theorem rebindArray (houses : Houses arrays names r ledger low)
    (clean : Banking.BankNameClean arrays names) {name : String} (fresh : name ∈ names)
    {elem : Ty} {dims : List Dim} (array : name ∈ arrays) {memories : List Memory} {low' : Env}
    (new : Housed low' name (.array elem dims) (.banks memories))
    (kept : ∀ key, (∀ k, key ≠ Layout.memory ⟨name, elem, dims⟩ k) →
      low'.get? key = low.get? key) :
    Houses arrays names (r.rebind name (.array elem dims, ledger.length))
      (ledger ++ [.banks memories]) low' := by
  refine houses.rebind fresh (fun _ _ _ => array) new ?_
  intro other found d different visible
  have otherBound := houses.bound other _ visible
  refine ⟨kept other (Banking.memory_ne_name clean array otherBound different), ?_⟩
  intro otherElem otherDims k isArray
  subst isArray
  have member := houses.isArray other otherElem otherDims d visible
  apply kept
  exact @Banking.memory_ne_memory _ _ clean ⟨other, otherElem, otherDims⟩ ⟨name, elem, dims⟩ member
    array otherBound fresh different k

/-- Binding a name that neither the component nor a bank has. -/
theorem hide (houses : Houses arrays names r ledger low) {register : String}
    (hidden : register ∉ names) (notBank : ∀ array k, register ≠ Layout.bankName array k)
    (store : Store) : Houses arrays names r ledger (low.rebind register store) where
  housed := by
    intro name binding d found
    obtain ⟨storage, stored, housed⟩ := houses.housed name binding d found
    have bound := houses.bound name _ found
    have different : name ≠ register := fun same => hidden (same ▸ bound)
    refine ⟨storage, stored, housed.congr ?_ ?_⟩
    · rw [Scope.get?_rebind, if_neg different]
    · intro elem dims k _
      rw [Scope.get?_rebind, if_neg]
      unfold Layout.memory
      split
      · exact different
      · exact (notBank name k).symm
  bound := houses.bound
  isArray := houses.isArray

end Houses

/-! ### Hidden registers -/

/-- The register of a rotation goes by a name that neither the component nor a bank has. -/
structure Turn (names : List String) (ledger : List Storage) (low : Env)
    (rotation : Banking.Rotation) (rotor : TypedExpr) : Prop where
  hidden : rotation.register ∉ names
  notBank : ∀ array k, rotation.register ≠ Layout.bankName array k
  stored : ∃ ty cell width, rotation.ty = .ok ty ∧ rotor = .var ty cell ∧
    low.get? rotation.register = some (.register cell width) ∧
    .register cell width ∈ storesOf ledger

/-- Every rotation has its register. -/
def Turns (names : List String) (ledger : List Storage) (low : Env)
    (rotations : List (String × Banking.Rotation)) (rotors : List (String × TypedExpr)) : Prop :=
  List.Forall₂ (fun turning turned =>
    turning.1 = turned.1 ∧ Turn names ledger low turning.2 turned.2) rotations rotors

theorem Turn.congr {names : List String} {ledger : List Storage} {low low' : Env}
    {rotation : Banking.Rotation} {rotor : TypedExpr}
    (turn : Turn names ledger low rotation rotor) (added : List Storage)
    (same : low'.get? rotation.register = low.get? rotation.register) :
    Turn names (ledger ++ added) low' rotation rotor where
  hidden := turn.hidden
  notBank := turn.notBank
  stored := by
    obtain ⟨ty, cell, width, typed, named, found, member⟩ := turn.stored
    refine ⟨ty, cell, width, typed, named, same.trans found, ?_⟩
    rw [storesOf, List.flatMap_append]
    exact List.mem_append_left _ member

namespace Turns

variable {names : List String} {ledger : List Storage} {low low' : Env}
  {rotations : List (String × Banking.Rotation)} {rotors : List (String × TypedExpr)}

theorem congr (turns : Turns names ledger low rotations rotors) (added : List Storage)
    (same : ∀ turning ∈ rotations, turning.2.register ∉ names →
      (∀ array k, turning.2.register ≠ Layout.bankName array k) →
      low'.get? turning.2.register = low.get? turning.2.register) :
    Turns names (ledger ++ added) low' rotations rotors := by
  induction turns with
  | nil => exact .nil
  | cons first _ ih =>
    obtain ⟨named, turn⟩ := first
    refine .cons ⟨named, turn.congr added ?_⟩ ?_
    · exact same _ List.mem_cons_self turn.hidden turn.notBank
    · exact ih fun turning member => same turning (List.mem_cons_of_mem _ member)

theorem lookup_none (turns : Turns names ledger low rotations rotors) {array : String}
    (fixed : rotations.lookup array = none) : rotors.lookup array = none := by
  induction turns with
  | nil => rfl
  | @cons turning turned _ _ first _ ih =>
    obtain ⟨key, rotation⟩ := turning
    obtain ⟨other, rotor⟩ := turned
    obtain ⟨same, _⟩ := first
    dsimp only at same
    subst same
    cases test : array == key with
    | true => simp only [List.lookup_cons, test, reduceCtorEq] at fixed
    | false =>
      simp only [List.lookup_cons, test] at fixed ⊢
      exact ih fixed

theorem lookup_some (turns : Turns names ledger low rotations rotors) {array : String}
    {rotation : Banking.Rotation} (rotated : rotations.lookup array = some rotation) :
    ∃ rotor, rotors.lookup array = some rotor ∧ Turn names ledger low rotation rotor := by
  induction turns with
  | nil => cases rotated
  | @cons turning turned _ _ first _ ih =>
    obtain ⟨key, rotation⟩ := turning
    obtain ⟨other, rotor⟩ := turned
    obtain ⟨same, turn⟩ := first
    dsimp only at same
    subst same
    cases test : array == key with
    | true =>
      simp only [List.lookup_cons, test, Option.some.injEq] at rotated ⊢
      subst rotated
      exact ⟨rotor, rfl, turn⟩
    | false =>
      simp only [List.lookup_cons, test] at rotated ⊢
      exact ih rotated

end Turns

/-! ### Stages -/

/-- A point in the construction of a component. -/
structure Stage where
  scope : Resolution
  ledger : List Storage
  space : Workspace

namespace Stage

/-- Binds a name to the next declaration, for which `storage` has been allocated. -/
def bind (stage : Stage) (name : String) (binding : Typing.Binding) (storage : Storage)
    (space : Workspace) : Stage :=
  ⟨stage.scope.rebind name (binding, stage.ledger.length), stage.ledger ++ [storage], space⟩

/-- Opens a scope, after `space` has been built. -/
def enter (stage : Stage) (space : Workspace) : Stage := ⟨stage.scope.enter, stage.ledger, space⟩

/-- Returns to the scope of `stage` with what has been built since. -/
def leave (stage later : Stage) : Stage := ⟨stage.scope, later.ledger, later.space⟩

def quote (stage : Stage) (s : Setting) (pos : Nat) : Stage :=
  { stage with space := stage.space.quote s pos }

end Stage

structure Built (arrays names : List String) (rotations : List (String × Banking.Rotation))
    (rotors : List (String × TypedExpr)) (stage : Stage) (low : Env) : Prop where
  houses : Houses arrays names stage.scope stage.ledger low
  turns : Turns names stage.ledger low rotations rotors
  nodup : (cellsOf stage.ledger).Nodup
  recorded : cellsOf stage.ledger ⊆ stage.space.cellNames
  sound : stage.space.Sound

namespace Built

variable {arrays names : List String} {rotations : List (String × Banking.Rotation)}
  {rotors : List (String × TypedExpr)} {stage : Stage} {low : Env}

theorem grow (built : Built arrays names rotations rotors stage low) {w : Workspace}
    (grows : Grows stage.space w) :
    Built arrays names rotations rotors { stage with space := w } low where
  houses := built.houses
  turns := built.turns
  nodup := built.nodup
  recorded := fun _ member => grows.cellNames (built.recorded member)
  sound := grows.sound built.sound

theorem quote (built : Built arrays names rotations rotors stage low) (s : Setting) (pos : Nat) :
    Built arrays names rotations rotors (stage.quote s pos) low := built.grow (.of_eq rfl rfl)

theorem enter (built : Built arrays names rotations rotors stage low) {w : Workspace}
    (grows : Grows stage.space w) :
    Built arrays names rotations rotors (stage.enter w) low.enter where
  houses := built.houses.enter
  turns := by
    have entered := @Turns.congr _ _ low low.enter _ _ built.turns [] fun _ _ _ _ => rfl
    rwa [List.append_nil] at entered
  nodup := built.nodup
  recorded := (built.grow grows).recorded
  sound := (built.grow grows).sound

theorem leave (built : Built arrays names rotations rotors stage low) {later : Stage} {inner : Env}
    (after : Built arrays names rotations rotors later inner)
    (extends_ : stage.ledger <+: later.ledger) :
    Built arrays names rotations rotors (stage.leave later) low := by
  obtain ⟨added, same⟩ := extends_
  have ledger : (stage.leave later).ledger = stage.ledger ++ added := same.symm
  constructor
  · rw [ledger]
    exact built.houses.extend added
  · rw [ledger]
    exact built.turns.congr added fun _ _ _ _ => rfl
  · exact after.nodup
  · exact after.recorded
  · exact after.sound

/-- The cells of a declaration are new, so they differ from those of all declarations before. -/
theorem recorded_append (built : Built arrays names rotations rotors stage low) {storage : Storage}
    {w : Workspace} (grows : Grows stage.space w) (distinct : (cellsOf [storage]).Nodup)
    (fresh : ∀ cell ∈ cellsOf [storage], cell ∉ stage.space.names.used)
    (added : cellsOf [storage] ⊆ w.cellNames) :
    (cellsOf (stage.ledger ++ [storage])).Nodup ∧
      cellsOf (stage.ledger ++ [storage]) ⊆ w.cellNames := by
  rw [cellsOf_append]
  constructor
  · refine List.nodup_append.mpr ⟨built.nodup, distinct, ?_⟩
    intro old inside new member same
    rw [same] at inside
    exact fresh new member (built.sound.used (built.recorded inside))
  · intro cell member
    rcases List.mem_append.mp member with old | new
    · exact grows.cellNames (built.recorded old)
    · exact added new

theorem bindPlain (built : Built arrays names rotations rotors stage low)
    (clean : Banking.BankNameClean arrays names) {name : String} (bound : name ∈ names)
    {binding : Typing.Binding} (scalar : ∀ elem dims, binding ≠ .array elem dims) {store : Store}
    (new : Housed (low.rebind name store) name binding (.plain store)) {w : Workspace}
    (grows : Grows stage.space w) (fresh : store.cell ∉ stage.space.names.used)
    (added : store.cell ∈ w.cellNames) :
    Built arrays names rotations rotors (stage.bind name binding (.plain store) w)
      (low.rebind name store) := by
  have cells : cellsOf [.plain store] = [store.cell] := rfl
  obtain ⟨nodup, recorded⟩ := @recorded_append _ _ _ _ _ _ built (.plain store) w grows
    (by rw [cells]; exact List.nodup_singleton _)
    (by rw [cells]; intro cell member; rw [List.mem_singleton.mp member]; exact fresh)
    (by rw [cells]; intro cell member; rw [List.mem_singleton.mp member]; exact added)
  refine ⟨built.houses.rebindPlain clean bound scalar new, ?_, nodup, recorded,
    grows.sound built.sound⟩
  apply built.turns.congr
  intro turning _ hidden _
  have different : turning.2.register ≠ name := fun same => hidden (same ▸ bound)
  rw [Scope.get?_rebind, if_neg different]

theorem bindArray (built : Built arrays names rotations rotors stage low)
    (clean : Banking.BankNameClean arrays names) {name : String} (bound : name ∈ names)
    {elem : Ty} {dims : List Dim} (array : name ∈ arrays) {memories : List Memory} {low' : Env}
    (new : Housed low' name (.array elem dims) (.banks memories))
    (kept : ∀ key, (∀ k, key ≠ Layout.memory ⟨name, elem, dims⟩ k) → low'.get? key = low.get? key)
    {w : Workspace} (grows : Grows stage.space w) (distinct : (memories.map (·.cell)).Nodup)
    (fresh : ∀ m ∈ memories, m.cell ∉ stage.space.names.used)
    (added : memories.map (·.cell) ⊆ w.cellNames) :
    Built arrays names rotations rotors
      (stage.bind name (.array elem dims) (.banks memories) w) low' := by
  have cells : cellsOf [.banks memories] = memories.map (·.cell) := by
    rw [cellsOf, storesOf, List.flatMap_singleton, Storage.stores, List.map_map]
    rfl
  obtain ⟨nodup, recorded⟩ := @recorded_append _ _ _ _ _ _ built (.banks memories) w grows
    (by rw [cells]; exact distinct)
    (by
      rw [cells]
      intro cell member
      obtain ⟨m, inside, rfl⟩ := List.mem_map.mp member
      exact fresh m inside)
    (by rw [cells]; exact added)
  refine ⟨built.houses.rebindArray clean bound array new kept, ?_, nodup, recorded,
    grows.sound built.sound⟩
  apply built.turns.congr
  intro turning _ hidden notBank
  apply kept
  intro k
  unfold Layout.memory
  split
  · exact fun same => hidden (same ▸ bound)
  · exact notBank name k

/-! ### Cells under their own names -/

theorem get?_cellEnv (built : Built arrays names rotations rotors stage low) {d : Nat}
    {storage : Storage} (stored : stage.ledger[d]? = some storage) {store : Store}
    (member : store ∈ storage.stores) : (cellEnv stage.ledger).get? store.cell = some store :=
  Lowering.get?_cellEnv built.nodup (mem_storesOf stored member)

/-- The memories of an array are the same under their bank names and under their own names. -/
theorem sameMemory (built : Built arrays names rotations rotors stage low) {name : String}
    {elem : Ty} {dims : List Dim} {d : Nat}
    (bound : stage.scope.get? name = some (.array elem dims, d)) :
    ∃ memories, stage.ledger[d]? = some (.banks memories) ∧
      memories.length = Banking.bankTotal dims ∧ ∀ k m, memories[k]? = some m →
        SameMemory low (cellEnv stage.ledger) (Layout.memory ⟨name, elem, dims⟩ k) m.cell := by
  obtain ⟨storage, stored, housed⟩ := built.houses.housed name _ d bound
  cases housed with
  | @array _ _ memories count found shaped =>
    refine ⟨memories, stored, count, ?_⟩
    intro k m inside
    refine ⟨m, found k m inside, ?_⟩
    exact @get?_cellEnv _ _ _ _ _ _ built d _ stored (.memory m)
      (List.mem_map.mpr ⟨m, List.mem_of_getElem? inside, rfl⟩)

theorem sameMemories (built : Built arrays names rotations rotors stage low) {name : String}
    {elem : Ty} {dims : List Dim} {d : Nat}
    (bound : stage.scope.get? name = some (.array elem dims, d)) {banks : List String}
    (named : Layout.banks ⟨name, elem, dims⟩ = .ok banks) :
    ∃ memories, stage.ledger[d]? = some (.banks memories) ∧
      List.Forall₂ (SameMemory low (cellEnv stage.ledger)) banks (memories.map (·.cell)) := by
  obtain ⟨memories, stored, count, same⟩ := built.sameMemory bound
  refine ⟨memories, stored, ?_⟩
  rw [Layout.banks_eq named, List.forall₂_iff_get]
  refine ⟨by simp [count], ?_⟩
  intro k left right
  rw [List.length_map] at right
  have inside : memories[k]? = some memories[k] := List.getElem?_eq_getElem right
  simpa using same k memories[k] inside

end Built

end Lowering

end BankedLoops
