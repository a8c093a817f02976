import BankedLoops.Proofs.Banking.Agreement
import BankedLoops.Proofs.Banking.Image

/-!
# Names at run time

In a program none of whose names looks like a bank of one of its arrays, every name keeps its
meaning when arrays are split: a scalar and an iterator keep their name, and the banks of an array
are found under the names of its memories.
-/

namespace BankedLoops

namespace Banking

/-! ### Programs without bank names -/

mutual

/-- Every array that a command declares. -/
def arraysIn : TypedCommand → List String
  | .decl _ name ty => if ty.isArray then [name] else []
  | .seq _ cmds => arraysInSeq cmds
  | .branch _ _ onTrue onFalse => arraysIn onTrue ++ arraysInElse onFalse
  | .loop _ _ body => arraysIn body
  | _ => []

def arraysInSeq : List TypedCommand → List String
  | [] => []
  | cmd :: cmds => arraysIn cmd ++ arraysInSeq cmds

def arraysInElse : Option TypedCommand → List String
  | none => []
  | some cmd => arraysIn cmd

end

/-- The arrays of a component, by its storage and its body. -/
def arrayNames (ds : List Decl) (body : Option TypedCommand) : List String :=
  (ds.filter (·.ty.isArray)).map (·.name) ++ arraysInElse body

/-- The names that a component binds. -/
def boundNames (ds : List Decl) (body : Option TypedCommand) : List String :=
  ds.map (·.name) ++ bindersOfElse body

/-- No name is that of a bank. -/
def BankNameClean (arrays names : List String) : Prop :=
  ∀ a ∈ arrays, ∀ k, Layout.bankName a k ∉ names

/-- The name of a bank has more than two characters. -/
theorem clean_of_short {arrays names : List String}
    (short : ∀ name ∈ names, name.toList.length ≤ 2) : BankNameClean arrays names := by
  intro a _ k bound
  have length := short _ bound
  have digits := Nat.length_toDigits_pos (b := 10) (n := k)
  simp only [Layout.toList_bankName, List.length_append, List.length_cons, List.length_nil] at length
  omega

end Banking

/-- No component binds a name that looks like a bank of one of its arrays. -/
structure Program.BankNameClean (p : TypedProgram) : Prop where
  functions : ∀ f ∈ p.defs, Banking.BankNameClean (Banking.arrayNames f.params (some f.body))
    (Banking.boundNames f.params (some f.body))
  root : Banking.BankNameClean (Banking.arrayNames p.decls p.body) (Banking.boundNames p.decls p.body)

/-- Whether every name that a component binds is shorter than that of any bank. -/
def Program.hasShortNames (p : TypedProgram) : Bool :=
  (p.defs.all fun f => (Banking.boundNames f.params (some f.body)).all (·.toList.length ≤ 2)) &&
    (Banking.boundNames p.decls p.body).all (·.toList.length ≤ 2)

theorem Program.clean_of_hasShortNames {p : TypedProgram} (short : p.hasShortNames = true) :
    p.BankNameClean := by
  obtain ⟨functions, root⟩ := Bool.and_eq_true_iff.mp short
  refine ⟨fun f member => ?_, ?_⟩
  · have short := List.all_eq_true.mp functions f member
    exact Banking.clean_of_short fun name inside =>
      of_decide_eq_true (List.all_eq_true.mp short name inside)
  · exact Banking.clean_of_short fun name inside =>
      of_decide_eq_true (List.all_eq_true.mp root name inside)

namespace Banking

/-! ### Memories -/

/-- The memories of an array have other names than anything else in a clean component. -/
theorem memory_ne_name {arrays names : List String} (clean : BankNameClean arrays names)
    {l : Layout} (isArray : l.name ∈ arrays) {name : String} (bound : name ∈ names)
    (different : name ≠ l.name) (k : Nat) : name ≠ l.memory k := by
  unfold Layout.memory
  split
  · exact different
  · intro same
    rw [same] at bound
    exact clean l.name isArray k bound

theorem memory_ne_memory {arrays names : List String} (clean : BankNameClean arrays names)
    {l r : Layout} (leftArray : l.name ∈ arrays) (rightArray : r.name ∈ arrays)
    (leftBound : l.name ∈ names) (rightBound : r.name ∈ names) (different : l.name ≠ r.name)
    (j k : Nat) : l.memory j ≠ r.memory k := by
  by_cases single : bankTotal l.dims = 1
  · rw [show l.memory j = l.name from if_pos single]
    exact memory_ne_name clean rightArray leftBound different k
  · by_cases otherSingle : bankTotal r.dims = 1
    · rw [show r.memory k = r.name from if_pos otherSingle]
      exact (memory_ne_name clean leftArray rightBound different.symm j).symm
    · rw [show l.memory j = Layout.bankName l.name j from if_neg single,
        show r.memory k = Layout.bankName r.name k from if_neg otherSingle]
      intro same
      exact different (Layout.bankName_inj same).1

/-- Binds the banks of an array to the locations from `start` on. -/
def bindBanks (run : Semantics.Env) (l : Layout) (start : Nat) : Nat → Semantics.Env
  | 0 => run
  | k + 1 => (bindBanks run l start k).rebind (l.memory k) (.array (start + k))

theorem get?_bindBanks_of_ne {run : Semantics.Env} {l : Layout} {start : Nat} {name : String}
    (different : ∀ k, name ≠ l.memory k) (count : Nat) :
    (bindBanks run l start count).get? name = run.get? name := by
  induction count with
  | zero => rfl
  | succ count ih => rw [bindBanks, Scope.get?_rebind, if_neg (different count), ih]

theorem get?_bindBanks {run : Semantics.Env} {l : Layout} {start count k : Nat}
    (bounded : count ≤ bankTotal l.dims) (lt : k < count) :
    (bindBanks run l start count).get? (l.memory k) = some (.array (start + k)) := by
  induction count with
  | zero => omega
  | succ count ih =>
    rw [bindBanks, Scope.get?_rebind]
    by_cases last : k = count
    · rw [last, if_pos rfl]
    · rw [if_neg, ih (by omega) (by omega)]
      intro same
      exact last (Layout.memory_inj (by omega) (by omega) same)

/-! ### Environments -/

/-- What a name of the split program stands for in the runs over arrays and over banks. -/
inductive Realised (shapes : List (List Dim)) (run run' : Semantics.Env) (name : String) :
    Binding → Prop where
  | scalar {loc : Nat} (left : run.get? name = some (.scalar loc))
      (right : run'.get? name = some (.scalar loc)) : Realised shapes run run' name .scalar
  | iterator {range : Interval} {v : Nat} (left : run.get? name = some (.iterator v))
      (right : run'.get? name = some (.iterator v)) (low : range.lo ≤ v) (high : v ≤ range.hi) :
      Realised shapes run run' name (.iterator range)
  | array {layout : Layout} {loc : Nat} (named : layout.name = name)
      (left : run.get? name = some (.array loc)) (shaped : shapes[loc]? = some layout.dims)
      (right : ∀ k, k < bankTotal layout.dims →
        run'.get? (layout.memory k) = some (.array (blockStart shapes loc + k))) :
      Realised shapes run run' name (.array layout)

/-- Every visible name is one of the component and means the same in both runs. -/
structure Realises (shapes : List (List Dim)) (arrays names : List String) (env : Env)
    (run run' : Semantics.Env) : Prop where
  realised : ∀ name binding, env.get? name = some binding → Realised shapes run run' name binding
  bound : ∀ name binding, env.get? name = some binding → name ∈ names
  isArray : ∀ name layout, env.get? name = some (.array layout) → name ∈ arrays
  covered : ∀ name slot, run.get? name = some slot → ∃ binding, env.get? name = some binding

namespace Realises

variable {shapes : List (List Dim)} {arrays names : List String} {env : Env}
  {run run' : Semantics.Env}

theorem empty (shapes : List (List Dim)) (arrays names : List String) :
    Realises shapes arrays names {} {} {} where
  realised := by
    intro name binding bound
    cases bound
  bound := by
    intro name binding bound
    cases bound
  isArray := by
    intro name layout bound
    cases bound
  covered := by
    intro name slot bound
    cases bound

theorem enter (realises : Realises shapes arrays names env run run') :
    Realises shapes arrays names env.enter run.enter run'.enter where
  realised := by
    intro name binding bound
    cases realises.realised name binding bound with
    | scalar left right => exact .scalar left right
    | iterator left right low high => exact .iterator left right low high
    | array named left shaped right => exact .array named left shaped right
  bound := realises.bound
  isArray := realises.isArray
  covered := realises.covered

/-- A name that means the same under other bindings. -/
theorem realised_of_ne (realises : Realises shapes arrays names env run run')
    {next next' : Semantics.Env} {name : String} {binding : Binding}
    (visible : env.get? name = some binding) (left : next.get? name = run.get? name)
    (right : next'.get? name = run'.get? name)
    (banks : ∀ layout k, binding = .array layout →
      next'.get? (layout.memory k) = run'.get? (layout.memory k)) :
    Realised shapes next next' name binding := by
  cases realises.realised name binding visible with
  | scalar leftFound rightFound => exact .scalar (left.trans leftFound) (right.trans rightFound)
  | iterator leftFound rightFound low high =>
    exact .iterator (left.trans leftFound) (right.trans rightFound) low high
  | array named leftFound shaped rightFound =>
    refine .array named (left.trans leftFound) shaped ?_
    intro k lt
    rw [banks _ k rfl]
    exact rightFound k lt

/-- Binding a scalar or an iterator. -/
theorem rebind (realises : Realises shapes arrays names env run run')
    (clean : BankNameClean arrays names) {name : String} (fresh : name ∈ names) {binding : Binding}
    (plain : ∀ layout, binding ≠ .array layout) {slot : Semantics.Slot}
    (new : Realised shapes (run.rebind name slot) (run'.rebind name slot) name binding) :
    Realises shapes arrays names (env.rebind name binding) (run.rebind name slot)
      (run'.rebind name slot) where
  realised := by
    intro other found visible
    rw [Scope.get?_rebind] at visible
    split at visible
    · next same =>
      cases visible
      rw [same]
      exact new
    · next different =>
      refine realises.realised_of_ne visible ?_ ?_ ?_
      · rw [Scope.get?_rebind, if_neg different]
      · rw [Scope.get?_rebind, if_neg different]
      · intro layout k isArray
        subst isArray
        have named : layout.name = other := by
          cases realises.realised other _ visible
          assumption
        rw [Scope.get?_rebind, if_neg]
        have member := realises.isArray other layout visible
        rw [← named] at member different
        exact (memory_ne_name clean member fresh (Ne.symm different) k).symm
  bound := by
    intro other found visible
    rw [Scope.get?_rebind] at visible
    split at visible
    · next same => exact same ▸ fresh
    · exact realises.bound other found visible
  isArray := by
    intro other layout visible
    rw [Scope.get?_rebind] at visible
    split at visible
    · exact absurd (Option.some.inj visible) (plain layout)
    · exact realises.isArray other layout visible
  covered := by
    intro other found visible
    rw [Scope.get?_rebind] at visible ⊢
    split at visible
    · next same => exact ⟨_, if_pos same⟩
    · next different =>
      rw [if_neg different]
      exact realises.covered other found visible

theorem rebindScalar (realises : Realises shapes arrays names env run run')
    (clean : BankNameClean arrays names) {name : String} (fresh : name ∈ names) (loc : Nat) :
    Realises shapes arrays names (env.rebind name .scalar) (run.rebind name (.scalar loc))
      (run'.rebind name (.scalar loc)) :=
  realises.rebind clean fresh (by simp)
    (.scalar (Scope.get?_rebind_self ..) (Scope.get?_rebind_self ..))

theorem rebindIterator (realises : Realises shapes arrays names env run run')
    (clean : BankNameClean arrays names) {name : String} (fresh : name ∈ names)
    (range : Interval) {v : Nat} (low : range.lo ≤ v) (high : v ≤ range.hi) :
    Realises shapes arrays names (env.rebind name (.iterator range))
      (run.rebind name (.iterator v)) (run'.rebind name (.iterator v)) :=
  realises.rebind clean fresh (by simp)
    (.iterator (Scope.get?_rebind_self ..) (Scope.get?_rebind_self ..) low high)

/-- Binding an array, and its banks in the run over banks. -/
theorem rebindArray (realises : Realises shapes arrays names env run run')
    (clean : BankNameClean arrays names) (layout : Layout) (fresh : layout.name ∈ names)
    (array : layout.name ∈ arrays) {loc : Nat} (shaped : shapes[loc]? = some layout.dims) :
    Realises shapes arrays names (env.rebind layout.name (.array layout))
      (run.rebind layout.name (.array loc))
      (bindBanks run' layout (blockStart shapes loc) (bankTotal layout.dims)) where
  realised := by
    intro other found visible
    rw [Scope.get?_rebind] at visible
    split at visible
    · next same =>
      cases visible
      refine .array same.symm ?_ shaped ?_
      · rw [Scope.get?_rebind, if_pos same]
      · intro k lt
        exact get?_bindBanks (Nat.le_refl _) lt
    · next different =>
      have otherBound := realises.bound other found visible
      refine realises.realised_of_ne visible ?_ ?_ ?_
      · rw [Scope.get?_rebind, if_neg different]
      · exact get?_bindBanks_of_ne (memory_ne_name clean array otherBound different) _
      · intro otherLayout k isArray
        subst isArray
        have named : otherLayout.name = other := by
          cases realises.realised other _ visible
          assumption
        have member := realises.isArray other otherLayout visible
        rw [← named] at member otherBound different
        exact get?_bindBanks_of_ne
          (memory_ne_memory clean member array otherBound fresh different k) _
  bound := by
    intro other found visible
    rw [Scope.get?_rebind] at visible
    split at visible
    · next same => exact same ▸ fresh
    · exact realises.bound other found visible
  isArray := by
    intro other found visible
    rw [Scope.get?_rebind] at visible
    split at visible
    · next same => exact same ▸ array
    · exact realises.isArray other found visible
  covered := by
    intro other found visible
    rw [Scope.get?_rebind] at visible ⊢
    split at visible
    · next same => exact ⟨_, if_pos same⟩
    · next different =>
      rw [if_neg different]
      exact realises.covered other found visible

end Realises

end Banking

end BankedLoops
