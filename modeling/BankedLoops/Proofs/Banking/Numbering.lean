import BankedLoops.Proofs.Banking.Reached

/-!
# Arrays by number

A component can declare several arrays under one name. Its declarations of arrays are numbered in the
order of the text, those of its storage first. `numbering` follows the numbers of the declarations that
names lead to into the commands of a body, and `Numbers` says that the split into banks has the layouts
of just these declarations.
-/

namespace BankedLoops

namespace Banking

mutual

/-- The arrays that a command declares, in the order of the text. -/
def layoutsIn : TypedCommand → List Layout
  | .decl _ name ty => (Layout.ofTy? name ty).toList
  | .seq _ cmds => layoutsInSeq cmds
  | .branch _ _ onTrue onFalse => layoutsIn onTrue ++ layoutsInElse onFalse
  | .loop _ _ body => layoutsIn body
  | _ => []

def layoutsInSeq : List TypedCommand → List Layout
  | [] => []
  | cmd :: cmds => layoutsIn cmd ++ layoutsInSeq cmds

def layoutsInElse : Option TypedCommand → List Layout
  | none => []
  | some cmd => layoutsIn cmd

end

/-- The arrays of a component. An array has the number of its place here. -/
def layoutsOf (ds : List Decl) (body : TypedCommand) : List Layout :=
  ds.filterMap (fun d => Layout.ofTy? d.name d.ty) ++ layoutsIn body

/-- How many arrays are declared before a command, and the numbers of those that names lead to. -/
structure Numbering where
  next : Nat := 0
  number : String → Option Nat := fun _ => none

namespace Numbering

/-- A name that leads to something else than an array. -/
def hide (s : Numbering) (name : String) : Numbering :=
  { s with number := fun other => if other = name then none else s.number other }

def declare (s : Numbering) (name : String) (ty : Ty) : Numbering :=
  match Layout.ofTy? name ty with
  | some _ => ⟨s.next + 1, fun other => if other = name then some s.next else s.number other⟩
  | none => s.hide name

/-- Behind arrays that are not visible. -/
def skip (s : Numbering) (layouts : List Layout) : Numbering :=
  { s with next := s.next + layouts.length }

mutual

def after (s : Numbering) : TypedCommand → Numbering
  | .decl _ name ty => s.declare name ty
  | .define _ name _ _ => s.hide name
  | .seq _ cmds => s.afterSeq cmds
  | cmd => s.skip (layoutsIn cmd)

def afterSeq (s : Numbering) : List TypedCommand → Numbering
  | [] => s
  | cmd :: cmds => (s.after cmd).afterSeq cmds

end

/-- Behind the storage of a component. -/
def ofDecls (ds : List Decl) : Numbering :=
  ds.foldl (fun s d => s.declare d.name d.ty) {}

end Numbering

def numbering : Pass Ty TypedExpr Numbering where
  behind s cmds := some (s.afterSeq cmds)
  onTrue s _ _ := some s
  onFalse s _ _ onTrue := some (s.skip (layoutsIn onTrue))
  round s header := some (s.hide header.iter)

theorem total_numbering : numbering.Total :=
  ⟨fun _ _ => ⟨_, rfl⟩, fun _ _ _ => ⟨_, rfl⟩, fun _ _ _ _ => ⟨_, rfl⟩, fun _ _ => ⟨_, rfl⟩⟩

/-! ### Declarations in the text -/

theorem layoutsInSeq_append (cmds others : List TypedCommand) :
    layoutsInSeq (cmds ++ others) = layoutsInSeq cmds ++ layoutsInSeq others := by
  induction cmds with
  | nil => rfl
  | cons cmd cmds ih => rw [List.cons_append, layoutsInSeq, ih, layoutsInSeq, List.append_assoc]

theorem layoutsInSeq_item {cmds : List TypedCommand} {k : Nat} {cmd : TypedCommand}
    (found : cmds[k]? = some cmd) :
    layoutsInSeq (cmds.take k) ++ layoutsIn cmd <+: layoutsInSeq cmds := by
  obtain ⟨lt, rfl⟩ := List.getElem?_eq_some_iff.mp found
  refine ⟨layoutsInSeq (cmds.drop (k + 1)), ?_⟩
  rw [List.append_assoc, ← layoutsInSeq, List.getElem_cons_drop, ← layoutsInSeq_append,
    List.take_append_drop]

theorem prefix_drop_of_append {α : Type} {xs ys all : List α} {n : Nat}
    (front : xs ++ ys <+: all.drop n) : ys <+: all.drop (n + xs.length) := by
  obtain ⟨rest, same⟩ := front
  rw [← List.drop_drop, ← same, List.append_assoc, List.drop_left]
  exact List.prefix_append ys rest

mutual

/-- The first declaration of a name is one of the arrays, if it is that of an array. -/
theorem mem_layoutsIn_of_declaredTy? {array : String} {ty : Ty} {layout : Layout}
    (isArray : Layout.ofTy? array ty = some layout) : (cmd : TypedCommand) →
      declaredTy? array cmd = some ty → layout ∈ layoutsIn cmd
  | .decl _ name _, found => by
    rw [declaredTy?] at found
    split at found
    · next same =>
      cases found
      subst same
      exact Option.mem_toList.mpr isArray
    · cases found
  | .seq _ cmds, found => mem_layoutsInSeq_of_declaredTy? isArray cmds found
  | .branch _ _ onTrue onFalse, found => by
    rw [declaredTy?, Option.or_eq_some_iff] at found
    rcases found with inTrue | ⟨_, inFalse⟩
    · exact List.mem_append_left _ (mem_layoutsIn_of_declaredTy? isArray onTrue inTrue)
    · exact List.mem_append_right _ (mem_layoutsInElse_of_declaredTy? isArray onFalse inFalse)
  | .loop _ _ body, found => mem_layoutsIn_of_declaredTy? isArray body found

theorem mem_layoutsInSeq_of_declaredTy? {array : String} {ty : Ty} {layout : Layout}
    (isArray : Layout.ofTy? array ty = some layout) : (cmds : List TypedCommand) →
      declaredTyOfSeq? array cmds = some ty → layout ∈ layoutsInSeq cmds
  | cmd :: cmds, found => by
    rw [declaredTyOfSeq?, Option.or_eq_some_iff] at found
    rcases found with first | ⟨_, later⟩
    · exact List.mem_append_left _ (mem_layoutsIn_of_declaredTy? isArray cmd first)
    · exact List.mem_append_right _ (mem_layoutsInSeq_of_declaredTy? isArray cmds later)

theorem mem_layoutsInElse_of_declaredTy? {array : String} {ty : Ty} {layout : Layout}
    (isArray : Layout.ofTy? array ty = some layout) : (cmd : Option TypedCommand) →
      declaredTyOfElse? array cmd = some ty → layout ∈ layoutsInElse cmd
  | some cmd, found => mem_layoutsIn_of_declaredTy? isArray cmd found

end

namespace Numbering

variable (s : Numbering)

@[simp]
theorem next_declare (name : String) (ty : Ty) :
    (s.declare name ty).next = s.next + (Layout.ofTy? name ty).toList.length := by
  unfold declare
  split
  · next found => rw [found]; rfl
  · next found => rw [found]; rfl

mutual

@[simp]
theorem next_after (s : Numbering) : (cmd : TypedCommand) →
    (s.after cmd).next = s.next + (layoutsIn cmd).length
  | .decl _ name ty => s.next_declare name ty
  | .seq _ cmds => s.next_afterSeq cmds
  | .define .. | .branch .. | .loop .. | .update .. | .reduce .. | .eval .. | .advance .. | .skip .. =>
    rfl

@[simp]
theorem next_afterSeq (s : Numbering) : (cmds : List TypedCommand) →
    (s.afterSeq cmds).next = s.next + (layoutsInSeq cmds).length
  | [] => rfl
  | cmd :: cmds => by
    rw [afterSeq, next_afterSeq, next_after, layoutsInSeq, List.length_append, Nat.add_assoc]

end

theorem next_ofDecls (ds : List Decl) :
    (ofDecls ds).next = (ds.filterMap fun d => Layout.ofTy? d.name d.ty).length := by
  have general : ∀ (ds : List Decl) (s : Numbering),
      (ds.foldl (fun s d => s.declare d.name d.ty) s).next =
        s.next + (ds.filterMap fun d => Layout.ofTy? d.name d.ty).length := by
    intro ds
    induction ds with
    | nil => exact fun _ => rfl
    | cons d ds ih =>
      intro s
      rw [List.foldl_cons, ih, next_declare, List.filterMap_cons]
      cases Layout.ofTy? d.name d.ty <;> simp [Nat.add_assoc, Nat.add_comm]
  rw [ofDecls, general, Nat.zero_add]

end Numbering

/-! ### Numbers and layouts -/

/-- A name leads to the array with this number and this layout. -/
structure LeadsTo (layouts : List Layout) (s : Numbering) (array : String) (k : Nat)
    (layout : Layout) : Prop where
  numbered : s.number array = some k
  listed : layouts[k]? = some layout
  named : layout.name = array

/-- A name leads to an array of the split exactly if it leads to a declaration, and then to the array
of that number. -/
structure Numbers (layouts : List Layout) (s : Numbering) (env : Env) : Prop where
  array : ∀ name k, s.number name = some k →
    ∃ l, layouts[k]? = some l ∧ l.name = name ∧ env.get? name = some (.array l)
  other : ∀ name, s.number name = none → ∀ l, env.get? name ≠ some (.array l)

namespace Numbers

variable {layouts : List Layout} {s : Numbering} {env : Env}

theorem empty (layouts : List Layout) : Numbers layouts {} {} :=
  ⟨nofun, fun _ _ _ => nofun⟩

theorem enter (numbers : Numbers layouts s env) : Numbers layouts s env.enter :=
  ⟨numbers.array, numbers.other⟩

theorem skip (numbers : Numbers layouts s env) (others : List Layout) :
    Numbers layouts (s.skip others) env :=
  ⟨numbers.array, numbers.other⟩

theorem of_get? (numbers : Numbers layouts s env) {name : String} {l : Layout}
    (bound : env.get? name = some (.array l)) : ∃ k, LeadsTo layouts s name k l := by
  cases found : s.number name with
  | none => exact absurd bound (numbers.other name found l)
  | some k =>
    obtain ⟨l', listed, named, visible⟩ := numbers.array name k found
    rw [bound] at visible
    cases visible
    exact ⟨k, found, listed, named⟩

theorem hide (numbers : Numbers layouts s env) (name : String) {binding : Binding}
    (isOther : ∀ l, binding ≠ .array l) : Numbers layouts (s.hide name) (env.rebind name binding) := by
  constructor
  · intro other k found
    rw [Numbering.hide] at found
    dsimp only at found
    split at found
    · cases found
    · next different =>
      rw [Scope.get?_rebind, if_neg different]
      exact numbers.array other k found
  · intro other found l bound
    rw [Numbering.hide] at found
    dsimp only at found
    rw [Scope.get?_rebind] at bound
    split at found
    · next same =>
      rw [if_pos same] at bound
      exact isOther l (Option.some.inj bound)
    · next different =>
      rw [if_neg different] at bound
      exact numbers.other other found l bound

/-- A register under a name that is not bound. -/
theorem register (numbers : Numbers layouts s env) {name : String} (free : env.get? name = none) :
    Numbers layouts s (env.rebind name .scalar) := by
  have unnumbered : s.number name = none := by
    rw [Option.eq_none_iff_forall_ne_some]
    intro k found
    obtain ⟨_, _, _, visible⟩ := numbers.array name k found
    rw [free] at visible
    cases visible
  have same : s.hide name = s := by
    rw [Numbering.hide]
    congr
    funext other
    split
    · next equal => rw [equal, unnumbered]
    · rfl
  rw [← same]
  exact numbers.hide name nofun

theorem declare (numbers : Numbers layouts s env) {name : String} {ty : Ty}
    (inText : (Layout.ofTy? name ty).toList <+: layouts.drop s.next) :
    Numbers layouts (s.declare name ty) (env.rebind name (.ofTy name ty)) := by
  unfold Numbering.declare Binding.ofTy
  cases isArray : Layout.ofTy? name ty with
  | none => exact numbers.hide name fun _ => nofun
  | some layout =>
    obtain ⟨elem, dims, rfl, rfl⟩ := isArray_of_ofTy? isArray
    have here : layouts[s.next]? = some ⟨name, elem, dims⟩ := by
      obtain ⟨rest, same⟩ := inText
      rw [← List.head?_drop, ← same]
      rfl
    constructor
    · intro other k found
      rw [Scope.get?_rebind]
      dsimp only at found
      split at found
      · next same =>
        cases found
        exact ⟨_, here, same.symm, by rw [if_pos same]⟩
      · next different =>
        rw [if_neg different]
        exact numbers.array other k found
    · intro other found l
      rw [Scope.get?_rebind]
      dsimp only at found
      split at found
      · cases found
      · next different =>
        rw [if_neg different]
        exact numbers.other other found l

end Numbers

mutual

theorem Numbers.after {layouts : List Layout} {s : Numbering} {env : Env}
    (numbers : Numbers layouts s env) : (cmd : TypedCommand) →
      layoutsIn cmd <+: layouts.drop s.next → Numbers layouts (s.after cmd) (after env cmd)
  | .decl _ _ _, inText => numbers.declare inText
  | .define _ name _ _, _ => numbers.hide name nofun
  | .seq _ cmds, inText => numbers.afterSeq cmds inText
  | .branch .., _ | .loop .., _ | .update .., _ | .reduce .., _ | .eval .., _ | .advance .., _
  | .skip _, _ => numbers.skip _

theorem Numbers.afterSeq {layouts : List Layout} {s : Numbering} {env : Env}
    (numbers : Numbers layouts s env) : (cmds : List TypedCommand) →
      layoutsInSeq cmds <+: layouts.drop s.next → Numbers layouts (s.afterSeq cmds) (afterSeq env cmds)
  | [], _ => numbers
  | cmd :: cmds, inText => by
    refine (numbers.after cmd ((List.prefix_append _ _).trans inText)).afterSeq cmds ?_
    rw [Numbering.next_after]
    exact prefix_drop_of_append inText

end

/-- At the start of a component body. -/
theorem Numbers.ofDecls (ds : List Decl) (body : TypedCommand) :
    Numbers (layoutsOf ds body) (.ofDecls ds) (declared {} ds) := by
  have general : ∀ (layouts : List Layout) (ds : List Decl) (s : Numbering) (env : Env),
      Numbers layouts s env →
      ds.filterMap (fun d => Layout.ofTy? d.name d.ty) <+: layouts.drop s.next →
      Numbers layouts (ds.foldl (fun s d => s.declare d.name d.ty) s) (declared env ds) := by
    intro layouts ds
    induction ds with
    | nil => exact fun _ _ numbers _ => numbers
    | cons d ds ih =>
      intro s env numbers inText
      have parts : (d :: ds).filterMap (fun d => Layout.ofTy? d.name d.ty) =
          (Layout.ofTy? d.name d.ty).toList ++ ds.filterMap fun d => Layout.ofTy? d.name d.ty := by
        rw [List.filterMap_cons]
        cases Layout.ofTy? d.name d.ty <;> rfl
      rw [parts] at inText
      refine ih _ _ (numbers.declare ((List.prefix_append _ _).trans inText)) ?_
      rw [Numbering.next_declare]
      exact prefix_drop_of_append inText
  exact general _ ds {} {} (.empty _) (List.prefix_append _ _)

end Banking

end BankedLoops
