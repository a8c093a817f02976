import BankedLoops.Proofs.Banking.Visibility

/-!
# Origins of names

A name at a place of a body comes from the storage of the component or from a command of the body: a
declaration, a `let` or a loop. `resolvedAt` follows names to the commands that bind them. Where a
body stands behind commands that bind other names only, each of its names comes from the same place.
-/

namespace BankedLoops

/-- What a name comes from. -/
inductive Origin where
  | storage
  /-- The command at a place of the body. -/
  | command (path : List Descent)
  deriving DecidableEq

/-- The same origin where the body stands inside another. -/
def Origin.inside (front : List Descent) : Origin → Origin
  | .storage => .storage
  | .command path => .command (front ++ path)

/-- The name that a command binds. -/
def Command.bound? : TypedCommand → Option String
  | .decl _ name _ | .define _ name _ _ => some name
  | .loop _ header _ => some header.iter
  | _ => none

abbrev Origins := String → Option Origin

namespace Origins

def bind (o : Origins) (name : String) (origin : Origin) : Origins := fun other =>
  if other = name then some origin else o other

mutual

/-- The origins of names behind a command at `path`. -/
def after (o : Origins) (path : List Descent) : TypedCommand → Origins
  | .decl _ name _ | .define _ name _ _ => o.bind name (.command path)
  | .seq _ cmds => o.afterSeq path 0 cmds
  | _ => o

/-- The origins of names behind commands of a list, from number `k` on. -/
def afterSeq (o : Origins) (path : List Descent) (k : Nat) : List TypedCommand → Origins
  | [] => o
  | cmd :: cmds => (o.after (path ++ [.item k]) cmd).afterSeq path (k + 1) cmds

end

def ofDecls (ds : List Decl) : Origins := fun name =>
  if name ∈ ds.map (·.name) then some .storage else none

end Origins

/-- A place in a body, and the origins of the names there. -/
structure Whereabouts where
  path : List Descent := []
  origins : Origins

def resolving : Pass Ty TypedExpr Whereabouts where
  behind s cmds := some ⟨s.path ++ [.item cmds.length], s.origins.afterSeq s.path 0 cmds⟩
  onTrue s _ _ := some ⟨s.path ++ [.onTrue], s.origins⟩
  onFalse s _ _ _ := some ⟨s.path ++ [.onFalse], s.origins⟩
  round s header := some ⟨s.path ++ [.round], s.origins.bind header.iter (.command s.path)⟩

/-- The origins of names at a command of a component. -/
def resolvedAt (ds : List Decl) (body : TypedCommand) (path : List Descent) :
    Option (Whereabouts × TypedCommand) :=
  resolving.visit ⟨[], .ofDecls ds⟩ body path

theorem total_resolving : resolving.Total :=
  ⟨fun _ _ => ⟨_, rfl⟩, fun _ _ _ => ⟨_, rfl⟩, fun _ _ _ _ => ⟨_, rfl⟩, fun _ _ => ⟨_, rfl⟩⟩

namespace Banking

/-! ### Names that are not bound -/

mutual

theorem after_of_not_bound {o : Origins} {path : List Descent} {name : String} : {cmd : TypedCommand} →
    name ∉ binders cmd → o.after path cmd name = o name
  | .decl _ _ _, free | .define _ _ _ _, free => if_neg fun same => free (List.mem_singleton.mpr same)
  | .seq _ _, free => afterSeq_of_not_bound free
  | .branch .., _ | .loop .., _ | .update .., _ | .reduce .., _ | .eval .., _ | .advance .., _ | .skip _, _ =>
    rfl

theorem afterSeq_of_not_bound {o : Origins} {path : List Descent} {k : Nat} {name : String} :
    {cmds : List TypedCommand} → name ∉ bindersOfSeq cmds → o.afterSeq path k cmds name = o name
  | [], _ => rfl
  | cmd :: cmds, free => by
    rw [bindersOfSeq, List.mem_append, not_or] at free
    rw [Origins.afterSeq, afterSeq_of_not_bound free.2, after_of_not_bound free.1]

end

/-! ### Behind other commands -/

/-- Origins inside another body: the `registers` come from where they come from there, and every other
name from the place that it came from before. -/
structure Shifted (registers : List String) (front : List Descent) (there o o' : Origins) : Prop where
  fixed : ∀ name ∈ registers, o' name = there name
  shown : ∀ name ∉ registers, o' name = (o name).map (Origin.inside front)

namespace Shifted

variable {registers : List String} {front : List Descent} {there : Origins}

theorem bind {o o' : Origins} (shifted : Shifted registers front there o o') {name : String}
    (free : name ∉ registers) (path : List Descent) :
    Shifted registers front there (o.bind name (.command path))
      (o'.bind name (.command (front ++ path))) where
  fixed := by
    intro other member
    have different : other ≠ name := fun same => free (same ▸ member)
    exact (if_neg different).trans (shifted.fixed other member)
  shown := by
    intro other visible
    unfold Origins.bind
    by_cases same : other = name
    · rw [if_pos same, if_pos same]
      rfl
    · rw [if_neg same, if_neg same]
      exact shifted.shown other visible

mutual

theorem after {path : List Descent} : {cmd : TypedCommand} → {o o' : Origins} →
    (∀ name ∈ binders cmd, name ∉ registers) → Shifted registers front there o o' →
    Shifted registers front there (o.after path cmd) (o'.after (front ++ path) cmd)
  | .decl _ name _, _, _, free, shifted | .define _ name _ _, _, _, free, shifted =>
    shifted.bind (free name List.mem_cons_self) path
  | .seq _ _, _, _, free, shifted => shifted.afterSeq free
  | .branch .., _, _, _, shifted | .loop .., _, _, _, shifted | .update .., _, _, _, shifted
  | .reduce .., _, _, _, shifted | .eval .., _, _, _, shifted | .advance .., _, _, _, shifted
  | .skip _, _, _, _, shifted => shifted

theorem afterSeq {path : List Descent} : {cmds : List TypedCommand} → {o o' : Origins} → {k : Nat} →
    (∀ name ∈ bindersOfSeq cmds, name ∉ registers) → Shifted registers front there o o' →
    Shifted registers front there (o.afterSeq path k cmds) (o'.afterSeq (front ++ path) k cmds)
  | [], _, _, _, _, shifted => shifted
  | cmd :: cmds, o, o', k, free, shifted => by
    obtain ⟨first, rest⟩ := List.forall_mem_append.mp free
    rw [Origins.afterSeq, Origins.afterSeq, List.append_assoc]
    exact (shifted.after first).afterSeq rest

end

/-- Into a command that binds none of the registers. -/
theorem descend {cmd cmd' : TypedCommand} {step : Descent} {s s' t : Whereabouts}
    (free : ∀ name ∈ binders cmd, name ∉ registers) (place : t.path = front ++ s.path)
    (shifted : Shifted registers front there s.origins t.origins)
    (went : resolving.Descends s s' cmd step cmd') : ∃ t', resolving.Descends t t' cmd step cmd' ∧
      t'.path = front ++ s'.path ∧ Shifted registers front there s'.origins t'.origins ∧
      ∀ name ∈ binders cmd', name ∉ registers := by
  obtain ⟨path, o⟩ := s
  obtain ⟨_, o'⟩ := t
  subst place
  cases went with
  | item behind found =>
    cases behind
    obtain ⟨earlier, here⟩ := bindersOfSeq_item found
    exact ⟨_, .item rfl found, List.append_assoc .., shifted.afterSeq fun name bound =>
      free name (earlier bound), fun name bound => free name (here bound)⟩
  | onTrue met =>
    cases met
    exact ⟨_, .onTrue rfl, List.append_assoc .., shifted, fun name bound =>
      free name (List.mem_append_left _ bound)⟩
  | onFalse met =>
    cases met
    exact ⟨_, .onFalse rfl, List.append_assoc .., shifted, fun name bound =>
      free name (List.mem_append_right _ bound)⟩
  | round met =>
    cases met
    exact ⟨_, .round rfl, List.append_assoc .., shifted.bind (free _ List.mem_cons_self) path,
      fun name bound => free name (List.mem_cons_of_mem _ bound)⟩

theorem visit {path : List Descent} {cmd cmd' : TypedCommand} {s s' t : Whereabouts}
    (free : ∀ name ∈ binders cmd, name ∉ registers) (place : t.path = front ++ s.path)
    (shifted : Shifted registers front there s.origins t.origins)
    (met : resolving.visit s cmd path = some (s', cmd')) : ∃ t', resolving.visit t cmd path = some (t', cmd') ∧
      t'.path = front ++ s'.path ∧ Shifted registers front there s'.origins t'.origins := by
  induction path generalizing s t cmd with
  | nil =>
    cases met
    exact ⟨t, rfl, place, shifted⟩
  | cons step path ih =>
    obtain ⟨mid, inner, went, rest⟩ := Pass.visit_cons_eq_some_iff.mp met
    obtain ⟨t', here, place, shifted, free⟩ := shifted.descend free place went
    obtain ⟨last, deeper, place, shifted⟩ := ih free place shifted rest
    exact ⟨last, Pass.visit_cons_of here deeper, place, shifted⟩

end Shifted

theorem Origin.inside_nil : Origin.inside [] = id := by
  funext origin
  cases origin <;> rfl

/-- A name that is not bound in a command comes from the same place everywhere inside. -/
theorem origins_of_not_bound {path : List Descent} {cmd cmd' : TypedCommand} {s s' : Whereabouts}
    {name : String} (free : name ∉ binders cmd) (met : resolving.visit s cmd path = some (s', cmd')) :
    s'.origins name = s.origins name := by
  have same : Shifted [name] [] s.origins s.origins s.origins :=
    ⟨fun _ _ => rfl, fun _ _ => by rw [Origin.inside_nil, Option.map_id_fun, id]⟩
  have apart : ∀ other ∈ binders cmd, other ∉ [name] := by
    intro other bound inside
    obtain rfl := List.mem_singleton.mp inside
    exact free bound
  obtain ⟨t, again, _, shifted⟩ := same.visit apart rfl met
  rw [met] at again
  cases again
  exact shifted.fixed name (List.mem_singleton_self name)

end Banking

end BankedLoops
