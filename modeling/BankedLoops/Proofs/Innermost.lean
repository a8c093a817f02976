import BankedLoops.Error
import BankedLoops.Proofs.Preorder
import BankedLoops.Proofs.Walk

/-!
# Where a failure arises

A pass that fails at a command fails at every command around it, too. The failure arises at the
innermost of them. `Located` says of a failure that it is that of a command inside or due to what the
command does itself; if a pass locates its failures, they arise at the commands that stop it.
-/

namespace BankedLoops

variable {τ ε σ : Type}

/-! ### Deeper -/

namespace Command

theorem preorder_sublist_of_item {cmds : List (Command τ ε)} {k : Nat} {cmd : Command τ ε}
    (found : cmds[k]? = some cmd) : cmd.preorder.Sublist (preorderSeq cmds) := by
  induction cmds generalizing k with
  | nil => cases found
  | cons first cmds ih =>
    rw [preorderSeq]
    cases k with
    | zero =>
      cases found
      exact List.sublist_append_left _ _
    | succ k => exact (ih found).trans (List.sublist_append_right _ _)

theorem mem_preorder_self (cmd : Command τ ε) : cmd ∈ cmd.preorder := by
  cases cmd <;> exact List.mem_cons_self

mutual

theorem exists_path {inner : Command τ ε} : (cmd : Command τ ε) → inner ∈ cmd.preorder →
    ∃ path, cmd.at? path = some inner
  | .seq _ cmds, member => by
    rcases List.mem_cons.mp member with rfl | deeper
    · exact ⟨[], rfl⟩
    · obtain ⟨k, cmd, path, found, met⟩ := exists_path_seq cmds deeper
      exact ⟨.item k :: path, by rw [at?, inner?, found]; exact met⟩
  | .branch _ _ onTrue onFalse, member => by
    rcases List.mem_cons.mp member with rfl | deeper
    · exact ⟨[], rfl⟩
    · rcases List.mem_append.mp deeper with inTrue | inFalse
      · obtain ⟨path, met⟩ := exists_path onTrue inTrue
        exact ⟨.onTrue :: path, met⟩
      · obtain ⟨cmd, path, rfl, met⟩ := exists_path_else onFalse inFalse
        exact ⟨.onFalse :: path, met⟩
  | .loop _ _ body, member => by
    rcases List.mem_cons.mp member with rfl | deeper
    · exact ⟨[], rfl⟩
    · obtain ⟨path, met⟩ := exists_path body deeper
      exact ⟨.round :: path, met⟩
  | .decl .., member | .define .., member | .update .., member | .reduce .., member | .eval .., member
  | .advance .., member | .skip _, member => ⟨[], by rw [List.mem_singleton.mp member]; rfl⟩

theorem exists_path_seq {inner : Command τ ε} : (cmds : List (Command τ ε)) →
    inner ∈ preorderSeq cmds → ∃ (k : Nat) (cmd : Command τ ε) (path : List Descent),
      cmds[k]? = some cmd ∧ cmd.at? path = some inner
  | cmd :: cmds, member => by
    rcases List.mem_append.mp member with first | later
    · obtain ⟨path, met⟩ := exists_path cmd first
      exact ⟨0, cmd, path, rfl, met⟩
    · obtain ⟨k, other, path, found, met⟩ := exists_path_seq cmds later
      exact ⟨k + 1, other, path, found, met⟩

theorem exists_path_else {inner : Command τ ε} : (cmd : Option (Command τ ε)) →
    inner ∈ preorderElse cmd → ∃ other path, cmd = some other ∧ other.at? path = some inner
  | some cmd, member => by
    obtain ⟨path, met⟩ := exists_path cmd member
    exact ⟨cmd, path, rfl, met⟩

end

end Command

namespace Pass

variable {pass : Pass τ ε σ} {s s' : σ} {cmd cmd' : Command τ ε} {step : Descent} {path : List Descent}

theorem Descends.preorder_sublist (went : Descends pass s s' cmd step cmd') :
    cmd'.preorder.Sublist cmd.preorder.tail := by
  cases went with
  | item _ found => exact Command.preorder_sublist_of_item found
  | onTrue _ => exact List.sublist_append_left _ _
  | onFalse _ => exact List.sublist_append_right _ _
  | round _ => exact List.Sublist.refl _

theorem visit_append (path rest : List Descent) :
    pass.visit s cmd (path ++ rest) =
      (pass.visit s cmd path).bind fun met => pass.visit met.1 met.2 rest := by
  induction path generalizing s cmd with
  | nil => rfl
  | cons step path ih =>
    rw [List.cons_append, visit, visit]
    cases pass.descend s cmd step with
    | none => rfl
    | some next => exact ih

theorem visit_cons_eq_some_iff {last : σ × Command τ ε} :
    pass.visit s cmd (step :: path) = some last ↔
      ∃ s' cmd', Descends pass s s' cmd step cmd' ∧ pass.visit s' cmd' path = some last := by
  constructor
  · intro met
    obtain ⟨⟨s', cmd'⟩, went, rest⟩ := Option.bind_eq_some_iff.mp met
    exact ⟨s', cmd', descend_eq_some_iff.mp went, rest⟩
  · rintro ⟨s', cmd', went, rest⟩
    exact visit_cons_of went rest

theorem Total.visit (total : pass.Total) (s : σ) (found : cmd.at? path = some cmd') :
    ∃ s', pass.visit s cmd path = some (s', cmd') := by
  induction path generalizing s cmd with
  | nil =>
    cases found
    exact ⟨s, rfl⟩
  | cons step path ih =>
    obtain ⟨inner, here, found⟩ := Option.bind_eq_some_iff.mp found
    obtain ⟨mid, went⟩ := total.descends s here
    obtain ⟨s', rest⟩ := ih mid found
    exact ⟨s', visit_cons_of went rest⟩

theorem visit_preorder_sublist (met : pass.visit s cmd path = some (s', cmd')) :
    cmd'.preorder.Sublist cmd.preorder := by
  induction path generalizing s cmd with
  | nil =>
    cases met
    exact List.Sublist.refl _
  | cons step path ih =>
    obtain ⟨_, _, went, rest⟩ := visit_cons_eq_some_iff.mp met
    exact (ih rest).trans (went.preorder_sublist.trans (List.tail_sublist _))

end Pass

/-! ### Failures -/

/-- A pass that fails at some of the commands that it gets to. -/
structure FalliblePass (τ ε σ : Type) extends Pass τ ε σ where
  FailsAt : σ → Command τ ε → Failure → Prop

namespace FalliblePass

/-- The pass gets from `cmd` to `inner` and fails there, but it gets to no command inside `inner` at
which it fails so. -/
def Arises (pass : FalliblePass τ ε σ) (f : Failure) (s : σ) (cmd inner : Command τ ε) : Prop :=
  ∃ path s', pass.visit s cmd path = some (s', inner) ∧ pass.FailsAt s' inner f ∧
    ∀ step below last, pass.visit s' inner (step :: below) = some last → ¬ pass.FailsAt last.1 last.2 f

/-- Where the failure of a command comes from: from a command inside that the pass gets to, or from what
the command does itself. -/
inductive Located (pass : FalliblePass τ ε σ) (stops : σ → Command τ ε → Failure → Prop) (s : σ)
    (cmd : Command τ ε) (f : Failure) : Prop where
  | inside {step : Descent} (s' : σ) {cmd' : Command τ ε} (went : pass.Descends s s' cmd step cmd')
      (failed : pass.FailsAt s' cmd' f) : Located pass stops s cmd f
  | here (stopped : stops s cmd f) : Located pass stops s cmd f

/-- Wherever `I` holds, every failure is located. -/
structure Localises (pass : FalliblePass τ ε σ) (I : σ → Command τ ε → Prop)
    (stops : σ → Command τ ε → Failure → Prop) : Prop where
  descend : ∀ {s s' cmd cmd' step}, I s cmd → pass.Descends s s' cmd step cmd' → I s' cmd'
  locate : ∀ {s cmd f}, I s cmd → pass.FailsAt s cmd f → pass.Located stops s cmd f

/-- Every failure arises somewhere. -/
theorem exists_arises {pass : FalliblePass τ ε σ} {f : Failure} {s : σ} {cmd : Command τ ε}
    (failed : pass.FailsAt s cmd f) : ∃ inner, pass.Arises f s cmd inner := by
  by_cases deeper : ∃ step below last,
      pass.visit s cmd (step :: below) = some last ∧ pass.FailsAt last.1 last.2 f
  · obtain ⟨step, below, ⟨s', cmd'⟩, met, failed⟩ := deeper
    obtain ⟨_, _, went, rest⟩ := Pass.visit_cons_eq_some_iff.mp met
    have shorter : cmd'.preorder.length < cmd.preorder.length := by
      have inside := ((Pass.visit_preorder_sublist rest).trans went.preorder_sublist).length_le
      have present := List.length_pos_of_mem cmd.mem_preorder_self
      rw [List.length_tail] at inside
      omega
    obtain ⟨inner, path, s'', further, failed, innermost⟩ := exists_arises failed
    refine ⟨inner, (step :: below) ++ path, s'', ?_, failed, innermost⟩
    rw [Pass.visit_append, met]
    exact further
  · exact ⟨cmd, [], s, rfl, failed, fun step below last met failed =>
      deeper ⟨step, below, last, met, failed⟩⟩
termination_by cmd.preorder.length

namespace Arises

variable {pass : FalliblePass τ ε σ} {s : σ} {cmd inner : Command τ ε} {f : Failure}

theorem mem_preorder (arises : pass.Arises f s cmd inner) : inner ∈ cmd.preorder := by
  obtain ⟨_, _, met, _⟩ := arises
  exact (Pass.visit_preorder_sublist met).subset inner.mem_preorder_self

/-- The command at which a failure arises is what stops the pass. -/
theorem stops {I : σ → Command τ ε → Prop} {stops : σ → Command τ ε → Failure → Prop}
    (localises : pass.Localises I stops) (holds : I s cmd) (arises : pass.Arises f s cmd inner) :
    ∃ path s', pass.visit s cmd path = some (s', inner) ∧ stops s' inner f := by
  obtain ⟨path, s', met, failed, innermost⟩ := arises
  have kept : I s' inner := by
    clear failed innermost
    induction path generalizing s cmd with
    | nil =>
      cases met
      exact holds
    | cons step path ih =>
      obtain ⟨_, _, went, rest⟩ := Pass.visit_cons_eq_some_iff.mp met
      exact ih (localises.descend holds went) rest
  refine ⟨path, s', met, ?_⟩
  cases localises.locate kept failed with
  | here stopped => exact stopped
  | inside s'' went failed =>
    exact absurd failed (innermost _ [] (s'', _) (Pass.visit_cons_of went rfl))

end Arises

end FalliblePass

end BankedLoops
