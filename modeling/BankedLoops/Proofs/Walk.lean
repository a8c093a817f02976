import BankedLoops.Program

/-!
# Ways into a command

A pass over programs meets a command inside another one with a state of its own, if it gets that far.
A path says where that command is, so what two passes know there can be compared.
-/

namespace BankedLoops

/-- A step from a command to one of the commands inside it. -/
inductive Descent where
  | item (k : Nat)
  | onTrue
  | onFalse
  | round
  deriving DecidableEq

/-- The component that a command belongs to. -/
inductive Owner where
  | function (k : Nat)
  | root
  deriving DecidableEq

namespace Command

variable {τ ε : Type}

/-- The command that a step leads to. -/
def inner? : Command τ ε → Descent → Option (Command τ ε)
  | .seq _ cmds, .item k => cmds[k]?
  | .branch _ _ onTrue _, .onTrue => some onTrue
  | .branch _ _ _ onFalse, .onFalse => onFalse
  | .loop _ _ body, .round => some body
  | _, _ => none

/-- The command that a path leads to. -/
def at? (cmd : Command τ ε) : List Descent → Option (Command τ ε)
  | [] => some cmd
  | step :: path => (cmd.inner? step).bind fun inner => inner.at? path

end Command

/-- The state in which a pass meets the commands inside a command, if it gets there. -/
structure Pass (τ ε σ : Type) where
  /-- Behind the first commands of a list. -/
  behind : σ → List (Command τ ε) → Option σ
  /-- In the branch of a condition that holds. -/
  onTrue : σ → Nat → ε → Option σ
  /-- In the branch of a condition that fails, behind the other branch. -/
  onFalse : σ → Nat → ε → Command τ ε → Option σ
  /-- In the body of a loop. -/
  round : σ → LoopHeader → Option σ

/-- A pass that gets everywhere. -/
structure Pass.Total {τ ε σ : Type} (pass : Pass τ ε σ) : Prop where
  behind : ∀ s cmds, ∃ s', pass.behind s cmds = some s'
  onTrue : ∀ s pos cond, ∃ s', pass.onTrue s pos cond = some s'
  onFalse : ∀ s pos cond onTrue, ∃ s', pass.onFalse s pos cond onTrue = some s'
  round : ∀ s header, ∃ s', pass.round s header = some s'

namespace Pass

variable {τ ε σ : Type}

/-- The command that a step leads to, and the state there. -/
def descend (pass : Pass τ ε σ) (s : σ) : Command τ ε → Descent → Option (σ × Command τ ε)
  | .seq _ cmds, .item k => do return (← pass.behind s (cmds.take k), ← cmds[k]?)
  | .branch pos cond onTrue _, .onTrue => do return (← pass.onTrue s pos cond, onTrue)
  | .branch pos cond onTrue (some onFalse), .onFalse => do
    return (← pass.onFalse s pos cond onTrue, onFalse)
  | .loop _ header body, .round => do return (← pass.round s header, body)
  | _, _ => none

/-- The command that a path leads to, and the state there. -/
def visit (pass : Pass τ ε σ) (s : σ) (cmd : Command τ ε) :
    List Descent → Option (σ × Command τ ε)
  | [] => some (s, cmd)
  | step :: path => do
    let (s, cmd) ← pass.descend s cmd step
    visit pass s cmd path

/-- What a step does. -/
inductive Descends (pass : Pass τ ε σ) (s s' : σ) : Command τ ε → Descent → Command τ ε → Prop where
  | item {pos k : Nat} {cmds : List (Command τ ε)} {cmd : Command τ ε}
      (behind : pass.behind s (cmds.take k) = some s') (found : cmds[k]? = some cmd) :
      Descends pass s s' (.seq pos cmds) (.item k) cmd
  | onTrue {pos : Nat} {cond : ε} {onTrue : Command τ ε} {onFalse : Option (Command τ ε)}
      (met : pass.onTrue s pos cond = some s') :
      Descends pass s s' (.branch pos cond onTrue onFalse) .onTrue onTrue
  | onFalse {pos : Nat} {cond : ε} {onTrue onFalse : Command τ ε}
      (met : pass.onFalse s pos cond onTrue = some s') :
      Descends pass s s' (.branch pos cond onTrue (some onFalse)) .onFalse onFalse
  | round {pos : Nat} {header : LoopHeader} {body : Command τ ε}
      (met : pass.round s header = some s') : Descends pass s s' (.loop pos header body) .round body

variable {pass : Pass τ ε σ} {s s' : σ} {cmd cmd' : Command τ ε} {step : Descent}

theorem descend_eq_some_iff :
    pass.descend s cmd step = some (s', cmd') ↔ Descends pass s s' cmd step cmd' := by
  constructor
  · intro went
    unfold descend at went
    split at went
    case h_5 => cases went
    all_goals simp only [bind, Option.bind_eq_some_iff, pure, Option.some.injEq, Prod.mk.injEq] at went
    · obtain ⟨_, behind, _, found, rfl, rfl⟩ := went
      exact .item behind found
    · obtain ⟨_, met, rfl, rfl⟩ := went
      exact .onTrue met
    · obtain ⟨_, met, rfl, rfl⟩ := went
      exact .onFalse met
    · obtain ⟨_, met, rfl, rfl⟩ := went
      exact .round met
  · rintro (⟨behind, found⟩ | met | met | met)
    · simp [descend, behind, found]
    all_goals simp [descend, met]

theorem Total.descends (total : pass.Total) (s : σ) (inner : cmd.inner? step = some cmd') :
    ∃ s', Descends pass s s' cmd step cmd' := by
  unfold Command.inner? at inner
  split at inner
  · obtain ⟨s', behind⟩ := total.behind s _
    exact ⟨s', .item behind inner⟩
  · cases inner
    obtain ⟨s', met⟩ := total.onTrue s _ _
    exact ⟨s', .onTrue met⟩
  · subst inner
    obtain ⟨s', met⟩ := total.onFalse s _ _ _
    exact ⟨s', .onFalse met⟩
  · cases inner
    obtain ⟨s', met⟩ := total.round s _
    exact ⟨s', .round met⟩
  · cases inner

theorem visit_cons_of {path : List Descent} {last : σ × Command τ ε}
    (went : Descends pass s s' cmd step cmd') (rest : pass.visit s' cmd' path = some last) :
    pass.visit s cmd (step :: path) = some last := by
  rw [visit, descend_eq_some_iff.mpr went]
  exact rest

end Pass

end BankedLoops
