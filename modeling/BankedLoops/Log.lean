import BankedLoops.Error

/-!
# The log of a compilation

What the passes report while they run. `Outcome` pairs the events with the result, so that the
events before a failure are kept; its result is that of the plain computation.
-/

namespace BankedLoops

inductive Event where
  | parsed (decls defs : Nat)
  | checkedFunction (func : String)
  | checked (decls defs : Nat)
  | bankedFunction (func : String) (params : Nat)
  | banked (arrays decls : Nat)
  | rotates (array : String) (banks : Nat) (register : String)
  | resolved (array bank : String)
  | multiplexed (array : String) (banks : Nat)
  | lowered (component : String) (cells groups : Nat)
  | generated (components : Nat)
  | compiled (components statements : Nat)

namespace Event

/-- Whether the event is told only at the most detailed level. -/
def isTrace : Event → Bool
  | .rotates .. | .resolved .. | .multiplexed .. => true
  | _ => false

def source : Event → String
  | .parsed .. | .compiled .. => "accelc"
  | .checkedFunction _ | .checked .. => "accelc::typecheck"
  | .bankedFunction .. | .banked .. | .rotates .. | .resolved .. | .multiplexed .. =>
    "accelc::rewrite"
  | .lowered .. | .generated _ => "accelc::codegen"

def message : Event → String
  | .parsed decls defs => s!"parsed {decls} declaration(s) and {defs} function(s)"
  | .checkedFunction func => s!"checked function `{func}`"
  | .checked decls defs => s!"type checked {decls} declaration(s), {defs} function(s)"
  | .bankedFunction func params =>
    s!"rewrote function `{func}` with {params} physical parameter(s)"
  | .banked arrays decls =>
    s!"rewrote {arrays} logical array(s) into {decls} physical declaration(s)"
  | .rotates array banks register => s!"`{array}` rotates over {banks} banks via `{register}`"
  | .resolved array bank => s!"`{array}` access resolved to bank `{bank}`"
  | .multiplexed array banks => s!"`{array}` access multiplexed over {banks} banks"
  | .lowered component cells groups =>
    s!"lowered component `{component}`: {cells} cells, {groups} groups"
  | .generated components => s!"generated {components} component(s)"
  | .compiled components statements =>
    s!"compiled {components} component(s) with {statements} annotated statement(s)"

def text (e : Event) : String :=
  let level := if e.isTrace then "TRACE" else "DEBUG"
  s!"[{level} {e.source}] {e.message}"

end Event

/-- A result together with the events told on the way to it. -/
structure Outcome (α : Type) where
  log : List Event
  result : Except Failure α

namespace Outcome

variable {α β : Type}

def andThen (x : Outcome α) (f : α → Outcome β) : Outcome β :=
  match x.result with
  | .error e => ⟨x.log, .error e⟩
  | .ok a => ⟨x.log ++ (f a).log, (f a).result⟩

instance : Monad Outcome where
  pure a := ⟨[], .ok a⟩
  bind := andThen

instance : MonadLift (Except Failure) Outcome where
  monadLift x := ⟨[], x⟩

def tell (e : Event) : Outcome Unit := ⟨[e], .ok ()⟩

@[simp]
theorem result_pure (a : α) : (pure a : Outcome α).result = .ok a := rfl

@[simp]
theorem result_bind (x : Outcome α) (f : α → Outcome β) :
    (x >>= f).result = x.result >>= fun a => (f a).result := by
  show (andThen x f).result = _
  unfold andThen
  cases x.result <;> rfl

end Outcome

end BankedLoops
