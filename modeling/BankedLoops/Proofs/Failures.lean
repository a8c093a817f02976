import BankedLoops.Banking.Program
import BankedLoops.Proofs.Banking.Image
import BankedLoops.Proofs.Typing.Soundness

/-!
# How the passes fail

A computation may fail in some ways and not in others, and what follows a step may rely on its success.
The split into banks finds no hardware form for the program, misses a layout or a bank, or stops in the
middle of a computation on words.
-/

namespace BankedLoops

variable {α β : Type}

/-- A computation fails in no other than the allowed ways. -/
def Fails (allowed : Failure → Prop) (x : Except Failure α) : Prop :=
  ∀ f, x = .error f → allowed f

namespace Fails

variable {allowed : Failure → Prop}

theorem pure (a : α) : Fails allowed (Pure.pure a) := by
  intro f failed
  cases failed

theorem refuse {e : CompileError} (named : allowed (.error e)) :
    Fails allowed (BankedLoops.refuse e : Except Failure α) := by
  intro f failed
  cases failed
  exact named

/-- What comes second may rely on the success of what comes first. -/
theorem bind_of_ok {x : Except Failure α} {f : α → Except Failure β} (first : Fails allowed x)
    (rest : ∀ a, x = .ok a → Fails allowed (f a)) : Fails allowed (x >>= f) := by
  cases x with
  | error failure =>
    intro other failed
    cases failed
    exact first failure rfl
  | ok a => exact rest a rfl

theorem bind {x : Except Failure α} {f : α → Except Failure β} (first : Fails allowed x)
    (rest : ∀ a, Fails allowed (f a)) : Fails allowed (x >>= f) :=
  first.bind_of_ok fun a _ => rest a

theorem refuse_bind {e : CompileError} (named : allowed (.error e)) (f : α → Except Failure β) :
    Fails allowed (BankedLoops.refuse e >>= f) := by
  intro other failed
  cases failed
  exact named

/-- A computation on words that has a result. -/
theorem lift_of_ok {x : Except Fault α} {a : α} (value : x = .ok a) :
    Fails allowed (liftM x : Except Failure α) := by
  rw [value]
  exact pure a

theorem lift (faults : ∀ f, allowed (.fault f)) (x : Except Fault α) :
    Fails allowed (liftM x : Except Failure α) := by
  intro f failed
  cases x with
  | error fault =>
    cases failed
    exact faults fault
  | ok a => cases failed

theorem map {x : Except Failure α} (fails : Fails allowed x) (f : α → β) :
    Fails allowed (x.map f) := by
  cases x with
  | error failure =>
    intro other failed
    cases failed
    exact fails failure rfl
  | ok a => exact pure (f a)

theorem mono {weaker : Failure → Prop} {x : Except Failure α} (fails : Fails allowed x)
    (implies : ∀ f, allowed f → weaker f) : Fails weaker x :=
  fun f failed => implies f (fails f failed)

end Fails

namespace Banking

/-- The program has no hardware form, a layout or a bank is missing, or a computation on words has no
result. -/
inductive Stops : Failure → Prop where
  | capability (stmt : String) (fault : CapabilityFault) : Stops (.error (.capability stmt fault))
  | noRotationLayout (array : String) : Stops (.error (.internal (.noRotationLayout array)))
  | noLayout (array : String) : Stops (.error (.internal (.noLayout array)))
  | noBank (bank : Nat) (array : String) : Stops (.error (.internal (.noBank bank array)))
  | fault (fault : Fault) : Stops (.fault fault)

theorem fails_layoutOf (env : Env) (array : String) : Fails Stops (layoutOf env array) := by
  unfold layoutOf
  split
  · exact .pure _
  · exact .refuse (.noLayout _)

mutual

/-- The arrays that an expression names. -/
def arraysOf : TypedExpr → List String
  | .binop _ _ lhs rhs => arraysOf lhs ++ arraysOf rhs
  | .access _ array idxs => array :: arraysOfAll idxs
  | .app _ _ args => args
  | _ => []

def arraysOfAll : List TypedExpr → List String
  | [] => []
  | e :: es => arraysOf e ++ arraysOfAll es

end

/-- Allows every way to stop other than for the missing layout of a named array. A capability is missed
by one of the blamed statements. -/
structure Lenient (blamed : String → Prop) (allowed : Failure → Prop) : Prop where
  capability {stmt : String} (statement : blamed stmt) (fault : CapabilityFault) :
    allowed (.error (.capability stmt fault))
  noRotationLayout (array : String) : allowed (.error (.internal (.noRotationLayout array)))
  noBank (bank : Nat) (array : String) : allowed (.error (.internal (.noBank bank array)))
  fault (fault : Fault) : allowed (.fault fault)

theorem lenient_stops : Lenient (fun _ => True) Stops :=
  ⟨fun _ => .capability _, .noRotationLayout, .noBank, .fault⟩

section

variable {blamed : String → Prop} {allowed : Failure → Prop}

theorem fails_resolve (lenient : Lenient blamed allowed) {ctx : Context} {pos : Nat}
    (statement : blamed (ctx.statements.describe pos)) (array : String) (layout : Layout) (ty : Ty)
    (writes : Bool) (p : Placement) :
    Fails allowed (resolve ctx pos array layout ty writes p).result := by
  simp only [resolve, Outcome.result_bind, Outcome.result_lift_fault]
  refine .bind (.lift lenient.fault _) fun _ => ?_
  split
  · split
    · exact .refuse (lenient.noBank _ _)
    · exact .pure _
  · split
    · exact .refuse (lenient.capability statement _)
    · simp only [Outcome.result_bind, Outcome.result_lift_fault, Outcome.result_tell]
      refine .bind (.lift lenient.fault _) fun _ => .bind (.lift lenient.fault _) fun _ => ?_
      exact .bind (.pure ()) fun _ => .pure _

theorem fails_banksOf (lenient : Lenient blamed allowed) {env : Env} {arrays : List String}
    (found : ∀ array ∈ arrays, Fails allowed (layoutOf env array)) :
    Fails allowed (banksOf env arrays) := by
  induction arrays with
  | nil => exact .pure _
  | cons array arrays ih =>
    obtain ⟨first, others⟩ := List.forall_mem_cons.mp found
    rw [banksOf]
    refine .bind first fun _ => .bind (.lift lenient.fault _) fun _ => ?_
    exact .bind (ih others) fun _ => .pure _

mutual

theorem fails_read (lenient : Lenient blamed allowed) {ctx : Context} {pos : Nat}
    (statement : blamed (ctx.statements.describe pos)) (env : Env) : (e : TypedExpr) →
    (∀ array ∈ arraysOf e, Fails allowed (layoutOf env array)) →
      Fails allowed (read ctx env pos e).result
  | .int .., _ | .bool .., _ | .var .., _ | .mem .., _ | .muxRead .., _ => .pure _
  | .binop ty op lhs rhs, found => by
    obtain ⟨left, right⟩ := List.forall_mem_append.mp found
    simp only [read, Outcome.result_bind]
    exact .bind (fails_read lenient statement env lhs left) fun _ =>
      .bind (fails_read lenient statement env rhs right) fun _ => .pure _
  | .access ty array idxs, found => by
    obtain ⟨first, others⟩ := List.forall_mem_cons.mp found
    simp only [read, Outcome.result_bind, Outcome.result_lift, Outcome.result_lift_fault]
    refine .bind first fun _ => .bind (.lift lenient.fault _) fun _ => ?_
    exact .bind (fails_place lenient statement env array 0 idxs _ others) fun _ =>
      fails_resolve lenient statement _ _ _ _ _
  | .app ty func args, found => by
    simp only [read, Outcome.result_bind, Outcome.result_lift]
    exact .bind (fails_banksOf lenient found) fun _ => .pure _

theorem fails_place (lenient : Lenient blamed allowed) {ctx : Context} {pos : Nat}
    (statement : blamed (ctx.statements.describe pos)) (env : Env) (array : String)
    (base : Nat) : (idxs : List TypedExpr) → (dims : List (Dim × Nat)) →
    (∀ array ∈ arraysOfAll idxs, Fails allowed (layoutOf env array)) →
    Fails allowed (place ctx env pos array base idxs dims).result
  | [], _, _ => .pure _
  | _ :: _, [], _ => .pure _
  | idx :: idxs, (dim, stride) :: dims, found => by
    obtain ⟨first, others⟩ := List.forall_mem_append.mp found
    simp only [place, Outcome.result_bind, Outcome.result_lift_fault]
    refine .bind (fails_read lenient statement env idx first) fun _ =>
      .bind (.lift lenient.fault _) fun bank => ?_
    cases bank with
    | some bank =>
      simp only [Outcome.result_bind, Outcome.result_lift_fault]
      refine .bind (.lift lenient.fault _) fun _ => .bind (.lift lenient.fault _) fun _ => ?_
      refine .bind (.lift lenient.fault _) fun _ => .bind (.lift lenient.fault _) fun _ => ?_
      exact .bind (fails_place lenient statement env array _ idxs dims others) fun _ => .pure _
    | none =>
      dsimp only
      split
      · simp only [Outcome.result_bind, Outcome.result_lift]
        exact .refuse_bind (lenient.capability statement _) _
      · simp only [Outcome.result_bind, Outcome.result_lift_fault]
        refine .bind (.lift lenient.fault _) fun _ => .bind (.lift lenient.fault _) fun _ => ?_
        exact .bind (fails_place lenient statement env array base idxs dims others) fun _ => .pure _

end

theorem fails_write (lenient : Lenient blamed allowed) {ctx : Context} {pos : Nat}
    (statement : blamed (ctx.statements.describe pos)) (env : Env) {e : TypedExpr}
    (found : ∀ array ∈ arraysOf e, Fails allowed (layoutOf env array)) :
    Fails allowed (write ctx env pos e).result := by
  unfold write
  split
  · obtain ⟨first, others⟩ := List.forall_mem_cons.mp found
    simp only [Outcome.result_bind, Outcome.result_lift, Outcome.result_lift_fault]
    refine .bind first fun _ => .bind (.lift lenient.fault _) fun _ => ?_
    exact .bind (fails_place lenient statement _ _ _ _ _ others) fun _ =>
      fails_resolve lenient statement _ _ _ _ _
  · exact .pure _

theorem fails_advancedLayout (lenient : Lenient blamed allowed) (env : Env) (body : TypedCommand)
    (array : String) : Fails allowed (advancedLayout env body array) := by
  unfold advancedLayout
  split
  · exact .pure _
  · split
    · exact .pure _
    · exact .refuse (lenient.noRotationLayout _)

theorem fails_setUpRotations (lenient : Lenient blamed allowed) {statements : Statements}
    {advanced : List (String × Nat)}
    (rotated : ∀ entry ∈ advanced, blamed (statements.describe entry.2)) (body : TypedCommand)
    (env : Env) (taken : List String) :
    Fails allowed (setUpRotations statements body env taken advanced).result := by
  induction advanced generalizing env taken with
  | nil => exact .pure _
  | cons entry advanced ih =>
    obtain ⟨array, pos⟩ := entry
    obtain ⟨statement, others⟩ := List.forall_mem_cons.mp rotated
    simp only [setUpRotations, Outcome.result_bind, Outcome.result_lift, Outcome.result_lift_fault]
    refine .bind (fails_advancedLayout lenient env body array) fun _ =>
      .bind (.lift lenient.fault _) fun _ => ?_
    split
    · exact ih others env taken
    · split
      · simp only [Outcome.result_bind, Outcome.result_lift]
        exact .refuse_bind (lenient.capability statement _) _
      · simp only [Outcome.result_bind, Outcome.result_lift_fault, Outcome.result_tell]
        refine .bind (.lift lenient.fault _) fun _ => .bind (.pure ()) fun _ => ?_
        exact .bind (ih others _ _) fun _ => .pure _

theorem fails_bankDecls (lenient : Lenient blamed allowed) (env : Env) (ds : List Decl) :
    Fails allowed (bankDecls env ds) := by
  induction ds generalizing env with
  | nil => exact .pure _
  | cons d ds ih =>
    rw [bankDecls]
    split
    · exact .bind (.lift lenient.fault _) fun _ => .bind (ih _) fun _ => .pure _
    · exact .bind (ih _) fun _ => .pure _

theorem fails_memoriesOf (lenient : Lenient blamed allowed) (memories : Table String (List String))
    (ds : List Decl) : Fails allowed (memoriesOf memories ds) := by
  induction ds generalizing memories with
  | nil => exact .pure _
  | cons d ds ih =>
    rw [memoriesOf]
    split
    · exact .bind (.lift lenient.fault _) fun _ => ih _
    · exact ih memories

end

end Banking

end BankedLoops
