import Mathlib.Data.List.Forall2
import BankedLoops.Lowering.Builder

/-!
# What a success went through

Inversion of the computations that the passes are written in. A bind succeeds where both of its
parts do, a refusal never does, and a lifted computation succeeds as it did before. A bind fails where
one of its parts does.
-/

namespace BankedLoops

variable {α β ε : Type}

theorem bind_ok_iff {x : Except ε α} {f : α → Except ε β} {b : β} :
    x >>= f = .ok b ↔ ∃ a, x = .ok a ∧ f a = .ok b := by
  cases x <;> simp [bind, Except.bind]

@[simp]
theorem ok_bind (a : α) (f : α → Except ε β) : (Except.ok a >>= f) = f a := rfl

theorem map_ok_iff {x : Except ε α} {f : α → β} {b : β} :
    x.map f = .ok b ↔ ∃ a, x = .ok a ∧ f a = b := by
  cases x <;> simp [Except.map]

theorem pure_ok_iff {a b : α} : (pure a : Except ε α) = .ok b ↔ a = b := by
  simp [pure, Except.pure]

theorem exists_ok_of_isOk {x : Except ε α} (success : x.isOk = true) : ∃ a, x = .ok a := by
  cases x with
  | error e => cases success
  | ok a => exact ⟨a, rfl⟩

theorem refuse_ok_iff {e : CompileError} {a : α} : refuse e = .ok a ↔ False := by
  simp [refuse]

theorem refuse_bind_ok_iff {e : CompileError} {f : α → Except Failure β} {b : β} :
    refuse e >>= f = .ok b ↔ False := by
  simp [bind_ok_iff, refuse_ok_iff]

theorem lift_ok_iff {x : Except Fault α} {a : α} :
    (liftM x : Except Failure α) = .ok a ↔ x = .ok a := by
  cases x with
  | error fault =>
    show (Except.error (.fault fault) : Except Failure α) = .ok a ↔ _
    simp
  | ok b =>
    show (Except.ok b : Except Failure α) = .ok a ↔ _
    simp

theorem bind_error_iff {x : Except ε α} {f : α → Except ε β} {e : ε} :
    x >>= f = .error e ↔ x = .error e ∨ ∃ a, x = .ok a ∧ f a = .error e := by
  cases x <;> simp [bind, Except.bind]

theorem lift_error_iff {x : Except Fault α} {f : Failure} :
    (liftM x : Except Failure α) = .error f ↔ ∃ fault, x = .error fault ∧ f = .fault fault := by
  cases x with
  | error fault =>
    show (Except.error (.fault fault) : Except Failure α) = .error f ↔ _
    simp [eq_comm]
  | ok a =>
    show (Except.ok a : Except Failure α) = .error f ↔ _
    simp

namespace Outcome

@[simp]
theorem result_lift (x : Except Failure α) : (liftM x : Outcome α).result = x := rfl

@[simp]
theorem result_lift_fault (x : Except Fault α) :
    (liftM x : Outcome α).result = (liftM x : Except Failure α) := rfl

@[simp]
theorem result_map (f : α → β) (x : Outcome α) : (f <$> x).result = x.result.map f := by
  show (x >>= fun a => pure (f a)).result = _
  rw [result_bind]
  cases x.result <;> rfl

@[simp]
theorem result_tell (e : Event) : (tell e).result = .ok () := rfl

end Outcome

/-- What every step keeps, all of them keep. -/
theorem foldlM_keeps {σ : Type} {step : σ → α → Except ε σ} {P : σ → Prop} {xs : List α}
    (keeps : ∀ s, ∀ a ∈ xs, ∀ t, P s → step s a = .ok t → P t) {s t : σ} (holds : P s)
    (run : xs.foldlM step s = .ok t) : P t := by
  induction xs generalizing s with
  | nil =>
    cases run
    exact holds
  | cons x xs ih =>
    rw [List.foldlM_cons, bind_ok_iff] at run
    obtain ⟨next, first, rest⟩ := run
    exact ih (fun s a member => keeps s a (List.mem_cons_of_mem _ member))
      (keeps s x List.mem_cons_self next holds first) rest

theorem exists_ok_of_map {ε α β : Type} {x : Except ε α} {f : α → β} {b : β}
    (computed : x.toOption.map f = some b) : ∃ a, x = .ok a ∧ f a = b := by
  cases x with
  | error e => cases computed
  | ok a => exact ⟨a, rfl, Option.some.inj computed⟩

/-! ### Lists that are related element by element -/

theorem exists_mem_of_related {R : α → β → Prop} {as : List α} {bs : List β}
    (related : List.Forall₂ R as bs) {b : β} (member : b ∈ bs) : ∃ a ∈ as, R a b := by
  induction related with
  | nil => cases member
  | cons first _ ih =>
    rcases List.mem_cons.mp member with rfl | later
    · exact ⟨_, List.mem_cons_self, first⟩
    · obtain ⟨a, among, holds⟩ := ih later
      exact ⟨a, List.mem_cons_of_mem _ among, holds⟩

theorem getElem?_of_forall₂ {R : α → β → Prop} {as : List α} {bs : List β}
    (related : List.Forall₂ R as bs) {i : Nat} {a : α} (found : as[i]? = some a) :
    ∃ b, bs[i]? = some b ∧ R a b := by
  induction related generalizing i with
  | nil => cases found
  | cons holds _ ih =>
    cases i with
    | zero =>
      cases found
      exact ⟨_, rfl, holds⟩
    | succ i => exact ih found

end BankedLoops
