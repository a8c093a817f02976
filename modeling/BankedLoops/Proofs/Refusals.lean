import BankedLoops.Proofs.Success

/-!
# Refusals

How a compilation of a checked program may fail: because the program has no hardware form, or
because of the configuration. A regular computation fails in no other way, so neither with a broken
promise between two passes nor in the middle of a computation on words.
-/

namespace BankedLoops

inductive Permitted : Failure → Prop where
  | capability (stmt : String) (fault : CapabilityFault) : Permitted (.error (.capability stmt fault))
  | config (fault : ConfigFault) : Permitted (.error (.config fault))

/-- A permitted failure, or a counter of names that has no room in its word. -/
inductive Crowded : Failure → Prop where
  | permitted {f : Failure} (permitted : Permitted f) : Crowded f
  | overflow : Crowded (.fault .overflow)

variable {α β : Type}

def Regular (x : Except Failure α) : Prop :=
  ∀ f, x = .error f → Permitted f

namespace Regular

theorem ok (a : α) : Regular (.ok a) := by
  intro f failed
  cases failed

theorem of_ok {x : Except Failure α} {a : α} (value : x = .ok a) : Regular x := by
  rw [value]
  exact ok a

/-- What comes second may rely on the success of what comes first. -/
theorem bind {x : Except Failure α} {f : α → Except Failure β} (first : Regular x)
    (rest : ∀ a, x = .ok a → Regular (f a)) : Regular (x >>= f) := by
  cases ran : x with
  | error failure =>
    intro other failed
    cases failed
    exact first failure ran
  | ok a => exact rest a ran

theorem capability (stmt : String) (fault : CapabilityFault) :
    Regular (refuse (.capability stmt fault) : Except Failure α) := by
  intro f failed
  cases failed
  exact .capability stmt fault

theorem capability_bind (stmt : String) (fault : CapabilityFault) (f : α → Except Failure β) :
    Regular (refuse (.capability stmt fault) >>= f) :=
  (capability stmt fault).bind fun _ failed => (refuse_ok_iff.mp failed).elim

/-- A computation on words that has a result. -/
theorem lift {x : Except Fault α} (value : ∃ a, x = .ok a) : Regular (liftM x : Except Failure α) := by
  obtain ⟨a, value⟩ := value
  exact of_ok (lift_ok_iff.mpr value)

/-- A regular computation has a result, or fails in a permitted way. -/
theorem cases {x : Except Failure α} (regular : Regular x) :
    (∃ a, x = .ok a) ∨ ∃ f, x = .error f ∧ Permitted f := by
  cases ran : x with
  | error f => exact .inr ⟨f, rfl, regular f ran⟩
  | ok a => exact .inl ⟨a, rfl⟩

end Regular

end BankedLoops
