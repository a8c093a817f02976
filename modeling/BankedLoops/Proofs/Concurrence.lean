import BankedLoops.Proofs.Success

/-!
# Runs that concur

Two runs concur if they give the same result where both succeed. What a run can only put into the
message of an error does not matter, so runs that quote different statements concur.
-/

namespace BankedLoops

/-- Whether two computations have the same result where both succeed. -/
def Concur {ε α : Type} (x y : Except ε α) : Prop := ∀ a b, x = .ok a → y = .ok b → a = b

namespace Concur

section

variable {ε α β : Type}

theorem refl (x : Except ε α) : Concur x x :=
  fun _ _ left right => Except.ok.inj (left.symm.trans right)

theorem bind {x y : Except ε α} {f g : α → Except ε β} (head : Concur x y)
    (tail : ∀ a, Concur (f a) (g a)) : Concur (x >>= f) (y >>= g) := by
  intro b c left right
  obtain ⟨a, first, rest⟩ := bind_ok_iff.mp left
  obtain ⟨a', first', rest'⟩ := bind_ok_iff.mp right
  obtain rfl := head a a' first first'
  exact tail a b c rest rest'

/-- A step that both take. -/
theorem same {x : Except ε α} {f g : α → Except ε β} (tail : ∀ a, Concur (f a) (g a)) :
    Concur (x >>= f) (x >>= g) := (refl x).bind tail

theorem ite {p : Prop} [Decidable p] {x x' y y' : Except ε α} (onTrue : Concur x y)
    (onFalse : Concur x' y') : Concur (if p then x else x') (if p then y else y') := by
  split
  · exact onTrue
  · exact onFalse

theorem error_left (e : ε) (y : Except ε α) : Concur (.error e) y := nofun

end

section

variable {α β : Type}

theorem outcome {x y : Outcome α} {f g : α → Outcome β} (head : Concur x.result y.result)
    (tail : ∀ a, Concur (f a).result (g a).result) : Concur (x >>= f).result (y >>= g).result := by
  rw [Outcome.result_bind, Outcome.result_bind]
  exact head.bind tail

theorem outcome_ite {p : Prop} [Decidable p] {x x' y y' : Outcome α}
    (onTrue : Concur x.result y.result) (onFalse : Concur x'.result y'.result) :
    Concur (if p then x else x').result (if p then y else y').result := by
  split
  · exact onTrue
  · exact onFalse

end

end Concur

end BankedLoops
