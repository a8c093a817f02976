/-!
# Free names

Searches for a name that is not taken in a numbered family of names. Where the names of a family
differ from each other, one of any `taken.length + 1` of them is free, so the search ends there.
-/

namespace BankedLoops

namespace FreeName

/-- Tries the numbers from `k` on, at most `tries` of them before the last. -/
def search (taken : List String) (name : Nat → String) : (tries k : Nat) → Nat
  | 0, k => k
  | tries + 1, k => if taken.contains (name k) then search taken name tries (k + 1) else k

/-- The first number from `start` on whose name is not taken. -/
def firstFree (taken : List String) (name : Nat → String) (start : Nat) : Nat :=
  search taken name taken.length start

/-- The family `stem0`, `stem1`, `stem2`, … -/
def numbered (stem : String) (k : Nat) : String := s!"{stem}{k}"

/-- The family `base`, `base_1`, `base_2`, … -/
def suffixed (base : String) : Nat → String
  | 0 => base
  | k + 1 => s!"{base}_{k + 1}"

end FreeName

end BankedLoops
