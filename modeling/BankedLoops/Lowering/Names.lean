import BankedLoops.FreeName
import BankedLoops.Word

/-!
# Names of a component

Cells and groups of a component share one supply of names. No name is given out twice.
-/

namespace BankedLoops

namespace Lowering

structure Names where
  used : List String := []
  /-- The next number of each stem, newest entry first. -/
  counters : List (String × Nat) := []

namespace Names

def nextNumber (n : Names) (stem : String) : Nat :=
  FreeName.firstFree n.used (FreeName.numbered stem) ((n.counters.lookup stem).getD 0)

/-- The next free name of the family `stem0`, `stem1`, … -/
def fresh (n : Names) (stem : String) : String × Names :=
  let k := n.nextNumber stem
  (FreeName.numbered stem k, ⟨FreeName.numbered stem k :: n.used, (stem, k + 1) :: n.counters⟩)

/-- `fresh` where a counter is a word: a number without a successor in its word is not given out. -/
def freshWord (n : Names) (stem : String) : Except Fault (String × Names) := do
  let _ ← Word.add Word.counterBits (n.nextNumber stem) 1
  pure (n.fresh stem)

/-- `base` itself if it is free, else the first free of `base_1`, `base_2`, … -/
def unique (n : Names) (base : String) : String × Names :=
  let family := FreeName.suffixed base
  let k := FreeName.firstFree n.used family 0
  (family k, { n with used := family k :: n.used })

/-- Takes exactly `name`, if it is free. -/
def reserve? (n : Names) (name : String) : Option Names :=
  if n.used.contains name then none else some { n with used := name :: n.used }

end Names

end Lowering

end BankedLoops
