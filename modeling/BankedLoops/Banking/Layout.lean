import BankedLoops.Program

/-!
# Layouts

How a logical array is spread over physical memories. Along a dimension with bank factor `b` every
bank holds `b` consecutive elements, so index `i` lives in bank `i / b` at offset `i % b`; bank
numbers of several dimensions are flattened in row-major order.
-/

namespace BankedLoops

structure Layout where
  name : String
  elem : Ty
  dims : List Dim

namespace Layout

/-- The layout of `name`, if `ty` is an array type. -/
def ofTy? (name : String) : Ty → Option Layout
  | .array elem dims => some ⟨name, elem, dims⟩
  | _ => none

def bankCount (l : Layout) : Except Fault Nat :=
  l.dims.foldlM (fun count d => do Word.mul Word.sizeBits count (← d.bankCount)) 1

/-- The name of one of several banks. -/
def bankName (array : String) (bank : Nat) : String := s!"{array}_b{bank}"

/-- The names of the memories in the order of their bank numbers. An array in one piece keeps its
own name. -/
def banks (l : Layout) : Except Fault (List String) := do
  let count ← l.bankCount
  if count = 1 then
    pure [l.name]
  else
    pure ((List.range count).map (bankName l.name))

def bankTy (l : Layout) : Ty :=
  .array l.elem (l.dims.map fun d => .unbanked d.bank)

/-- The row-major stride of each dimension's bank number. -/
def stridesOf : List Dim → Except Fault (List Nat)
  | [] => pure []
  | [_] => pure [1]
  | _ :: d :: dims => do
    match ← stridesOf (d :: dims) with
    | [] => pure []
    | stride :: strides =>
      let outer ← Word.mul Word.sizeBits stride (← d.bankCount)
      pure (outer :: stride :: strides)

def strides (l : Layout) : Except Fault (List Nat) := stridesOf l.dims

/-- The declarations of the banks, all at the position of the array's. -/
def split (l : Layout) (pos : Nat) : Except Fault (List Decl) := do
  return (← l.banks).map fun name => ⟨pos, name, l.bankTy⟩

end Layout

end BankedLoops
