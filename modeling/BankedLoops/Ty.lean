import BankedLoops.Word

/-!
# Types

The types of the language: scalars, compile-time integers, loop iterators and banked arrays, with
the text they are written as and the bits a value takes.
-/

namespace BankedLoops

/-- One array dimension of `size` elements, of which each physical memory holds `bank`. -/
structure Dim where
  size : Nat
  bank : Nat
  deriving DecidableEq

namespace Dim

def unbanked (size : Nat) : Dim := ⟨size, size⟩

/-- The number of physical memories along the dimension. -/
def bankCount (d : Dim) : Except Fault Nat := Word.div d.size d.bank

/-- Whether the bank factor cuts the dimension into equal, non-empty parts. -/
def splitsEvenly (d : Dim) : Except Fault Bool := do
  if d.size = 0 ∨ d.bank = 0 then
    return false
  return (← Word.mod d.size d.bank) == 0

/-- The bank factor is written only where it splits the dimension. -/
def text (d : Dim) : String :=
  if d.bank = d.size then s!"[{d.size}]" else s!"[{d.size} bank {d.bank}]"

end Dim

inductive Ty where
  | bool
  /-- Written `ubit<w>`, or `bit<w>` when signed. -/
  | bit (width : Nat) (signed : Bool)
  /-- Fixed point: `frac` of the `width` bits are fractional. -/
  | fix (width frac : Nat)
  /-- A compile-time integer, the type of a literal. -/
  | static (value : Nat)
  /-- A loop iterator below `bound`; `bank` is the unroll factor of its loop. -/
  | idx (bound : Nat) (bank : Option Nat)
  | array (elem : Ty) (dims : List Dim)
  /-- What a function application yields. -/
  | void
  deriving DecidableEq

namespace Ty

def ubit (width : Nat) : Ty := .bit width false

/-- The bits of a value; an array has the width of its elements. -/
def width : Ty → Nat
  | .bool => 1
  | .bit width _ => width
  | .fix width _ => width
  | .static n => bitsNeeded n
  | .idx bound _ => bitsNeeded (bound - 1)
  | .array elem _ => elem.width
  | .void => 0

def isInteger : Ty → Bool
  | .bit .. | .static _ | .idx .. => true
  | _ => false

def isSigned : Ty → Bool
  | .bit _ signed => signed
  | _ => false

def isArray : Ty → Bool
  | .array .. => true
  | _ => false

def frac? : Ty → Option Nat
  | .fix _ frac => some frac
  | _ => none

def text : Ty → String
  | .bool => "bool"
  | .bit width false => s!"ubit<{width}>"
  | .bit width true => s!"bit<{width}>"
  | .fix width frac => s!"fix<{width}, {frac}>"
  | .static n => s!"static<{n}>"
  | .idx bound none => s!"idx<{bound}>"
  | .idx bound (some bank) => s!"idx<{bound}, {bank}>"
  | .array elem dims => elem.text ++ String.join (dims.map Dim.text)
  | .void => "void"

end Ty

end BankedLoops
