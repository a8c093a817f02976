import BankedLoops.Netlist.Basic

/-!
# The primitive library

What the primitives that a netlist names are, with the width of every port. The parameters of a
primitive fix the widths: a memory takes the width of its elements, the size of each dimension and
the width of each address.
-/

namespace BankedLoops

namespace Library

inductive Operation where
  | add | sub | mul
  | lt | slt | le | sle | gt | sgt | ge | sge | eq | ne
  | and | or
  | shl | shr | sar
  deriving DecidableEq

/-- Whether the result is one bit, whatever the width of the operands. -/
def Operation.isTest : Operation → Bool
  | .lt | .slt | .le | .sle | .gt | .sgt | .ge | .sge | .eq | .ne => true
  | _ => false

inductive FixedOperation where
  | add | sub | mul
  deriving DecidableEq

inductive Adapter where
  /-- Keeps the low bits. -/
  | slice
  /-- Extends by zeros. -/
  | pad
  /-- Extends by the sign. -/
  | signext
  deriving DecidableEq

inductive Part where
  | register (width : Nat)
  | constant (width value : Nat)
  | adapter (kind : Adapter) (width target : Nat)
  | operator (op : Operation) (width : Nat)
  | fixed (op : FixedOperation) (width frac : Nat)
  /-- A memory; `widths` are those of its addresses. -/
  | memory (width : Nat) (sizes widths : List Nat)
  deriving DecidableEq

/-- A memory of `dims` dimensions, by the parameters after the width of its elements. -/
def memory? (dims width : Nat) (params : List Nat) : Option Part :=
  if params.length = 2 * dims then
    some (.memory width (params.take dims) (params.drop dims))
  else
    none

/-- The part that a primitive with the given parameters is. -/
def part? (primitive : String) (params : List Nat) : Option Part :=
  match primitive, params with
  | "std_reg", [width] => some (.register width)
  | "std_const", [width, value] => some (.constant width value)
  | "std_slice", [width, target] => some (.adapter .slice width target)
  | "std_pad", [width, target] => some (.adapter .pad width target)
  | "std_signext", [width, target] => some (.adapter .signext width target)
  | "std_add", [width] => some (.operator .add width)
  | "std_sub", [width] => some (.operator .sub width)
  | "std_mult", [width] => some (.operator .mul width)
  | "std_lt", [width] => some (.operator .lt width)
  | "std_slt", [width] => some (.operator .slt width)
  | "std_le", [width] => some (.operator .le width)
  | "std_sle", [width] => some (.operator .sle width)
  | "std_gt", [width] => some (.operator .gt width)
  | "std_sgt", [width] => some (.operator .sgt width)
  | "std_ge", [width] => some (.operator .ge width)
  | "std_sge", [width] => some (.operator .sge width)
  | "std_eq", [width] => some (.operator .eq width)
  | "std_neq", [width] => some (.operator .ne width)
  | "std_and", [width] => some (.operator .and width)
  | "std_or", [width] => some (.operator .or width)
  | "std_lsh", [width] => some (.operator .shl width)
  | "std_rsh", [width] => some (.operator .shr width)
  | "std_srsh", [width] => some (.operator .sar width)
  | "std_fp_add", [width, _, frac] => some (.fixed .add width frac)
  | "std_fp_sub", [width, _, frac] => some (.fixed .sub width frac)
  | "std_fp_mult", [width, _, frac] => some (.fixed .mul width frac)
  | "seq_mem_d1", width :: params => memory? 1 width params
  | "seq_mem_d2", width :: params => memory? 2 width params
  | "seq_mem_d3", width :: params => memory? 3 width params
  | "seq_mem_d4", width :: params => memory? 4 width params
  | _, _ => none

namespace Part

/-- The address ports of a memory, in the order of its dimensions. -/
def addressPorts : List String := ["addr0", "addr1", "addr2", "addr3"]

/-- The ports that wiring drives, with their widths. -/
def inputs : Part → List (String × Nat)
  | .register width => [("in", width), ("write_en", 1)]
  | .constant .. => []
  | .adapter _ width _ => [("in", width)]
  | .operator _ width => [("left", width), ("right", width)]
  | .fixed _ width _ => [("left", width), ("right", width)]
  | .memory width _ widths =>
    ("read_en", 1) :: ("write_data", width) :: ("write_en", 1) :: addressPorts.zip widths

/-- The ports that wiring reads, with their widths. -/
def outputs : Part → List (String × Nat)
  | .register width => [("out", width), ("done", 1)]
  | .constant width _ => [("out", width)]
  | .adapter _ _ target => [("out", target)]
  | .operator op width => [("out", if op.isTest then 1 else width)]
  | .fixed _ width _ => [("out", width)]
  | .memory width _ _ => [("read_data", width), ("read_done", 1), ("write_done", 1)]

/-- Whether the outputs follow the inputs within a cycle. -/
def isCombinational : Part → Bool
  | .register _ | .memory .. => false
  | _ => true

/-- No port is driven and read. -/
theorem not_input_of_output {part : Part} {port : String}
    (output : port ∈ part.outputs.map Prod.fst) : port ∉ part.inputs.map Prod.fst := by
  cases part with
  | memory width sizes widths =>
    intro input
    simp only [inputs, List.map_cons, List.mem_cons] at input
    have address (member : port ∈ (addressPorts.zip widths).map Prod.fst) :
        port ∈ addressPorts := by
      obtain ⟨entry, inside, rfl⟩ := List.mem_map.mp member
      exact (List.of_mem_zip inside).1
    simp only [outputs, List.map_cons, List.map_nil, List.mem_cons, List.not_mem_nil,
      or_false] at output
    rcases output with rfl | rfl | rfl <;>
      exact absurd (input.imp_right (Or.imp_right (Or.imp_right address))) (by decide)
  | _ =>
    simp only [outputs, inputs, List.map_cons, List.map_nil, List.mem_cons, List.not_mem_nil,
      or_false] at output ⊢
    rcases output with rfl | rfl <;> decide

end Part

end Library

open Library (Part)

def Cell.part? (c : Cell) : Option Part :=
  match c.prototype with
  | .primitive name params => Library.part? name params
  | .component _ => none

/-- The part that the cell of the given name is. -/
def partOf? (cells : List Cell) (name : String) : Option Part :=
  (cells.find? (·.name == name)).bind Cell.part?

theorem partOf?_of_isPrefix {cells cells' : List Cell} (grown : cells <+: cells') {name : String}
    {part : Part} (found : partOf? cells name = some part) : partOf? cells' name = some part := by
  obtain ⟨added, rfl⟩ := grown
  obtain ⟨c, first, isPart⟩ := Option.bind_eq_some_iff.mp found
  exact Option.bind_eq_some_iff.mpr ⟨c, List.find?_append ▸ by rw [first, Option.some_or], isPart⟩

theorem partOf?_append {cells : List Cell} {c : Cell} (fresh : c.name ∉ cells.map (·.name)) :
    partOf? (cells ++ [c]) c.name = c.part? := by
  have absent : cells.find? (·.name == c.name) = none := by
    rw [List.find?_eq_none]
    intro other member same
    exact fresh (List.mem_map.mpr ⟨other, member, eq_of_beq same⟩)
  simp [partOf?, List.find?_append, absent]

theorem mem_of_partOf? {cells : List Cell} {name : String} {part : Part}
    (found : partOf? cells name = some part) : name ∈ cells.map (·.name) := by
  obtain ⟨c, first, _⟩ := Option.bind_eq_some_iff.mp found
  have named : c.name = name := by simpa using List.find?_some first
  exact named ▸ List.mem_map.mpr ⟨c, List.mem_of_find?_eq_some first, rfl⟩

end BankedLoops
