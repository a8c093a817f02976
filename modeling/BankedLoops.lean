import BankedLoops.Main
import BankedLoops.Proofs.Success
import BankedLoops.Proofs.Typing.Judgement
import BankedLoops.Proofs.Typing.Operands
import BankedLoops.Proofs.Typing.Soundness
import BankedLoops.Proofs.Semantics.Run
import BankedLoops.Proofs.Semantics.Unsigned
import BankedLoops.Proofs.Banking.Agreement
import BankedLoops.Proofs.Banking.Sites
import BankedLoops.Proofs.Banking.StaticBank
import BankedLoops.Proofs.Banking.Image
import BankedLoops.Proofs.Banking.Bijection
import BankedLoops.Proofs.Banking.Addresses
import BankedLoops.Proofs.Banking.Accesses
import BankedLoops.Proofs.Banking.Scopes
import BankedLoops.Proofs.Banking.Reads
import BankedLoops.Proofs.Semantics.Growth
import BankedLoops.Proofs.Banking.Simulation
import BankedLoops.Proofs.Semantics.Progress
import BankedLoops.Proofs.Banking.Preservation
import BankedLoops.Proofs.Lowering.Growth
import BankedLoops.Proofs.Lowering.Renaming
import BankedLoops.Proofs.Lowering.Houses
import BankedLoops.Proofs.Lowering.Uses
import BankedLoops.Proofs.Lowering.Wired
import BankedLoops.Proofs.Lowering.Components
import BankedLoops.Proofs.Lowering.Lowerable
import BankedLoops.Proofs.Banking.Refusals
import BankedLoops.Proofs.Lowering.Settled
import BankedLoops.Proofs.Lowering.Refusals
import BankedLoops.Proofs.Compile
import BankedLoops.Proofs.Netlist.Library
import BankedLoops.Proofs.Netlist.Legality
import BankedLoops.Proofs.Parser.Written
import BankedLoops.Proofs.Typing.Written
import BankedLoops.Proofs.Lowering.Parts
import BankedLoops.Proofs.Lowering.Physical
import BankedLoops.Proofs.Lowering.Wirings
import BankedLoops.Proofs.Lowering.Reads
import BankedLoops.Proofs.Lowering.Expressions
import BankedLoops.Proofs.Lowering.Controls
import BankedLoops.Proofs.Lowering.Commands
import BankedLoops.Proofs.Lowering.Hardware
import BankedLoops.Proofs.Lowering.Tidy
import BankedLoops.Proofs.Lowering.Netlists
import BankedLoops.Proofs.Lowering.Spread
import BankedLoops.Proofs.Lowering.Retyped
import BankedLoops.Proofs.Lowering.Arithmetic
import BankedLoops.Proofs.Lowering.Promotion
import BankedLoops.Proofs.Lowering.Folding
import BankedLoops.Proofs.Lowering.Carried
import BankedLoops.Proofs.Lowering.Computed
import BankedLoops.Proofs.Lowering.Leaves
import BankedLoops.Proofs.Lowering.Memories
import BankedLoops.Proofs.Typing.Erasure
import BankedLoops.Proofs.Banking.OverBanks
import BankedLoops.Proofs.Preorder
import BankedLoops.Proofs.Parser.Cursor
import BankedLoops.Proofs.Parser.Grammar
import BankedLoops.Proofs.Parser.Derivation
import BankedLoops.Proofs.Parser.Whole
import BankedLoops.Proofs.Parser.Acceptance
import BankedLoops.Proofs.Parser.Renderings
import BankedLoops.Proofs.Token.Spelling
import BankedLoops.Proofs.Parser.RoundTrip
import BankedLoops.Proofs.Tables
import BankedLoops.Proofs.Parser.Positions
import BankedLoops.Proofs.Lowering.Annotations
import BankedLoops.Proofs.Walk
import BankedLoops.Proofs.Banking.Reached
import BankedLoops.Proofs.Banking.Visibility
import BankedLoops.Proofs.Banking.Loads
import BankedLoops.Proofs.Lowering.Designs
import BankedLoops.Proofs.Lowering.Latencies
import BankedLoops.Proofs.Netlist.Rounds
import BankedLoops.Proofs.Lowering.Spares
import BankedLoops.Proofs.Capacity
import BankedLoops.Proofs.Banking.Overflow
import BankedLoops.Proofs.Lowering.Overflow
import BankedLoops.Proofs.Lowering.Blame
import BankedLoops.Proofs.Blame
import BankedLoops.Proofs.Lowering.Counting
import BankedLoops.Proofs.Banking.Forms
import BankedLoops.Proofs.Banking.Numbering
import BankedLoops.Proofs.Banking.Rotations
import BankedLoops.Proofs.Lowering.Untruncated
import BankedLoops.Proofs.Banking.Hygiene
import BankedLoops.Proofs.Semantics.Frames
import BankedLoops.Proofs.Semantics.Moments
import BankedLoops.Proofs.Banking.Ranges
import BankedLoops.Proofs.Banking.Turns
import BankedLoops.Proofs.Banking.Selections
import BankedLoops.Proofs.Token.Tiling
import BankedLoops.Proofs.CommandLine.Delivery
import BankedLoops.Proofs.Banking.Idempotence
import BankedLoops.Proofs.Concurrence
import BankedLoops.Proofs.Typing.Concurrence
import BankedLoops.Proofs.Banking.Concurrence
import BankedLoops.Proofs.Lowering.Separate
import BankedLoops.Proofs.Lowering.Flattening
import BankedLoops.Proofs.Lowering.Naming
