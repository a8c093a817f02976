import BankedLoops.Program
import BankedLoops.Token

/-!
# Diagnostics

Every way in which a compilation can be refused, as a cause with its data. The wording of each
cause stands in its `message`; `CompileError.message` adds the kind and the offending statement.
-/

namespace BankedLoops

inductive Expected where
  | token (t : Token)
  | identifier
  | integer
  | type
  | expression

def Expected.text : Expected → String
  | .token t => s!"`{t.text}`"
  | .identifier => "an identifier"
  | .integer => "an integer"
  | .type => "a type"
  | .expression => "an expression"

inductive ParseFault where
  /-- Something else stands at the cursor: a token and its byte offset, or the end of the text. -/
  | expected (wanted : Expected) (found : Option (Token × Nat))
  | bitWidth (width : Nat)

def ParseFault.message : ParseFault → String
  | .expected wanted (some (found, offset)) =>
    s!"expected {wanted.text}, found `{found.text}` at position {offset}"
  | .expected wanted none => s!"expected {wanted.text}, found end of input"
  | .bitWidth width => s!"invalid bit width {width}"

inductive ScopeFault where
  | functionTwice (func : String)
  | parameterTwice (name : String)
  | declaredTwice (name : String)
  | boundTwice (name : String)
  | undeclared (name : String)
  | undefined (func : String)

def ScopeFault.message : ScopeFault → String
  | .functionTwice func => s!"function `{func}` is already defined"
  | .parameterTwice name => s!"parameter `{name}` is declared twice"
  | .declaredTwice name => s!"`{name}` is already declared"
  | .boundTwice name => s!"`{name}` is already declared in this scope"
  | .undeclared name => s!"`{name}` is not declared"
  | .undefined func => s!"function `{func}` is not defined"

inductive OperandFault where
  | notBool (op : BinOp) (l r : Ty)
  | fixedBitwise (op : BinOp)
  | unrepresentable (op : BinOp) (a b : Nat)
  | fractions (op : BinOp) (f g : Nat)
  | mixedFixed (op : BinOp) (l r : Ty)
  | mixedSign (op : BinOp) (l r : Ty)
  | undefined (op : BinOp) (l r : Ty)
  deriving DecidableEq

def OperandFault.message : OperandFault → String
  | .notBool op l r => s!"`{op.symbol}` requires bool operands, found {l.text} and {r.text}"
  | .fixedBitwise op => s!"`{op.symbol}` is not defined on fixed-point values"
  | .unrepresentable op a b => s!"static expression {a} {op.symbol} {b} is not representable"
  | .fractions op f g =>
    s!"fixed-point operands of `{op.symbol}` have fractional widths {f} and {g}"
  | .mixedFixed op l r =>
    s!"`{op.symbol}` cannot mix fixed-point and non-fixed-point operands {l.text} and {r.text}"
  | .mixedSign op l r =>
    s!"`{op.symbol}` cannot mix signed and unsigned operands {l.text} and {r.text}"
  | .undefined op l r => s!"`{op.symbol}` is not defined on {l.text} and {r.text}"

inductive TypeFault where
  | zeroWidth
  | fraction (frac width : Nat)
  | element (elem : Ty)
  | bankFactor (bank size : Nat)
  | undeclarable (ty : Ty)
  | parameter (name : String) (ty : Ty)
  | bindsArray
  | binding (value : Ty) (name : String) (ty : Ty)
  | condition (ty : Ty)
  | emptyRange (start stop : Nat)
  | unroll (factor trips : Nat)
  | location (value ty : Ty)
  | reductionTarget (ty : Ty)
  | reduction (value ty : Ty)
  | notArray (name : String)
  | iteratorTarget (name : String)
  | arrayTarget (name : String)
  | notAssignable (target : Expr)
  | arrayValue (name : String)
  | operands (fault : OperandFault)
  | noValue (func : String)
  | arity (func : String) (params args : Nat)
  | argumentForm (arg : Expr)
  | argument (name : String) (ty : Ty) (param : Decl)
  | narrowIndex (ty : Ty) (size : Nat)
  | indexType (ty : Ty)

def TypeFault.message : TypeFault → String
  | .zeroWidth => "zero-width type"
  | .fraction frac width => s!"fractional width {frac} exceeds total width {width}"
  | .element elem => s!"array elements must be scalar, found {elem.text}"
  | .bankFactor bank size => s!"bank factor {bank} must evenly divide dimension size {size}"
  | .undeclarable ty => s!"{ty.text} cannot be declared"
  | .parameter name ty => s!"parameter `{name}` must be an array, found {ty.text}"
  | .bindsArray => "cannot bind an array"
  | .binding value name ty => s!"cannot assign {value.text} to `{name}` of type {ty.text}"
  | .condition ty => s!"condition must be bool, found {ty.text}"
  | .emptyRange start stop => s!"loop range {start}..{stop} is empty"
  | .unroll factor trips => s!"unroll factor {factor} does not divide the trip count {trips}"
  | .location value ty => s!"cannot assign {value.text} to a location of type {ty.text}"
  | .reductionTarget ty => s!"reduction target must be numeric, found {ty.text}"
  | .reduction value ty =>
    s!"reduction combines {value.text} into {ty.text}; both sides must share a numeric type"
  | .notArray name => s!"`{name}` is not an array"
  | .iteratorTarget name => s!"loop iterator `{name}` cannot be assigned"
  | .arrayTarget name => s!"array `{name}` cannot be assigned as a whole"
  | .notAssignable target => s!"`{target.text}` is not assignable"
  | .arrayValue name => s!"array `{name}` used as a value"
  | .operands fault => fault.message
  | .noValue func => s!"application of `{func}` produces no value"
  | .arity func params args => s!"`{func}` expects {params} argument(s), found {args}"
  | .argumentForm arg => s!"argument `{arg.text}` must name an array"
  | .argument name ty param =>
    s!"argument `{name}` has type {ty.text} but parameter `{param.name}` expects {param.ty.text}"
  | .narrowIndex ty size => s!"index of type {ty.text} cannot address {size} elements"
  | .indexType ty => s!"index must be an unsigned integer, found {ty.text}"

inductive DimensionFault where
  | count (array : String) (dims idxs : Nat)
  | outOfBounds (index size : Nat)
  | iterator (last size : Nat)

def DimensionFault.message : DimensionFault → String
  | .count array dims idxs =>
    s!"`{array}` has {dims} dimension(s) but is indexed with {idxs}"
  | .outOfBounds index size => s!"index {index} is out of bounds for a dimension of size {size}"
  | .iterator last size => s!"iterator reaches {last} but the dimension has size {size}"

/-- A program that is well typed but has no hardware form. -/
inductive CapabilityFault where
  | rotation (array : String) (banks : Nat)
  | bankLength (array index : String) (length : Nat)
  | rotatedWrite (array : String)
  | varyingWrite (array : String)
  | dimensions (name : String) (dims : Nat)
  | collision (name : String)

def CapabilityFault.message : CapabilityFault → String
  | .rotation array banks =>
    s!"`{array}` has {banks} banks; rotating requires a power-of-two bank count"
  | .bankLength array index length =>
    s!"bank of `{array}` index `{index}` varies at run time and bank length {length} " ++
      "is not a power of two"
  | .rotatedWrite array =>
    s!"`{array}` is rotated by `advance`, so its bank is only known at run time"
  | .varyingWrite array => s!"the bank written in `{array}` is only known at run time"
  | .dimensions name dims => s!"memories have at most four dimensions, `{name}` has {dims}"
  | .collision name => s!"memory `{name}` collides with another memory of the same name"

/-- A broken promise between two passes of the compiler. -/
inductive InternalFault where
  | noRotationLayout (array : String)
  | noLayout (array : String)
  | noBank (bank : Nat) (array : String)
  | wideConstant (value width : Nat)
  | notMemory (name : String)
  | notRegister (name : String)
  | storeTarget (stmt : String)
  | reduceTarget (stmt : String)
  | noComponent (func : String)
  | invocation (func : String) (params args : Nat)
  | advance (array : String)
  | addresses (count dims : Nat)
  | noBanks
  | readSource (stmt : String)
  | noRegister (name stmt : String)
  | logicalAccess (array : String)
  | applicationValue (func : String)
  | notExternal (bank array : String)

def InternalFault.message : InternalFault → String
  | .noRotationLayout array => s!"advanced array `{array}` has no layout"
  | .noLayout array => s!"`{array}` has no array layout"
  | .noBank bank array => s!"bank {bank} of `{array}` does not exist"
  | .wideConstant value width => s!"constant {value} does not fit in {width} bits"
  | .notMemory name => s!"`{name}` is not a memory"
  | .notRegister name => s!"`{name}` is not a register"
  | .storeTarget stmt => s!"cannot store to `{stmt}`"
  | .reduceTarget stmt => s!"cannot reduce into `{stmt}`"
  | .noComponent func => s!"no component for `{func}`"
  | .invocation func params args =>
    s!"`{func}` takes {params} memories but was invoked with {args}"
  | .advance array => s!"`advance {array}` survived bank rewriting"
  | .addresses count dims => s!"{count} address(es) for a {dims}-dimensional memory"
  | .noBanks => "multiplexed read over no banks"
  | .readSource stmt => s!"read of a non-memory expression in `{stmt}`"
  | .noRegister name stmt => s!"`{name}` has no register in `{stmt}`"
  | .logicalAccess array => s!"logical access to `{array}` reached the backend"
  | .applicationValue func => s!"application of `{func}` used as a value"
  | .notExternal bank array => s!"bank `{bank}` of `{array}` is not an external memory"

inductive FileFault where
  | notFound
  | isDirectory
  | notDirectory
  | permissionDenied
  | busy
  | invalidText
  /-- A fault of another file than the one that was asked for. -/
  | beside (path : String) (fault : FileFault)
  | other (reason : String)
  deriving DecidableEq

def FileFault.message : FileFault → String
  | .notFound => "No such file or directory (os error 2)"
  | .isDirectory => "Is a directory (os error 21)"
  | .notDirectory => "Not a directory (os error 20)"
  | .permissionDenied => "Permission denied (os error 13)"
  | .busy => "Device or resource busy (os error 16)"
  | .invalidText => "stream did not contain valid UTF-8"
  | .beside path fault => s!"{fault.message} at path \"{path}\""
  | .other reason => reason

inductive ConfigFault where
  /-- The text is no configuration: not well formed, an unknown key, or a value of a wrong kind. -/
  | malformed
  | topName (name : String)
  | rootClash (func : String)
  | unreadable (path : String) (fault : FileFault)

def ConfigFault.message : ConfigFault → String
  | .malformed => "TOML parse error"
  | .topName name => s!"`{name}` is not a valid component name"
  | .rootClash func => s!"function `{func}` clashes with the root component name"
  | .unreadable path fault => s!"cannot read `{path}`: {fault.message}"

/-- A refusal to compile. User-facing kinds quote the statement `stmt` that is at fault. -/
inductive CompileError where
  | lexical (offset : Nat) (text : String)
  | parse (fault : ParseFault)
  | scope (stmt : String) (fault : ScopeFault)
  | mismatch (stmt : String) (fault : TypeFault)
  | dimension (stmt : String) (fault : DimensionFault)
  | nonStaticBank (stmt : String) (index : Expr) (array : String)
  | capability (stmt : String) (fault : CapabilityFault)
  | internal (fault : InternalFault)
  | config (fault : ConfigFault)
  | file (fault : FileFault)

namespace CompileError

def message : CompileError → String
  | .lexical offset text => s!"Lexer error at position {offset}: unexpected input `{text}`"
  | .parse fault => s!"Parser error: {fault.message}"
  | .scope stmt fault => s!"Scope error in `{stmt}`: {fault.message}"
  | .mismatch stmt fault => s!"Type mismatch in `{stmt}`: {fault.message}"
  | .dimension stmt fault => s!"Dimension error in `{stmt}`: {fault.message}"
  | .nonStaticBank stmt index array =>
    s!"Non-static bank in `{stmt}`: index `{index.text}` into banked dimension of `{array}` " ++
      "is only known at run time inside a parallel loop"
  | .capability stmt fault => s!"Cannot lower `{stmt}`: {fault.message}"
  | .internal fault => s!"internal compiler error: {fault.message}"
  | .config fault => s!"Configuration error: {fault.message}"
  | .file fault => fault.message

/-- The offending statement, for the kinds that name one. -/
def statement? : CompileError → Option String
  | .scope stmt _ | .mismatch stmt _ | .dimension stmt _ | .nonStaticBank stmt _ _
  | .capability stmt _ => some stmt
  | _ => none

def isInternal : CompileError → Bool
  | .internal _ => true
  | _ => false

end CompileError

/-- How a compilation ends without a result: with a diagnostic, or in the middle of a computation
on words that has no result. -/
inductive Failure where
  | error (e : CompileError)
  | fault (f : Fault)

instance : MonadLift (Except Fault) (Except Failure) where
  monadLift x := x.mapError .fault

instance : MonadLift (Except CompileError) (Except Failure) where
  monadLift x := x.mapError .error

def refuse {α : Type} (e : CompileError) : Except Failure α :=
  .error (.error e)

end BankedLoops
