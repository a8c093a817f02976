import BankedLoops.Command

/-!
# Programs

A program declares its external storage, defines functions over arrays and may have a body.
-/

namespace BankedLoops

/-- A named storage location: a top-level declaration or a function parameter. -/
structure Decl where
  pos : Nat
  name : String
  ty : Ty
  deriving DecidableEq

def Decl.text (d : Decl) : String := s!"{d.name}: {d.ty.text}"

structure Function (τ ε : Type) where
  pos : Nat
  name : String
  params : List Decl
  body : Command τ ε

/-- The header of the definition, without its body. -/
def Function.text {τ ε : Type} (f : Function τ ε) : String :=
  let params := String.intercalate ", " (f.params.map Decl.text)
  s!"def {f.name}({params})"

structure Program (τ ε : Type) where
  decls : List Decl
  defs : List (Function τ ε)
  body : Option (Command τ ε)

abbrev SourceProgram := Program (Option Ty) Expr

abbrev TypedProgram := Program Ty TypedExpr

end BankedLoops
