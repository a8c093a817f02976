import BankedLoops.Banking.Layout
import BankedLoops.Scope

/-!
# Index intervals

The range of values of an index that is built from literals and loop iterators, and with it the
bank of an index all of whose values fall in the same one.
-/

namespace BankedLoops

structure Interval where
  lo : Nat
  hi : Nat
  deriving DecidableEq

namespace Banking

inductive Binding where
  | array (layout : Layout)
  | iterator (range : Interval)
  | scalar

abbrev Env := Scope Binding

end Banking

namespace Interval

/-- A number that fits in a word. -/
def word? (n : Nat) : Option Nat :=
  if Word.fits Word.sizeBits n then some n else none

def add? (x y : Interval) : Option Interval := do
  return ⟨← word? (x.lo + y.lo), ← word? (x.hi + y.hi)⟩

/-- Defined where no difference is below zero. -/
def sub? (x y : Interval) : Option Interval :=
  if y.hi ≤ x.lo ∧ y.lo ≤ x.hi then some ⟨x.lo - y.hi, x.hi - y.lo⟩ else none

def mul? (x y : Interval) : Option Interval := do
  return ⟨← word? (x.lo * y.lo), ← word? (x.hi * y.hi)⟩

/-- The values an index can take, when it is a sum, difference or product of literals and loop
iterators. -/
def ofIndex? (env : Banking.Env) : TypedExpr → Option Interval
  | .int _ n => some ⟨n, n⟩
  | .var _ name =>
    match env.get? name with
    | some (.iterator range) => some range
    | _ => none
  | .binop _ op lhs rhs => do
    let x ← ofIndex? env lhs
    let y ← ofIndex? env rhs
    match op with
    | .add => x.add? y
    | .sub => x.sub? y
    | .mul => x.mul? y
    | _ => none
  | _ => none

end Interval

namespace Banking

/-- The bank along `dim` that holds every value of the index, if there is one. -/
def staticBank? (env : Env) (idx : TypedExpr) (dim : Dim) : Except Fault (Option Nat) := do
  if (← dim.bankCount) = 1 then
    return some 0
  match Interval.ofIndex? env idx with
  | none => return none
  | some range =>
    let first ← Word.div range.lo dim.bank
    let last ← Word.div range.hi dim.bank
    return if first = last then some first else none

end Banking

end BankedLoops
