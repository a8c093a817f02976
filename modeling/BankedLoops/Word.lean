/-!
# Machine words

Sizes, literals and bank numbers are 64-bit words, bit widths and counters of names are 32-bit words.
They are kept as `Nat`, and an operation whose result has no place in its word is a `Fault`.
-/

namespace BankedLoops

/-- An arithmetic operation without a result in its word. -/
inductive Fault where
  | overflow
  | underflow
  | divisionByZero
  deriving DecidableEq

namespace Word

def sizeBits : Nat := 64

def widthBits : Nat := 32

def counterBits : Nat := 32

/-- The number of words of `bits` bits, two to the power of `bits`. -/
def capacity (bits : Nat) : Nat := Nat.pow 2 bits

def fits (bits n : Nat) : Bool := n < capacity bits

def add (bits a b : Nat) : Except Fault Nat :=
  if fits bits (a + b) then .ok (a + b) else .error .overflow

def mul (bits a b : Nat) : Except Fault Nat :=
  if fits bits (a * b) then .ok (a * b) else .error .overflow

def sub (a b : Nat) : Except Fault Nat :=
  if b ≤ a then .ok (a - b) else .error .underflow

def div (a b : Nat) : Except Fault Nat :=
  if b = 0 then .error .divisionByZero else .ok (a / b)

def mod (a b : Nat) : Except Fault Nat :=
  if b = 0 then .error .divisionByZero else .ok (a % b)

theorem fits_iff {bits n : Nat} : fits bits n = true ↔ n < capacity bits :=
  decide_eq_true_iff

/-- A test before a result decides whether there is one. -/
theorem ite_eq_ok_iff {p : Prop} [Decidable p] {fault : Fault} {a b : Nat} :
    (if p then .ok a else .error fault : Except Fault Nat) = .ok b ↔ p ∧ a = b := by
  by_cases holds : p
  · rw [if_pos holds]
    exact ⟨fun same => ⟨holds, Except.ok.inj same⟩, fun same => congrArg Except.ok same.2⟩
  · rw [if_neg holds]
    exact ⟨nofun, fun same => absurd same.1 holds⟩

theorem add_eq_ok_iff {bits a b c : Nat} :
    add bits a b = .ok c ↔ a + b < capacity bits ∧ a + b = c := by
  rw [add, ite_eq_ok_iff, fits_iff]

theorem mul_eq_ok_iff {bits a b c : Nat} :
    mul bits a b = .ok c ↔ a * b < capacity bits ∧ a * b = c := by
  rw [mul, ite_eq_ok_iff, fits_iff]

theorem sub_eq_ok_iff {a b c : Nat} : sub a b = .ok c ↔ b ≤ a ∧ a - b = c := by
  rw [sub, ite_eq_ok_iff]

theorem div_eq_ok_iff {a b c : Nat} : div a b = .ok c ↔ b ≠ 0 ∧ a / b = c := by
  rw [div, ← ite_not, ite_eq_ok_iff]

end Word

/-- The least number of bits that holds `n`, never less than one. -/
def bitsNeeded (n : Nat) : Nat :=
  if n = 0 then 1 else n.log2 + 1

/-- Whether `n` is 1, 2, 4, 8, … -/
def isPowerOfTwo (n : Nat) : Bool := n == Word.capacity n.log2

end BankedLoops
