import Mathlib.Data.List.Nodup
import BankedLoops.FreeName
import BankedLoops.Banking.Layout

/-!
# Numbered names

A name that ends in a number determines its stem and the number. So the names of a family differ
from each other, and a search through a family ends at a name that is not taken.
-/

namespace BankedLoops

namespace FreeName

theorem toDigits_injective {j k : Nat} (same : Nat.toDigits 10 j = Nat.toDigits 10 k) : j = k := by
  rw [← Nat.ofDigitChars_ten_toDigits (n := j), same, Nat.ofDigitChars_ten_toDigits]

/-- The digits at the end of a word, behind a character that is no digit. -/
theorem takeWhile_isDigit_reverse {xs ds : List Char} {c : Char} (mark : c.isDigit = false)
    (digits : ∀ d ∈ ds, d.isDigit = true) :
    (xs ++ c :: ds).reverse.takeWhile Char.isDigit = ds.reverse := by
  rw [List.reverse_append, List.reverse_cons, List.append_assoc, List.takeWhile_append_of_pos]
  · simp [mark]
  · intro d member
    exact digits d (List.mem_reverse.mp member)

/-- The last character that is no digit, what is before it and the digits behind it can be read
back. -/
theorem append_digits_inj {xs ys ds es : List Char} {c c' : Char} (mark : c.isDigit = false)
    (mark' : c'.isDigit = false) (left : ∀ d ∈ ds, d.isDigit = true)
    (right : ∀ d ∈ es, d.isDigit = true) (same : xs ++ c :: ds = ys ++ c' :: es) :
    xs = ys ∧ c = c' ∧ ds = es := by
  have tails : ds.reverse = es.reverse := by
    rw [← takeWhile_isDigit_reverse mark' right, ← same]
    exact (takeWhile_isDigit_reverse mark left).symm
  have tails := List.reverse_injective tails
  subst tails
  have heads : (xs ++ [c]) ++ ds = (ys ++ [c']) ++ ds := by simpa using same
  have heads := List.append_cancel_right heads
  obtain ⟨stems, marks⟩ := List.append_inj' heads rfl
  exact ⟨stems, List.singleton_inj.mp marks, rfl⟩

theorem isDigit_toDigits (n : Nat) : ∀ d ∈ Nat.toDigits 10 n, d.isDigit = true :=
  fun _ member => Nat.isDigit_of_mem_toDigits (by decide) (by decide) member

/-- A stem and a number behind a character that is no digit can be read back. -/
theorem stem_inj {xs ys : List Char} {c : Char} {j k : Nat} (mark : c.isDigit = false)
    (same : xs ++ c :: Nat.toDigits 10 j = ys ++ c :: Nat.toDigits 10 k) : xs = ys ∧ j = k := by
  obtain ⟨stems, _, numbers⟩ :=
    append_digits_inj mark mark (isDigit_toDigits j) (isDigit_toDigits k) same
  exact ⟨stems, toDigits_injective numbers⟩

theorem toList_numbered (stem : String) (k : Nat) :
    (numbered stem k).toList = stem.toList ++ Nat.toDigits 10 k := by
  simp [numbered, toString, Nat.toList_repr]

theorem numbered_injective (stem : String) : Function.Injective (numbered stem) := by
  intro j k same
  have lists := congrArg String.toList same
  rw [toList_numbered, toList_numbered] at lists
  exact toDigits_injective (List.append_cancel_left lists)

theorem toList_suffixed (base : String) (k : Nat) :
    (suffixed base (k + 1)).toList = base.toList ++ '_' :: Nat.toDigits 10 (k + 1) := by
  simp [suffixed, toString, Nat.toList_repr]

theorem suffixed_injective (base : String) : Function.Injective (suffixed base) := by
  have longer (k : Nat) : base ≠ suffixed base (k + 1) := by
    intro same
    have lengths := congrArg (List.length ∘ String.toList) same
    simp only [Function.comp, toList_suffixed, List.length_append, List.length_cons] at lengths
    omega
  intro j k same
  cases j with
  | zero =>
    cases k with
    | zero => rfl
    | succ k => exact absurd same (longer k)
  | succ j =>
    cases k with
    | zero => exact absurd same.symm (longer j)
    | succ k =>
      have lists := congrArg String.toList same
      rw [toList_suffixed, toList_suffixed] at lists
      exact (stem_inj (by decide) lists).2

/-- The search stops at a free name or has passed as many taken names as it may try. -/
theorem search_passed (taken : List String) (name : Nat → String) (tries k : Nat) :
    name (search taken name tries k) ∉ taken ∨
      search taken name tries k = k + tries ∧ ∀ j, k ≤ j → j < k + tries → name j ∈ taken := by
  induction tries generalizing k with
  | zero => exact .inr ⟨rfl, fun j from_ below => absurd from_ (by omega)⟩
  | succ tries ih =>
    unfold search
    split
    · next busy =>
      rcases ih (k + 1) with free | ⟨stop, passed⟩
      · exact .inl free
      · refine .inr ⟨by omega, ?_⟩
        intro j from_ below
        rcases Nat.eq_or_lt_of_le from_ with rfl | later
        · simpa using busy
        · exact passed j later (by omega)
    · next free => exact .inl (by simpa using free)

/-- The names that the search has passed are taken. -/
theorem mem_of_lt_search {taken : List String} {name : Nat → String} {tries k j : Nat} (from_ : k ≤ j)
    (below : j < search taken name tries k) : name j ∈ taken := by
  induction tries generalizing k with
  | zero => exact absurd below (Nat.not_lt.mpr from_)
  | succ tries ih =>
    unfold search at below
    split at below
    · next busy =>
      rcases Nat.eq_or_lt_of_le from_ with rfl | later
      · simpa using busy
      · exact ih later below
    · exact absurd below (Nat.not_lt.mpr from_)

/-- In a family of different names the search finds a free one. -/
theorem firstFree_not_mem {name : Nat → String} (different : Function.Injective name)
    (taken : List String) (start : Nat) : name (firstFree taken name start) ∉ taken := by
  rcases search_passed taken name taken.length start with free | ⟨stop, passed⟩
  · exact free
  · intro busy
    have nodup : ((List.range' start (taken.length + 1)).map name).Nodup :=
      (List.nodup_range' 1 (by decide)).map different
    have subset : (List.range' start (taken.length + 1)).map name ⊆ taken := by
      intro found member
      obtain ⟨j, inRange, rfl⟩ := List.mem_map.mp member
      rw [List.mem_range'_1] at inRange
      by_cases last : j = start + taken.length
      · rw [last, ← stop]
        exact busy
      · exact passed j inRange.1 (by omega)
    have count := nodup.length_le_of_subset subset
    rw [List.length_map, List.length_range'] at count
    omega

end FreeName

namespace Layout

theorem toList_bankName (array : String) (k : Nat) :
    (bankName array k).toList = (array.toList ++ ['_']) ++ 'b' :: Nat.toDigits 10 k := by
  simp [bankName, toString, Nat.toList_repr]

/-- The name of a bank determines the array and the number of the bank. -/
theorem bankName_inj {a b : String} {j k : Nat} (same : bankName a j = bankName b k) :
    a = b ∧ j = k := by
  have lists := congrArg String.toList same
  rw [toList_bankName, toList_bankName] at lists
  obtain ⟨stems, numbers⟩ := FreeName.stem_inj (by decide) lists
  exact ⟨String.toList_injective (List.append_cancel_right stems), numbers⟩

/-- The registers that rotate arrays have other names than banks. -/
theorem suffixed_ne_bankName (owner array : String) (j k : Nat) :
    FreeName.suffixed s!"{owner}_bank" j ≠ bankName array k := by
  intro same
  have lists := congrArg String.toList same
  rw [toList_bankName] at lists
  cases j with
  | zero =>
    have stem : (FreeName.suffixed s!"{owner}_bank" 0).toList =
        (owner.toList ++ ['_', 'b', 'a', 'n']) ++ 'k' :: [] := by
      simp [FreeName.suffixed, toString]
    rw [stem] at lists
    have none : ∀ d ∈ ([] : List Char), d.isDigit = true := nofun
    obtain ⟨_, marks, _⟩ := FreeName.append_digits_inj (by decide) (by decide) none
      (FreeName.isDigit_toDigits k) lists
    exact absurd marks (by decide)
  | succ j =>
    rw [FreeName.toList_suffixed] at lists
    obtain ⟨_, marks, _⟩ := FreeName.append_digits_inj (by decide) (by decide)
      (FreeName.isDigit_toDigits (j + 1)) (FreeName.isDigit_toDigits k) lists
    exact absurd marks (by decide)

end Layout

end BankedLoops
