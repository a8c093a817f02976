import BankedLoops.Proofs.Banking.Agreement
import BankedLoops.Proofs.Lowering.Growth

/-!
# Names that are given out

A search for a name is a loop without a bound. It ends because the names of a family differ from each
other and only finitely many of them can be taken, and it ends at the name that the bounded search
gives. So every call for a name is answered by an unused one, and in a run of calls no name is given
out twice, although the families overlap: `a` numbered `10` is `a1` numbered `0`.
-/

namespace BankedLoops

/-- A scope contains the names that are bound in it. -/
theorem Scope.contains_iff_mem_names {α : Type} {s : Scope α} {name : String} :
    s.contains name = true ↔ name ∈ s.names := by
  constructor
  · intro bound
    obtain ⟨value, found⟩ := Option.isSome_iff_exists.mp bound
    exact mem_names_of_get? found
  · intro member
    obtain ⟨⟨_, value⟩, inside, rfl⟩ := List.mem_map.mp member
    obtain ⟨bindings, among, inside⟩ := List.mem_flatten.mp inside
    refine List.findSome?_isSome_iff.mpr ⟨bindings, among, ?_⟩
    exact List.lookup_isSome_iff.mpr ⟨_, inside, beq_self_eq_true _⟩

namespace FreeName

variable {occupied : String → Prop} {name : Nat → String} {taken : List String}

/-- A search that tries the numbers from `k` on, as many as it takes, ends at the number `r`: it goes
on while the name is occupied. The search comes to an end if there is such an `r`. -/
inductive Finds (occupied : String → Prop) (name : Nat → String) : (k r : Nat) → Prop where
  | here {k : Nat} (free : ¬ occupied (name k)) : Finds occupied name k k
  | next {k r : Nat} (busy : occupied (name k)) (later : Finds occupied name (k + 1) r) :
      Finds occupied name k r

/-- The search passes the numbers whose names are occupied and ends at the first other one. -/
theorem finds_of_passed {k r : Nat} (reaches : k ≤ r)
    (passed : ∀ j, k ≤ j → j < r → occupied (name j)) (free : ¬ occupied (name r)) :
    Finds occupied name k r := by
  obtain ⟨distance, rfl⟩ := Nat.exists_eq_add_of_le reaches
  induction distance generalizing k with
  | zero => exact .here free
  | succ distance ih =>
    have same : k + (distance + 1) = k + 1 + distance := by omega
    rw [same] at free passed ⊢
    refine .next (passed k le_rfl (by omega)) (ih (Nat.le_add_right _ _) ?_ free)
    exact fun j from_ below => passed j (by omega) below

theorem le_search (taken : List String) (name : Nat → String) (tries k : Nat) :
    k ≤ search taken name tries k := by
  induction tries generalizing k with
  | zero => exact le_rfl
  | succ tries ih =>
    unfold search
    split
    · exact Nat.le_of_succ_le (ih (k + 1))
    · exact le_rfl

/-- In a family of different names the search ends, where the bounded one does. -/
theorem finds_firstFree (different : Function.Injective name) (same : ∀ x, occupied x ↔ x ∈ taken)
    (start : Nat) : Finds occupied name start (firstFree taken name start) := by
  refine finds_of_passed (le_search _ _ _ _) ?_ ?_
  · exact fun j from_ below => (same _).mpr (mem_of_lt_search from_ below)
  · exact fun busy => firstFree_not_mem different taken start ((same _).mp busy)

/-- The base of a family is what the search ends at only if it is free. -/
theorem firstFree_eq_base_iff {base : String} :
    suffixed base (firstFree taken (suffixed base) 0) = base ↔ base ∉ taken := by
  have free := firstFree_not_mem (suffixed_injective base) taken 0
  constructor
  · intro same
    rwa [same] at free
  · intro unused
    by_contra other
    have later : 0 < firstFree taken (suffixed base) 0 := by
      refine Nat.pos_of_ne_zero fun first => other ?_
      rw [first, suffixed]
    exact unused (mem_of_lt_search le_rfl later)

end FreeName

namespace Lowering

namespace Names

/-- The number from which the next name of a stem is searched. -/
def counter (n : Names) (stem : String) : Nat := (n.counters.lookup stem).getD 0

/-- What the names of a component are asked for. -/
inductive Call where
  | fresh (stem : String)
  | unique (base : String)
  | reserve (name : String)

/-- The name that a call is answered by, if any, and the names after it. -/
def answer (n : Names) : Call → Option String × Names
  | .fresh stem => ((n.fresh stem).1, (n.fresh stem).2)
  | .unique base => ((n.unique base).1, (n.unique base).2)
  | .reserve name =>
    match n.reserve? name with
    | some n' => (name, n')
    | none => (none, n)

/-- The names that calls are answered by, one call after another. -/
def givenOut (n : Names) : List Call → List String
  | [] => []
  | call :: calls => (n.answer call).1.toList ++ (n.answer call).2.givenOut calls

/-- A call is refused and changes nothing, or it is answered by an unused name, which is used from
then on. -/
theorem answer_cases (n : Names) (call : Call) : n.answer call = (none, n) ∨
    ∃ name n', n.answer call = (some name, n') ∧ name ∉ n.used ∧ n'.used = name :: n.used := by
  cases call with
  | fresh stem => exact .inr ⟨_, _, rfl, fresh_ok rfl⟩
  | unique base => exact .inr ⟨_, _, rfl, unique_ok rfl⟩
  | reserve name =>
    cases reserved : n.reserve? name with
    | none => exact .inl (by simp only [answer, reserved])
    | some n' => exact .inr ⟨name, n', by simp only [answer, reserved], reserve?_some reserved⟩

/-- What a run of calls gives out was unused before and differs from each other. -/
theorem givenOut_apart (n : Names) (calls : List Call) :
    (n.givenOut calls).Nodup ∧ n.used.Disjoint (n.givenOut calls) := by
  induction calls generalizing n with
  | nil => exact ⟨List.nodup_nil, List.disjoint_nil_right _⟩
  | cons call calls ih =>
    unfold givenOut
    rcases n.answer_cases call with refused | ⟨name, n', answered, free, used⟩
    · rw [refused]
      exact ih n
    · rw [answered]
      obtain ⟨distinct, apart⟩ := ih n'
      rw [used, List.disjoint_cons_left] at apart
      exact ⟨List.nodup_cons.mpr ⟨apart.1, distinct⟩,
        List.disjoint_cons_right.mpr ⟨free, apart.2⟩⟩

end Names

open FreeName (Finds numbered suffixed)
open Banking (unboundName)

/-- Every search for a name ends, at a name that is not in use, and a base that is in use is not used
again in its place. Whatever is called for in whatever order, no name is given out twice. -/
theorem naming_finds_unused :
    (∀ (n : Names) (stem : String),
      (∃ k, Finds (· ∈ n.used) (numbered stem) (n.counter stem) k ∧
        (n.fresh stem).1 = numbered stem k) ∧
      (n.fresh stem).1 ∉ n.used) ∧
    (∀ (n : Names) (base : String),
      (∃ k, Finds (· ∈ n.used) (suffixed base) 0 k ∧ (n.unique base).1 = suffixed base k) ∧
      (n.unique base).1 ∉ n.used ∧
      ((n.unique base).1 = base ↔ base ∉ n.used)) ∧
    (∀ (base : String) (env : Banking.Env) (taken : List String),
      (∃ k, Finds (fun name => env.contains name = true ∨ name ∈ taken) (suffixed base) 0 k ∧
        unboundName base env taken = suffixed base k) ∧
      env.contains (unboundName base env taken) = false ∧ unboundName base env taken ∉ taken ∧
      (unboundName base env taken = base ↔ env.contains base = false ∧ base ∉ taken)) ∧
    ∀ (n : Names) (calls : List Names.Call),
      (n.givenOut calls).Nodup ∧ n.used.Disjoint (n.givenOut calls) := by
  refine ⟨fun n stem => ⟨⟨_, ?_, rfl⟩, ?_⟩, fun n base => ⟨⟨_, ?_, rfl⟩, ?_, ?_⟩,
    fun base env taken => ?_, Names.givenOut_apart⟩
  · exact FreeName.finds_firstFree (FreeName.numbered_injective stem) (fun _ => Iff.rfl) _
  · exact (Names.fresh_ok rfl).1
  · exact FreeName.finds_firstFree (FreeName.suffixed_injective base) (fun _ => Iff.rfl) _
  · exact (Names.unique_ok rfl).1
  · exact FreeName.firstFree_eq_base_iff
  · have visible (name : String) : env.contains name = false ↔ name ∉ env.names := by
      rw [← Scope.contains_iff_mem_names, Bool.not_eq_true]
    have occupied (name : String) :
        (env.contains name = true ∨ name ∈ taken) ↔ name ∈ env.names ++ taken := by
      rw [Scope.contains_iff_mem_names, List.mem_append]
    obtain ⟨unbound, free⟩ := Banking.not_mem_of_unboundName (rfl : unboundName base env taken = _)
    refine ⟨⟨_, ?_, rfl⟩, (visible _).mpr unbound, free, ?_⟩
    · exact FreeName.finds_firstFree (FreeName.suffixed_injective base) occupied _
    · rw [visible, ← not_or, ← List.mem_append]
      exact FreeName.firstFree_eq_base_iff

/-- The families of `a` and of `a1` overlap, and so do suffixes and the names that they are put to. -/
example : Names.givenOut ⟨["a10"], [("a", 10)]⟩
    [.fresh "a", .fresh "a1", .unique "x", .unique "x", .reserve "x_1", .unique "x"] =
      ["a11", "a12", "x", "x_1", "x_2"] := by decide +kernel

end Lowering

end BankedLoops
