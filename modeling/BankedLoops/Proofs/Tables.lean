import Mathlib.Data.List.Induction
import Mathlib.Data.List.Nodup
import BankedLoops.Table

/-!
# Tables

What a table holds after entries were put into it: each key once, with a value that was given for it,
and in ascending order.
-/

namespace BankedLoops

/-- What has a key of its own is found by its key. -/
theorem find?_of_nodup {α κ : Type} {key : α → κ} {p : α → Bool} {xs : List α} {x : α}
    (nodup : (xs.map key).Nodup) (member : x ∈ xs) (selects : ∀ y, p y = true ↔ key y = key x) :
    xs.find? p = some x := by
  obtain ⟨found, search⟩ : ∃ found, xs.find? p = some found := by
    rw [← Option.isSome_iff_exists, List.find?_isSome]
    exact ⟨x, member, (selects x).mpr rfl⟩
  have same := (selects found).mp (List.find?_some search)
  rw [search, List.inj_on_of_nodup_map nodup (List.mem_of_find?_eq_some search) member same]

namespace Table

variable {κ α : Type} [Ord κ] {key : κ} {value : α} {entries : List (κ × α)}

/-! ### Entries -/

theorem mem_insertInto {entry : κ × α} (member : entry ∈ insertInto key value entries) :
    entry = (key, value) ∨ entry ∈ entries := by
  induction entries with
  | nil => exact .inl (List.mem_singleton.mp member)
  | cons first rest ih =>
    rw [insertInto] at member
    split at member
    · exact List.mem_cons.mp member
    · rcases List.mem_cons.mp member with rfl | old
      · exact .inl rfl
      · exact .inr (List.mem_cons_of_mem _ old)
    · rcases List.mem_cons.mp member with rfl | old
      · exact .inr List.mem_cons_self
      · exact (ih old).imp_right (List.mem_cons_of_mem _)

theorem ofList_concat (entries : List (κ × α)) (entry : κ × α) :
    ofList (entries ++ [entry]) = (ofList entries).insert entry.1 entry.2 := by
  simp [ofList]

theorem mem_ofList {entry : κ × α} (member : entry ∈ (ofList entries).entries) : entry ∈ entries := by
  induction entries using List.reverseRecOn with
  | nil => cases member
  | append_singleton entries last ih =>
    rw [ofList_concat] at member
    rcases mem_insertInto member with rfl | old
    · exact List.mem_append_right _ List.mem_cons_self
    · exact List.mem_append_left _ (ih old)

section

variable [Std.LawfulEqOrd κ]

theorem insertInto_perm (fresh : key ∉ entries.map Prod.fst) :
    (insertInto key value entries).Perm ((key, value) :: entries) := by
  induction entries with
  | nil => exact .refl _
  | cons entry rest ih =>
    rw [List.map_cons, List.mem_cons, not_or] at fresh
    unfold insertInto
    split
    · exact .refl _
    · next same => exact absurd (Std.compare_eq_iff_eq.mp same) fresh.1
    · exact ((ih fresh.2).cons entry).trans (.swap _ _ _)

theorem get?_of_mem {t : Table κ α} (nodup : (t.entries.map Prod.fst).Nodup)
    (member : (key, value) ∈ t.entries) : t.get? key = some value := by
  have selects (entry : κ × α) : (compare key entry.1 == .eq) = true ↔ entry.1 = key := by
    rw [beq_iff_eq, Std.compare_eq_iff_eq]
    exact eq_comm
  rw [get?, find?_of_nodup nodup member selects]
  rfl

theorem mem_of_get? {t : Table κ α} (found : t.get? key = some value) : (key, value) ∈ t.entries := by
  obtain ⟨entry, search, rfl⟩ := Option.map_eq_some_iff.mp found
  have selected := List.find?_some search
  rw [beq_iff_eq, Std.compare_eq_iff_eq] at selected
  rw [selected]
  exact List.mem_of_find?_eq_some search

theorem keys_insertInto {other : κ} : other ∈ (insertInto key value entries).map Prod.fst ↔
    other = key ∨ other ∈ entries.map Prod.fst := by
  induction entries with
  | nil => simp [insertInto]
  | cons entry rest ih =>
    rw [insertInto]
    split
    · rw [List.map_cons, List.mem_cons]
    · next same =>
      rw [Std.compare_eq_iff_eq.mp same]
      simp
    · rw [List.map_cons, List.mem_cons, ih, List.map_cons, List.mem_cons]
      exact or_left_comm

theorem get?_isSome_iff {t : Table κ α} : (t.get? key).isSome = true ↔ key ∈ t.entries.map Prod.fst := by
  rw [get?, Option.isSome_map, List.find?_isSome, List.mem_map]
  refine exists_congr fun entry => and_congr_right fun _ => ?_
  rw [beq_iff_eq, Std.compare_eq_iff_eq]
  exact eq_comm

theorem keys_insertNew {t : Table κ α} {other : κ} :
    other ∈ (t.insertNew key value).entries.map Prod.fst ↔ other = key ∨ other ∈ t.entries.map Prod.fst := by
  unfold insertNew
  split
  · next known =>
    refine (or_iff_right_of_imp ?_).symm
    rintro rfl
    exact get?_isSome_iff.mp known
  · exact keys_insertInto

omit [Std.LawfulEqOrd κ] in
theorem mem_insertNew {t : Table κ α} {entry : κ × α}
    (member : entry ∈ (t.insertNew key value).entries) : entry = (key, value) ∨ entry ∈ t.entries := by
  unfold insertNew at member
  split at member
  · exact .inr member
  · exact mem_insertInto member

theorem keys_ofList {other : κ} :
    other ∈ (ofList entries).entries.map Prod.fst ↔ other ∈ entries.map Prod.fst := by
  induction entries using List.reverseRecOn with
  | nil => rfl
  | append_singleton entries last ih =>
    rw [ofList_concat, insert, keys_insertInto, ih, List.map_append, List.mem_append, List.map_singleton,
      List.mem_singleton, or_comm]

end

/-! ### Order -/

/-- The keys ascend. -/
def Ascending (entries : List (Nat × α)) : Prop := entries.Pairwise fun e f => e.1 < f.1

theorem Ascending.insertInto {entries : List (Nat × α)} (ascending : Ascending entries) (key : Nat)
    (value : α) : Ascending (insertInto key value entries) := by
  induction entries with
  | nil => exact List.pairwise_singleton _ _
  | cons first rest ih =>
    obtain ⟨below, others⟩ := List.pairwise_cons.mp ascending
    rw [Table.insertInto]
    split
    · next less =>
      have less := Nat.compare_eq_lt.mp less
      refine List.pairwise_cons.mpr ⟨fun entry member => ?_, ascending⟩
      rcases List.mem_cons.mp member with rfl | later
      · exact less
      · exact Nat.lt_trans less (below entry later)
    · next same =>
      rw [← Nat.compare_eq_eq.mp same] at below
      exact List.pairwise_cons.mpr ⟨below, others⟩
    · next greater =>
      refine List.pairwise_cons.mpr ⟨fun entry member => ?_, ih others⟩
      rcases mem_insertInto member with rfl | old
      · exact Nat.compare_eq_gt.mp greater
      · exact below entry old

theorem Ascending.insertNew {t : Table Nat α} (ascending : Ascending t.entries) (key : Nat) (value : α) :
    Ascending (t.insertNew key value).entries := by
  unfold Table.insertNew
  split
  · exact ascending
  · exact ascending.insertInto key value

theorem ascending_ofList (entries : List (Nat × α)) : Ascending (ofList entries).entries := by
  induction entries using List.reverseRecOn with
  | nil => exact .nil
  | append_singleton entries last ih =>
    rw [ofList_concat]
    exact ih.insertInto _ _

theorem Ascending.nodup_keys {entries : List (Nat × α)} (ascending : Ascending entries) :
    (entries.map Prod.fst).Nodup :=
  (List.pairwise_map.mpr ascending).imp Nat.ne_of_lt

/-- A value that was given once for its key is found there. -/
theorem get?_ofList {entries : List (Nat × α)} (nodup : (entries.map Prod.fst).Nodup) {key : Nat}
    {value : α} (member : (key, value) ∈ entries) : (ofList entries).get? key = some value := by
  obtain ⟨entry, inside, same⟩ := List.mem_map.mp (keys_ofList.mpr (List.mem_map_of_mem member))
  have sameEntry := List.inj_on_of_nodup_map nodup (mem_ofList inside) member same
  subst sameEntry
  exact get?_of_mem (ascending_ofList entries).nodup_keys inside

theorem get?_ofList_eq_some_iff {entries : List (Nat × α)} (nodup : (entries.map Prod.fst).Nodup)
    {key : Nat} {value : α} : (ofList entries).get? key = some value ↔ (key, value) ∈ entries :=
  ⟨fun found => mem_ofList (mem_of_get? found), get?_ofList nodup⟩

end Table

end BankedLoops
