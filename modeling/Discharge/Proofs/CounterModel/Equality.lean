import Mathlib.Data.Finset.Card
import Discharge.CounterModel.Basic

/-!
# Equality of counterexamples

Two models are equal exactly if they have the same pairs and the same reason (`beq_iff`). What two equal
models have in common is their `combination`, in which the order of the pairs is forgotten. Their hashes
are the same too, so a set of models, which compares only models with one hash, has one member for each
combination (`countDistinct_eq_card`).
-/

namespace Discharge

namespace Assignments

variable {a b : Assignments}

/-- No pair of a map occurs twice. -/
theorem entries_nodup (a : Assignments) : a.entries.Nodup := a.nodup.of_map

/-- Maps are the same exactly if one is a rearrangement of the other. -/
theorem same_iff_perm : a.same b = true ↔ a.entries.Perm b.entries := by
  rw [same, Bool.and_eq_true, beq_iff_eq, List.all_eq_true]
  constructor
  · rintro ⟨hsize, hsub⟩
    have hsubset : a.entries ⊆ b.entries := fun p hp => List.contains_iff_mem.1 (hsub p hp)
    exact (List.subperm_of_subset a.entries_nodup hsubset).perm_of_length_le hsize.ge
  · intro h
    exact ⟨h.length_eq, fun p hp => List.contains_iff_mem.2 (h.mem_iff.1 hp)⟩

/-- Maps are the same if they have the same pairs. -/
theorem same_iff : a.same b = true ↔ ∀ p, p ∈ a.entries ↔ p ∈ b.entries :=
  same_iff_perm.trans (List.perm_ext_iff_of_nodup a.entries_nodup b.entries_nodup)

end Assignments

namespace CounterModel

variable {m n : CounterModel}

/-- The pairs of a model in no order, and its reason. -/
def combination (m : CounterModel) : Finset (String × String) × Option String :=
  (m.assignments.entries.toFinset, m.reason)

/-- Counterexamples are equal if they have the same reason and the same pairs. -/
theorem beq_iff : (m == n) = true ↔ m.reason = n.reason ∧
    ∀ p, p ∈ m.assignments.entries ↔ p ∈ n.assignments.entries := by
  change (m.assignments.same n.assignments && m.reason == n.reason) = true ↔ _
  rw [Bool.and_eq_true, Assignments.same_iff, beq_iff_eq, and_comm]

/-- Counterexamples are equal if their combinations of pairs and reason are. -/
theorem beq_iff_combination : (m == n) = true ↔ m.combination = n.combination := by
  rw [beq_iff, combination, combination, Prod.mk.injEq, and_comm, Finset.ext_iff]
  simp only [List.mem_toFinset]

/-- Equal models have the same hash: sums do not depend on the order. -/
theorem hash_eq_of_beq (h : (m == n) = true) : hash m = hash n := by
  change (m.assignments.same n.assignments && m.reason == n.reason) = true at h
  rw [Bool.and_eq_true, Assignments.same_iff_perm, beq_iff_eq] at h
  have hsum : (m.assignments.entries.map hashEntry).foldr (· + ·) 0 =
      (n.assignments.entries.map hashEntry).foldr (· + ·) 0 := (h.1.map hashEntry).foldr_op_eq
  change mixHash _ _ = mixHash _ _
  rw [hsum, h.2]

/-! ## Sets of models -/

/-- A member is found by hash and equality exactly if there is one with that combination. -/
theorem any_iff {members : List CounterModel} :
    (members.any fun n => hash n == hash m && n == m) = true ↔
      m.combination ∈ members.map combination := by
  simp only [List.any_eq_true, List.mem_map, Bool.and_eq_true, beq_iff_eq]
  constructor
  · rintro ⟨n, hn, -, heq⟩
    exact ⟨n, hn, beq_iff_combination.1 heq⟩
  · rintro ⟨n, hn, heq⟩
    have hbeq := beq_iff_combination.2 heq
    exact ⟨n, hn, hash_eq_of_beq hbeq, hbeq⟩

/-- Joining keeps members apart and adds the one combination. -/
theorem join_members {members : List CounterModel} (h : (members.map combination).Nodup)
    (m : CounterModel) : ((join members m).map combination).Nodup ∧
      ((join members m).map combination).toFinset =
        insert m.combination (members.map combination).toFinset := by
  unfold join
  split
  · next hm =>
    have hmem := any_iff.1 hm
    exact ⟨h, (Finset.insert_eq_of_mem (List.mem_toFinset.2 hmem)).symm⟩
  · next hm =>
    have hmem := fun hc => hm (any_iff.2 hc)
    rw [List.map_append, List.map_singleton]
    refine ⟨List.nodup_append.2 ⟨h, List.nodup_singleton _, ?_⟩, ?_⟩
    · rintro c hc d hd rfl
      exact hmem (List.mem_singleton.1 hd ▸ hc)
    · rw [List.toFinset_append, Finset.union_comm]
      rfl

/-- Joining further counterexamples to a set keeps its members apart, and adds just the combinations
that are new. -/
theorem foldl_join_members (models : List CounterModel) {members : List CounterModel}
    (h : (members.map combination).Nodup) :
    ((models.foldl join members).map combination).Nodup ∧
      ((models.foldl join members).map combination).toFinset =
        (members.map combination).toFinset ∪ (models.map combination).toFinset := by
  induction models generalizing members with
  | nil => exact ⟨h, (Finset.union_empty _).symm⟩
  | cons m models ih =>
    obtain ⟨hnodup, hjoin⟩ := join_members h m
    obtain ⟨hrest, hall⟩ := ih hnodup
    refine ⟨hrest, hall.trans ?_⟩
    rw [hjoin, List.map_cons, List.toFinset_cons, Finset.insert_union, Finset.union_insert]

/-- A set of models has one member for each combination. -/
theorem countDistinct_eq_card (models : List CounterModel) :
    countDistinct models = (models.map combination).toFinset.card := by
  have hnil : (([] : List CounterModel).map combination).Nodup := List.nodup_nil
  obtain ⟨hnodup, hall⟩ := foldl_join_members models hnil
  rw [List.map_nil, List.toFinset_nil, Finset.empty_union] at hall
  rw [← hall, List.toFinset_card_of_nodup hnodup, List.length_map, countDistinct]

end CounterModel

end Discharge
