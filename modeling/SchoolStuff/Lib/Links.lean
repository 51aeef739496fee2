import Mathlib.Algebra.Order.BigOperators.Group.Finset
import Mathlib.Data.Fintype.BigOperators

/-!
# Links — how many links name a node

A family of link lists gives each owner the nodes that it names. `named`
counts the links to a node over all owners: a link count, and a reference
count as well. A change of one owner changes the counts by its own lists
(`named_off`). `Reach` is what the links lead to from a root.
-/

namespace SchoolStuff

variable {κ ι : Type*} [DecidableEq ι]

section Named

variable [Fintype κ]

/-- How many links of the family name `i`. -/
def named (L : κ → List ι) (i : ι) : Nat := ∑ k, (L k).count i

variable {L L' : κ → List ι} {i : ι} {k : κ}

theorem named_pos : 0 < named L i ↔ ∃ k, i ∈ L k := by
  unfold named
  rw [Finset.sum_pos_iff]
  simp only [Finset.mem_univ, true_and, List.count_pos_iff]

theorem named_eq_zero : named L i = 0 ↔ ∀ k, i ∉ L k := by
  rw [← not_exists, ← named_pos, Nat.pos_iff_ne_zero, not_not]

/-- Owners that name a node at most once are counted by those who name it. -/
theorem named_eq_card (h : ∀ k, (L k).Nodup) :
    named L i = (Finset.univ.filter fun k => i ∈ L k).card := by
  rw [named, Finset.card_filter]
  exact Finset.sum_congr rfl fun k _ => (h k).count

/-- The links of one owner are among those of all. -/
theorem count_le_named (L : κ → List ι) (k : κ) (i : ι) : (L k).count i ≤ named L i :=
  Finset.single_le_sum (f := fun k => (L k).count i) (fun _ _ => Nat.zero_le _)
    (Finset.mem_univ k)

variable [DecidableEq κ]

/-- Two families that differ in one owner. -/
theorem named_off (h : ∀ j, j ≠ k → L' j = L j) (i : ι) :
    named L' i + (L k).count i = named L i + (L' k).count i := by
  have hrest : ∑ j ∈ Finset.univ.erase k, (L' j).count i
      = ∑ j ∈ Finset.univ.erase k, (L j).count i := by
    apply Finset.sum_congr rfl
    intro j hj
    rw [h j (Finset.ne_of_mem_erase hj)]
  unfold named
  rw [← Finset.add_sum_erase _ _ (Finset.mem_univ k),
    ← Finset.add_sum_erase (a := k) _ (fun j => (L j).count i) (Finset.mem_univ k), hrest]
  omega

/-- Links that come from a function, of which one value changes. -/
theorem named_update {β : Type*} (g : β → List ι) (f : κ → β) (k : κ) (b : β) (i : ι) :
    named (fun j => g (Function.update f k b j)) i + (g (f k)).count i
      = named (fun j => g (f j)) i + (g b).count i := by
  have hoff : ∀ j, j ≠ k →
      (fun j => g (Function.update f k b j)) j = (fun j => g (f j)) j := by
    intro j hj
    simp only [Function.update_of_ne hj]
  have := named_off hoff i
  simpa only [Function.update_self] using this

omit [DecidableEq κ] in
/-- A family with one owner. -/
theorem named_only (h : ∀ j, j ≠ k → L j = []) (i : ι) : named L i = (L k).count i :=
  Fintype.sum_eq_single k fun j hj => by rw [h j hj, List.count_nil]

/-- A node that one link names is named by one owner. -/
theorem eq_of_named_eq_one (h : named L i = 1) {j : κ} (hj : i ∈ L j) (hk : i ∈ L k) :
    j = k := by
  by_contra hne
  -- without the links of `k`, none is left for `j`
  have hoff : named (Function.update L k []) i + (L k).count i
      = named L i + (Function.update L k [] k).count i :=
    named_off (fun _ hl => Function.update_of_ne hl _ _) i
  have hle := count_le_named (Function.update L k []) j i
  rw [Function.update_of_ne hne] at hle
  rw [Function.update_self, List.count_nil] at hoff
  have hj' := List.count_pos_iff.2 hj
  have hk' := List.count_pos_iff.2 hk
  omega

end Named

/-- The nodes that the links lead to from `r`. -/
inductive Reach (L : ι → List ι) (r : ι) : ι → Prop where
  | root : Reach L r r
  | link {d i : ι} (h : Reach L r d) (hi : i ∈ L d) : Reach L r i

/-- The root is reached, and so is every node that has a link from a node of
a lower rank. -/
theorem Reach.of_rank {L : ι → List ι} {r : ι} {P : ι → Prop} (rank : ι → Nat)
    (hlink : ∀ i, P i → i ≠ r → ∃ d, P d ∧ i ∈ L d ∧ rank d < rank i) {i : ι}
    (hi : P i) : Reach L r i := by
  induction hrank : rank i using Nat.strongRecOn generalizing i with
  | ind m ih =>
      by_cases hr : i = r
      · rw [hr]
        exact .root
      · obtain ⟨d, hd, hmem, hlt⟩ := hlink i hi hr
        exact .link (ih (rank d) (hrank ▸ hlt) hd rfl) hmem

end SchoolStuff
