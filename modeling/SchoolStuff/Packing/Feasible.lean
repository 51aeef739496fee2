import SchoolStuff.Packing.Greedy

/-!
# Packing — the greedy profits and the optimum

What `greedy_one` adds up is the price of a selection within capacity, and
so is the best single item of `greedy_two`, or it is nothing. Both are at
most what `backtrack` finds, unless a sum leaves the range of `int`: the
scan adds up one selection, the table the best ones, and they wrap apart
(`greedy_above_backtrack`).
-/

namespace SchoolStuff.Packing

open Knapsack (total Fits IsOptimum)

variable {items : List Item} {w : Int}

theorem fits_nil (hw : 0 ≤ w) : Fits Item.weight items w [] :=
  ⟨List.nil_sublist items, hw⟩

/-- The loop of `greedy_two` ends with 0 or the price of an item that
fits. -/
theorem maxFitting_eq (items : List Item) (w : Int) :
    maxFitting items w = 0
      ∨ ∃ i ∈ items, i.weight ≤ w ∧ i.cost = maxFitting items w := by
  unfold maxFitting
  induction items using List.reverseRecOn with
  | nil => exact Or.inl rfl
  | append_singleton items i ih =>
      rw [List.foldl_append, List.foldl_cons, List.foldl_nil]
      split
      · rename_i hbetter
        exact Or.inr ⟨i, by simp, hbetter.1, rfl⟩
      · rcases ih with hzero | ⟨j, hj, hfit, hcost⟩
        · exact Or.inl hzero
        · exact Or.inr ⟨j, List.mem_append_left _ hj, hfit, hcost⟩

theorem maxFitting_feasible (items : List Item) {w : Int} (hw : 0 ≤ w) :
    ∃ s, Fits Item.weight items w s
      ∧ total Item.cost s = maxFitting items w := by
  rcases maxFitting_eq items w with hzero | ⟨i, hi, hfit, hcost⟩
  · exact ⟨[], fits_nil hw, hzero.symm⟩
  · refine ⟨[i], ⟨List.singleton_sublist.2 hi, ?_⟩, ?_⟩
    · rw [Knapsack.total_cons, Knapsack.total_nil, Int.add_zero]
      exact hfit
    · rw [Knapsack.total_cons, Knapsack.total_nil, Int.add_zero, hcost]

/-- With sums in range, `greedy_two` returns the value of a selection. -/
theorem greedyTwo_feasible (hwt : ∀ i ∈ items, 0 ≤ i.weight) (hw : 0 ≤ w)
    (hint : w ≤ CInt.max)
    (hrange : SumsInRange Item.weight Item.cost items w) :
    ∃ s, Fits Item.weight items w s ∧ total Item.cost s = greedyTwo items w := by
  simp only [greedyTwo]
  split
  · exact maxFitting_feasible items hw
  · exact ⟨taken items w, taken_fits items hw,
      (greedyOne_eq hwt hw hint hrange).symm⟩

/-- **Greedy never beats the optimum**, in whatever order the items come,
as long as the selections within capacity are worth an `int`: both greedy
profits are totals of selections within capacity, the first is at most the
second, and the second at most what `backtrack` returns. -/
theorem greedy_le_backtrack (items : List Item) (w : Int)
    (hwt : ∀ i ∈ items, 1 ≤ i.weight) (hw : 0 ≤ w) (hint : w ≤ CInt.max)
    (hrange : SumsInRange Item.weight Item.cost items w) :
    ∃ b, backtrack (items.map Item.weight) (items.map Item.cost) w items.length
        = some b
      ∧ greedyOne items w ≤ greedyTwo items w ∧ greedyTwo items w ≤ b
      ∧ (∃ s, Fits Item.weight items w s ∧ total Item.cost s = greedyOne items w)
      ∧ ∃ s, Fits Item.weight items w s ∧ total Item.cost s = greedyTwo items w := by
  have hwt0 : ∀ i ∈ items, 0 ≤ i.weight := fun i hi =>
    Int.le_trans (by decide) (hwt i hi)
  obtain ⟨b, hb, hopt⟩ := backtrack_optimum hwt hrange hw
  obtain ⟨s, hs, htotal⟩ := greedyTwo_feasible hwt0 hw hint hrange
  refine ⟨b, hb, greedyOne_le_greedyTwo items w, ?_,
    ⟨taken items w, taken_fits items hw, (greedyOne_eq hwt0 hw hint hrange).symm⟩,
    s, hs, htotal⟩
  rw [← htotal]
  exact hopt.bound s hs

/-- The scan takes the first item and loses; the second one is better. -/
theorem greedy_le_backtrack_two :
    ∃ b, backtrack [3, 4] [-2, 7] 5 2 = some b
      ∧ greedyOne [⟨3, -2, 0⟩, ⟨4, 7, 1⟩] 5 ≤ greedyTwo [⟨3, -2, 0⟩, ⟨4, 7, 1⟩] 5
      ∧ greedyTwo [⟨3, -2, 0⟩, ⟨4, 7, 1⟩] 5 ≤ b
      ∧ (∃ s, Fits Item.weight [⟨3, -2, 0⟩, ⟨4, 7, 1⟩] 5 s
        ∧ total Item.cost s = greedyOne [⟨3, -2, 0⟩, ⟨4, 7, 1⟩] 5)
      ∧ ∃ s, Fits Item.weight [⟨3, -2, 0⟩, ⟨4, 7, 1⟩] 5 s
        ∧ total Item.cost s = greedyTwo [⟨3, -2, 0⟩, ⟨4, 7, 1⟩] 5 :=
  greedy_le_backtrack [⟨3, -2, 0⟩, ⟨4, 7, 1⟩] 5 (by decide) (by decide)
    (by decide) (SumsInRange.of_sublists (by decide))

/-- Five items of weight 1 and price 1288490188. Two of them together wrap
to a loss, so the table keeps the value of one; the scan goes on and wraps
once more, to 2147483644. -/
theorem greedy_above_backtrack :
    (∀ i ∈ List.replicate 5 (toItem (1, 1288490188)), 1 ≤ i.weight)
      ∧ greedyOne (List.replicate 5 (toItem (1, 1288490188))) 5 = 2147483644
      ∧ greedyTwo (List.replicate 5 (toItem (1, 1288490188))) 5 = 2147483644
      ∧ backtrack (List.replicate 5 1) (List.replicate 5 1288490188) 5 5
        = some 1288490188 := by
  decide +kernel

end SchoolStuff.Packing
