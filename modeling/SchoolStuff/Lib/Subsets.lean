import Mathlib.Algebra.Order.BigOperators.Group.List
import Mathlib.Algebra.Order.Ring.Int

/-!
# Subsets — sublists by bit mask

`select i l` keeps the elements of `l` whose index is a bit of `i`. The
masks below `2 ^ l.length` give exactly the sublists of `l`, so a loop
over the masks is a search over the sublists.
-/

namespace SchoolStuff.Subsets

variable {α : Type*}

/-- The elements of the list whose index is a bit of the mask. -/
def select : Nat → List α → List α
  | _, [] => []
  | i, x :: l => if i.testBit 0 then x :: select (i / 2) l else select (i / 2) l

theorem select_sublist (i : Nat) (l : List α) : (select i l).Sublist l := by
  induction l generalizing i with
  | nil => exact List.Sublist.refl _
  | cons x l ih =>
      unfold select
      split
      · exact (ih (i / 2)).cons_cons x
      · exact (ih (i / 2)).cons x

/-- Every sublist is selected by a mask in range. -/
theorem exists_select {s l : List α} (h : s.Sublist l) :
    ∃ i, i < 2 ^ l.length ∧ select i l = s := by
  induction h with
  | slnil => exact ⟨0, Nat.one_pos, rfl⟩
  | @cons s l x _ ih =>
      obtain ⟨i, hi, hsel⟩ := ih
      refine ⟨2 * i, by rw [List.length_cons, Nat.pow_succ]; omega, ?_⟩
      rw [select, if_neg (by simp), Nat.mul_div_cancel_left i (by decide), hsel]
  | @cons_cons s l x _ ih =>
      obtain ⟨i, hi, hsel⟩ := ih
      refine ⟨2 * i + 1, by rw [List.length_cons, Nat.pow_succ]; omega, ?_⟩
      rw [select, if_pos (by simp [Nat.testBit_zero]),
        show (2 * i + 1) / 2 = i by omega, hsel]

/-- Reading the bits index by index selects by mask. -/
theorem map_filter_zipIdx (i k : Nat) (l : List α) :
    ((l.zipIdx k).filter fun cj => i.testBit cj.2).map Prod.fst
      = select (i / 2 ^ k) l := by
  induction l generalizing k with
  | nil => rfl
  | cons x l ih =>
      have hbit : (i / 2 ^ k).testBit 0 = i.testBit k := by
        rw [Nat.testBit_div_two_pow, Nat.zero_add]
      have hhalf : i / 2 ^ k / 2 = i / 2 ^ (k + 1) := by
        rw [Nat.div_div_eq_div_mul, Nat.pow_succ]
      rw [List.zipIdx_cons, List.filter_cons, select, hbit, hhalf, ← ih (k + 1)]
      split
      · rw [List.map_cons]
      · rfl

variable {f : α → Int}

theorem sum_le_of_sublist {s l : List α} (h : s.Sublist l)
    (hf : ∀ x ∈ l, 0 ≤ f x) : (s.map f).sum ≤ (l.map f).sum := by
  apply (h.map f).sum_le_sum
  simpa using hf

end SchoolStuff.Subsets
