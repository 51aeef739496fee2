import Mathlib.Data.Finset.Card
import Mathlib.Data.Finset.Range
import Mathlib.Data.List.Nodup
import Mathlib.Data.List.Perm.Basic
import Mathlib.Tactic.Common

/-!
# Holdings — what numbered holders hold

Each of the holders below `n` holds one thing or none. Giving a thing to a
holder that has none adds it to the list of all that is held (`held_give`), and
taking it removes it (`held_take`). If nothing is held twice, a thing has one
holder (`held_inj`).
-/

namespace SchoolStuff.Holdings

variable {α : Type*} {g g' : Nat → Option α} {n i j : Nat} {a : α}

/-- What the holders below `n` hold. -/
def held (g : Nat → Option α) (n : Nat) : List α := (List.range n).filterMap g

theorem mem_held : a ∈ held g n ↔ ∃ i, i < n ∧ g i = some a := by
  simp [held]

theorem held_succ (g : Nat → Option α) (n : Nat) :
    held g (n + 1) = held g n ++ (g n).toList := by
  rw [held, List.range_succ, List.filterMap_append]
  cases h : g n <;> simp [held, h]

theorem held_congr (h : ∀ i, i < n → g' i = g i) : held g' n = held g n :=
  List.filterMap_congr fun i hi => h i (List.mem_range.1 hi)

theorem held_eq_nil (h : ∀ i, i < n → g i = none) : held g n = [] := by
  rw [List.eq_nil_iff_forall_not_mem]
  intro a ha
  obtain ⟨i, hi, hg⟩ := mem_held.1 ha
  simp [h i hi] at hg

/-- There is one thing for each holder that has one. -/
theorem length_held (g : Nat → Option α) (n : Nat) :
    (held g n).length = ((Finset.range n).filter fun i => (g i).isSome).card := by
  induction n with
  | zero => rfl
  | succ n ih =>
      rw [held_succ, List.length_append, ih, Finset.range_add_one, Finset.filter_insert]
      cases h : g n with
      | none => simp
      | some a =>
          rw [if_pos Option.isSome_some, Finset.card_insert_of_notMem (by simp)]
          rfl

theorem held_give (hi : i < n) (hnone : g i = none)
    (h : ∀ j, g' j = if j = i then some a else g j) :
    (held g' n).Perm (a :: held g n) := by
  induction n with
  | zero => exact absurd hi (Nat.not_lt_zero i)
  | succ n ih =>
      rw [held_succ, held_succ]
      by_cases hlast : i = n
      · subst hlast
        have hsame : held g' i = held g i :=
          held_congr fun j hj => by rw [h, if_neg (Nat.ne_of_lt hj)]
        rw [hsame, h, if_pos rfl, hnone]
        simp
      · have hn : g' n = g n := by rw [h, if_neg (Ne.symm hlast)]
        rw [hn]
        exact (ih (by omega)).append_right _

theorem held_take (hi : i < n) (hsome : g i = some a)
    (h : ∀ j, g' j = if j = i then none else g j) :
    (held g n).Perm (a :: held g' n) := by
  refine held_give hi (by rw [h, if_pos rfl]) fun j => ?_
  by_cases hj : j = i
  · rw [if_pos hj, hj, hsome]
  · rw [if_neg hj, h, if_neg hj]

theorem held_inj (hnd : (held g n).Nodup) (hi : i < n) (hj : j < n)
    (hgi : g i = some a) (hgj : g j = some a) : i = j := by
  by_contra hne
  have hperm : (held g n).Perm (a :: held (fun k => if k = i then none else g k) n) :=
    held_take hi hgi fun _ => rfl
  have hnot := (List.nodup_cons.1 (hperm.nodup_iff.1 hnd)).1
  exact hnot (mem_held.2 ⟨j, hj, by rw [if_neg (Ne.symm hne), hgj]⟩)

end SchoolStuff.Holdings
