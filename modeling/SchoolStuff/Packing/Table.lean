import Mathlib.Data.List.Induction
import Mathlib.Data.List.Sublists
import SchoolStuff.Lib.Loop
import SchoolStuff.Packing.Basic

/-!
# Packing — the table of `backtrack`

Row `i` of the table holds, capacity by capacity, the optimum of the first
`i` items; a row is filled from the one before it (`Filled`), and every
index the loops use is in range. What a cell adds up is the value of a
selection within capacity, so nothing wraps as long as these are `int`s
(`SumsInRange`).
-/

namespace SchoolStuff.Packing

open Knapsack (total Fits IsOptimum)

variable {α : Type} {wt val : α → Int} {l : List α} {w : Int}

/-- The values of the selections within capacity are `int`s. -/
def SumsInRange (wt val : α → Int) (l : List α) (w : Int) : Prop :=
  ∀ s, Fits wt l w s → CInt.InRange (total val s)

theorem SumsInRange.of_sublists
    (h : ∀ s ∈ l.sublists, CInt.InRange (total val s)) :
    SumsInRange wt val l w :=
  fun s hs => h s (List.mem_sublists.mpr hs.sublist)

/-- The sum of a cell is the value of a selection. -/
theorem SumsInRange.cell (h : SumsInRange wt val l w) {k : Nat} {x : α}
    (htake : l.take (k + 1) = l.take k ++ [x]) {we b : Int} (hwe : we ≤ w)
    (hb : IsOptimum wt val (l.take k) (we - wt x) b) :
    CInt.InRange (val x + b) := by
  obtain ⟨s, hs, rfl⟩ := hb.attained
  have hfits : Fits wt (l.take (k + 1)) we (s ++ [x]) :=
    htake ▸ Knapsack.fits_concat.mpr (Or.inr ⟨s, rfl, hs⟩)
  have hrange := h (s ++ [x]) ⟨hfits.sublist.trans (List.take_sublist _ l),
    Int.le_trans hfits.weight hwe⟩
  rwa [Knapsack.total_append, Knapsack.total_cons, Knapsack.total_nil,
    Int.add_zero, Int.add_comm] at hrange

/-- The rows before row `i` are filled with optima. -/
structure Filled (wt val : α → Int) (l : List α) (w : Int) (i : Nat)
    (table : List (List Int)) : Prop where
  rows : table.length = i
  optimum : ∀ j, j < i → ∀ we : Int, 0 ≤ we → we ≤ w →
    ∃ v, entry table j we = some v ∧ IsOptimum wt val (l.take j) we v

/-- **One cell** of row `i`, when the rows before it hold optima. -/
theorem cell_optimum {i : Nat} {table : List (List Int)}
    (h : ∀ j, j < i → ∀ we : Int, 0 ≤ we → we ≤ w →
      ∃ v, entry table j we = some v ∧ IsOptimum wt val (l.take j) we v)
    (hwt : ∀ x ∈ l, 1 ≤ wt x) (hrange : SumsInRange wt val l w)
    (hi : i ≤ l.length) {we : Nat} (hwe : (we : Int) ≤ w) :
    ∃ v, cell (l.map wt) (l.map val) table i we = some v
      ∧ IsOptimum wt val (l.take i) we v := by
  by_cases hzero : i = 0 ∨ we = 0
  · refine ⟨0, by rw [Packing.cell, if_pos hzero], ?_⟩
    rcases hzero with rfl | rfl
    · exact IsOptimum.nil (Int.natCast_nonneg we)
    · exact IsOptimum.zero fun x hx => hwt x (List.mem_of_mem_take hx)
  · obtain ⟨k, rfl⟩ : ∃ k, i = k + 1 := ⟨i - 1, by omega⟩
    have hk : k < l.length := by omega
    have hmem : l[k] ∈ l := List.getElem_mem hk
    have hweight : (l.map wt)[k]? = some (wt l[k]) := by simp [hk]
    have hprice : (l.map val)[k]? = some (val l[k]) := by simp [hk]
    have htake : l.take (k + 1) = l.take k ++ [l[k]] := by
      rw [List.take_add_one, List.getElem?_eq_getElem hk]
      rfl
    obtain ⟨a, ha, hopt⟩ := h k (Nat.lt_succ_self k) we
      (Int.natCast_nonneg we) hwe
    rw [Packing.cell, if_neg hzero, htake]
    simp only [Nat.add_sub_cancel, hweight, hprice, ha, Option.bind_eq_bind,
      Option.bind_some]
    -- the two branches of the source are the two recurrences
    by_cases hfit : wt l[k] ≤ we
    · have hpos := hwt _ hmem
      obtain ⟨b, hb, hrest⟩ := h k (Nat.lt_succ_self k) (we - wt l[k])
        (by omega) (by omega)
      have hsum := CInt.wrap_of_inRange (hrange.cell htake hwe hrest)
      exact ⟨max a (val l[k] + b), by simp only [if_pos hfit, hb,
        Option.bind_some, hsum], hopt.snoc hrest⟩
    · refine ⟨a, by rw [if_neg hfit], hopt.snoc_of_lt ?_ (by omega)⟩
      intro y hy
      have := hwt y (List.mem_of_mem_take hy)
      omega

/-- **Step lemma**: one row. -/
theorem Filled.fillRow {i : Nat} {table : List (List Int)}
    (h : Filled wt val l w i table) (hwt : ∀ x ∈ l, 1 ≤ wt x)
    (hrange : SumsInRange wt val l w) (hw : 0 ≤ w) (hi : i ≤ l.length) :
    ∃ table', fillRow (l.map wt) (l.map val) w table i = some table'
      ∧ Filled wt val l w (i + 1) table' := by
  obtain ⟨row, hrow, hlen, hspec⟩ := mapM_range_spec
    (f := Packing.cell (l.map wt) (l.map val) table i)
    (P := fun we v => IsOptimum wt val (l.take i) we v)
    (k := (w + 1).toNat) fun we hwe =>
      cell_optimum h.optimum hwt hrange hi (by omega)
  refine ⟨table ++ [row], by simp [Packing.fillRow, hrow], ⟨by simp [h.rows], ?_⟩⟩
  intro j hj we hwe hle
  rcases Nat.lt_succ_iff_lt_or_eq.mp hj with hlt | rfl
  · obtain ⟨v, hv, hopt⟩ := h.optimum j hlt we hwe hle
    refine ⟨v, ?_, hopt⟩
    rw [entry, if_pos hwe] at hv ⊢
    rw [List.getElem?_append_left (by rw [h.rows]; exact hlt), hv]
  · obtain ⟨v, hv, hopt⟩ := hspec we.toNat (by omega)
    rw [Int.toNat_of_nonneg hwe] at hopt
    refine ⟨v, ?_, hopt⟩
    rw [entry, if_pos hwe, ← h.rows]
    simp [hv]

/-- **Run lemma**: the rows of the table, one after the other. -/
theorem filled_foldlM (hwt : ∀ x ∈ l, 1 ≤ wt x)
    (hrange : SumsInRange wt val l w) (hw : 0 ≤ w) :
    ∃ table, (List.range (l.length + 1)).foldlM
        (fillRow (l.map wt) (l.map val) w) [] = some table
      ∧ Filled wt val l w (l.length + 1) table := by
  have hempty : Filled wt val l w 0 [] :=
    ⟨rfl, fun j hj => absurd hj (Nat.not_lt_zero j)⟩
  refine Loop.foldlM_range hempty (l.length + 1) fun i table hi hfilled => ?_
  exact hfilled.fillRow hwt hrange hw (Nat.le_of_lt_succ hi)

/-- **`backtrack` returns the optimum.** -/
theorem backtrack_optimum (hwt : ∀ x ∈ l, 1 ≤ wt x)
    (hrange : SumsInRange wt val l w) (hw : 0 ≤ w) :
    ∃ v, backtrack (l.map wt) (l.map val) w l.length = some v
      ∧ IsOptimum wt val l w v := by
  obtain ⟨table, hrun, hfilled⟩ := filled_foldlM hwt hrange hw
  obtain ⟨v, hv, hopt⟩ := hfilled.optimum l.length (Nat.lt_succ_self _) w hw
    (Int.le_refl w)
  rw [List.take_length] at hopt
  exact ⟨v, by rw [backtrack, hrun]; exact hv, hopt⟩

end SchoolStuff.Packing
