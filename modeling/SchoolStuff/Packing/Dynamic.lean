import SchoolStuff.Packing.Table

/-!
# Packing — the table of `dynamic` (`cs375/prog4/prog4.cpp`)

`dynamic` runs the loops of `backtrack` over a vector of `n + 1` rows with
`w + 1` entries each, and writes every entry in place. What is written so
far is the optimum of its items and capacity (`Written`).
-/

namespace SchoolStuff.Packing

open Knapsack (IsOptimum)

/-- `table[i][we] = v`. -/
def setEntry (table : List (List Int)) (i we : Nat) (v : Int) :
    Option (List (List Int)) := do
  let row ← table[i]?
  if we < row.length then some (table.set i (row.set we v)) else none

/-- The body of the loops of `dynamic`. -/
def fillEntry (weights prices : List Int) (i : Nat) (table : List (List Int))
    (we : Nat) : Option (List (List Int)) := do
  let v ← cell weights prices table i we
  setEntry table i we v

/-- `dynamic`. -/
def dynamic (weights prices : List Int) (w : Int) (n : Nat) : Option Int := do
  let table ← (List.range (n + 1)).foldlM
    (fun table i => (List.range (w + 1).toNat).foldlM
      (fillEntry weights prices i) table)
    (List.replicate (n + 1) (List.replicate (w + 1).toNat 0))
  entry table n w

variable {α : Type} {wt val : α → Int} {l : List α} {w : Int}

/-- Row by row, the entries before entry `we` of row `i` hold optima. -/
structure Written (wt val : α → Int) (l : List α) (w : Int) (i we : Nat)
    (table : List (List Int)) : Prop where
  rows : table.length = l.length + 1
  width : ∀ row ∈ table, row.length = (w + 1).toNat
  optimum : ∀ j (c : Int), 0 ≤ c → c ≤ w → j < i ∨ (j = i ∧ c < we) →
    ∃ v, entry table j c = some v ∧ IsOptimum wt val (l.take j) c v

/-- An entry in range can be written, and no other one changes. -/
theorem Written.setEntry {i we : Nat} {table : List (List Int)}
    (h : Written wt val l w i we table) (hi : i ≤ l.length)
    (hwe : (we : Int) ≤ w) (v : Int) :
    ∃ table', setEntry table i we v = some table'
      ∧ table'.length = l.length + 1
      ∧ (∀ row ∈ table', row.length = (w + 1).toNat)
      ∧ entry table' i we = some v
      ∧ ∀ j (c : Int), j ≠ i ∨ c ≠ we → entry table' j c = entry table j c := by
  have hlt : i < table.length := by
    rw [h.rows]
    omega
  have hrow := List.getElem?_eq_getElem hlt
  have hwidth := h.width _ (List.getElem_mem hlt)
  refine ⟨table.set i (table[i].set we v), ?_, ?_, ?_, ?_, ?_⟩
  · rw [Packing.setEntry, hrow]
    exact if_pos (by omega)
  · rw [List.length_set, h.rows]
  · intro row hmem
    rcases List.mem_or_eq_of_mem_set hmem with hmem | rfl
    · exact h.width row hmem
    · rw [List.length_set, hwidth]
  · rw [entry, if_pos (Int.natCast_nonneg we), List.getElem?_set_self hlt,
      Option.bind_some, Int.toNat_natCast, List.getElem?_set_self (by omega)]
  · intro j c hjc
    unfold entry
    split
    · rename_i hc
      by_cases hj : j = i
      · subst hj
        have hne : we ≠ c.toNat := by omega
        rw [List.getElem?_set_self hlt, hrow, Option.bind_some, Option.bind_some,
          List.getElem?_set_ne hne]
      · rw [List.getElem?_set_ne (Ne.symm hj)]
    · rfl

/-- **Step lemma**: one entry. -/
theorem Written.fillEntry {i we : Nat} {table : List (List Int)}
    (h : Written wt val l w i we table) (hwt : ∀ x ∈ l, 1 ≤ wt x)
    (hrange : SumsInRange wt val l w) (hi : i ≤ l.length) (hwe : (we : Int) ≤ w) :
    ∃ table', fillEntry (l.map wt) (l.map val) i table we = some table'
      ∧ Written wt val l w i (we + 1) table' := by
  have hrows : ∀ j, j < i → ∀ c : Int, 0 ≤ c → c ≤ w →
      ∃ v, entry table j c = some v ∧ IsOptimum wt val (l.take j) c v :=
    fun j hj c hc hcw => h.optimum j c hc hcw (Or.inl hj)
  obtain ⟨v, hv, hopt⟩ := cell_optimum hrows hwt hrange hi hwe
  obtain ⟨table', hset, hrows, hwidth, hself, hother⟩ := h.setEntry hi hwe v
  refine ⟨table', ?_, hrows, hwidth, fun j c hc hcw hbefore => ?_⟩
  · rw [Packing.fillEntry, hv]
    exact hset
  · by_cases hhere : j = i ∧ c = we
    · obtain ⟨rfl, rfl⟩ := hhere
      exact ⟨v, hself, hopt⟩
    · rw [hother j c (by omega)]
      exact h.optimum j c hc hcw (by omega)

/-- A row that is written to its end. -/
theorem Written.next {i : Nat} {table : List (List Int)}
    (h : Written wt val l w i (w + 1).toNat table) :
    Written wt val l w (i + 1) 0 table := by
  refine ⟨h.rows, h.width, fun j c hc hcw hbefore => ?_⟩
  exact h.optimum j c hc hcw (by omega)

/-- The entries of row `i`, one after the other. -/
theorem Written.row {i : Nat} {table : List (List Int)}
    (h : Written wt val l w i 0 table) (hwt : ∀ x ∈ l, 1 ≤ wt x)
    (hrange : SumsInRange wt val l w) (hi : i ≤ l.length) :
    ∃ table', (List.range (w + 1).toNat).foldlM
        (Packing.fillEntry (l.map wt) (l.map val) i) table = some table'
      ∧ Written wt val l w (i + 1) 0 table' := by
  obtain ⟨table', hrun, h'⟩ := Loop.foldlM_range h (w + 1).toNat
    fun we table₁ hwe h₁ => h₁.fillEntry hwt hrange hi (by omega)
  exact ⟨table', hrun, h'.next⟩

theorem written_zero : Written wt val l w 0 0
    (List.replicate (l.length + 1) (List.replicate (w + 1).toNat 0)) where
  rows := List.length_replicate
  width row hrow := by
    rw [List.eq_of_mem_replicate hrow, List.length_replicate]
  optimum j c _ _ hbefore := by omega

/-- **Run lemma**: the rows, one after the other. -/
theorem written_foldlM (hwt : ∀ x ∈ l, 1 ≤ wt x)
    (hrange : SumsInRange wt val l w) :
    ∃ table, (List.range (l.length + 1)).foldlM
        (fun table i => (List.range (w + 1).toNat).foldlM
          (fillEntry (l.map wt) (l.map val) i) table)
        (List.replicate (l.length + 1) (List.replicate (w + 1).toNat 0))
        = some table
      ∧ Written wt val l w (l.length + 1) 0 table := by
  refine Loop.foldlM_range (I := fun i table => Written wt val l w i 0 table)
    written_zero (l.length + 1) fun i table hi h => ?_
  exact h.row hwt hrange (Nat.le_of_lt_succ hi)

/-- **The table loop is exact.** For all items with weights of at least 1
and every capacity, with sums in the range of `int`, `dynamic` and
`backtrack` use no index out of range and return the greatest total price of
a sublist of the items whose total weight is at most the capacity. -/
theorem dynamic_optimum (items : List (Int × Int)) (w : Int)
    (hwt : ∀ x ∈ items, 1 ≤ x.1)
    (hrange : SumsInRange Prod.fst Prod.snd items w) (hw : 0 ≤ w) :
    ∃ v, dynamic (items.map Prod.fst) (items.map Prod.snd) w items.length = some v
      ∧ backtrack (items.map Prod.fst) (items.map Prod.snd) w items.length = some v
      ∧ IsOptimum Prod.fst Prod.snd items w v := by
  obtain ⟨table, hrun, h⟩ := written_foldlM hwt hrange
  obtain ⟨v, hv, hopt⟩ := h.optimum items.length w hw (Int.le_refl w)
    (Or.inl (Nat.lt_succ_self _))
  rw [List.take_length] at hopt
  obtain ⟨v', hv', hopt'⟩ := backtrack_optimum hwt hrange hw
  refine ⟨v, by rw [dynamic, hrun]; exact hv, ?_, hopt⟩
  rw [hv', hopt.unique hopt']

/-- Two items of which one has a negative price. -/
theorem dynamic_optimum_two :
    ∃ v, dynamic [3, 2] [-4, 9] 5 2 = some v ∧ backtrack [3, 2] [-4, 9] 5 2 = some v
      ∧ IsOptimum Prod.fst Prod.snd [(3, -4), (2, 9)] 5 v :=
  dynamic_optimum [(3, -4), (2, 9)] 5 (by decide)
    (SumsInRange.of_sublists (by decide)) (by decide)

end SchoolStuff.Packing
