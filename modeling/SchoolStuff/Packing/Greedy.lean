import SchoolStuff.Packing.Table

/-!
# Packing — how good the greedy selection is

`greedy_one` takes the items in the order it is given, so it takes at least
every item before the first fitting one that exceeds the capacity. With
these items the densest ones, they and the exceeding item are worth at
least the optimum (`Knapsack.cut_bound`), and `greedy_two` gets half of it.
The order comes from a ratio that was divided as an integer; it puts items
apart only if their quotients differ (`denser_of_ratio_lt`), and between
equal quotients the sort decides.
-/

namespace SchoolStuff.Packing

open Knapsack (total total_nonneg le_total Denser Fits IsOptimum)

variable {items : List Item} {w : Int}

/-- The items that fit by themselves. -/
def fitting (items : List Item) (w : Int) : List Item :=
  items.filter fun i => decide (i.weight ≤ w)

theorem mem_fitting {i : Item} :
    i ∈ fitting items w ↔ i ∈ items ∧ i.weight ≤ w := by
  simp [fitting]

theorem fitting_cons (i : Item) (items : List Item) (w : Int) :
    fitting (i :: items) w
      = if i.weight ≤ w then i :: fitting items w else fitting items w := by
  rw [fitting, List.filter_cons]
  by_cases hfit : i.weight ≤ w
  · rw [if_pos hfit, if_pos (decide_eq_true hfit)]
    rfl
  · rw [if_neg hfit, if_neg (by simpa using hfit)]
    rfl

/-! ## `greedy_one` and `greedy_two` -/

/-- The items that `greedy_one` takes. -/
def taken : List Item → Int → List Item
  | [], _ => []
  | i :: items, w =>
      if i.weight ≤ w then i :: taken items (w - i.weight) else taken items w

/-- They are a selection within capacity. -/
theorem taken_fits (items : List Item) {w : Int} (hw : 0 ≤ w) :
    Fits Item.weight items w (taken items w) := by
  induction items generalizing w with
  | nil => exact ⟨List.Sublist.refl [], hw⟩
  | cons i items ih =>
      rw [taken]
      split
      · rename_i hfit
        have hs := ih (show 0 ≤ w - i.weight by omega)
        have hweight := hs.weight
        refine ⟨hs.sublist.cons_cons i, ?_⟩
        rw [Knapsack.total_cons]
        omega
      · exact ⟨(ih hw).sublist.cons i, (ih hw).weight⟩

/-- The loop adds up their prices. The capacity that is left stays between
0 and `w`, so it never wraps. -/
theorem foldl_take (hwt : ∀ i ∈ items, 0 ≤ i.weight) (hw : 0 ≤ w)
    (hint : w ≤ CInt.max) (p : Int) :
    (items.foldl take (CInt.wrap p, w)).1
      = CInt.wrap (p + total Item.cost (taken items w)) := by
  induction items generalizing p w with
  | nil => simp [taken]
  | cons i items ih =>
      have hi := hwt i List.mem_cons_self
      have hwt' : ∀ j ∈ items, 0 ≤ j.weight :=
        fun j hj => hwt j (List.mem_cons_of_mem i hj)
      rw [List.foldl_cons, taken]
      by_cases hfit : i.weight ≤ w
      · have hleft : CInt.wrap (w - i.weight) = w - i.weight := by
          apply CInt.wrap_of_inRange
          rw [CInt.inRange_iff]
          rw [CInt.max] at hint
          omega
        simp only [take, if_pos hfit, CInt.wrap_add_wrap, hleft]
        rw [ih hwt' (by omega) (by omega), Knapsack.total_cons, Int.add_assoc]
      · simp only [take, if_neg hfit]
        exact ih hwt' hw hint p

/-- The profit of `greedy_one` is the value of what it takes. -/
theorem greedyOne_eq (hwt : ∀ i ∈ items, 0 ≤ i.weight) (hw : 0 ≤ w)
    (hint : w ≤ CInt.max)
    (hrange : SumsInRange Item.weight Item.cost items w) :
    greedyOne items w = total Item.cost (taken items w) := by
  rw [greedyOne, show (0 : Int) = CInt.wrap 0 from rfl, foldl_take hwt hw hint,
    Int.zero_add, CInt.wrap_of_inRange (hrange _ (taken_fits items hw))]

theorem total_taken_nonneg (hcost : ∀ i ∈ items, 0 ≤ i.cost) (w : Int) :
    0 ≤ total Item.cost (taken items w) := by
  induction items generalizing w with
  | nil => exact Int.le_refl 0
  | cons i items ih =>
      have hi := hcost i List.mem_cons_self
      have hrest := ih fun j hj => hcost j (List.mem_cons_of_mem i hj)
      rw [taken]
      split
      · have := hrest (w - i.weight)
        rw [Knapsack.total_cons]
        omega
      · exact hrest w

/-- **`greedy_one` takes a prefix of the fitting items that is within
capacity.** -/
theorem total_le_taken {c : Int} : ∀ {items A R : List Item} {w : Int},
    (∀ i ∈ items, 0 ≤ i.weight) → (∀ i ∈ items, 0 ≤ i.cost) →
    fitting items c = A ++ R → total Item.weight A ≤ w → w ≤ c →
    total Item.cost A ≤ total Item.cost (taken items w) := by
  intro items
  induction items with
  | nil =>
      intro A R w _ _ hsplit _ _
      have hA : A = [] := (List.append_eq_nil_iff.mp hsplit.symm).1
      rw [hA]
      exact Int.le_refl 0
  | cons i items ih =>
      intro A R w hwt hcost hsplit hA hw
      have hwt' : ∀ j ∈ items, 0 ≤ j.weight :=
        fun j hj => hwt j (List.mem_cons_of_mem i hj)
      have hcost' : ∀ j ∈ items, 0 ≤ j.cost :=
        fun j hj => hcost j (List.mem_cons_of_mem i hj)
      rw [fitting_cons] at hsplit
      by_cases hfit : i.weight ≤ c
      · rw [if_pos hfit] at hsplit
        cases A with
        | nil => exact total_taken_nonneg hcost w
        | cons x A =>
            -- `i` is the first item of the prefix, so it is taken
            obtain ⟨rfl, htail⟩ := List.cons.inj hsplit
            have hrest : 0 ≤ total Item.weight A := total_nonneg fun j hj =>
              hwt' j (mem_fitting.mp
                (htail ▸ List.mem_append_left R hj : j ∈ fitting items c)).1
            rw [Knapsack.total_cons] at hA
            rw [Knapsack.total_cons, taken, if_pos (by omega), Knapsack.total_cons]
            have := ih (w := w - i.weight) hwt' hcost' htail (by omega)
              (by have := hwt i List.mem_cons_self; omega)
            omega
      · rw [if_neg hfit] at hsplit
        rw [taken, if_neg (by omega)]
        exact ih hwt' hcost' hsplit hA hw

/-- The loop of `greedy_two` never lowers its maximum, and ends at or above
every fitting item. -/
theorem le_maxFitting {i : Item} (hi : i ∈ fitting items w) :
    i.cost ≤ maxFitting items w := by
  have hgen : ∀ (items : List Item) (m : Int),
      m ≤ items.foldl (fun m i => if i.weight ≤ w ∧ m < i.cost then i.cost
          else m) m
        ∧ ∀ i ∈ items, i.weight ≤ w →
          i.cost ≤ items.foldl (fun m i => if i.weight ≤ w ∧ m < i.cost
            then i.cost else m) m := by
    intro items
    induction items with
    | nil => exact fun m => ⟨Int.le_refl m, fun i hi => absurd hi (by simp)⟩
    | cons j items ih =>
        intro m
        rw [List.foldl_cons]
        obtain ⟨hle, hall⟩ :=
          ih (if j.weight ≤ w ∧ m < j.cost then j.cost else m)
        have hm : m ≤ (if j.weight ≤ w ∧ m < j.cost then j.cost else m)
            ∧ (j.weight ≤ w →
              j.cost ≤ if j.weight ≤ w ∧ m < j.cost then j.cost else m) := by
          split <;> omega
        refine ⟨Int.le_trans hm.1 hle, fun i hi hfit => ?_⟩
        rcases List.mem_cons.mp hi with rfl | hi
        · exact Int.le_trans (hm.2 hfit) hle
        · exact hall i hi hfit
  obtain ⟨hmem, hfit⟩ := mem_fitting.mp hi
  exact (hgen items 0).2 i hmem hfit

theorem greedyOne_le_greedyTwo (items : List Item) (w : Int) :
    greedyOne items w ≤ greedyTwo items w := by
  simp only [greedyTwo]
  split <;> omega

theorem maxFitting_le_greedyTwo (items : List Item) (w : Int) :
    maxFitting items w ≤ greedyTwo items w := by
  simp only [greedyTwo]
  split <;> omega

/-! ## The cut -/

/-- Past the shortest prefix of the fitting items that exceeds the
capacity, no item is denser than one of the prefix that it compares equal
to. -/
def CutInOrder (items : List Item) (w : Int) : Prop :=
  ∀ A x B, fitting items w = A ++ x :: B → total Item.weight A ≤ w →
    w < total Item.weight (A ++ [x]) →
    ∀ a ∈ A ++ [x], ∀ b ∈ B, a.ratio = b.ratio →
      b.cost * a.weight ≤ a.cost * b.weight

/-- Either a list is within capacity or it has a first item that is not. -/
theorem exists_cut (hw : 0 ≤ w) (l : List Item) :
    total Item.weight l ≤ w ∨ ∃ A x B, l = A ++ x :: B
      ∧ total Item.weight A ≤ w ∧ w < total Item.weight (A ++ [x]) := by
  induction l using List.reverseRecOn with
  | nil => exact Or.inl hw
  | append_singleton l x ih =>
      rcases ih with hle | ⟨A, y, B, rfl, hA, hy⟩
      · by_cases hlt : w < total Item.weight (l ++ [x])
        · exact Or.inr ⟨l, x, [], rfl, hle, hlt⟩
        · exact Or.inl (Int.not_lt.mp hlt)
      · exact Or.inr ⟨A, y, B ++ [x], by simp, hA, hy⟩

/-- A selection within capacity is one from the fitting items. -/
theorem Fits.fitting {s : List Item} (hwt : ∀ i ∈ items, 0 ≤ i.weight)
    (hs : Fits Item.weight items w s) : s.Sublist (fitting items w) := by
  have hall : ∀ i ∈ s, i.weight ≤ w := fun i hi =>
    Int.le_trans (le_total (fun j hj => hwt j (hs.sublist.subset hj)) hi)
      hs.weight
  have hself : s.filter (fun i => decide (i.weight ≤ w)) = s :=
    List.filter_eq_self.mpr fun i hi => decide_eq_true (hall i hi)
  have := hs.sublist.filter fun i => decide (i.weight ≤ w)
  rwa [hself] at this

/-- **Half of the optimum**, for items in density order up to the cut. -/
theorem le_two_greedyTwo {s : List Item} (hw : 0 ≤ w) (hint : w ≤ CInt.max)
    (hwt : ∀ i ∈ items, 1 ≤ i.weight) (hcost : ∀ i ∈ items, 0 ≤ i.cost)
    (hrange : SumsInRange Item.weight Item.cost items w)
    (hcut : ∀ A x B, fitting items w = A ++ x :: B →
      total Item.weight A ≤ w → w < total Item.weight (A ++ [x]) →
      ∀ a ∈ A ++ [x], ∀ b ∈ B, Denser Item.weight Item.cost a b)
    (hs : Fits Item.weight items w s) :
    total Item.cost s ≤ 2 * greedyTwo items w := by
  have hwt0 : ∀ i ∈ items, 0 ≤ i.weight := fun i hi => by
    have := hwt i hi
    omega
  have hsub := Fits.fitting hwt0 hs
  have hle := greedyOne_le_greedyTwo items w
  have hmax := maxFitting_le_greedyTwo items w
  have hnonneg := total_taken_nonneg hcost w
  rw [greedyOne_eq hwt0 hw hint hrange] at hle
  rcases exists_cut hw (fitting items w) with hall | ⟨A, x, B, hsplit, hA, hx⟩
  · -- everything that fits is taken
    have htake := total_le_taken (R := []) hwt0 hcost
      (List.append_nil _).symm hall (Int.le_refl w)
    have hopt := Knapsack.total_sublist (f := Item.cost) hsub fun i hi =>
      hcost i (mem_fitting.mp hi).1
    omega
  · have hmem : ∀ i ∈ A ++ [x] ++ B, i ∈ items := fun i hi =>
      (mem_fitting.mp (hsplit ▸ (by simpa using hi : i ∈ A ++ x :: B))).1
    have htake := total_le_taken hwt0 hcost hsplit hA (Int.le_refl w)
    have hbest : x.cost ≤ maxFitting items w :=
      le_maxFitting (hsplit ▸ by simp)
    have hopt : total Item.cost s ≤ total Item.cost (A ++ [x]) :=
      Knapsack.cut_bound (B := B)
        (fun i hi => hwt i (hmem i hi))
        (fun i hi => hcost i (hmem i (List.mem_append_left B hi)))
        (hcut A x B hsplit hA hx)
        ⟨by simpa [hsplit] using hsub,
          Int.le_trans hs.weight (Int.le_of_lt hx)⟩
    rw [Knapsack.total_append, Knapsack.total_cons, Knapsack.total_nil] at hopt
    omega

/-! ## The order of the items -/

/-- **A smaller stored ratio is a smaller density.** -/
theorem denser_of_ratio_lt {x y : Int × Int} (hx : 1 ≤ x.1) (hy : 1 ≤ y.1)
    (hcx : 0 ≤ x.2) (hcy : 0 ≤ y.2)
    (hlt : (toItem y).ratio < (toItem x).ratio) :
    Denser Item.weight Item.cost (toItem x) (toItem y) := by
  have hdx : x.2.tdiv x.1 = x.2 / x.1 := Int.tdiv_eq_ediv_of_nonneg hcx
  have hdy : y.2.tdiv y.1 = y.2 / y.1 := Int.tdiv_eq_ediv_of_nonneg hcy
  have hq : y.2 / y.1 < x.2 / x.1 := by
    by_contra hge
    have hmono := Rounding.ofInt_mono (p := 24) (by decide)
      (Int.ediv_nonneg hcx (by omega)) (Int.not_lt.mp hge)
    rw [← hdx, ← hdy] at hmono
    exact absurd hlt (Int.not_lt.mpr hmono)
  have hlow : x.2 / x.1 * x.1 ≤ x.2 := Int.ediv_mul_le x.2 (by omega)
  have hhigh : y.2 ≤ x.2 / x.1 * y.1 := by
    have hlt' := Int.lt_ediv_add_one_mul_self y.2 (show 0 < y.1 by omega)
    have hmul : (y.2 / y.1 + 1) * y.1 ≤ x.2 / x.1 * y.1 :=
      Int.mul_le_mul_of_nonneg_right hq (by omega)
    omega
  show y.2 * x.1 ≤ x.2 * y.1
  calc y.2 * x.1 ≤ x.2 / x.1 * y.1 * x.1 :=
        Int.mul_le_mul_of_nonneg_right hhigh (by omega)
    _ = x.2 / x.1 * x.1 * y.1 := by
        rw [Int.mul_assoc, Int.mul_comm y.1, ← Int.mul_assoc]
    _ ≤ x.2 * y.1 := Int.mul_le_mul_of_nonneg_right hlow (by omega)

/-- In the reversed result of the sort no ratio is below a later one. -/
theorem SortsTo.reverse {out : List Item} (h : SortsTo items out) :
    out.reverse.Pairwise fun a b => b.ratio ≤ a.ratio := by
  rw [List.pairwise_reverse]
  apply h.sorted.imp
  intro _ _ hab
  simpa [Item.lt] using hab

/-- What the stored ratios leave open, `CutInOrder` settles. -/
theorem CutInOrder.denser {pairs : List (Int × Int)}
    (hcut : CutInOrder items w)
    (hord : items.Pairwise fun a b => b.ratio ≤ a.ratio)
    (hfrom : ∀ i ∈ items, ∃ x ∈ pairs, toItem x = i)
    (hwt : ∀ x ∈ pairs, 1 ≤ x.1) (hprice : ∀ x ∈ pairs, 0 ≤ x.2)
    {A : List Item} {x : Item} {B : List Item}
    (hsplit : fitting items w = A ++ x :: B)
    (hA : total Item.weight A ≤ w) (hx : w < total Item.weight (A ++ [x])) :
    ∀ a ∈ A ++ [x], ∀ b ∈ B, Denser Item.weight Item.cost a b := by
  intro a ha b hb
  have hpair : (fitting items w).Pairwise fun a b => b.ratio ≤ a.ratio :=
    hord.sublist List.filter_sublist
  have hsplit' : fitting items w = (A ++ [x]) ++ B := by simpa using hsplit
  rw [hsplit', List.pairwise_append] at hpair
  have hmem : ∀ i, i ∈ (A ++ [x]) ++ B → i ∈ items := fun i hi =>
    (mem_fitting.mp (hsplit' ▸ hi)).1
  cases Int.lt_or_eq_of_le (hpair.2.2 a ha b hb) with
  | inl hlt =>
      obtain ⟨p, hp, rfl⟩ := hfrom a (hmem a (List.mem_append_left B ha))
      obtain ⟨q, hq, rfl⟩ := hfrom b (hmem b (List.mem_append_right _ hb))
      exact denser_of_ratio_lt (hwt p hp) (hwt q hq) (hprice p hp)
        (hprice q hq) hlt
  | inr heq => exact hcut A x B hsplit hA hx a ha b hb heq.symm

/-- Prices that are not negative only have sums that are too great. -/
theorem sumsInRange_of_le (hcost : ∀ i ∈ items, 0 ≤ i.cost)
    (hsum : ∀ s, Fits Item.weight items w s → total Item.cost s ≤ CInt.max) :
    SumsInRange Item.weight Item.cost items w := by
  intro s hs
  have hnonneg : 0 ≤ total Item.cost s :=
    total_nonneg fun i hi => hcost i (hs.sublist.subset hi)
  have hle := hsum s hs
  rw [CInt.inRange_iff]
  rw [CInt.max] at hle
  omega

/-- **The guarantee of `greedy_two`.** For every test case whose selections
within capacity are all worth an `int`, and every result of the sort that
leaves no denser item past the cut among items that compare equal, `compute`
with algorithm 1 returns at least half of what it returns with algorithm 2,
which is the optimum. -/
theorem greedyTwo_half (sort : List Item → List Item)
    (pairs : List (Int × Int)) (w : Int) (hw : 0 ≤ w) (hint : w ≤ CInt.max)
    (hwt : ∀ x ∈ pairs, 1 ≤ x.1) (hprice : ∀ x ∈ pairs, 0 ≤ x.2)
    (hsort : SortsTo (pairs.map toItem) (sort (pairs.map toItem)))
    (hsum : ∀ s, Fits Item.weight (sort (pairs.map toItem)).reverse w s →
      total Item.cost s ≤ CInt.max)
    (hcut : CutInOrder (sort (pairs.map toItem)).reverse w) :
    ∃ g b, compute sort (testCase w pairs) 1 = some g
      ∧ compute sort (testCase w pairs) 2 = some b
      ∧ IsOptimum Item.weight Item.cost (sort (pairs.map toItem)).reverse w b
      ∧ b ≤ 2 * g := by
  obtain ⟨hone, htwo⟩ := compute_testCase sort (w := w) hwt
  have hfrom : ∀ i ∈ (sort (pairs.map toItem)).reverse,
      ∃ x ∈ pairs, toItem x = i := by
    intro i hi
    exact List.mem_map.mp (hsort.perm.mem_iff.mp (List.mem_reverse.mp hi))
  have hord := hsort.reverse
  generalize (sort (pairs.map toItem)).reverse = items at *
  have hwt' : ∀ i ∈ items, 1 ≤ i.weight := by
    intro i hi
    obtain ⟨x, hx, rfl⟩ := hfrom i hi
    exact hwt x hx
  have hcost' : ∀ i ∈ items, 0 ≤ i.cost := by
    intro i hi
    obtain ⟨x, hx, rfl⟩ := hfrom i hi
    exact hprice x hx
  have hrange := sumsInRange_of_le hcost' hsum
  obtain ⟨b, hb, hopt⟩ := backtrack_optimum hwt' hrange hw
  refine ⟨greedyTwo items w, b, hone, htwo.trans hb, hopt, ?_⟩
  obtain ⟨s, hs, rfl⟩ := hopt.attained
  apply le_two_greedyTwo hw hint hwt' hcost' hrange _ hs
  intro A x B hsplit hA hx
  exact hcut.denser hord hfrom hwt hprice hsplit hA hx

/-- A sort that keeps the order of items that compare equal. -/
def stableSort (items : List Item) : List Item :=
  items.mergeSort fun a b => !b.lt a

theorem stableSort_sortsTo (items : List Item) :
    SortsTo items (stableSort items) := by
  refine ⟨List.mergeSort_perm _ _, ?_⟩
  refine (List.pairwise_mergeSort ?_ ?_ items).imp fun hab => by simpa using hab
  · intro a b c
    simp only [Item.lt, Bool.not_eq_true', decide_eq_false_iff_not, Int.not_lt]
    omega
  · intro a b
    simp only [Item.lt, Bool.or_eq_true, Bool.not_eq_true',
      decide_eq_false_iff_not, Int.not_lt]
    omega

theorem stableSort_of_sorted {items : List Item}
    (h : items.Pairwise fun a b => a.ratio ≤ b.ratio) :
    stableSort items = items :=
  List.mergeSort_of_pairwise (h.imp fun hab => by simpa [Item.lt] using hab)

theorem greedyTwo_half_three :
    ∃ g b, compute stableSort (testCase 5 [(4, 2), (3, 6), (2, 9)]) 1 = some g
      ∧ compute stableSort (testCase 5 [(4, 2), (3, 6), (2, 9)]) 2 = some b
      ∧ IsOptimum Item.weight Item.cost
          (stableSort ([(4, 2), (3, 6), (2, 9)].map toItem)).reverse 5 b
      ∧ b ≤ 2 * g := by
  refine greedyTwo_half stableSort [(4, 2), (3, 6), (2, 9)] 5 (by decide)
    (by decide) (by decide) (by decide) (stableSort_sortsTo _) ?_ ?_
  · rw [stableSort_of_sorted (by decide +kernel)]
    intro s hs
    exact Int.le_trans (Knapsack.total_sublist hs.sublist (by decide +kernel))
      (by decide +kernel)
  have hratio : ∀ i ∈ (stableSort ([(4, 2), (3, 6), (2, 9)].map toItem)),
      ∀ j ∈ (stableSort ([(4, 2), (3, 6), (2, 9)].map toItem)),
      i.ratio = j.ratio → i = j := by
    rw [stableSort_of_sorted (by decide +kernel)]
    decide +kernel
  intro A x B hsplit _ _ a ha b hb heq
  have hmem : ∀ i ∈ A ++ x :: B,
      i ∈ stableSort ([(4, 2), (3, 6), (2, 9)].map toItem) := fun i hi =>
    List.mem_reverse.mp (mem_fitting.mp (hsplit ▸ hi)).1
  have ha' : a ∈ A ++ x :: B := by
    rcases List.mem_append.mp ha with ha | ha
    · exact List.mem_append_left _ ha
    · simp [List.mem_singleton.mp ha]
  rw [hratio a (hmem a ha') b (hmem b (by simp [hb])) heq]

/-- Three items of weight 3 and price 2, and one of weight 7 that is worth
nothing: all their ratios are 0. -/
theorem greedyTwo_third :
    SortsTo ([(3, 2), (3, 2), (3, 2), (7, 0)].map toItem)
        (stableSort ([(3, 2), (3, 2), (3, 2), (7, 0)].map toItem))
      ∧ compute stableSort (testCase 9 [(3, 2), (3, 2), (3, 2), (7, 0)]) 1
        = some 2
      ∧ compute stableSort (testCase 9 [(3, 2), (3, 2), (3, 2), (7, 0)]) 2
        = some 6 := by
  have hwt : ∀ x ∈ [((3 : Int), (2 : Int)), (3, 2), (3, 2), (7, 0)],
      1 ≤ x.1 := by
    decide
  obtain ⟨hone, htwo⟩ := compute_testCase stableSort (w := 9) hwt
  refine ⟨stableSort_sortsTo _, ?_⟩
  rw [hone, htwo, stableSort_of_sorted (by decide +kernel)]
  decide +kernel

end SchoolStuff.Packing
