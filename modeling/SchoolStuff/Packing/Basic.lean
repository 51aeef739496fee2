import Mathlib.Data.List.Induction
import SchoolStuff.Lib.CInt
import SchoolStuff.Lib.Knapsack
import SchoolStuff.Lib.Rounding

/-!
# Packing — the knapsack algorithms (`cs375/prog3`)

`compute` reads the items of one test case, sorts and reverses them and
runs one of three algorithms. `std::sort` is a parameter: what it leaves
among items that compare equal is up to it. An index outside of a vector
or of the table is `none`, a sum of prices and the capacity that is left are
`int`s of 32 bits, which wrap around where the source leaves an overflow
undefined, and the `float` of an integer is its value to 24 significant
bits.
-/

namespace SchoolStuff.Packing

/-- `class Item`. -/
structure Item where
  weight : Int
  cost : Int
  ratio : Int
  deriving DecidableEq, Repr

/-- `Item::Item`. The quotient is an integer division. -/
def Item.new (c w : Int) : Option Item :=
  if w = 0 then none
  else some { weight := w, cost := c, ratio := Rounding.ofInt 24 (c.tdiv w) }

/-- `Item::operator<`. -/
def Item.lt (a b : Item) : Bool := decide (a.ratio < b.ratio)

/-! ## `greedy_one`, `greedy_two` -/

/-- One turn of the loop of `greedy_one` on `profit` and `w`. -/
def take (st : Int × Int) (i : Item) : Int × Int :=
  if i.weight ≤ st.2 then
    (CInt.wrap (st.1 + i.cost), CInt.wrap (st.2 - i.weight))
  else st

/-- `greedy_one`. The copied vector has the capacity of its size. -/
def greedyOne (items : List Item) (w : Int) : Int :=
  (items.foldl take (0, w)).1

/-- The most expensive item that fits by itself. -/
def maxFitting (items : List Item) (w : Int) : Int :=
  items.foldl (fun m i => if i.weight ≤ w ∧ m < i.cost then i.cost else m) 0

/-- `greedy_two`. -/
def greedyTwo (items : List Item) (w : Int) : Int :=
  let profit := greedyOne items w
  let m := maxFitting items w
  if profit < m then m else profit

/-! ## `backtrack` -/

/-- `table[i][we]`. -/
def entry (table : List (List Int)) (i : Nat) (we : Int) : Option Int :=
  if 0 ≤ we then table[i]?.bind fun row => row[we.toNat]? else none

/-- The value the loop body stores at `table[i][we]`. -/
def cell (weights prices : List Int) (table : List (List Int))
    (i we : Nat) : Option Int :=
  if i = 0 ∨ we = 0 then some 0
  else do
    let weight ← weights[i - 1]?
    if weight ≤ we then do
      let skip ← entry table (i - 1) we
      let price ← prices[i - 1]?
      let rest ← entry table (i - 1) (we - weight)
      some (max skip (CInt.wrap (price + rest)))
    else entry table (i - 1) we

/-- The rows before row `i`, and row `i`. -/
def fillRow (weights prices : List Int) (w : Int) (table : List (List Int))
    (i : Nat) : Option (List (List Int)) := do
  let row ← (List.range (w + 1).toNat).mapM (cell weights prices table i)
  some (table ++ [row])

/-- `backtrack`. -/
def backtrack (weights prices : List Int) (w : Int) (n : Nat) :
    Option Int := do
  let table ← (List.range (n + 1)).foldlM (fillRow weights prices w) []
  entry table n w

/-! ## `compute` -/

/-- The loop of `compute` that reads the items. -/
def readItems (v : List Int) (items : Nat) : Option (List Item) :=
  (List.range items).mapM fun i => do
    let c ← v[i * 2 + 3]?
    let w ← v[i * 2 + 2]?
    Item.new c w

/-- `compute`. -/
def compute (sort : List Item → List Item) (v : List Int) (algo : Int) :
    Option Int := do
  let items ← v[0]?
  let weight ← v[1]?
  if items < 0 then none
  else do
    let itemList ← readItems v items.toNat
    let itemList := (sort itemList).reverse
    if algo = 0 then some (greedyOne itemList weight)
    else if algo = 1 then some (greedyTwo itemList weight)
    else
      backtrack (itemList.map Item.weight) (itemList.map Item.cost) weight
        itemList.length

/-- What `std::sort` promises of its result. -/
structure SortsTo (items out : List Item) : Prop where
  perm : out.Perm items
  sorted : out.Pairwise fun a b => b.lt a = false

/-- The vector of one test case: the number of items and the capacity, then
weight and price of every item. -/
def testCase (w : Int) (pairs : List (Int × Int)) : List Int :=
  (pairs.length : Int) :: w :: pairs.flatMap fun x => [x.1, x.2]

/-- The item with weight `x.1` and price `x.2`. -/
def toItem (x : Int × Int) : Item :=
  { weight := x.1, cost := x.2, ratio := Rounding.ofInt 24 (x.2.tdiv x.1) }

/-! ## Reading a test case -/

/-- A vector computed index by index. -/
theorem mapM_range_spec {β : Type} {f : Nat → Option β} {P : Nat → β → Prop} :
    ∀ {k : Nat}, (∀ j, j < k → ∃ y, f j = some y ∧ P j y) →
    ∃ row, (List.range k).mapM f = some row ∧ row.length = k
      ∧ ∀ j, j < k → ∃ y, row[j]? = some y ∧ P j y := by
  intro k
  induction k with
  | zero =>
      intro _
      exact ⟨[], by simp, rfl, fun j hj => absurd hj (Nat.not_lt_zero j)⟩
  | succ k ih =>
      intro hf
      obtain ⟨row, hrow, hlen, hspec⟩ := ih fun j hj => hf j (by omega)
      obtain ⟨y, hy, hPy⟩ := hf k (Nat.lt_succ_self k)
      refine ⟨row ++ [y], ?_, by simp [hlen], ?_⟩
      · rw [List.range_succ, List.mapM_append, hrow]
        simp [hy]
      · intro j hj
        cases Nat.lt_succ_iff_lt_or_eq.mp hj with
        | inl hlt =>
            obtain ⟨z, hz, hPz⟩ := hspec j hlt
            exact ⟨z, by rw [List.getElem?_append_left (by omega), hz], hPz⟩
        | inr hjk =>
            subst hjk
            exact ⟨y, by rw [← hlen]; simp, hPy⟩

theorem mapM_range_of {α β : Type} {f : Nat → Option β} {g : α → β}
    {l : List α} (hf : ∀ j x, l[j]? = some x → f j = some (g x)) :
    (List.range l.length).mapM f = some (l.map g) := by
  obtain ⟨row, hrow, hlen, hspec⟩ := mapM_range_spec (f := f)
    (P := fun j y => (l.map g)[j]? = some y) (k := l.length) (by
      intro j hj
      have hget := List.getElem?_eq_getElem hj
      exact ⟨g l[j], hf j _ hget, by rw [List.getElem?_map, hget]; rfl⟩)
  have heq : row = l.map g := by
    apply List.ext_getElem?
    intro j
    by_cases hj : j < l.length
    · obtain ⟨y, hy, hget⟩ := hspec j hj
      rw [hy, hget]
    · rw [List.getElem?_eq_none (by omega),
        List.getElem?_eq_none (by rw [List.length_map]; omega)]
  rw [hrow, heq]

theorem testCase_get (w : Int) (pairs : List (Int × Int)) :
    ∀ (j : Nat) (x : Int × Int), pairs[j]? = some x →
      (testCase w pairs)[j * 2 + 2]? = some x.1
        ∧ (testCase w pairs)[j * 2 + 3]? = some x.2 := by
  have hgen : ∀ (pairs : List (Int × Int)) (j : Nat) (x : Int × Int),
      pairs[j]? = some x →
      (pairs.flatMap fun x => [x.1, x.2])[j * 2]? = some x.1
        ∧ (pairs.flatMap fun x => [x.1, x.2])[j * 2 + 1]? = some x.2 := by
    intro pairs
    induction pairs with
    | nil => intro j x hj; exact absurd hj (by simp)
    | cons y pairs ih =>
        intro j x hj
        cases j with
        | zero =>
            rw [List.getElem?_cons_zero, Option.some.injEq] at hj
            subst hj
            exact ⟨rfl, rfl⟩
        | succ j =>
            rw [List.getElem?_cons_succ] at hj
            obtain ⟨h₁, h₂⟩ := ih j x hj
            rw [List.flatMap_cons, show (j + 1) * 2 = j * 2 + 2 by omega]
            exact ⟨h₁, h₂⟩
  intro j x hj
  exact hgen pairs j x hj

/-- **What `compute` runs its algorithm on.** -/
theorem readItems_testCase {w : Int} {pairs : List (Int × Int)}
    (hwt : ∀ x ∈ pairs, 1 ≤ x.1) :
    readItems (testCase w pairs) pairs.length = some (pairs.map toItem) := by
  apply mapM_range_of
  intro j x hj
  obtain ⟨h₁, h₂⟩ := testCase_get w pairs j x hj
  have hpos := hwt x (List.mem_of_getElem? hj)
  rw [h₁, h₂]
  simp only [Option.bind_eq_bind, Option.bind_some, Item.new,
    if_neg (show x.1 ≠ 0 by omega), toItem]

theorem compute_testCase (sort : List Item → List Item) {w : Int}
    {pairs : List (Int × Int)} (hwt : ∀ x ∈ pairs, 1 ≤ x.1) :
    compute sort (testCase w pairs) 1
        = some (greedyTwo (sort (pairs.map toItem)).reverse w)
      ∧ compute sort (testCase w pairs) 2
        = backtrack ((sort (pairs.map toItem)).reverse.map Item.weight)
            ((sort (pairs.map toItem)).reverse.map Item.cost) w
            (sort (pairs.map toItem)).reverse.length := by
  have hread := readItems_testCase (w := w) hwt
  have h0 : (testCase w pairs)[0]? = some (pairs.length : Int) := rfl
  have h1 : (testCase w pairs)[1]? = some w := rfl
  have hn : ¬ (pairs.length : Int) < 0 := by omega
  have hnat : ((pairs.length : Int)).toNat = pairs.length := Int.toNat_natCast _
  constructor <;>
    simp only [compute, h0, h1, Option.bind_eq_bind, Option.bind_some,
      if_neg hn, hnat, hread] <;> rfl

end SchoolStuff.Packing
