import Mathlib.Order.Lattice
import Mathlib.Tactic.Common

/-!
# BinaryHeap — min-heap order on an indexed family

Keys are a function of the position, the heap being the positions below
`n`. The order of a heap is also that of its subtrees (`OrderedAt`). Sifting
up is governed by `UpOrder`, sifting down by `DownOrder`: the heap order
except at the position the moved key is at. The first has a step lemma for
one swap and a finishing lemma for the position where the sift stops; for
the second it is enough to look at one subtree (`DownOrder.ordered_iff`).
-/

namespace SchoolStuff.BinaryHeap

variable {α : Type*} {a : Nat → α} {n i : Nat}

def parent (i : Nat) : Nat := (i - 1) / 2
def left (i : Nat) : Nat := 2 * i + 1
def right (i : Nat) : Nat := 2 * i + 2

/-- `k` is a child of `i`. -/
def Child (i k : Nat) : Prop := 0 < k ∧ parent k = i

theorem parent_lt (h : 0 < i) : parent i < i := by
  unfold parent
  omega

theorem child_iff {k : Nat} : Child i k ↔ k = left i ∨ k = right i := by
  simp only [Child, parent, left, right]
  omega

theorem lt_left (i : Nat) : i < left i := by
  unfold left
  omega

theorem left_lt_right (i : Nat) : left i < right i := by
  unfold left right
  omega

/-- The family with the keys at `i` and `j` exchanged. -/
def swapAt (a : Nat → α) (i j : Nat) : Nat → α :=
  fun k => if k = i then a j else if k = j then a i else a k

@[simp] theorem swapAt_fst (a : Nat → α) (i j : Nat) :
    swapAt a i j i = a j := by
  simp [swapAt]

@[simp] theorem swapAt_snd (a : Nat → α) (i j : Nat) :
    swapAt a i j j = a i := by
  by_cases h : j = i <;> simp [swapAt, h]

theorem swapAt_of_ne (a : Nat → α) {i j k : Nat} (hi : k ≠ i) (hj : k ≠ j) :
    swapAt a i j k = a k := by
  simp [swapAt, hi, hj]

variable [LinearOrder α]

/-- Min-heap order. -/
def Ordered (a : Nat → α) (n : Nat) : Prop :=
  ∀ k, 0 < k → k < n → a (parent k) ≤ a k

/-- **The root is minimal.** -/
theorem Ordered.root_le (h : Ordered a n) : ∀ k, k < n → a 0 ≤ a k := by
  intro k
  induction k using Nat.strongRecOn with
  | ind k ih =>
      intro hk
      rcases Nat.eq_zero_or_pos k with rfl | hpos
      · exact le_refl _
      · have hlt := parent_lt hpos
        exact le_trans (ih (parent k) hlt (by omega)) (h k hpos hk)

theorem Ordered.congr {b : Nat → α} (h : Ordered a n)
    (hab : ∀ k, k < n → b k = a k) : Ordered b n := by
  intro k hpos hk
  rw [hab k hk, hab (parent k) (Nat.lt_trans (parent_lt hpos) hk)]
  exact h k hpos hk

/-! ## Subtrees -/

/-- Position `k` is in the subtree of position `i`. -/
inductive Under (i : Nat) : Nat → Prop
  | root : Under i i
  | child {j k : Nat} : Under i j → Child j k → Under i k

theorem Child.lt {k : Nat} (h : Child i k) : i < k :=
  h.2 ▸ parent_lt h.1

theorem Under.le {k : Nat} (h : Under i k) : i ≤ k := by
  induction h with
  | root => exact Nat.le_refl i
  | child _ hc ih => exact Nat.le_trans ih (Nat.le_of_lt hc.lt)

theorem Under.trans {j k : Nat} (h : Under i j) (h' : Under j k) :
    Under i k := by
  induction h' with
  | root => exact h
  | child _ hc ih => exact ih.child hc

theorem Under.of_child {c k : Nat} (hc : Child i c) (h : Under c k) :
    Under i k :=
  (Under.root.child hc).trans h

/-- What is below the root of a subtree is in the subtree of a child. -/
theorem Under.cases_child {k : Nat} (h : Under i k) :
    k = i ∨ ∃ c, Child i c ∧ Under c k := by
  induction h with
  | root => exact Or.inl rfl
  | @child j k _ hc ih =>
      right
      rcases ih with rfl | ⟨c, hic, hcj⟩
      · exact ⟨k, hc, Under.root⟩
      · exact ⟨c, hic, hcj.child hc⟩

theorem Under.parent {k : Nat} (h : Under i k) (hne : k ≠ i) :
    Under i (parent k) := by
  cases h with
  | root => exact absurd rfl hne
  | child hj hc => exact hc.2 ▸ hj

/-- The subtrees of two children have no position in common. -/
theorem Under.disjoint {c d k : Nat} (hc : Child i c) (hd : Child i d)
    (hne : c ≠ d) (h : Under c k) : ¬ Under d k := by
  induction h with
  | root =>
      intro hdc
      cases hdc with
      | root => exact hne rfl
      | child hdj hj =>
          -- the node above `c` is `i`, which is above `d`
          have hji : i = _ := hc.2.symm.trans hj.2
          have hle := hdj.le
          rw [← hji] at hle
          exact absurd hd.lt (Nat.not_lt.mpr hle)
  | @child j k hcj hj ih =>
      intro hdk
      cases hdk with
      | root =>
          have hji : i = j := hd.2.symm.trans hj.2
          have hle := hcj.le
          rw [← hji] at hle
          exact absurd hc.lt (Nat.not_lt.mpr hle)
      | child hdj' hj' =>
          have hjj : j = _ := hj.2.symm.trans hj'.2
          exact ih (hjj ▸ hdj')

/-- Min-heap order in the subtree of position `i`. -/
def OrderedAt (a : Nat → α) (n i : Nat) : Prop :=
  ∀ j k, Under i j → Child j k → k < n → a j ≤ a k

/-- A subtree is ordered if its root is not above its children and their
subtrees are ordered. -/
theorem orderedAt_iff : OrderedAt a n i ↔
    (∀ c, Child i c → c < n → a i ≤ a c) ∧ ∀ c, Child i c → OrderedAt a n c := by
  constructor
  · intro h
    constructor
    · intro c hc hcn
      exact h i c Under.root hc hcn
    · intro c hc j k hj
      exact h j k (Under.of_child hc hj)
  · rintro ⟨hroot, hsub⟩ j k hj hk hkn
    rcases hj.cases_child with rfl | ⟨c, hc, hcj⟩
    · exact hroot k hk hkn
    · exact hsub c hc j k hcj hk hkn

theorem OrderedAt.congr {b : Nat → α} (h : OrderedAt a n i)
    (hab : ∀ k, Under i k → b k = a k) : OrderedAt b n i := by
  intro j k hj hk hkn
  rw [hab j hj, hab k (hj.child hk)]
  exact h j k hj hk hkn

/-- A position without children in the heap. -/
theorem orderedAt_leaf (hi : n ≤ left i) : OrderedAt a n i := by
  intro j k hj hk hkn
  have hle := hj.le
  unfold left at hi
  rcases child_iff.mp hk with rfl | rfl
  · unfold left at hkn
    omega
  · unfold right at hkn
    omega

theorem Ordered.orderedAt (h : Ordered a n) (i : Nat) : OrderedAt a n i := by
  intro j k _ hk hkn
  exact hk.2 ▸ h k hk.1 hkn

/-- The heap is ordered if a subtree is and the links outside of it are. -/
theorem OrderedAt.ordered (h : OrderedAt a n i)
    (hout : ∀ k, 0 < k → k < n → ¬ Under i (parent k) → a (parent k) ≤ a k) :
    Ordered a n := by
  intro k hpos hk
  by_cases hin : Under i (parent k)
  · exact h (parent k) k hin ⟨hpos, rfl⟩ hk
  · exact hout k hpos hk hin

/-! ## Sifting up -/

/-- Ordered except between position `i` and its parent. -/
structure UpOrder (a : Nat → α) (n i : Nat) : Prop where
  except : ∀ k, 0 < k → k < n → k ≠ i → a (parent k) ≤ a k
  grand : 0 < i → ∀ k, Child i k → k < n → a (parent i) ≤ a k

theorem UpOrder.swap (h : UpOrder a n i) (hi : 0 < i)
    (hn : i < n) (hlt : a i < a (parent i)) :
    UpOrder (swapAt a i (parent i)) n (parent i) := by
  have hp : parent i < i := parent_lt hi
  constructor
  · intro k hk hkn hne
    by_cases hki : k = i
    · subst hki
      rw [swapAt_fst, swapAt_snd]
      exact le_of_lt hlt
    · rw [swapAt_of_ne a hki hne]
      by_cases hpi : parent k = i
      · -- a child of `i` now hangs below the old parent key
        rw [hpi, swapAt_fst]
        exact h.grand hi k ⟨hk, hpi⟩ hkn
      · by_cases hpp : parent k = parent i
        · rw [hpp, swapAt_snd]
          exact le_trans (le_of_lt hlt)
            (hpp ▸ h.except k hk hkn hki)
        · rw [swapAt_of_ne a hpi hpp]
          exact h.except k hk hkn hki
  · intro hpos k hc hkn
    have hpp : parent (parent i) < parent i := parent_lt hpos
    have hup : a (parent (parent i)) ≤ a (parent i) :=
      h.except (parent i) hpos (by omega) (by omega)
    rw [swapAt_of_ne a (show parent (parent i) ≠ i from by omega)
      (show parent (parent i) ≠ parent i from by omega)]
    by_cases hki : k = i
    · subst hki
      rw [swapAt_fst]
      exact hup
    · have hkp : k ≠ parent i := by
        have := parent_lt hc.1
        rw [hc.2] at this
        omega
      rw [swapAt_of_ne a hki hkp]
      exact le_trans hup (hc.2 ▸ h.except k hc.1 hkn hki)

theorem UpOrder.finish (h : UpOrder a n i)
    (hstop : 0 < i → a (parent i) ≤ a i) : Ordered a n := by
  intro k hk hkn
  by_cases hki : k = i
  · subst hki
    exact hstop hk
  · exact h.except k hk hkn hki

/-- A key added behind an ordered heap is ready to be sifted up. -/
theorem Ordered.upOrder (h : Ordered a n) : UpOrder a (n + 1) n := by
  refine ⟨fun k hk hkn hne => h k hk (by omega), ?_⟩
  intro _ k hc hkn
  have := parent_lt hc.1
  rw [hc.2] at this
  omega

/-! ## Sifting down -/

/-- Ordered except between position `i` and its children. -/
structure DownOrder (a : Nat → α) (n i : Nat) : Prop where
  except : ∀ k, 0 < k → k < n → parent k ≠ i → a (parent k) ≤ a k
  grand : 0 < i → ∀ k, Child i k → k < n → a (parent i) ≤ a k

/-- The subtrees of the children are ordered. -/
theorem DownOrder.orderedAt {c : Nat} (h : DownOrder a n i) (hc : Child i c) :
    OrderedAt a n c := by
  intro j k hj hk hkn
  have hlt := hc.lt
  have hle := hj.le
  exact hk.2 ▸ h.except k hk.1 hkn (by rw [hk.2]; omega)

/-- A sift of the subtree that lifts no key over the one above it: the heap
is ordered after it if the subtree is. -/
theorem DownOrder.ordered_iff {b : Nat → α} (h : DownOrder a n i) (hi : i < n)
    (hout : ∀ k, ¬ Under i k → b k = a k)
    (hroot : b i = a i ∨ ∃ c, Child i c ∧ c < n ∧ b i = a c) :
    Ordered b n ↔ OrderedAt b n i := by
  constructor
  · intro hord
    exact hord.orderedAt i
  · intro hsub
    apply hsub.ordered
    intro k hpos hk hnot
    rw [hout _ hnot]
    by_cases hki : k = i
    · subst hki
      rcases hroot with heq | ⟨c, hc, hcn, heq⟩
      · rw [heq]
        have hlt := parent_lt hpos
        exact h.except k hpos hi (by omega)
      · rw [heq]
        exact h.grand hpos c hc hcn
    · rw [hout k fun hu => hnot (hu.parent hki)]
      exact h.except k hpos hk fun hpi => hnot (hpi ▸ Under.root)

/-- A key that replaces the one at `i` of an ordered heap, and is not below
its parent, is ready to be sifted down. -/
theorem Ordered.downOrder {b : Nat → α} (h : Ordered a n) (hi : i < n)
    (hab : ∀ k, k < n → k ≠ i → b k = a k)
    (hup : 0 < i → a (parent i) ≤ b i) : DownOrder b n i := by
  constructor
  · intro k hk hkn hpi
    have hpk := parent_lt hk
    rw [hab (parent k) (by omega) hpi]
    by_cases hki : k = i
    · subst hki
      exact hup hk
    · rw [hab k hkn hki]
      exact h k hk hkn
  · intro hpos k hc hkn
    have hpi := parent_lt hpos
    have hik : i < k := hc.2 ▸ parent_lt hc.1
    rw [hab (parent i) (by omega) (by omega), hab k hkn (by omega)]
    exact le_trans (h i hpos hi) (hc.2 ▸ h k hc.1 hkn)

end SchoolStuff.BinaryHeap
