import Mathlib.Algebra.Order.Ring.Int
import Mathlib.Data.List.Nodup
import SchoolStuff.ExtendedHeap.Basic

/-!
# ExtendedHeap — what the sifts do to the order

Neither sift looks at a handle, so its effect on the scores needs only an
array as long as it says and handles for the ids in it (`Sized`).
Bubbling up restores the heap order. `reheapify` follows the right child
whenever that is below the moved score, the left child being smaller or
not: it makes a heap of two subtrees exactly if it never turns right where
it may not (`siftOk`, `reheapify_orderedAt_iff`).
-/

namespace SchoolStuff.ExtendedHeap

open BinaryHeap

/-- The ids stored in the heap, by position. -/
def Heap.ids (h : Heap) : List Int := h.arr.map Prod.fst

/-- The array has the size that is recorded, and every id in it has a
handle. -/
structure Sized (h : Heap) : Prop where
  size : h.curSize = h.arr.length
  range : ∀ id, id ∈ h.ids → 1 ≤ id ∧ id ≤ h.handle.length

/-! ## Reading and writing one handle -/

def Heap.put (h : Heap) (id v : Int) : Heap :=
  { h with handle := h.handle.set (id - 1).toNat v }

variable {h h' : Heap} {id : Int}

theorem Heap.setHandle_eq (h1 : 1 ≤ id) (hc : id ≤ h.handle.length) (v : Int) :
    h.setHandle id v = some (h.put id v) := by
  rw [Heap.setHandle, if_pos ⟨h1, by omega⟩]
  rfl

theorem Heap.handleAt_put (h1 : 1 ≤ id) (hc : id ≤ h.handle.length)
    (v x : Int) :
    (h.put id v).handleAt x = if x = id then some v else h.handleAt x := by
  by_cases hx : 1 ≤ x
  · simp only [Heap.handleAt, Heap.put, hx, if_true, List.getElem?_set]
    by_cases hxe : x = id
    · subst hxe
      rw [if_pos rfl, if_pos rfl, if_pos (by omega)]
    · rw [if_neg (by omega), if_neg hxe]
  · rw [if_neg (by omega)]
    simp [Heap.handleAt, hx]

@[simp] theorem Heap.put_length (h : Heap) (id v : Int) :
    (h.put id v).handle.length = h.handle.length := by
  simp [Heap.put]

/-! ## Scores -/

/-- The score at position `k`. -/
def Heap.key (h : Heap) (k : Nat) : Int := (h.arr[k]?.map Prod.snd).getD 0

theorem Heap.key_of_get {k : Nat} {e : Int × Int} (he : h.arr[k]? = some e) :
    h.key k = e.2 := by
  rw [Heap.key, he]
  rfl

theorem Sized.get (hs : Sized h) {k : Nat} (hk : k < h.curSize) :
    ∃ e, h.arr[k]? = some e ∧ e.2 = h.key k := by
  have he := List.getElem?_eq_getElem (show k < h.arr.length from hs.size ▸ hk)
  exact ⟨_, he, (Heap.key_of_get he).symm⟩

theorem Sized.mem_range (hs : Sized h) {j : Nat} {e : Int × Int}
    (hj : h.arr[j]? = some e) : 1 ≤ e.1 ∧ e.1 ≤ h.handle.length :=
  hs.range e.1 (List.mem_map_of_mem (List.mem_of_getElem? hj))

theorem Sized.handleAt (hs : Sized h) {j : Nat} {e : Int × Int}
    (hj : h.arr[j]? = some e) : ∃ k, h.handleAt e.1 = some k := by
  obtain ⟨h1, hlen⟩ := hs.mem_range hj
  have hlt : (e.1 - 1).toNat < h.handle.length := by omega
  exact ⟨h.handle[(e.1 - 1).toNat], by simp [Heap.handleAt, h1]⟩

/-! ## Swaps -/

/-- `h'` holds the elements of `h` in another order. -/
structure Shuffled (h h' : Heap) : Prop where
  capacity : h'.capacity = h.capacity
  curSize : h'.curSize = h.curSize
  handles : h'.handle.length = h.handle.length
  perm : h'.arr.Perm h.arr

theorem Shuffled.refl (h : Heap) : Shuffled h h :=
  ⟨rfl, rfl, rfl, List.Perm.refl _⟩

theorem Shuffled.trans {h'' : Heap} (hm : Shuffled h h')
    (hm' : Shuffled h' h'') : Shuffled h h'' :=
  ⟨hm'.capacity.trans hm.capacity, hm'.curSize.trans hm.curSize,
    hm'.handles.trans hm.handles, hm'.perm.trans hm.perm⟩

theorem Shuffled.sized (hm : Shuffled h h') (hs : Sized h) : Sized h' where
  size := by rw [hm.curSize, hs.size, hm.perm.length_eq]
  range id hid := by
    rw [hm.handles]
    exact hs.range id ((hm.perm.map Prod.fst).mem_iff.mp hid)

/-- The elements `e` and `e'` at `p` and `q` exchanged, and their handles
`a` and `b` along with them. -/
def Heap.swapped (h : Heap) (p q : Nat) (e e' : Int × Int) (a b : Int) :
    Heap :=
  { (h.put e.1 b).put e'.1 a with arr := (h.arr.set p e').set q e }

section Swapped

variable {p q : Nat} {e e' : Int × Int} {a b : Int}
  (hp : h.arr[p]? = some e) (hq : h.arr[q]? = some e')

include hp hq

theorem Heap.getElem?_swapped (k : Nat) :
    (h.swapped p q e e' a b).arr[k]? = swapAt (fun k => h.arr[k]?) p q k := by
  have hpl := (List.getElem?_eq_some_iff.mp hp).1
  have hql := (List.getElem?_eq_some_iff.mp hq).1
  show ((h.arr.set p e').set q e)[k]? = _
  by_cases hkq : k = q
  · subst hkq
    rw [BinaryHeap.swapAt_snd, hp]
    simp [hql]
  · rw [List.getElem?_set_ne (Ne.symm hkq)]
    by_cases hkp : k = p
    · subst hkp
      rw [BinaryHeap.swapAt_fst, hq]
      simp [hpl]
    · rw [BinaryHeap.swapAt_of_ne _ hkp hkq,
        List.getElem?_set_ne (Ne.symm hkp)]

theorem Heap.key_swapped :
    (h.swapped p q e e' a b).key = swapAt h.key p q := by
  ext k
  rw [Heap.key, Heap.getElem?_swapped hp hq, swapAt, swapAt]
  split
  · rfl
  · split <;> rfl

theorem Heap.shuffled_swapped : Shuffled h (h.swapped p q e e' a b) where
  capacity := rfl
  curSize := rfl
  handles := by simp [Heap.swapped]
  perm := by
    obtain ⟨hpl, hpe⟩ := List.getElem?_eq_some_iff.mp hp
    obtain ⟨hql, hqe⟩ := List.getElem?_eq_some_iff.mp hq
    show ((h.arr.set p e').set q e).Perm h.arr
    rw [← hpe, ← hqe]
    exact List.set_set_perm hpl hql

theorem Sized.swap_eq (hs : Sized h) (ha : h.handleAt e.1 = some a)
    (hb : h.handleAt e'.1 = some b) :
    h.swap p q = some (h.swapped p q e e' a b) := by
  obtain ⟨he1, hec⟩ := hs.mem_range hp
  obtain ⟨he1', hec'⟩ := hs.mem_range hq
  simp only [Heap.swap, hp, hq, Option.bind_eq_bind, Option.bind_some, ha, hb]
  rw [Heap.setHandle_eq he1 hec, Option.bind_some,
    Heap.setHandle_eq he1' (by rw [Heap.put_length]; exact hec')]
  rfl

end Swapped

/-- **Swapping two positions** swaps their scores. -/
theorem Sized.swap (hs : Sized h) {p q : Nat} (hp : p < h.curSize)
    (hq : q < h.curSize) :
    ∃ h', h.swap p q = some h' ∧ Shuffled h h'
      ∧ h'.key = swapAt h.key p q := by
  obtain ⟨e, he, _⟩ := hs.get hp
  obtain ⟨e', he', _⟩ := hs.get hq
  obtain ⟨a, ha⟩ := hs.handleAt he
  obtain ⟨b, hb⟩ := hs.handleAt he'
  exact ⟨h.swapped p q e e' a b, hs.swap_eq he he' ha hb,
    Heap.shuffled_swapped he he', Heap.key_swapped he he'⟩

/-! ## Bubbling up -/

/-- **Bubbling up restores the order**: the one link that may be wrong
moves to the root. -/
theorem Sized.bubbleUp : ∀ (i : Nat) (h : Heap), Sized h → i < h.curSize →
    UpOrder h.key h.curSize i →
    ∃ h', h.bubbleUp i = some h' ∧ Shuffled h h'
      ∧ Ordered h'.key h'.curSize := by
  intro i
  induction i using Nat.strongRecOn with
  | ind i ih =>
      intro h hs hi hup
      unfold Heap.bubbleUp
      by_cases hi0 : i = 0
      · refine ⟨h, by rw [dif_pos hi0], Shuffled.refl h, ?_⟩
        exact hup.finish fun hpos => absurd hi0 (by omega)
      · have hpos : 0 < i := Nat.pos_of_ne_zero hi0
        have hlt : parent i < i := parent_lt hpos
        have hp : parent i < h.curSize := Nat.lt_trans hlt hi
        obtain ⟨e, he, hkey⟩ := hs.get hi
        obtain ⟨e', he', hkey'⟩ := hs.get hp
        simp only [dif_neg hi0, he, he', Option.bind_eq_bind,
          Option.bind_some, hkey, hkey']
        split
        · rename_i hbelow
          obtain ⟨h₁, hswap, hm, hk⟩ := hs.swap hi hp
          have hup₁ : UpOrder h₁.key h₁.curSize (parent i) := by
            rw [hk, hm.curSize]
            exact hup.swap hpos hi hbelow
          obtain ⟨h', hrun, hm', hord⟩ := ih (parent i) hlt h₁ (hm.sized hs)
            (by rw [hm.curSize]; exact hp) hup₁
          exact ⟨h', by simp [hswap, hrun], hm.trans hm', hord⟩
        · rename_i hnot
          exact ⟨h, rfl, Shuffled.refl h, hup.finish fun _ => Int.not_lt.mp hnot⟩

/-! ## Sifting down -/

/-- The position `reheapify` turns to from `i`, given the scores. -/
def pick (a : Nat → Int) (n i : Nat) : Nat :=
  if right i < n ∧ a (right i) < a i then right i
  else if left i < n ∧ a (left i) < a i then left i
  else i

/-- Sifting the score `x` down from position `i`, the right child is
followed only where the left child is not below it. -/
def siftOk (a : Nat → Int) (n : Nat) (x : Int) (i : Nat) : Bool :=
  if _ : right i < n ∧ a (right i) < x then
    decide (a (right i) ≤ a (left i)) && siftOk a n x (right i)
  else if _ : left i < n ∧ a (left i) < x then siftOk a n x (left i)
  else true
termination_by n - i
decreasing_by
  · have hlt := Nat.lt_trans (lt_left i) (left_lt_right i)
    omega
  · have hlt := lt_left i
    omega

theorem siftOk_right {a : Nat → Int} {m i : Nat} {x : Int}
    (hr : right i < m ∧ a (right i) < x) :
    siftOk a m x i
      = (decide (a (right i) ≤ a (left i)) && siftOk a m x (right i)) := by
  rw [siftOk, dif_pos hr]

theorem siftOk_left {a : Nat → Int} {m i : Nat} {x : Int}
    (hr : ¬ (right i < m ∧ a (right i) < x))
    (hl : left i < m ∧ a (left i) < x) :
    siftOk a m x i = siftOk a m x (left i) := by
  rw [siftOk, dif_neg hr, dif_pos hl]

theorem siftOk_stop {a : Nat → Int} {m i : Nat} {x : Int}
    (hr : ¬ (right i < m ∧ a (right i) < x))
    (hl : ¬ (left i < m ∧ a (left i) < x)) : siftOk a m x i = true := by
  rw [siftOk, dif_neg hr, dif_neg hl]

/-- Only the scores below the position matter. -/
theorem siftOk_congr {a b : Nat → Int} {m : Nat} {x : Int} (i : Nat)
    (hab : ∀ k, i < k → k < m → a k = b k) :
    siftOk a m x i = siftOk b m x i := by
  have hlt : ∀ i, i < left i ∧ left i < right i :=
    fun i => ⟨lt_left i, left_lt_right i⟩
  have hchild : ∀ {i c : Nat}, (∀ k, i < k → k < m → a k = b k) → i < c →
      (c < m ∧ a c < x ↔ c < m ∧ b c < x) := by
    intro i c hab hc
    exact and_congr_right fun hm => by rw [hab c hc hm]
  induction i using siftOk.induct a m x with
  | case1 i hr ih =>
      have hi := hlt i
      have hr' := (hchild hab (Nat.lt_trans hi.1 hi.2)).mp hr
      rw [siftOk_right hr, siftOk_right hr', ih fun k hk => hab k (by omega),
        hab (right i) (by omega) hr.1, hab (left i) hi.1 (by omega)]
  | case2 i hr hl ih =>
      have hi := hlt i
      have hr' := mt (hchild hab (Nat.lt_trans hi.1 hi.2)).mpr hr
      have hl' := (hchild hab hi.1).mp hl
      rw [siftOk_left hr hl, siftOk_left hr' hl',
        ih fun k hk => hab k (by omega)]
  | case3 i hr hl =>
      have hi := hlt i
      rw [siftOk_stop hr hl,
        siftOk_stop (mt (hchild hab (Nat.lt_trans hi.1 hi.2)).mpr hr)
          (mt (hchild hab hi.1).mpr hl)]

theorem pick_cases (a : Nat → Int) (m i : Nat) :
    (pick a m i = i ∧ ¬ (right i < m ∧ a (right i) < a i)
        ∧ ¬ (left i < m ∧ a (left i) < a i))
      ∨ (pick a m i = left i ∧ ¬ (right i < m ∧ a (right i) < a i)
        ∧ left i < m ∧ a (left i) < a i)
      ∨ (pick a m i = right i ∧ right i < m ∧ a (right i) < a i) := by
  unfold pick
  split
  · rename_i hr
    exact Or.inr (Or.inr ⟨rfl, hr⟩)
  · rename_i hr
    split
    · rename_i hl
      exact Or.inr (Or.inl ⟨rfl, hr, hl⟩)
    · rename_i hl
      exact Or.inl ⟨rfl, hr, hl⟩

/-- The sift stops where no child is below the node. -/
theorem pick_stop {a : Nat → Int} {m i : Nat} (hp : pick a m i = i) :
    (∀ k, Child i k → k < m → a i ≤ a k) ∧ siftOk a m (a i) i = true := by
  have hleft := lt_left i
  have hright := left_lt_right i
  rcases pick_cases a m i with ⟨_, hr, hl⟩ | ⟨hp', _⟩ | ⟨hp', _⟩
  · refine ⟨?_, siftOk_stop hr hl⟩
    intro k hk hkm
    rcases child_iff.mp hk with rfl | rfl
    · exact Int.not_lt.mp fun hlt => hl ⟨hkm, hlt⟩
    · exact Int.not_lt.mp fun hlt => hr ⟨hkm, hlt⟩
  · omega
  · omega

/-- Where the sift goes on, it goes on into a child below the node. -/
theorem pick_child {a : Nat → Int} {m i : Nat} (hne : pick a m i ≠ i) :
    Child i (pick a m i) ∧ a (pick a m i) < a i := by
  rcases pick_cases a m i with ⟨hp, _⟩ | ⟨hp, _, _, hl⟩ | ⟨hp, _, hr⟩
  · exact absurd hp hne
  · rw [hp]
    exact ⟨child_iff.mpr (Or.inl rfl), hl⟩
  · rw [hp]
    exact ⟨child_iff.mpr (Or.inr rfl), hr⟩

theorem pick_lt {a : Nat → Int} {m i : Nat} (hne : pick a m i ≠ i) :
    pick a m i < m := by
  rcases pick_cases a m i with ⟨hp, _⟩ | ⟨hp, _, hl, _⟩ | ⟨hp, hr, _⟩
  · exact absurd hp hne
  · rw [hp]
    exact hl
  · rw [hp]
    exact hr

/-- The turn is a wrong one exactly if the other child is smaller, which
then is the left one. -/
theorem pick_min {a : Nat → Int} {m i : Nat} (hne : pick a m i ≠ i) :
    ((∀ k, Child i k → k < m → a (pick a m i) ≤ a k)
        ∧ siftOk a m (a i) i = siftOk a m (a i) (pick a m i))
      ∨ (pick a m i = right i ∧ a (left i) < a (right i)
        ∧ siftOk a m (a i) i = false) := by
  rcases pick_cases a m i with ⟨hp, _⟩ | ⟨hp, hr, hl⟩ | ⟨hp, hr⟩
  · exact absurd hp hne
  · -- the right child is not below the node, so the left one is minimal
    rw [hp, siftOk_left hr hl]
    refine Or.inl ⟨?_, rfl⟩
    intro k hk hkm
    rcases child_iff.mp hk with rfl | rfl
    · exact Int.le_refl _
    · have hle : a i ≤ a (right i) := Int.not_lt.mp fun hlt => hr ⟨hkm, hlt⟩
      exact Int.le_trans (Int.le_of_lt hl.2) hle
  · rw [hp, siftOk_right hr]
    by_cases hle : a (right i) ≤ a (left i)
    · rw [decide_eq_true hle, Bool.true_and]
      refine Or.inl ⟨?_, rfl⟩
      intro k hk _
      rcases child_iff.mp hk with rfl | rfl
      · exact hle
      · exact Int.le_refl _
    · rw [decide_eq_false hle, Bool.false_and]
      exact Or.inr ⟨rfl, Int.not_le.mp hle, rfl⟩

theorem Sized.below (hs : Sized h) {c i : Nat} (hc : i < c) :
    h.below c i = some (decide (c < h.curSize ∧ h.key c < h.key i)) := by
  by_cases hlt : c < h.curSize
  · obtain ⟨e, he, hkey⟩ := hs.get hlt
    obtain ⟨e', he', hkey'⟩ := hs.get (Nat.lt_trans hc hlt)
    simp [Heap.below, hlt, he, he', hkey, hkey']
  · simp [Heap.below, hlt]

theorem Sized.smallest (hs : Sized h) (i : Nat) :
    h.smallest i = some (pick h.key h.curSize i) := by
  have hright := Nat.lt_trans (lt_left i) (left_lt_right i)
  simp [Heap.smallest, hs.below (lt_left i), hs.below hright, pick]

/-! ### One turn

The keys `a` are exchanged between `i` and its child `s`, and the sift from
`s` on makes `a'` of them. -/

section Turn

variable {a a' : Nat → Int} {m i s : Nat}

theorem swapAt_below (hchild : Child i s) {k : Nat} (hk : s < k) :
    swapAt a i s k = a k := by
  have hlt := hchild.lt
  exact swapAt_of_ne a (by omega) (by omega)

/-- The subtree of the other child is as it was. -/
theorem turn_other (hchild : Child i s)
    (hout : ∀ k, ¬ Under s k → a' k = swapAt a i s k) {c : Nat}
    (hc : Child i c) (hcs : c ≠ s) : ∀ k, Under c k → a' k = a k := by
  intro k hk
  have hki : k ≠ i := by
    have := hc.lt
    have := hk.le
    omega
  have hnot := Under.disjoint hc hchild hcs hk
  have hks : k ≠ s := fun heq => hnot (heq ▸ Under.root)
  rw [hout k hnot, swapAt_of_ne a hki hks]

/-- Nothing below the child is less than what was lifted out of it. -/
theorem turn_link (hchild : Child i s) (hless : a s < a i)
    (hsub : OrderedAt a m s)
    (hroot : a' s = swapAt a i s (pick (swapAt a i s) m s)) :
    a s ≤ a' s := by
  rw [hroot]
  by_cases hstop : pick (swapAt a i s) m s = s
  · rw [hstop, swapAt_snd]
    exact Int.le_of_lt hless
  · obtain ⟨hchild', _⟩ := pick_child hstop
    rw [swapAt_below hchild hchild'.lt]
    exact hsub s _ Under.root hchild' (pick_lt hstop)

/-- What a turn of the sift, and the sift from there on, make of the
order. -/
theorem orderedAt_of_turn (hs : pick a m i = s) (hne : s ≠ i)
    (hsm : s < m) (hsub : ∀ c, Child i c → OrderedAt a m c)
    (hout : ∀ k, ¬ Under s k → a' k = swapAt a i s k)
    (hroot : a' s = swapAt a i s (pick (swapAt a i s) m s))
    (hrest : OrderedAt a' m s ↔ siftOk (swapAt a i s) m (a i) s = true) :
    OrderedAt a' m i ↔ siftOk a m (a i) i = true := by
  subst hs
  obtain ⟨hchild, hless⟩ := pick_child hne
  have hi' : a' i = a (pick a m i) := by
    rw [hout i fun hu => absurd hu.le (Nat.not_le.mpr hchild.lt), swapAt_fst]
  have hcongr : siftOk (swapAt a i (pick a m i)) m (a i) (pick a m i)
      = siftOk a m (a i) (pick a m i) :=
    siftOk_congr _ fun k hk _ => swapAt_below hchild hk
  rw [hcongr] at hrest
  rw [orderedAt_iff, hi']
  rcases pick_min hne with ⟨hmin, hok⟩ | ⟨hp, hwrong, hok⟩
  · rw [hok, ← hrest]
    constructor
    · intro h
      exact h.2 _ hchild
    · intro hord
      constructor
      · intro c hc hcm
        by_cases hcs : c = pick a m i
        · rw [hcs]
          exact turn_link hchild hless (hsub _ hchild) hroot
        · rw [turn_other hchild hout hc hcs c Under.root]
          exact hmin c hc hcm
      · intro c hc
        by_cases hcs : c = pick a m i
        · rw [hcs]
          exact hord
        · exact (hsub c hc).congr (turn_other hchild hout hc hcs)
  · -- the left child stays below the score that was lifted over it
    rw [hok]
    refine iff_of_false (fun h => ?_) Bool.false_ne_true
    have hleft : Child i (left i) := child_iff.mpr (Or.inl rfl)
    have hlr := left_lt_right i
    have hne' : left i ≠ pick a m i := by omega
    have hle := h.1 (left i) hleft (by omega)
    rw [turn_other hchild hout hleft hne' _ Under.root, hp] at hle
    exact absurd hle (Int.not_le.mpr hwrong)

end Turn

/-- What `reheapify` at position `i` makes of the heap. -/
structure Sifted (h : Heap) (i : Nat) (h' : Heap) : Prop where
  shuffled : Shuffled h h'
  outside : ∀ k, ¬ Under i k → h'.key k = h.key k
  root : h'.key i = h.key (pick h.key h.curSize i)
  ordered : (∀ c, Child i c → OrderedAt h.key h.curSize c) →
    (OrderedAt h'.key h.curSize i
      ↔ siftOk h.key h.curSize (h.key i) i = true)

theorem Sifted.stop {i : Nat} (hp : pick h.key h.curSize i = i) :
    Sifted h i h := by
  obtain ⟨hmin, hok⟩ := pick_stop hp
  refine ⟨Shuffled.refl h, fun _ _ => rfl, by rw [hp], fun hsub => ?_⟩
  exact iff_of_true (orderedAt_iff.mpr ⟨hmin, hsub⟩) hok

theorem Sifted.turn {h₁ : Heap} {i s : Nat}
    (hp : pick h.key h.curSize i = s) (hne : s ≠ i) (hsm : s < h.curSize)
    (hm : Shuffled h h₁) (hk : h₁.key = swapAt h.key i s)
    (hrest : Sifted h₁ s h') : Sifted h i h' := by
  have hchild : Child i s := hp ▸ (pick_child (hp ▸ hne)).1
  have hout : ∀ k, ¬ Under s k → h'.key k = swapAt h.key i s k :=
    hk ▸ hrest.outside
  constructor
  · exact hm.trans hrest.shuffled
  · intro k hu
    have hki : k ≠ i := fun heq => hu (heq ▸ Under.root)
    have hnot : ¬ Under s k := fun hs => hu (Under.of_child hchild hs)
    have hks : k ≠ s := fun heq => hnot (heq ▸ Under.root)
    rw [hout k hnot, swapAt_of_ne _ hki hks]
  · rw [hout i fun hu => absurd hu.le (Nat.not_le.mpr hchild.lt), swapAt_fst,
      hp]
  · intro hsub
    have hroot := hrest.root
    have hord := hrest.ordered
    rw [hk, hm.curSize] at hroot hord
    rw [swapAt_snd] at hord
    apply orderedAt_of_turn hp hne hsm hsub hout hroot
    apply hord
    intro c hc
    have hsc : OrderedAt h.key h.curSize c := fun j k hj =>
      hsub s hchild j k (Under.of_child hc hj)
    apply hsc.congr
    intro k hk
    have h₁ := hchild.lt
    have h₂ := hc.lt
    have h₃ := hk.le
    exact swapAt_of_ne _ (by omega) (by omega)

/-- **Sifting down.** -/
theorem Sized.reheapify (h : Heap) (i : Nat) (hs : Sized h) :
    ∃ h', h.reheapify i = some h' ∧ Sifted h i h' := by
  induction h, i using Heap.reheapify.induct with
  | case1 h i hnone => simp [hs.smallest i] at hnone
  | case2 h i hstop =>
      refine ⟨h, Heap.reheapify_stop hstop, Sifted.stop ?_⟩
      rw [hs.smallest i, Option.some.injEq] at hstop
      exact hstop
  | case3 h i s hsome hne hnone =>
      obtain ⟨hlt, hsize⟩ := Heap.smallest_lt hsome hne
      obtain ⟨h', hswap, _⟩ := hs.swap (Nat.lt_trans hlt hsize) hsize
      simp [hswap] at hnone
  | case4 h i s hsome hne h₁ hswap ih =>
      obtain ⟨hlt, hsize⟩ := Heap.smallest_lt hsome hne
      obtain ⟨h₁', hswap', hm, hk⟩ := hs.swap (Nat.lt_trans hlt hsize) hsize
      rw [hswap, Option.some.injEq] at hswap'
      subst hswap'
      obtain ⟨h', hrun, hrest⟩ := ih (hm.sized hs)
      refine ⟨h', by rw [Heap.reheapify_swap hsome hne hswap, hrun], ?_⟩
      rw [hs.smallest i, Option.some.injEq] at hsome
      exact Sifted.turn hsome hne hsize hm hk hrest

theorem Sized.sifted_of_run (hs : Sized h) {i : Nat}
    (hrun : h.reheapify i = some h') : Sifted h i h' := by
  obtain ⟨h'', hrun', hd⟩ := Sized.reheapify h i hs
  rw [hrun, Option.some.injEq] at hrun'
  exact hrun' ▸ hd

theorem Sifted.before {i k : Nat} (hd : Sifted h i h') (hk : k < i) :
    h'.key k = h.key k :=
  hd.outside k fun hu => absurd hu.le (Nat.not_le.mpr hk)

/-- The score at the position only gets smaller. -/
theorem Sifted.root_le {i : Nat} (hd : Sifted h i h') :
    h'.key i ≤ h.key i := by
  rw [hd.root]
  by_cases hp : pick h.key h.curSize i = i
  · rw [hp]
  · exact Int.le_of_lt (pick_child hp).2

/-- **The order of the heap after a sift** that was started where only the
links below the position may be wrong. -/
theorem Sifted.heap_ordered {i : Nat} (hd : Sifted h i h')
    (hi : i < h.curSize) (hdown : DownOrder h.key h.curSize i) :
    Ordered h'.key h'.curSize
      ↔ siftOk h.key h.curSize (h.key i) i = true := by
  rw [hd.shuffled.curSize, ← hd.ordered fun c hc => hdown.orderedAt hc]
  apply hdown.ordered_iff hi hd.outside
  rw [hd.root]
  by_cases hp : pick h.key h.curSize i = i
  · left
    rw [hp]
  · exact Or.inr ⟨_, (pick_child hp).1, pick_lt hp, rfl⟩

/-- **When sifting down makes a heap of two.** The subtrees of both children
being ordered, `reheapify` orders the whole subtree exactly if, on its way
down, it turns right only where the right child is not above the left
one. -/
theorem reheapify_orderedAt_iff (h : Heap) (i : Nat) (hs : Sized h)
    (hl : OrderedAt h.key h.curSize (left i))
    (hr : OrderedAt h.key h.curSize (right i)) :
    ∃ h', h.reheapify i = some h'
      ∧ (OrderedAt h'.key h'.curSize i
        ↔ siftOk h.key h.curSize (h.key i) i = true) := by
  obtain ⟨h', hrun, hd⟩ := Sized.reheapify h i hs
  refine ⟨h', hrun, ?_⟩
  rw [hd.shuffled.curSize]
  apply hd.ordered
  intro c hc
  rcases child_iff.mp hc with rfl | rfl
  · exact hl
  · exact hr

/-- A root above its two children, the right one the smaller. -/
theorem reheapify_orderedAt_iff_three :
    ∃ h', (Heap.mk [(1, 5), (2, 3), (3, 1)] 3 3 [1, 2, 3]).reheapify 0 = some h'
      ∧ (OrderedAt h'.key h'.curSize 0
        ↔ siftOk (Heap.mk [(1, 5), (2, 3), (3, 1)] 3 3 [1, 2, 3]).key 3 5 0
          = true) :=
  reheapify_orderedAt_iff (Heap.mk [(1, 5), (2, 3), (3, 1)] 3 3 [1, 2, 3]) 0
    ⟨rfl, by decide⟩ (orderedAt_leaf (by decide)) (orderedAt_leaf (by decide))

/-- The left child is the smaller one, and ends below the right one. -/
theorem reheapify_turns_wrong :
    ∃ h h' : Heap, Sized h ∧ OrderedAt h.key h.curSize (left 0)
      ∧ OrderedAt h.key h.curSize (right 0)
      ∧ h.arr = [(1, 5), (2, 1), (3, 3)] ∧ h.reheapify 0 = some h'
      ∧ h'.arr = [(3, 3), (2, 1), (1, 5)]
      ∧ ¬ OrderedAt h'.key h'.curSize 0 := by
  refine ⟨⟨[(1, 5), (2, 1), (3, 3)], 3, 3, [1, 2, 3]⟩,
    ⟨[(3, 3), (2, 1), (1, 5)], 3, 3, [3, 2, 1]⟩, ⟨rfl, by decide⟩,
    orderedAt_leaf (by decide), orderedAt_leaf (by decide), rfl,
    by decide +kernel, rfl, ?_⟩
  intro hord
  have hle := hord 0 1 Under.root ⟨by decide, rfl⟩ (by decide)
  exact absurd hle (by decide)

end SchoolStuff.ExtendedHeap
