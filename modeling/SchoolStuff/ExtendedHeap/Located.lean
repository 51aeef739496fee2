import SchoolStuff.ExtendedHeap.Handles

/-!
# ExtendedHeap — a sift of its own

`reheapify` in a heap of any capacity, at any position: the elements are
rearranged and the handles go with them. Neither the order of the scores nor
the number of the handles matters; the sift does not look at the capacity
(`reheapify_withCapacity`), so it may be taken to be that number.
-/

namespace SchoolStuff.ExtendedHeap

/-- The ids of the array are distinct and in range, and each has its 1-based
position for a handle. -/
structure Located (h : Heap) : Prop where
  size : h.curSize = h.arr.length
  range : ∀ id, id ∈ h.ids → 1 ≤ id ∧ id ≤ h.capacity
  nodup : h.ids.Nodup
  handle : ∀ id (j : Nat) (s : Int), h.arr[j]? = some (id, s) →
    h.handleAt id = some ((j : Int) + 1)

def Heap.withCapacity (h : Heap) (c : Nat) : Heap := { h with capacity := c }

section Capacity

variable {h h' : Heap} (c : Nat)

theorem Heap.swap_withCapacity {p q : Nat} (hs : h.swap p q = some h') :
    (h.withCapacity c).swap p q = some (h'.withCapacity c) := by
  simp only [Heap.swap, Heap.setHandle, Option.bind_eq_bind,
    Option.bind_eq_some_iff] at hs ⊢
  obtain ⟨temp, htemp, other, hother, a, ha, b, hb, h₁, hh₁, h₂, hh₂, hs⟩ := hs
  split at hh₁ <;> simp only [Option.some.injEq, reduceCtorEq] at hh₁
  rename_i hlt₁
  subst hh₁
  split at hh₂ <;> simp only [Option.some.injEq, reduceCtorEq] at hh₂
  rename_i hlt₂
  subst hh₂
  rw [← Option.some.inj hs]
  exact ⟨temp, htemp, other, hother, a, ha, b, hb, _, if_pos hlt₁, _, if_pos hlt₂, rfl⟩

theorem Heap.reheapify_withCapacity {i : Nat} (hrun : h.reheapify i = some h') :
    (h.withCapacity c).reheapify i = some (h'.withCapacity c) := by
  induction h, i using Heap.reheapify.induct with
  | case1 h i hnone =>
      rw [Heap.reheapify] at hrun
      split at hrun
      · cases hrun
      · rename_i hs
        rw [hnone] at hs
        cases hs
  | case2 h i hstop =>
      rw [Heap.reheapify_stop hstop, Option.some.injEq] at hrun
      rw [Heap.reheapify_stop (h := h.withCapacity c) hstop, hrun]
  | case3 h i s hsome hne hnone =>
      rw [Heap.reheapify] at hrun
      split at hrun
      · cases hrun
      · rename_i s' hs'
        obtain rfl : s = s' := Option.some.inj (hsome.symm.trans hs')
        rw [dif_neg hne] at hrun
        split at hrun
        · cases hrun
        · rename_i hw
          rw [hnone] at hw
          cases hw
  | case4 h i s hsome hne h₁ hswap ih =>
      rw [Heap.reheapify_swap hsome hne hswap] at hrun
      rw [Heap.reheapify_swap (h := h.withCapacity c) hsome hne
        (Heap.swap_withCapacity c hswap), ih hrun]

end Capacity

variable {h : Heap}

theorem Located.handle_length (hl : Located h) {id : Int} (hid : id ∈ h.ids) :
    id ≤ h.handle.length := by
  obtain ⟨j, s, hj⟩ := Heap.mem_ids.mp hid
  have hat := hl.handle id j s hj
  rw [Heap.handleAt, if_pos (hl.range id hid).1] at hat
  have hlt := (List.getElem?_eq_some_iff.mp hat).1
  omega

/-- The capacity apart. -/
theorem Located.shape (hl : Located h) : Shape (h.withCapacity h.handle.length) where
  size := hl.size
  handles := rfl
  range id hid := ⟨(hl.range id hid).1, hl.handle_length hid⟩
  nodup := hl.nodup

/-- **A sift takes the handles along**, whatever the order of the scores. -/
theorem reheapify_located (h : Heap) (i : Nat) (hl : Located h) (hi : i < h.curSize) :
    ∃ h', h.reheapify i = some h' ∧ h'.arr.Perm h.arr ∧
      (∀ id, id ∉ h.ids → h'.handleAt id = h.handleAt id) ∧ Located h' := by
  obtain ⟨g, hrun, hm⟩ := Shape.reheapify (h.withCapacity h.handle.length) i hl.shape hi
  have hrun' : h.reheapify i = some (g.withCapacity h.capacity) :=
    Heap.reheapify_withCapacity (h := h.withCapacity h.handle.length) h.capacity hrun
  have hperm : g.arr.Perm h.arr := hm.perm
  have hids : g.ids.Perm h.ids := hm.ids
  refine ⟨g.withCapacity h.capacity, hrun', hperm, hm.absent,
    (hm.shape hl.shape).size, fun id hid => hl.range id (hids.mem_iff.mp hid),
    hids.nodup_iff.mpr hl.nodup, fun id j s (hj : g.arr[j]? = some (id, s)) => ?_⟩
  have hlt : j < h.arr.length := by
    rw [← hperm.length_eq]
    exact (List.getElem?_eq_some_iff.mp hj).1
  -- the handle of what is at `j` now is that of what was there
  have hslot : g.slot j = h.slot j := hm.slot j
  rw [Heap.slot, Heap.slot, hj, List.getElem?_eq_getElem hlt, Option.bind_some,
    Option.bind_some] at hslot
  exact hslot.trans (hl.handle _ j _ (List.getElem?_eq_getElem hlt))

/-- Three contestants, the first one going down. -/
theorem reheapify_located_three :
    ∃ h', (Heap.mk [(3, 5), (1, 2), (2, 1)] 3 3 [2, 3, 1]).reheapify 0 = some h' ∧
      h'.arr.Perm [(3, 5), (1, 2), (2, 1)] ∧
      (∀ id, id ∉ (Heap.mk [(3, 5), (1, 2), (2, 1)] 3 3 [2, 3, 1]).ids →
        h'.handleAt id = (Heap.mk [(3, 5), (1, 2), (2, 1)] 3 3 [2, 3, 1]).handleAt id) ∧
      Located h' := by
  refine reheapify_located _ 0 ⟨rfl, by decide, by decide, fun id j s hj => ?_⟩ (by decide)
  match j with
  | 0 => cases hj; rfl
  | 1 => cases hj; rfl
  | 2 => cases hj; rfl

end SchoolStuff.ExtendedHeap
