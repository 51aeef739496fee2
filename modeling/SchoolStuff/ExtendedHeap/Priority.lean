import SchoolStuff.ExtendedHeap.Calls

/-!
# ExtendedHeap — the priority queue

`eliminateWeakest` reports the root, so it reports a minimum as long as the
scores are in heap order. An insertion keeps the order. Two things break
it: a wrong turn of `reheapify` (`siftOk`), and `points`, which only ever
sifts down, also when the score has fallen below the one above it.
-/

namespace SchoolStuff.ExtendedHeap

open BinaryHeap

variable {n : Nat} {h h' : Heap} {id : Int}

/-! ## The calls -/

/-- The score `x` may replace the one at position `i`: it is not below the
score above it, and sifts down without a wrong turn. -/
def ScoreOk (h : Heap) (i : Nat) (x : Int) : Prop :=
  (0 < i → h.key (parent i) ≤ x) ∧ siftOk h.key h.curSize x i = true

/-- The call keeps the heap order. -/
def PqStepOk (h : Heap) : Op → Prop
  | .earnPoints id point =>
      ∀ i s, h.arr[i]? = some (id, s) → ScoreOk h i (CInt.wrap (s + point))
  | .losePoints id point =>
      ∀ i s, h.arr[i]? = some (id, s) → ScoreOk h i (CInt.wrap (s - point))
  | .eliminateWeakest => 2 ≤ h.curSize →
      siftOk h.key (h.curSize - 1) (h.key (h.curSize - 1)) 0 = true
  | _ => True

theorem Heap.key_rescore {i : Nat} (hi : i < h.arr.length) (x : Int)
    (k : Nat) : (h.rescore i id x).key k = if k = i then x else h.key k := by
  by_cases hk : k = i
  · subst hk
    simp [Heap.key, Heap.rescore, hi]
  · rw [if_neg hk, Heap.key, Heap.key]
    simp only [Heap.rescore, List.getElem?_set_ne (Ne.symm hk)]

/-- **A replaced score** leaves the heap ordered exactly if it may replace
the old one. -/
theorem Consistent.rescore_ordered (hc : Consistent n h)
    (hord : Ordered h.key h.curSize) {i : Nat} {s : Int}
    (hget : h.arr[i]? = some (id, s)) (x : Int) :
    ∃ h', (h.rescore i id x).reheapify i = some h'
      ∧ Moves (h.rescore i id x) h' ∧ Consistent n h'
      ∧ (Ordered h'.key h'.curSize ↔ ScoreOk h i x) := by
  have hlen := (List.getElem?_eq_some_iff.mp hget).1
  have hi : i < h.curSize := hc.size ▸ hlen
  have hkey : ∀ k, (h.rescore i id x).key k = if k = i then x else h.key k :=
    Heap.key_rescore hlen x
  have hc₁ := hc.rescore hget x
  obtain ⟨h', hrun, hm⟩ := Shape.reheapify _ i hc₁.toShape hi
  have hd := hc₁.toShape.sized.sifted_of_run hrun
  have hle := hd.root_le
  refine ⟨h', hrun, hm, hc₁.of_moves hm, ?_⟩
  have hx : (h.rescore i id x).key i = x := by rw [hkey, if_pos rfl]
  have hsift : siftOk (h.rescore i id x).key h.curSize x i
      = siftOk h.key h.curSize x i :=
    siftOk_congr i fun k hk _ => by rw [hkey, if_neg (by omega)]
  by_cases hup : 0 < i → h.key (parent i) ≤ x
  · have hdown : DownOrder (h.rescore i id x).key h.curSize i :=
      hord.downOrder hi (fun k _ hk => by rw [hkey, if_neg hk])
        (by rw [hx]; exact hup)
    have hiff := hd.heap_ordered hi hdown
    rw [hx] at hiff
    rw [ScoreOk, ← hsift]
    exact hiff.trans (and_iff_right hup).symm
  · -- nothing lifts the score over the one above it
    refine iff_of_false (fun hord' => hup fun hpos => ?_) fun hok => hup hok.1
    have hp := parent_lt hpos
    have hle' := hord' i hpos (by rw [hm.curSize]; exact hi)
    rw [hd.before hp, hkey, if_neg (by omega)] at hle'
    rw [hx] at hle
    exact Int.le_trans hle' hle

theorem Heap.key_popped {p last : Int × Int} {mid : List (Int × Int)}
    (hs : Shape h) (harr : h.arr = p :: (mid ++ [last])) :
    (h.popped p mid last).key 0 = h.key (h.curSize - 1)
      ∧ ∀ k, 0 < k → k < h.curSize - 1 →
        (h.popped p mid last).key k = h.key k := by
  have hlen := hs.size
  rw [harr, List.length_cons, List.length_append, List.length_singleton] at hlen
  constructor
  · rw [Heap.key_of_get (e := last) rfl,
      Heap.key_of_get (e := last) (by rw [harr, hlen]; simp)]
  · intro k hpos hk
    obtain ⟨j, rfl⟩ : ∃ j, k = j + 1 := ⟨k - 1, by omega⟩
    have hj : j < mid.length := by omega
    rw [Heap.key, Heap.key, harr, Heap.popped]
    simp only [List.getElem?_cons_succ, List.getElem?_append_left hj]

/-- **An elimination** from an ordered heap removes a minimum, and leaves
the heap ordered exactly if the score moved to the root sifts down without
a wrong turn. -/
theorem Consistent.eliminate_ordered (hc : Consistent n h)
    (hord : Ordered h.key h.curSize) (h2 : 2 ≤ h.curSize) :
    ∃ p h', h.eliminateWeakest 0 = some (p, h') ∧ Consistent n h'
      ∧ h.arr.Perm (p :: h'.arr)
      ∧ (Ordered h'.key h'.curSize
        ↔ siftOk h.key (h.curSize - 1) (h.key (h.curSize - 1)) 0 = true) := by
  obtain ⟨p, mid, last, h', harr, hrun, hm, helim, hc'⟩ :=
    hc.eliminateWeakest (show (0 : Int) ≠ 2 by decide) h2
  have hs := hc.toShape.popped harr
  obtain ⟨hfirst, hrest⟩ := Heap.key_popped hc.toShape harr
  have hsize : (h.popped p mid last).curSize = h.curSize - 1 := rfl
  refine ⟨p, h', helim, hc',
    (Heap.perm_popped harr).trans (hm.perm.symm.cons p), ?_⟩
  have hd := hs.sized.sifted_of_run hrun
  have hord' : Ordered h.key (h.curSize - 1) :=
    fun k hpos hk => hord k hpos (by omega)
  have hdown : DownOrder (h.popped p mid last).key (h.curSize - 1) 0 :=
    hord'.downOrder (by omega)
      (fun k hk hne => hrest k (Nat.pos_of_ne_zero hne) hk)
      (fun hpos => absurd hpos (Nat.lt_irrefl 0))
  have hiff := hd.heap_ordered (by rw [hsize]; omega) hdown
  rw [hsize] at hiff
  rw [hiff, hfirst, siftOk_congr 0 fun k hpos hk => hrest k hpos hk]

theorem Shape.root_minimal (hs : Shape h) (hord : Ordered h.key h.curSize)
    {p : Int × Int} (hp : h.arr[0]? = some p) :
    ∀ e ∈ h.arr, p.2 ≤ e.2 := by
  intro e he
  obtain ⟨k, hk⟩ := List.mem_iff_getElem?.mp he
  have hlt := (List.getElem?_eq_some_iff.mp hk).1
  have := hord.root_le k (hs.size ▸ hlt)
  rwa [Heap.key_of_get hp, Heap.key_of_get hk] at this

/-! ## Insertion -/

/-- The pushed contestant is the one that may be out of order. -/
theorem Shape.push_ordered (hs : Shape h) (hord : Ordered h.key h.curSize)
    (id score : Int) :
    UpOrder (h.push id score).key (h.push id score).curSize h.curSize := by
  have hkey : ∀ k, k < h.curSize → (h.push id score).key k = h.key k := by
    intro k hk
    rw [Heap.key, Heap.key, Heap.push,
      List.getElem?_append_left (hs.size ▸ hk)]
  exact (hord.congr hkey).upOrder

/-- Also where the array has the id already. -/
theorem Shape.push_sized (hs : Shape h) (h1 : 1 ≤ id) (hn : id ≤ h.capacity)
    (score : Int) : Sized (h.push id score) where
  size := by simp [Heap.push, hs.size]
  range x hx := by
    have hlen : (h.push id score).handle.length = h.capacity :=
      (Heap.put_length h id id).trans hs.handles
    rw [Heap.ids_push, List.mem_append, List.mem_singleton] at hx
    rw [hlen]
    rcases hx with hx | rfl
    · exact hs.range x hx
    · exact ⟨h1, hn⟩

/-- **An insertion keeps the order.** With room in the heap and a zero in
the handle, whatever the other handles say, the contestant is added and
the scores stay in heap order. -/
theorem insertContestant_ordered (h : Heap) (hs : Shape h)
    (hord : Ordered h.key h.curSize) (hroom : h.curSize < h.capacity)
    (id score : Int) (h1 : 1 ≤ id) (hn : id ≤ h.capacity)
    (h0 : h.handleAt id = some 0) :
    ∃ h', h.insertContestant id score = some (true, h')
      ∧ Ordered h'.key h'.curSize ∧ h'.curSize = h'.arr.length
      ∧ h'.arr.length = h.arr.length + 1
      ∧ h'.arr.Perm ((id, score) :: h.arr) := by
  have hpush := hs.push_sized h1 hn score
  obtain ⟨h', hrun, hm, hord'⟩ := hpush.bubbleUp h.curSize _
    (Nat.lt_succ_self h.curSize) (hs.push_ordered hord id score)
  have hperm : h'.arr.Perm ((id, score) :: h.arr) :=
    hm.perm.trans (List.perm_append_singleton (id, score) h.arr)
  refine ⟨h', ?_, hord', (hm.sized hpush).size, hperm.length_eq, hperm⟩
  rw [hs.insertContestant_eq h1 hn (by omega) h0, hrun]
  rfl

/-- Contestant 2 comes in above contestant 1. -/
theorem insertContestant_ordered_two :
    ∃ h', (Heap.mk [(1, 5)] 2 1 [1, 0]).insertContestant 2 3 = some (true, h')
      ∧ Ordered h'.key h'.curSize ∧ h'.curSize = h'.arr.length
      ∧ h'.arr.length = 1 + 1 ∧ h'.arr.Perm [(2, 3), (1, 5)] :=
  insertContestant_ordered (Heap.mk [(1, 5)] 2 1 [1, 0])
    ⟨rfl, rfl, by decide, by decide⟩
    (fun k hpos hk => absurd (Nat.lt_one_iff.mp hk) (Nat.ne_of_gt hpos))
    (by decide) 2 3 (by decide) (by decide) rfl

end SchoolStuff.ExtendedHeap
