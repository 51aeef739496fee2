import SchoolStuff.ExtendedHeap.Sifting

/-!
# ExtendedHeap — the handles

Swaps move elements of `arr` and keep, position by position, what the
handles say about the element there (`Moves`). So the sifts neither make
nor repair a wrong handle: a heap is consistent after a call exactly if
the call set the right handle itself. Two places do not. `insertContestant`
stores the id where the position belongs, and `eliminateWeakest` leaves
the handle of the last contestant as it was.
-/

namespace SchoolStuff.ExtendedHeap

open BinaryHeap (parent parent_lt)

/-- What the handles say about the element at position `j`. -/
def Heap.slot (h : Heap) (j : Nat) : Option Int :=
  h.arr[j]?.bind fun e => h.handleAt e.1

theorem Heap.slot_eq_ids (h : Heap) (j : Nat) :
    h.slot j = h.ids[j]?.bind h.handleAt := by
  rw [Heap.slot, Heap.ids, List.getElem?_map, Option.bind_map]
  rfl

structure Shape (h : Heap) : Prop where
  size : h.curSize = h.arr.length
  handles : h.handle.length = h.capacity
  range : ∀ id, id ∈ h.ids → 1 ≤ id ∧ id ≤ h.capacity
  nodup : h.ids.Nodup

variable {h h' : Heap} {id : Int}

theorem Shape.handleAt (hs : Shape h) (h1 : 1 ≤ id) (hc : id ≤ h.capacity) :
    ∃ k, h.handleAt id = some k := by
  have hlt : (id - 1).toNat < h.handle.length := by
    rw [hs.handles]
    omega
  exact ⟨h.handle[(id - 1).toNat], by simp [Heap.handleAt, h1]⟩

theorem Heap.handleAt_new {n : Nat} (h1 : 1 ≤ id) (hn : id ≤ n) :
    (Heap.new n).handleAt id = some 0 := by
  have hlt : (id - 1).toNat < n := by omega
  rw [Heap.handleAt, if_pos h1, Heap.new, List.getElem?_replicate,
    if_pos hlt]

/-! ## Rearrangements -/

/-- `h'` holds the elements of `h` in another order, and the handles were
exchanged along with them. -/
structure Moves (h h' : Heap) : Prop where
  capacity : h'.capacity = h.capacity
  curSize : h'.curSize = h.curSize
  handles : h'.handle.length = h.handle.length
  perm : h'.arr.Perm h.arr
  slot : ∀ j, h'.slot j = h.slot j
  absent : ∀ id, id ∉ h.ids → h'.handleAt id = h.handleAt id

theorem Moves.refl (h : Heap) : Moves h h :=
  ⟨rfl, rfl, rfl, List.Perm.refl _, fun _ => rfl, fun _ _ => rfl⟩

theorem Moves.ids (hm : Moves h h') : h'.ids.Perm h.ids :=
  hm.perm.map Prod.fst

theorem Moves.trans {h'' : Heap} (hm : Moves h h') (hm' : Moves h' h'') :
    Moves h h'' where
  capacity := hm'.capacity.trans hm.capacity
  curSize := hm'.curSize.trans hm.curSize
  handles := hm'.handles.trans hm.handles
  perm := hm'.perm.trans hm.perm
  slot j := (hm'.slot j).trans (hm.slot j)
  absent id hid := by
    rw [hm'.absent id (fun hin => hid (hm.ids.mem_iff.mp hin)),
      hm.absent id hid]

theorem Moves.shape (hm : Moves h h') (hs : Shape h) : Shape h' where
  size := by rw [hm.curSize, hs.size, hm.perm.length_eq]
  handles := by rw [hm.handles, hs.handles, hm.capacity]
  range id hid := by
    rw [hm.capacity]
    exact hs.range id (hm.ids.mem_iff.mp hid)
  nodup := hm.ids.nodup_iff.mpr hs.nodup

/-- Two positions with the same id are one position. -/
theorem Shape.index_inj (hs : Shape h) {j k : Nat} {e e' : Int × Int}
    (hj : h.arr[j]? = some e) (hk : h.arr[k]? = some e') (he : e.1 = e'.1) :
    j = k := by
  have hlt : j < h.ids.length := by
    have := (List.getElem?_eq_some_iff.mp hj).1
    simpa [Heap.ids] using this
  refine (List.getElem?_inj hlt hs.nodup).mp ?_
  simp [Heap.ids, hj, hk, he]

theorem Shape.mem_range (hs : Shape h) {j : Nat} {e : Int × Int}
    (hj : h.arr[j]? = some e) : 1 ≤ e.1 ∧ e.1 ≤ h.capacity :=
  hs.range e.1 (List.mem_map_of_mem (List.mem_of_getElem? hj))

/-! ## Swapping two positions -/

theorem Shape.sized (hs : Shape h) : Sized h :=
  ⟨hs.size, fun id hid => by rw [hs.handles]; exact hs.range id hid⟩

theorem Shape.get (hs : Shape h) {k : Nat} (hk : k < h.curSize) :
    ∃ e, h.arr[k]? = some e ∧ e.2 = h.key k :=
  hs.sized.get hk

section Swapped

variable {p q : Nat} {e e' : Int × Int} {a b : Int}
  (hp : h.arr[p]? = some e) (hq : h.arr[q]? = some e')

include hp hq

theorem Shape.handleAt_swapped (hs : Shape h) (x : Int) :
    (h.swapped p q e e' a b).handleAt x
      = if x = e'.1 then some a
        else if x = e.1 then some b else h.handleAt x := by
  obtain ⟨he1, hec⟩ := hs.mem_range hp
  obtain ⟨he1', hec'⟩ := hs.mem_range hq
  have hlen := hs.handles
  show ((h.put e.1 b).put e'.1 a).handleAt x = _
  rw [Heap.handleAt_put he1' (by rw [Heap.put_length]; omega),
    Heap.handleAt_put he1 (by omega)]

variable (ha : h.handleAt e.1 = some a) (hb : h.handleAt e'.1 = some b)

include ha hb

/-- Position by position the handles say what they said before. -/
theorem Shape.slot_swapped (hs : Shape h) (j : Nat) :
    (h.swapped p q e e' a b).slot j = h.slot j := by
  have hget : ∀ x, (h.swapped p q e e' a b).handleAt x = _ :=
    hs.handleAt_swapped hp hq
  rw [Heap.slot, Heap.slot, Heap.getElem?_swapped hp hq]
  by_cases hjp : j = p
  · subst hjp
    rw [BinaryHeap.swapAt_fst, hp, hq, Option.bind_some, Option.bind_some,
      hget, if_pos rfl, ha]
  · by_cases hjq : j = q
    · subst hjq
      rw [BinaryHeap.swapAt_snd, hp, hq, Option.bind_some, Option.bind_some,
        hget]
      by_cases hsame : e.1 = e'.1
      · rw [if_pos hsame, ← ha, hsame]
      · rw [if_neg hsame, if_pos rfl, hb]
    · -- an element that stays: its id is neither of the two
      rw [BinaryHeap.swapAt_of_ne _ hjp hjq]
      cases hj : h.arr[j]? with
      | none => rfl
      | some x =>
          have hne' : x.1 ≠ e'.1 := fun heq => hjq (hs.index_inj hj hq heq)
          have hne : x.1 ≠ e.1 := fun heq => hjp (hs.index_inj hj hp heq)
          rw [Option.bind_some, Option.bind_some, hget, if_neg hne',
            if_neg hne]

theorem Shape.moves_swapped (hs : Shape h) :
    Moves h (h.swapped p q e e' a b) where
  capacity := rfl
  curSize := rfl
  handles := (Heap.shuffled_swapped hp hq).handles
  perm := (Heap.shuffled_swapped hp hq).perm
  slot := hs.slot_swapped hp hq ha hb
  absent x hx := by
    have hmem : ∀ {k : Nat} {e : Int × Int}, h.arr[k]? = some e →
        e.1 ∈ h.ids := fun he => List.mem_map_of_mem (List.mem_of_getElem? he)
    have hne' : x ≠ e'.1 := fun heq => hx (heq ▸ hmem hq)
    have hne : x ≠ e.1 := fun heq => hx (heq ▸ hmem hp)
    rw [hs.handleAt_swapped hp hq, if_neg hne', if_neg hne]

end Swapped

/-- **Swapping two positions** keeps what the handles say. -/
theorem Shape.swap (hs : Shape h) {p q : Nat} (hp : p < h.curSize)
    (hq : q < h.curSize) : ∃ h', h.swap p q = some h' ∧ Moves h h' := by
  obtain ⟨e, he, _⟩ := hs.sized.get hp
  obtain ⟨e', he', _⟩ := hs.sized.get hq
  obtain ⟨a, ha⟩ := hs.sized.handleAt he
  obtain ⟨b, hb⟩ := hs.sized.handleAt he'
  exact ⟨h.swapped p q e e' a b, hs.sized.swap_eq he he' ha hb,
    hs.moves_swapped he he' ha hb⟩

/-! ## The sifts -/

theorem Shape.bubbleUp : ∀ (i : Nat) (h : Heap), Shape h → i < h.curSize →
    ∃ h', h.bubbleUp i = some h' ∧ Moves h h' := by
  intro i
  induction i using Nat.strongRecOn with
  | ind i ih =>
      intro h hs hi
      unfold Heap.bubbleUp
      by_cases hi0 : i = 0
      · exact ⟨h, by rw [dif_pos hi0], Moves.refl h⟩
      · have hup : parent i < i := parent_lt (Nat.pos_of_ne_zero hi0)
        have hlen := hs.size
        rw [dif_neg hi0,
          List.getElem?_eq_getElem (show parent i < h.arr.length by omega),
          List.getElem?_eq_getElem (show i < h.arr.length by omega)]
        simp only [Option.bind_eq_bind, Option.bind_some]
        split
        · obtain ⟨h₁, hswap, hm⟩ := hs.swap hi (show parent i < _ by omega)
          obtain ⟨h', hrun, hm'⟩ := ih (parent i) hup h₁ (hm.shape hs)
            (by rw [hm.curSize]; omega)
          exact ⟨h', by simp [hswap, hrun], hm.trans hm'⟩
        · exact ⟨h, rfl, Moves.refl h⟩

theorem Shape.reheapify (h : Heap) (i : Nat) (hs : Shape h)
    (hi : i < h.curSize) :
    ∃ h', h.reheapify i = some h' ∧ Moves h h' := by
  induction h, i using Heap.reheapify.induct with
  | case1 h i hnone => simp [hs.sized.smallest i] at hnone
  | case2 h s hstop =>
      exact ⟨h, Heap.reheapify_stop hstop, Moves.refl h⟩
  | case3 h i s hsome hne hnone =>
      obtain ⟨h', hswap, _⟩ := hs.swap hi (Heap.smallest_lt hsome hne).2
      simp [hswap] at hnone
  | case4 h i s hsome hne h₁ hswap ih =>
      have hlt := (Heap.smallest_lt hsome hne).2
      obtain ⟨h₁', hswap', hm⟩ := hs.swap hi hlt
      rw [hswap, Option.some.injEq] at hswap'
      subst hswap'
      obtain ⟨h', hrun, hm'⟩ := ih (hm.shape hs) (by rw [hm.curSize]; exact hlt)
      refine ⟨h', ?_, hm.trans hm'⟩
      rw [Heap.reheapify_swap hsome hne hswap, hrun]

/-! ## Consistent handles -/

/-- Array and handles say the same about the contestants `1..n`. -/
structure RepInv (n : Nat) (h : Heap) : Prop where
  stored : ∀ id : Int, 1 ≤ id → id ≤ n → ∀ (j : Nat) (s : Int),
    h.arr[j]? = some (id, s) → h.handleAt id = some ((j : Int) + 1)
  located : ∀ id : Int, 1 ≤ id → id ≤ n → ∀ k : Int,
    h.handleAt id = some k → 1 ≤ k →
      k ≤ h.curSize ∧ ∃ s, h.arr[(k - 1).toNat]? = some (id, s)

variable {n : Nat}

theorem Heap.mem_ids : id ∈ h.ids ↔ ∃ (j : Nat) (s : Int),
    h.arr[j]? = some (id, s) := by
  rw [Heap.ids, List.mem_map]
  constructor
  · rintro ⟨⟨i, s⟩, hmem, rfl⟩
    obtain ⟨j, hj⟩ := List.mem_iff_getElem?.mp hmem
    exact ⟨j, s, hj⟩
  · rintro ⟨j, s, hj⟩
    exact ⟨(id, s), List.mem_of_getElem? hj, rfl⟩

/-- The invariant position by position, and for the ids that are not in
the heap. -/
theorem repInv_iff (hs : Shape h) (hn : h.capacity = n) :
    RepInv n h ↔ (∀ j, j < h.curSize → h.slot j = some ((j : Int) + 1))
      ∧ ∀ id : Int, 1 ≤ id → id ≤ n → id ∉ h.ids →
          ∃ k, h.handleAt id = some k ∧ k ≤ 0 := by
  subst hn
  constructor
  · intro hrep
    constructor
    · intro j hj
      obtain ⟨e, he, _⟩ := hs.get hj
      obtain ⟨h1, hc⟩ := hs.mem_range he
      simpa [Heap.slot, he] using hrep.stored e.1 h1 hc j e.2 he
    · intro id h1 hc habs
      obtain ⟨k, hk⟩ := hs.handleAt h1 hc
      refine ⟨k, hk, ?_⟩
      by_contra hpos
      obtain ⟨_, s, hget⟩ := hrep.located id h1 hc k hk (by omega)
      exact habs (Heap.mem_ids.mpr ⟨_, s, hget⟩)
  · rintro ⟨hslot, habsent⟩
    have hstored : ∀ (id : Int) (j : Nat) (s : Int),
        h.arr[j]? = some (id, s) → h.handleAt id = some ((j : Int) + 1) := by
      intro id j s hget
      have hj := (List.getElem?_eq_some_iff.mp hget).1
      simpa [Heap.slot, hget] using hslot j (hs.size ▸ hj)
    refine ⟨fun id _ _ => hstored id, ?_⟩
    intro id h1 hc k hk hpos
    by_cases hid : id ∈ h.ids
    · obtain ⟨j, s, hget⟩ := Heap.mem_ids.mp hid
      have hj := (List.getElem?_eq_some_iff.mp hget).1
      rw [hstored id j s hget, Option.some.injEq] at hk
      subst hk
      have hsize := hs.size
      exact ⟨by omega, s, by simpa using hget⟩
    · obtain ⟨k', hk', hle⟩ := habsent id h1 hc hid
      rw [hk, Option.some.injEq] at hk'
      omega

/-- **Sifting neither makes nor repairs a wrong handle.** -/
theorem Moves.repInv_iff (hm : Moves h h') (hs : Shape h)
    (hn : h.capacity = n) : RepInv n h' ↔ RepInv n h := by
  rw [ExtendedHeap.repInv_iff (hm.shape hs) (hm.capacity.trans hn),
    ExtendedHeap.repInv_iff hs hn]
  simp only [hm.slot, hm.curSize]
  apply and_congr_right
  intro _
  apply forall_congr'
  intro id
  rw [hm.ids.mem_iff]
  constructor <;> intro hall h1 hc hid
  · rw [← hm.absent id hid]
    exact hall h1 hc hid
  · rw [hm.absent id hid]
    exact hall h1 hc hid

/-- Shape, capacity and handles: what holds after every call that keeps
the handles right. -/
structure Consistent (n : Nat) (h : Heap) : Prop extends Shape h where
  capacity : h.capacity = n
  rep : RepInv n h

theorem Consistent.handleAt' (hc : Consistent n h) (h1 : 1 ≤ id)
    (hn : id ≤ n) : ∃ k, h.handleAt id = some k :=
  hc.toShape.handleAt h1 (by rw [hc.capacity]; exact hn)

theorem Consistent.new (n : Nat) : Consistent n (Heap.new n) := by
  have hs : Shape (Heap.new n) :=
    ⟨rfl, by simp [Heap.new], by simp [Heap.new, Heap.ids],
      by simp [Heap.new, Heap.ids]⟩
  refine ⟨hs, rfl, (repInv_iff hs rfl).mpr ⟨?_, ?_⟩⟩
  · intro j hj
    exact absurd hj (Nat.not_lt_zero j)
  · intro id h1 hn _
    exact ⟨0, Heap.handleAt_new h1 hn, Int.le_refl 0⟩

/-! ### Reads through a handle -/

/-- `findContestant` and `showLocation` print the score and the position,
counted from one, of the contestants that are in the heap. -/
structure HandleReads (n : Nat) (h : Heap) : Prop where
  findContestant : ∀ id : Int, 1 ≤ id → id ≤ n →
    ∃ r, h.findContestant id = some r ∧ ∀ s, r = some s ↔ (id, s) ∈ h.arr
  showLocation : ∀ id : Int, 1 ≤ id → id ≤ n →
    ∃ r, h.showLocation id = some r
      ∧ ∀ k, r = some k ↔ 1 ≤ k ∧ ∃ s, h.arr[(k - 1).toNat]? = some (id, s)

theorem Consistent.findContestant (hc : Consistent n h) (h1 : 1 ≤ id)
    (hn : id ≤ n) : ∃ r, h.findContestant id = some r
      ∧ ∀ s, r = some s ↔ (id, s) ∈ h.arr := by
  obtain ⟨k, hk⟩ := hc.handleAt' h1 hn
  by_cases hpos : 1 ≤ k
  · obtain ⟨_, s, hget⟩ := hc.rep.located id h1 hn k hk hpos
    refine ⟨some s, ?_, ?_⟩
    · simp only [Heap.findContestant, hk, Option.bind_eq_bind,
        Option.bind_some, if_pos (show 0 ≤ k - 1 by omega), hget]
    · intro s'
      constructor
      · intro heq
        rw [← Option.some.inj heq]
        exact List.mem_of_getElem? hget
      · intro hmem
        obtain ⟨j, hj⟩ := List.mem_iff_getElem?.mp hmem
        have hjk := hc.index_inj hj hget rfl
        rw [hjk, hget, Option.some.injEq, Prod.mk.injEq] at hj
        rw [hj.2]
  · refine ⟨none, ?_, ?_⟩
    · simp [Heap.findContestant, hk, show ¬ 1 ≤ k from hpos]
    · intro s
      refine ⟨fun hf => absurd hf (by simp), fun hmem => ?_⟩
      obtain ⟨j, hj⟩ := List.mem_iff_getElem?.mp hmem
      have := hc.rep.stored id h1 hn j s hj
      rw [hk, Option.some.injEq] at this
      omega

theorem Consistent.showLocation (hc : Consistent n h) (h1 : 1 ≤ id)
    (hn : id ≤ n) : ∃ r, h.showLocation id = some r
      ∧ ∀ k, r = some k ↔ 1 ≤ k ∧ ∃ s, h.arr[(k - 1).toNat]? = some (id, s) := by
  obtain ⟨k, hk⟩ := hc.handleAt' h1 hn
  refine ⟨if 0 ≤ k - 1 then some k else none, by simp [Heap.showLocation, hk], ?_⟩
  intro k'
  constructor
  · intro heq
    split at heq
    · rw [← Option.some.inj heq]
      exact ⟨by omega, (hc.rep.located id h1 hn k hk (by omega)).2⟩
    · exact absurd heq (by simp)
  · rintro ⟨hpos, s, hget⟩
    have hstored := hc.rep.stored id h1 hn _ s hget
    have hkk := Option.some.inj (hk.symm.trans hstored)
    rw [if_pos (by omega)]
    exact congrArg some (by omega)

theorem Consistent.reads (hc : Consistent n h) : HandleReads n h :=
  ⟨fun _ => hc.findContestant, fun _ => hc.showLocation⟩

end SchoolStuff.ExtendedHeap
