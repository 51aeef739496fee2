import Mathlib.Data.List.Induction
import SchoolStuff.ExtendedHeap.Handles

/-!
# ExtendedHeap — the calls

Each call is one change of array and handles followed by a sift: the
contestant pushed behind the array (`Heap.push`), a score replaced
(`Heap.rescore`), the last contestant moved over the first
(`Heap.popped`). Since sifting keeps the state of the handles, what a call
does to them is what that change does.
-/

namespace SchoolStuff.ExtendedHeap

variable {n : Nat} {h h' : Heap} {id : Int}

theorem Consistent.of_moves (hc : Consistent n h) (hm : Moves h h') :
    Consistent n h' :=
  ⟨hm.shape hc.toShape, hm.capacity.trans hc.capacity,
    (hm.repInv_iff hc.toShape hc.capacity).mpr hc.rep⟩

theorem Consistent.slot (hc : Consistent n h) :
    ∀ j, j < h.curSize → h.slot j = some ((j : Int) + 1) :=
  ((repInv_iff hc.toShape hc.capacity).mp hc.rep).1

theorem Consistent.absent (hc : Consistent n h) (h1 : 1 ≤ id) (hn : id ≤ n)
    (hid : id ∉ h.ids) : ∃ k, h.handleAt id = some k ∧ k ≤ 0 :=
  ((repInv_iff hc.toShape hc.capacity).mp hc.rep).2 id h1 hn hid

/-! ## Insertion -/

/-- The heap `insertContestant` hands to its bubble-up loop. -/
def Heap.push (h : Heap) (id score : Int) : Heap :=
  { h.put id id with
    curSize := h.curSize + 1
    arr := h.arr ++ [(id, score)] }

theorem Heap.ids_push (h : Heap) (id score : Int) :
    (h.push id score).ids = h.ids ++ [id] := by
  simp [Heap.ids, Heap.push]

theorem Shape.insertContestant_eq (hs : Shape h) (h1 : 1 ≤ id)
    (hn : id ≤ h.capacity) (hfull : h.curSize ≠ h.capacity)
    (h0 : h.handleAt id = some 0) (score : Int) :
    h.insertContestant id score
      = ((h.push id score).bubbleUp h.curSize).map fun h => (true, h) := by
  have hlen : h.curSize ≤ h.arr.length := Nat.le_of_eq hs.size
  have htake : h.arr.take h.curSize ++ (id, score) :: h.arr.drop h.curSize
      = h.arr ++ [(id, score)] := by
    rw [hs.size, List.take_length, List.drop_length]
  have hhandle : id ≤ h.handle.length := by rw [hs.handles]; exact hn
  simp only [Heap.insertContestant, if_neg hfull, h0, Option.bind_eq_bind,
    Option.bind_some, ne_eq, not_true_eq_false, if_false, if_pos hlen, htake]
  rw [Heap.setHandle_eq h1 (by exact hhandle), Option.bind_some,
    Option.map_eq_bind]
  rfl

theorem Shape.push (hs : Shape h) (h1 : 1 ≤ id) (hn : id ≤ h.capacity)
    (hid : id ∉ h.ids) (score : Int) : Shape (h.push id score) where
  size := by simp [Heap.push, hs.size]
  handles := (Heap.put_length h id id).trans hs.handles
  range x hx := by
    rw [Heap.ids_push, List.mem_append, List.mem_singleton] at hx
    rcases hx with hx | rfl
    · exact hs.range x hx
    · exact ⟨h1, hn⟩
  nodup := by
    rw [Heap.ids_push, List.nodup_append]
    refine ⟨hs.nodup, List.nodup_singleton id, ?_⟩
    intro x hx y hy
    rw [List.mem_singleton] at hy
    subst hy
    exact fun heq => hid (heq ▸ hx)

theorem Shape.handleAt_push (hs : Shape h) (h1 : 1 ≤ id)
    (hn : id ≤ h.capacity) (score x : Int) :
    (h.push id score).handleAt x = if x = id then some id else h.handleAt x :=
  Heap.handleAt_put h1 (by rw [hs.handles]; exact hn) id x

theorem Shape.slot_push_last (hs : Shape h) (h1 : 1 ≤ id)
    (hn : id ≤ h.capacity) (score : Int) :
    (h.push id score).slot h.curSize = some id := by
  have hget : (h.push id score).arr[h.curSize]? = some (id, score) := by
    simp [Heap.push, hs.size]
  rw [Heap.slot, hget, Option.bind_some, hs.handleAt_push h1 hn, if_pos rfl]

theorem Shape.slot_push (hs : Shape h) (h1 : 1 ≤ id) (hn : id ≤ h.capacity)
    (hid : id ∉ h.ids) (score : Int) {j : Nat} (hj : j < h.curSize) :
    (h.push id score).slot j = h.slot j := by
  obtain ⟨e, he, _⟩ := hs.get hj
  have hne : e.1 ≠ id := fun heq => hid (heq ▸ Heap.mem_ids.mpr ⟨j, e.2, he⟩)
  have he' : (h.push id score).arr[j]? = some e := by
    show (h.arr ++ [(id, score)])[j]? = some e
    rw [List.getElem?_append_left (hs.size ▸ hj), he]
  rw [Heap.slot, he', Heap.slot, he, Option.bind_some, Option.bind_some,
    hs.handleAt_push h1 hn, if_neg hne]

/-- **The inserted contestant gets its id as handle**, which is right at
the last position only if the id is that position. -/
theorem Consistent.push_iff (hc : Consistent n h) (h1 : 1 ≤ id)
    (hn : id ≤ n) (hid : id ∉ h.ids) (score : Int) :
    RepInv n (h.push id score) ↔ id = (h.curSize : Int) + 1 := by
  have hcap : id ≤ h.capacity := by rw [hc.capacity]; exact hn
  have hlast := hc.toShape.slot_push_last h1 hcap score
  rw [repInv_iff (hc.toShape.push h1 hcap hid score) hc.capacity]
  constructor
  · rintro ⟨hslot, _⟩
    have := hslot h.curSize (Nat.lt_succ_self _)
    rw [hlast, Option.some.injEq] at this
    exact this
  · intro heq
    constructor
    · intro j hj
      by_cases hje : j = h.curSize
      · rw [hje, hlast, heq]
      · have hj' : j < h.curSize := by
          have : j < h.curSize + 1 := hj
          omega
        rw [hc.toShape.slot_push h1 hcap hid score hj', hc.slot j hj']
    · intro x hx1 hxn hx
      rw [Heap.ids_push, List.mem_append, List.mem_singleton, not_or] at hx
      rw [hc.toShape.handleAt_push h1 hcap, if_neg hx.2]
      exact hc.absent hx1 hxn hx.1

theorem Consistent.not_mem_of_zero (hc : Consistent n h) (h1 : 1 ≤ id)
    (hn : id ≤ n) (h0 : h.handleAt id = some 0) : id ∉ h.ids := by
  intro hmem
  obtain ⟨j, s, hget⟩ := Heap.mem_ids.mp hmem
  have := hc.rep.stored id h1 hn j s hget
  rw [h0, Option.some.injEq] at this
  omega

/-! ## Scores -/

/-- The heap with the score of the contestant at position `i` replaced. -/
def Heap.rescore (h : Heap) (i : Nat) (id score : Int) : Heap :=
  { h with arr := h.arr.set i (id, score) }

theorem Heap.ids_rescore {i : Nat} {s : Int} (hget : h.arr[i]? = some (id, s))
    (score : Int) : (h.rescore i id score).ids = h.ids := by
  have hi := (List.getElem?_eq_some_iff.mp hget).1
  ext1 k
  simp only [Heap.ids, Heap.rescore, List.map_set, List.getElem?_map,
    List.getElem?_set, List.length_map]
  by_cases hk : i = k
  · subst hk
    rw [if_pos rfl, if_pos hi, hget]
    rfl
  · rw [if_neg hk]

theorem Consistent.rescore (hc : Consistent n h) {i : Nat} {s : Int}
    (hget : h.arr[i]? = some (id, s)) (score : Int) :
    Consistent n (h.rescore i id score) := by
  have hids := Heap.ids_rescore hget score
  have hs : Shape (h.rescore i id score) :=
    ⟨by simpa [Heap.rescore] using hc.size, hc.handles,
      by rw [hids]; exact hc.range, by rw [hids]; exact hc.nodup⟩
  refine ⟨hs, hc.capacity, (repInv_iff hs hc.capacity).mpr ⟨?_, ?_⟩⟩
  · intro j hj
    have hold := hc.slot j hj
    rw [Heap.slot_eq_ids] at hold ⊢
    rw [hids]
    exact hold
  · intro x h1 hn hx
    rw [hids] at hx
    exact hc.absent h1 hn hx

/-- **`points`** refuses a contestant that is not in the heap, and else
replaces its score and sifts down. -/
theorem Consistent.points_cases (hc : Consistent n h) (h1 : 1 ≤ id)
    (hn : id ≤ n) (points : Int) (b : Bool) :
    (id ∉ h.ids ∧ h.points id points b = some (false, h))
      ∨ ∃ i s, h.arr[i]? = some (id, s)
        ∧ h.points id points b
          = ((h.rescore i id
              (CInt.wrap (if b then s + points else s - points))).reheapify
              i).map fun h => (true, h) := by
  obtain ⟨k, hk⟩ := hc.handleAt' h1 hn
  by_cases hpos : 1 ≤ k
  · obtain ⟨_, s, hget⟩ := hc.rep.located id h1 hn k hk hpos
    refine Or.inr ⟨(k - 1).toNat, s, hget, ?_⟩
    simp only [Heap.points, hk, Option.bind_eq_bind, Option.bind_some,
      if_neg (show k ≠ -1 by omega), if_pos (show 0 ≤ k - 1 by omega), hget]
    rw [Option.map_eq_bind]
    rfl
  · refine Or.inl ⟨?_, ?_⟩
    · intro hmem
      obtain ⟨j, s, hget⟩ := Heap.mem_ids.mp hmem
      have := Option.some.inj (hk.symm.trans (hc.rep.stored id h1 hn j s hget))
      omega
    · simp only [Heap.points, hk, Option.bind_eq_bind, Option.bind_some,
        if_neg (show ¬ 0 ≤ k - 1 by omega)]
      split <;> rfl

/-! ## Elimination -/

/-- The heap `eliminateWeakest` hands to `reheapify`. -/
def Heap.popped (h : Heap) (p : Int × Int) (mid : List (Int × Int))
    (last : Int × Int) : Heap :=
  { (h.put last.1 1).put p.1 (-1) with
    arr := last :: mid
    curSize := h.curSize - 1 }

theorem Shape.ends (hs : Shape h) (h2 : 2 ≤ h.curSize) :
    ∃ p mid last, h.arr = p :: (mid ++ [last]) := by
  have hlen := hs.size
  cases harr : h.arr with
  | nil => simp [harr] at hlen; omega
  | cons p rest =>
      have hne : rest ≠ [] := by
        rintro rfl
        simp [harr] at hlen
        omega
      exact ⟨p, rest.dropLast, rest.getLast hne,
        by rw [List.dropLast_append_getLast]⟩

section Popped

variable {p last : Int × Int} {mid : List (Int × Int)}
  (harr : h.arr = p :: (mid ++ [last]))

include harr

theorem Shape.eliminateWeakest_eq (hs : Shape h) {o : Int} (ho : o ≠ 2) :
    h.eliminateWeakest o
      = ((h.popped p mid last).reheapify 0).map fun h => (p, h) := by
  have hlen := hs.size
  rw [harr, List.length_cons, List.length_append, List.length_singleton] at hlen
  have hp : 1 ≤ p.1 ∧ p.1 ≤ h.capacity := hs.mem_range (j := 0) (by simp [harr])
  have hl : 1 ≤ last.1 ∧ last.1 ≤ h.capacity :=
    hs.mem_range (j := mid.length + 1) (by simp [harr])
  have hset : ((p :: (mid ++ [last])).set 0 last).dropLast = last :: mid := by
    rw [List.set_cons_zero, ← List.cons_append, List.dropLast_concat]
  have hlast : (p :: (mid ++ [last]))[h.curSize - 1]? = some last := by
    rw [hlen]
    simp
  have hcap := hs.handles
  simp only [Heap.eliminateWeakest, if_neg (show h.curSize ≠ 0 by omega),
    if_neg ho, if_neg (show h.curSize ≠ 1 by omega), harr,
    Option.bind_eq_bind, hlast, List.getElem?_cons_zero, Option.bind_some, hset]
  rw [Heap.setHandle_eq hl.1 (by show last.1 ≤ h.handle.length; omega),
    Option.bind_some, Heap.setHandle_eq hp.1 (by simp; omega),
    Option.bind_some, Option.map_eq_bind]
  rfl

theorem Heap.perm_popped : h.arr.Perm (p :: (h.popped p mid last).arr) := by
  rw [harr]
  exact (List.perm_append_singleton last mid).cons p

theorem Shape.popped (hs : Shape h) : Shape (h.popped p mid last) := by
  have hperm : h.ids.Perm (p.1 :: (h.popped p mid last).ids) :=
    (Heap.perm_popped harr).map Prod.fst
  have hhandle : (h.popped p mid last).handle.length = h.handle.length := by
    simp [Heap.popped]
  refine ⟨?_, hhandle.trans hs.handles, ?_, ?_⟩
  · have hlen := hs.size
    simp [harr] at hlen
    simp [Heap.popped, hlen]
  · intro x hx
    exact hs.range x (hperm.mem_iff.mpr (List.mem_cons_of_mem _ hx))
  · exact (List.nodup_cons.mp (hperm.nodup_iff.mp hs.nodup)).2

theorem Shape.handleAt_popped (hs : Shape h) (x : Int) :
    (h.popped p mid last).handleAt x
      = if x = p.1 then some (-1)
        else if x = last.1 then some 1 else h.handleAt x := by
  have hp : 1 ≤ p.1 ∧ p.1 ≤ h.capacity := hs.mem_range (j := 0) (by simp [harr])
  have hl : 1 ≤ last.1 ∧ last.1 ≤ h.capacity :=
    hs.mem_range (j := mid.length + 1) (by simp [harr])
  have hcap := hs.handles
  show ((h.put last.1 1).put p.1 (-1)).handleAt x = _
  rw [Heap.handleAt_put hp.1 (by rw [Heap.put_length]; omega),
    Heap.handleAt_put hl.1 (by omega)]

/-- The last contestant is found at the root. -/
theorem Shape.slot_popped_zero (hs : Shape h) :
    (h.popped p mid last).slot 0 = some 1 := by
  have hp0 : h.arr[0]? = some p := by simp [harr]
  have hll : h.arr[mid.length + 1]? = some last := by simp [harr]
  have hne : last.1 ≠ p.1 := fun heq =>
    absurd (hs.index_inj hll hp0 heq) (Nat.succ_ne_zero _)
  have h0 : (h.popped p mid last).arr[0]? = some last := rfl
  rw [Heap.slot, h0, Option.bind_some, hs.handleAt_popped harr, if_neg hne,
    if_pos rfl]

/-- The others are found where they were. -/
theorem Shape.slot_popped_succ (hs : Shape h) {j : Nat}
    (hj : j < mid.length) :
    (h.popped p mid last).slot (j + 1) = h.slot (j + 1) := by
  have hp0 : h.arr[0]? = some p := by simp [harr]
  have hll : h.arr[mid.length + 1]? = some last := by simp [harr]
  have hold : h.arr[j + 1]? = some mid[j] := by
    rw [harr, List.getElem?_cons_succ, List.getElem?_append_left hj,
      List.getElem?_eq_getElem hj]
  have hnew : (h.popped p mid last).arr[j + 1]? = some mid[j] := by
    simp [Heap.popped, hj]
  have hnp : mid[j].1 ≠ p.1 := fun heq =>
    absurd (hs.index_inj hold hp0 heq) (Nat.succ_ne_zero _)
  have hnl : mid[j].1 ≠ last.1 := fun heq =>
    absurd (hs.index_inj hold hll heq) (by omega)
  rw [Heap.slot, hnew, Heap.slot, hold, Option.bind_some, Option.bind_some,
    hs.handleAt_popped harr, if_neg hnp, if_neg hnl]

theorem Consistent.slot_popped (hc : Consistent n h) {j : Nat}
    (hj : j < (h.popped p mid last).arr.length) :
    (h.popped p mid last).slot j = some ((j : Int) + 1) := by
  cases j with
  | zero => exact hc.toShape.slot_popped_zero harr
  | succ j =>
      have hjm : j < mid.length := Nat.lt_of_succ_lt_succ hj
      have hlen := hc.size
      rw [harr, List.length_cons, List.length_append] at hlen
      rw [hc.toShape.slot_popped_succ harr hjm, hc.slot (j + 1) (by omega)]

theorem Consistent.popped (hc : Consistent n h) :
    Consistent n (h.popped p mid last) := by
  have hs := hc.toShape.popped harr
  have hperm : h.ids.Perm (p.1 :: (h.popped p mid last).ids) :=
    (Heap.perm_popped harr).map Prod.fst
  refine ⟨hs, hc.capacity, (repInv_iff hs hc.capacity).mpr ⟨?_, ?_⟩⟩
  · intro j hj
    exact hc.slot_popped harr (hs.size ▸ hj)
  · intro x h1 hn hx
    rw [hc.toShape.handleAt_popped harr]
    by_cases hxp : x = p.1
    · exact ⟨-1, if_pos hxp, by decide⟩
    · have hxl : x ≠ last.1 := by
        rintro rfl
        exact hx (by simp [Heap.ids, Heap.popped])
      rw [if_neg hxp, if_neg hxl]
      apply hc.absent h1 hn
      intro hmem
      cases List.mem_cons.mp (hperm.mem_iff.mp hmem) with
      | inl heq => exact hxp heq
      | inr hin => exact hx hin

end Popped

/-- **Eliminating one of several contestants** removes the first one. -/
theorem Shape.eliminateWeakest (hs : Shape h) {o : Int} (ho : o ≠ 2)
    (h2 : 2 ≤ h.curSize) :
    ∃ p mid last h', h.arr = p :: (mid ++ [last])
      ∧ (h.popped p mid last).reheapify 0 = some h'
      ∧ Moves (h.popped p mid last) h'
      ∧ h.eliminateWeakest o = some (p, h') := by
  obtain ⟨p, mid, last, harr⟩ := hs.ends h2
  have hpos : 0 < (h.popped p mid last).curSize := by
    show 0 < h.curSize - 1
    omega
  obtain ⟨h', hrun, hm⟩ := Shape.reheapify _ 0 (hs.popped harr) hpos
  refine ⟨p, mid, last, h', harr, hrun, hm, ?_⟩
  rw [hs.eliminateWeakest_eq harr ho, hrun]
  rfl

theorem Consistent.eliminateWeakest (hc : Consistent n h) {o : Int}
    (ho : o ≠ 2) (h2 : 2 ≤ h.curSize) :
    ∃ p mid last h', h.arr = p :: (mid ++ [last])
      ∧ (h.popped p mid last).reheapify 0 = some h'
      ∧ Moves (h.popped p mid last) h'
      ∧ h.eliminateWeakest o = some (p, h') ∧ Consistent n h' := by
  obtain ⟨p, mid, last, h', harr, hrun, hm, helim⟩ :=
    hc.toShape.eliminateWeakest ho h2
  exact ⟨p, mid, last, h', harr, hrun, hm, helim, (hc.popped harr).of_moves hm⟩

theorem Shape.emptied (hs : Shape h) :
    Shape { h with curSize := 0, arr := [] } :=
  ⟨rfl, hs.handles, by simp [Heap.ids], by simp [Heap.ids]⟩

/-- The last contestant goes, and the handles stay as they are. -/
theorem Shape.eliminate_last (hs : Shape h) (h1 : h.curSize = 1) :
    ∃ e, h.arr = [e] ∧ h.eliminateWeakest 0
      = some (e, { h with curSize := 0, arr := [] }) := by
  obtain ⟨e, harr⟩ := List.length_eq_one_iff.mp (hs.size.symm.trans h1)
  exact ⟨e, harr, by simp [Heap.eliminateWeakest, h1, harr]⟩

/-- A turn of the loop of `crownWinner` takes the first contestant away. -/
theorem Consistent.crown_turn (hc : Consistent n h) (h2 : 1 < h.curSize) :
    ∃ p rest h', h.arr = p :: rest ∧ rest ≠ []
      ∧ h.eliminateWeakest 1 = some (p, h') ∧ rest.Perm h'.arr
      ∧ h'.curSize + 1 = h.curSize ∧ Consistent n h' := by
  obtain ⟨p, mid, last, h', harr, _, hm, helim, hc'⟩ :=
    hc.eliminateWeakest (show (1 : Int) ≠ 2 by decide) h2
  have hsize : h'.curSize = h.curSize - 1 := hm.curSize
  refine ⟨p, mid ++ [last], h', harr, by simp, helim, ?_, by omega, hc'⟩
  exact (List.perm_append_singleton last mid).trans hm.perm.symm

theorem Consistent.crownWinner (hc : Consistent n h) :
    ∃ p h', h.crownWinner = some (p, h') ∧ Consistent n h' := by
  obtain ⟨h', hrun, hc', _⟩ := Loop.run_total
    (fun h : Heap => decide (1 < h.curSize))
    (fun h => (h.eliminateWeakest 1).map Prod.snd)
    (Consistent n) Heap.curSize
    (by
      intro h hc hmore
      obtain ⟨p, _, h', _, _, helim, _, hsize, hc'⟩ :=
        hc.crown_turn (of_decide_eq_true hmore)
      exact ⟨h', by rw [helim]; rfl, hc', by omega⟩)
    h.curSize h hc (Nat.le_refl _)
  have hlast : ∃ p, h'.eliminateWeakest 2 = some (p, h') := by
    by_cases h0 : h'.curSize = 0
    · exact ⟨_, by rw [Heap.eliminateWeakest, if_pos h0]⟩
    · obtain ⟨e, he, _⟩ := hc'.get (Nat.pos_of_ne_zero h0)
      exact ⟨e, by simp [Heap.eliminateWeakest, h0, he]⟩
  obtain ⟨p, hp⟩ := hlast
  exact ⟨p, h', by simp [Heap.crownWinner, hrun, hp], hc'⟩

/-! ## Runs -/

/-- The ids of the call are among `1..n`. -/
def Op.InRange (n : Nat) : Op → Prop
  | .insertContestant id _ => 1 ≤ id ∧ id ≤ n
  | .earnPoints id _ => 1 ≤ id ∧ id ≤ n
  | .losePoints id _ => 1 ≤ id ∧ id ≤ n
  | .eliminateWeakest => True
  | .crownWinner => True

def Op.isInsert : Op → Bool
  | .insertContestant _ _ => true
  | _ => false

/-- The call writes no wrong handle: a contestant that is inserted has the
id of the position it is pushed to, and the contestant eliminated is not
the last one. -/
def StepOk (h : Heap) : Op → Prop
  | .insertContestant id _ =>
      h.curSize ≠ h.capacity → h.handleAt id = some 0 →
        id = (h.curSize : Int) + 1
  | .eliminateWeakest => h.curSize ≠ 1
  | _ => True

theorem Consistent.points_step (hc : Consistent n h) (h1 : 1 ≤ id)
    (hn : id ≤ n) (points : Int) (b : Bool) :
    ∃ h', (h.points id points b).map Prod.snd = some h'
      ∧ Consistent n h' ∧ h'.curSize = h.curSize
      ∧ ∀ x, x ∉ h.ids → h'.handleAt x = h.handleAt x := by
  rcases hc.points_cases h1 hn points b with ⟨_, heq⟩ | ⟨i, s, hget, heq⟩
  · exact ⟨h, by rw [heq]; rfl, hc, rfl, fun _ _ => rfl⟩
  · have hc₁ := hc.rescore hget (CInt.wrap (if b then s + points else s - points))
    have hi : i < h.curSize := by
      rw [hc.size]
      exact (List.getElem?_eq_some_iff.mp hget).1
    obtain ⟨h', hrun, hm⟩ := Shape.reheapify _ i hc₁.toShape hi
    refine ⟨h', by rw [heq, hrun]; rfl, hc₁.of_moves hm, hm.curSize, ?_⟩
    intro x hx
    exact hm.absent x (by rw [Heap.ids_rescore hget]; exact hx)

/-- A call that keeps the handles right, and writes no wrong one. -/
theorem Consistent.step_of_keeps {op : Op} (hok : StepOk h op)
    (hkeep : ∃ h', step h op = some h' ∧ Consistent n h') :
    ∃ h', step h op = some h' ∧ Shape h' ∧ h'.capacity = n
      ∧ (RepInv n h' ↔ StepOk h op) := by
  obtain ⟨h', hstep, hc'⟩ := hkeep
  exact ⟨h', hstep, hc'.toShape, hc'.capacity, iff_of_true hc'.rep hok⟩

/-- **An insertion** that is not refused pushes the contestant, whose
handle is then right exactly if its id is its position. -/
theorem Consistent.insert_step (hc : Consistent n h) (h1 : 1 ≤ id)
    (hn : id ≤ n) (score : Int) :
    ∃ h', ExtendedHeap.step h (.insertContestant id score) = some h'
      ∧ Shape h' ∧ h'.capacity = n
      ∧ (RepInv n h' ↔ StepOk h (.insertContestant id score)) := by
  obtain ⟨k, hk⟩ := hc.handleAt' h1 hn
  by_cases hfull : h.curSize = h.capacity
  · refine Consistent.step_of_keeps (fun hne => absurd hfull hne) ⟨h, ?_, hc⟩
    simp [ExtendedHeap.step, Heap.insertContestant, hfull]
  · by_cases h0 : k = 0
    · subst h0
      have hid := hc.not_mem_of_zero h1 hn hk
      have hcap : id ≤ h.capacity := by rw [hc.capacity]; exact hn
      have hs := hc.toShape.push h1 hcap hid score
      obtain ⟨h', hrun, hm⟩ := hs.bubbleUp h.curSize _ (Nat.lt_succ_self _)
      refine ⟨h', ?_, hm.shape hs, hm.capacity.trans hc.capacity, ?_⟩
      · rw [ExtendedHeap.step,
          hc.toShape.insertContestant_eq h1 hcap hfull hk, hrun]
        rfl
      · rw [hm.repInv_iff hs hc.capacity, hc.push_iff h1 hn hid]
        exact ⟨fun heq _ _ => heq, fun hok => hok hfull hk⟩
    · refine Consistent.step_of_keeps (fun _ hzero => absurd ?_ h0)
        ⟨h, ?_, hc⟩
      · exact Option.some.inj (hk.symm.trans hzero)
      · simp [ExtendedHeap.step, Heap.insertContestant, hfull, hk, h0]

/-- **An elimination** leaves a wrong handle exactly if it removes the last
contestant. -/
theorem Consistent.eliminate_step (hc : Consistent n h) :
    ∃ h', ExtendedHeap.step h .eliminateWeakest = some h' ∧ Shape h'
      ∧ h'.capacity = n ∧ (RepInv n h' ↔ StepOk h .eliminateWeakest) := by
  by_cases h1 : h.curSize = 1
  · -- the branch for the last contestant does not touch its handle
    obtain ⟨e, harr, helim⟩ := hc.toShape.eliminate_last h1
    have he : h.arr[0]? = some e := by rw [harr]; rfl
    refine ⟨_, ?_, hc.toShape.emptied, hc.capacity,
      iff_of_false ?_ fun hne => hne h1⟩
    · rw [ExtendedHeap.step, helim]
      rfl
    · intro hrep
      have hr := hc.mem_range he
      have hstored := hc.rep.stored e.1 hr.1 (hc.capacity ▸ hr.2) 0 e.2 he
      have hle := (hrep.located e.1 hr.1 (hc.capacity ▸ hr.2) 1 hstored
        (Int.le_refl 1)).1
      exact absurd hle (by simp)
  · have hok : StepOk h .eliminateWeakest := h1
    apply Consistent.step_of_keeps hok
    by_cases h0 : h.curSize = 0
    · exact ⟨h, by simp [ExtendedHeap.step, Heap.eliminateWeakest, h0], hc⟩
    · obtain ⟨p, _, _, h', _, _, _, helim, hc'⟩ :=
        hc.eliminateWeakest (show (0 : Int) ≠ 2 by decide)
          (show 2 ≤ h.curSize by omega)
      exact ⟨h', by simp [ExtendedHeap.step, helim], hc'⟩

/-- **Step lemma**: a call on a heap with right handles succeeds, and
leaves the handles right exactly if it writes no wrong one. -/
theorem Consistent.step (hc : Consistent n h) {op : Op}
    (hop : op.InRange n) :
    ∃ h', step h op = some h' ∧ Shape h' ∧ h'.capacity = n
      ∧ (RepInv n h' ↔ StepOk h op) := by
  cases op with
  | insertContestant id score => exact hc.insert_step hop.1 hop.2 score
  | earnPoints id point =>
      obtain ⟨h', hstep, hc', _⟩ := hc.points_step hop.1 hop.2 point true
      exact Consistent.step_of_keeps trivial ⟨h', hstep, hc'⟩
  | losePoints id point =>
      obtain ⟨h', hstep, hc', _⟩ := hc.points_step hop.1 hop.2 point false
      exact Consistent.step_of_keeps trivial ⟨h', hstep, hc'⟩
  | eliminateWeakest => exact hc.eliminate_step
  | crownWinner =>
      obtain ⟨p, h', hcrown, hc'⟩ := hc.crownWinner
      exact Consistent.step_of_keeps trivial
        ⟨h', by simp [ExtendedHeap.step, hcrown], hc'⟩

/-- **Run lemma**: the handles stay right while every call writes no wrong
one, or is known to leave them right. -/
theorem run_consistent {n : Nat} {ops : List Op}
    (hops : ∀ op ∈ ops, op.InRange n)
    (hkeep : ∀ pre op, pre ++ [op] <+: ops → ∀ h h', run n pre = some h →
      run n (pre ++ [op]) = some h' → StepOk h op ∨ RepInv n h') :
    ∃ h, run n ops = some h ∧ Consistent n h := by
  induction ops using List.reverseRecOn with
  | nil => exact ⟨Heap.new n, rfl, Consistent.new n⟩
  | append_singleton pre op ih =>
      obtain ⟨h, hrun, hc⟩ := ih
        (fun op' hmem => hops op' (List.mem_append_left _ hmem))
        (fun pre' op' hp => hkeep pre' op' (hp.trans (List.prefix_append _ _)))
      obtain ⟨h', hstep, hs, hcap, hiff⟩ := hc.step (hops op (by simp))
      have hrun' : run n (pre ++ [op]) = some h' := by
        rw [run_append, hrun]
        exact hstep
      refine ⟨h', hrun', hs, hcap, ?_⟩
      rcases hkeep pre op (List.prefix_refl _) h h' hrun hrun' with hok | hrep
      · exact hiff.mpr hok
      · exact hrep

/-- **The handles are right throughout a run exactly if no call of it
writes a wrong one.** -/
theorem handles_right_iff (n : Nat) (ops : List Op)
    (hops : ∀ op ∈ ops, op.InRange n) :
    (∀ pre, pre <+: ops →
        ∃ h, run n pre = some h ∧ RepInv n h ∧ HandleReads n h)
      ↔ ∀ pre op, pre ++ [op] <+: ops → ∀ h, run n pre = some h →
          StepOk h op := by
  have hrange : ∀ {pre : List Op}, pre <+: ops → ∀ op ∈ pre, op.InRange n :=
    fun hp op hmem => hops op (hp.subset hmem)
  constructor
  · intro hrep pre op hp h hrun
    have hpre : pre <+: ops := (List.prefix_append pre [op]).trans hp
    obtain ⟨h₀, hrun₀, hc⟩ := run_consistent (hrange hpre)
      (by
        intro pre' op' hp' _ h' _ hrun'
        obtain ⟨h'', hrun'', hrep', _⟩ := hrep _ (hp'.trans hpre)
        rw [hrun', Option.some.injEq] at hrun''
        exact Or.inr (hrun'' ▸ hrep'))
    rw [hrun, Option.some.injEq] at hrun₀
    subst hrun₀
    obtain ⟨h', hstep, _, _, hiff⟩ := hc.step (hops op (hp.subset (by simp)))
    obtain ⟨h'', hrun', hrep', _⟩ := hrep _ hp
    rw [run_append, hrun, Option.bind_some, hstep, Option.some.injEq] at hrun'
    exact hiff.mp (hrun' ▸ hrep')
  · intro hok pre hp
    obtain ⟨h, hrun, hc⟩ := run_consistent (hrange hp)
      (fun pre' op' hp' h _ hrun _ =>
        Or.inl (hok pre' op' (hp'.trans hp) h hrun))
    exact ⟨h, hrun, hc.rep, hc.reads⟩

theorem handles_right_iff_two :
    (∀ op ∈ [Op.insertContestant 1 5, .insertContestant 2 3],
        op.InRange 2)
      ∧ ((∀ pre, pre <+: [Op.insertContestant 1 5, .insertContestant 2 3] →
          ∃ h, run 2 pre = some h ∧ RepInv 2 h ∧ HandleReads 2 h)
        ↔ ∀ pre op, pre ++ [op]
              <+: [Op.insertContestant 1 5, .insertContestant 2 3] →
            ∀ h, run 2 pre = some h → StepOk h op) :=
  have hops : ∀ op ∈ [Op.insertContestant 1 5, .insertContestant 2 3],
      op.InRange 2 := by
    simp [Op.InRange]
  ⟨hops, handles_right_iff 2 _ hops⟩

/-- Inserting contestant 2 into the empty heap records position 2; and
after the elimination of the only contestant its handle still points to
the first position. -/
theorem handles_wrong :
    (∃ h, run 5 [.insertContestant 2 10] = some h
        ∧ h.arr = [(2, 10)] ∧ h.handleAt 2 = some 2 ∧ ¬ RepInv 5 h)
      ∧ ∃ h, run 5 [.insertContestant 1 10, .eliminateWeakest] = some h
        ∧ h.arr = [] ∧ h.handleAt 1 = some 1 ∧ ¬ RepInv 5 h := by
  constructor
  · refine ⟨⟨[(2, 10)], 5, 1, [0, 2, 0, 0, 0]⟩, by decide +kernel, rfl, rfl, ?_⟩
    intro hrep
    have hle := (hrep.located 2 (by decide) (by decide) 2 rfl (by decide)).1
    exact absurd hle (by decide)
  · refine ⟨⟨[], 5, 0, [1, 0, 0, 0, 0]⟩, by decide +kernel, rfl, rfl, ?_⟩
    intro hrep
    have hle := (hrep.located 1 (by decide) (by decide) 1 rfl (by decide)).1
    exact absurd hle (by decide)

end SchoolStuff.ExtendedHeap
