import Mathlib.Data.List.Perm.Subperm
import SchoolStuff.ExtendedHeap.Calls

/-!
# ExtendedHeap — who may be inserted

`insertContestant` takes a handle other than zero for a contestant that is
in the heap. A contestant that was eliminated never gets its zero back: it
is left with `-1`, or with its old position where it was the last one. So
the handle is zero for those who never came in, and insertion works for
them only (`Member`).
-/

namespace SchoolStuff.ExtendedHeap

variable {n : Nat} {h h' : Heap} {id : Int} {ops : List Op}

/-! ## Eliminated contestants -/

/-- Some elimination of the run removed the contestant. -/
def Eliminated (n : Nat) (ops : List Op) (id : Int) : Prop :=
  ∃ pre h p h', pre ++ [.eliminateWeakest] <+: ops ∧ run n pre = some h
    ∧ h.curSize ≠ 0 ∧ h.eliminateWeakest 0 = some (p, h') ∧ p.1 = id

theorem not_eliminated_nil (n : Nat) (id : Int) : ¬ Eliminated n [] id := by
  rintro ⟨pre, _, _, _, hp, _⟩
  simp at hp

/-- By one more call. -/
theorem eliminated_snoc (op : Op) :
    Eliminated n (ops ++ [op]) id ↔ Eliminated n ops id
      ∨ (op = .eliminateWeakest ∧ ∃ h p h', run n ops = some h
        ∧ h.curSize ≠ 0 ∧ h.eliminateWeakest 0 = some (p, h') ∧ p.1 = id) := by
  constructor
  · rintro ⟨pre, h, p, h', hp, hrun, hrest⟩
    rcases List.prefix_concat_iff.mp hp with heq | hp
    · obtain ⟨rfl, hop⟩ := List.append_inj' heq rfl
      rw [List.singleton_inj] at hop
      exact Or.inr ⟨hop.symm, h, p, h', hrun, hrest⟩
    · exact Or.inl ⟨pre, h, p, h', hp, hrun, hrest⟩
  · rintro (⟨pre, h, p, h', hp, hrest⟩ | ⟨rfl, h, p, h', hrest⟩)
    · exact ⟨pre, h, p, h', hp.trans (List.prefix_append _ _), hrest⟩
    · exact ⟨ops, h, p, h', List.prefix_refl _, hrest⟩

theorem eliminated_insert (id' score : Int) :
    Eliminated n (ops ++ [.insertContestant id' score]) id
      ↔ Eliminated n ops id := by
  simp [eliminated_snoc]

/-- An elimination from a heap that is not empty removes one more. -/
theorem eliminated_eliminate {p : Int × Int} (hrun : run n ops = some h)
    (hpos : h.curSize ≠ 0) (helim : h.eliminateWeakest 0 = some (p, h')) :
    Eliminated n (ops ++ [.eliminateWeakest]) id
      ↔ id = p.1 ∨ Eliminated n ops id := by
  rw [eliminated_snoc, or_comm]
  apply or_congr_left
  constructor
  · rintro ⟨_, h₀, p₀, h₀', hrun₀, _, helim₀, hid⟩
    rw [hrun, Option.some.injEq] at hrun₀
    subst hrun₀
    rw [helim, Option.some.injEq, Prod.mk.injEq] at helim₀
    rw [← hid, helim₀.1]
  · rintro rfl
    exact ⟨rfl, h, p, h', hrun, hpos, helim, rfl⟩

/-- An elimination from the empty heap removes nobody. -/
theorem eliminated_empty (hrun : run n ops = some h) (h0 : h.curSize = 0) :
    Eliminated n (ops ++ [.eliminateWeakest]) id ↔ Eliminated n ops id := by
  rw [eliminated_snoc, or_iff_left_iff_imp]
  rintro ⟨_, h₀, _, _, hrun₀, hpos, _⟩
  rw [hrun, Option.some.injEq] at hrun₀
  exact absurd (hrun₀ ▸ h0) hpos

/-! ## What the handles say about membership -/

/-- The state after a run of insertions and eliminations: contestants in
the heap have positive handles, the handle of another one is zero exactly
if it was never eliminated. -/
structure Member (n : Nat) (ops : List Op) (h : Heap) : Prop
    extends Shape h where
  capacity : h.capacity = n
  present : ∀ j, j < h.curSize → ∃ k, h.slot j = some k ∧ 1 ≤ k
  absent : ∀ id : Int, 1 ≤ id → id ≤ n → id ∉ h.ids →
    ∃ k, h.handleAt id = some k ∧ (k = 0 ↔ ¬ Eliminated n ops id)
  gone : ∀ id, id ∈ h.ids → ¬ Eliminated n ops id

theorem Member.new (n : Nat) : Member n [] (Heap.new n) := by
  refine ⟨(Consistent.new n).toShape, rfl, ?_, ?_, ?_⟩
  · intro j hj
    exact absurd hj (Nat.not_lt_zero j)
  · intro id h1 hn _
    exact ⟨0, Heap.handleAt_new h1 hn,
      iff_of_true rfl (not_eliminated_nil n id)⟩
  · intro id _
    exact not_eliminated_nil n id

theorem Member.handle_pos (hm : Member n ops h) (hid : id ∈ h.ids) :
    ∃ k, h.handleAt id = some k ∧ 1 ≤ k := by
  obtain ⟨j, s, hget⟩ := Heap.mem_ids.mp hid
  have hj := (List.getElem?_eq_some_iff.mp hget).1
  obtain ⟨k, hk, hpos⟩ := hm.present j (hm.size ▸ hj)
  rw [Heap.slot, hget, Option.bind_some] at hk
  exact ⟨k, hk, hpos⟩

/-- Distinct ids among `1..capacity`: no more than the capacity. -/
theorem Shape.size_le (hs : Shape h) : h.curSize ≤ h.capacity := by
  have hsub : h.ids ⊆ (List.range h.capacity).map fun i : Nat => (i : Int) + 1 := by
    intro id hid
    obtain ⟨h1, hc⟩ := hs.range id hid
    rw [List.mem_map]
    exact ⟨(id - 1).toNat, List.mem_range.mpr (by omega), by omega⟩
  have hle := (List.subperm_of_subset hs.nodup hsub).length_le
  rw [List.length_map, List.length_range, Heap.ids, List.length_map,
    ← hs.size] at hle
  exact hle

/-- There is room for a contestant that is not in the heap. -/
theorem Shape.size_lt (hs : Shape h) (h1 : 1 ≤ id) (hn : id ≤ h.capacity)
    (hid : id ∉ h.ids) : h.curSize < h.capacity :=
  (hs.push h1 hn hid 0).size_le

/-! ## Steps -/

/-- The history matters by who was eliminated in it. -/
theorem Member.congr {ops' : List Op} (hm : Member n ops h)
    (hops : ∀ id, Eliminated n ops' id ↔ Eliminated n ops id) :
    Member n ops' h := by
  refine ⟨hm.toShape, hm.capacity, hm.present, ?_, ?_⟩
  · intro id h1 hn hid
    rw [hops]
    exact hm.absent id h1 hn hid
  · intro id hid
    rw [hops]
    exact hm.gone id hid

theorem Member.push (hm : Member n ops h) (h1 : 1 ≤ id) (hn : id ≤ n)
    (hid : id ∉ h.ids) (hgone : ¬ Eliminated n ops id) (score : Int) :
    Member n ops (h.push id score) := by
  have hcap : id ≤ h.capacity := hm.capacity.symm ▸ hn
  refine ⟨hm.toShape.push h1 hcap hid score, hm.capacity, ?_, ?_, ?_⟩
  · intro j hj
    by_cases hje : j = h.curSize
    · rw [hje, hm.toShape.slot_push_last h1 hcap]
      exact ⟨id, rfl, h1⟩
    · have hj' : j < h.curSize := by
        have : j < h.curSize + 1 := hj
        omega
      rw [hm.toShape.slot_push h1 hcap hid score hj']
      exact hm.present j hj'
  · intro x hx1 hxn hx
    rw [Heap.ids_push, List.mem_append, List.mem_singleton, not_or] at hx
    rw [hm.toShape.handleAt_push h1 hcap, if_neg hx.2]
    exact hm.absent x hx1 hxn hx.1
  · intro x hx
    rw [Heap.ids_push, List.mem_append, List.mem_singleton] at hx
    rcases hx with hx | rfl
    · exact hm.gone x hx
    · exact hgone

theorem Member.of_moves (hm : Member n ops h) (hv : Moves h h') :
    Member n ops h' := by
  refine ⟨hv.shape hm.toShape, hv.capacity.trans hm.capacity, ?_, ?_, ?_⟩
  · intro j hj
    rw [hv.slot]
    exact hm.present j (hv.curSize ▸ hj)
  · intro x hx1 hxn hx
    have hx' : x ∉ h.ids := fun hin => hx (hv.ids.mem_iff.mpr hin)
    rw [hv.absent x hx']
    exact hm.absent x hx1 hxn hx'
  · intro x hx
    exact hm.gone x (hv.ids.mem_iff.mp hx)

/-- **An insertion** lets in who is not in the heap and has never been
eliminated. -/
theorem Member.insertContestant (hm : Member n ops h) (h1 : 1 ≤ id)
    (hn : id ≤ n) (score : Int) :
    ∃ ok h', h.insertContestant id score = some (ok, h')
      ∧ Member n (ops ++ [.insertContestant id score]) h'
      ∧ ((ok = true ↔ h.curSize < n ∧ id ∉ h.ids)
        ↔ ¬ Eliminated n ops id) := by
  have hcap : id ≤ h.capacity := hm.capacity.symm ▸ hn
  have hsame : Member n (ops ++ [.insertContestant id score]) h :=
    hm.congr fun x => eliminated_insert id score
  by_cases hid : id ∈ h.ids
  · obtain ⟨k, hk, hpos⟩ := hm.handle_pos hid
    have hrefused : h.insertContestant id score = some (false, h) := by
      by_cases hfull : h.curSize = h.capacity
      · simp [Heap.insertContestant, hfull]
      · simp [Heap.insertContestant, hfull, hk, show k ≠ 0 by omega]
    refine ⟨false, h, hrefused, hsame, iff_of_true ?_ (hm.gone id hid)⟩
    exact iff_of_false (by simp) fun hin => hin.2 hid
  · have hlt := hm.toShape.size_lt h1 hcap hid
    have hroom : h.curSize < n ∧ id ∉ h.ids := ⟨hm.capacity ▸ hlt, hid⟩
    have hfull : h.curSize ≠ h.capacity := Nat.ne_of_lt hlt
    obtain ⟨k, hk, hzero⟩ := hm.absent id h1 hn hid
    by_cases h0 : k = 0
    · subst h0
      have hgone := hzero.mp rfl
      have hpush := hm.push h1 hn hid hgone score
      obtain ⟨h', hrun, hv⟩ :=
        hpush.toShape.bubbleUp h.curSize _ (Nat.lt_succ_self _)
      refine ⟨true, h', ?_, ?_, iff_of_true (iff_of_true rfl hroom) hgone⟩
      · rw [hm.toShape.insertContestant_eq h1 hcap hfull hk, hrun]
        rfl
      · exact (hpush.of_moves hv).congr fun x => eliminated_insert id score
    · -- the handle of an eliminated contestant
      have hrefused : h.insertContestant id score = some (false, h) := by
        simp [Heap.insertContestant, hfull, hk, h0]
      refine ⟨false, h, hrefused, hsame, iff_of_false ?_ (mt hzero.mpr h0)⟩
      intro hlaw
      exact absurd (hlaw.mpr hroom) (by simp)

/-- What is left when contestant `p` is gone, and its handle not zero. -/
theorem Member.removed {p : Int × Int} (hm : Member n ops h)
    (hrun : run n ops = some h) (hpos : h.curSize ≠ 0)
    (helim : h.eliminateWeakest 0 = some (p, h')) (hs : Shape h')
    (hcap : h'.capacity = n) (hperm : h.ids.Perm (p.1 :: h'.ids))
    (hpresent : ∀ j, j < h'.curSize → ∃ k, h'.slot j = some k ∧ 1 ≤ k)
    (hp : ∃ k, h'.handleAt p.1 = some k ∧ k ≠ 0)
    (hother : ∀ x, x ∉ h.ids → h'.handleAt x = h.handleAt x) :
    Member n (ops ++ [.eliminateWeakest]) h' := by
  refine ⟨hs, hcap, hpresent, ?_, ?_⟩
  · intro x h1 hn hx
    rw [eliminated_eliminate hrun hpos helim]
    by_cases hxp : x = p.1
    · obtain ⟨k, hk, hne⟩ := hp
      exact ⟨k, hxp ▸ hk, iff_of_false hne fun hnot => hnot (Or.inl hxp)⟩
    · have hold : x ∉ h.ids := by
        rw [hperm.mem_iff, List.mem_cons]
        exact not_or.mpr ⟨hxp, hx⟩
      obtain ⟨k, hk, hzero⟩ := hm.absent x h1 hn hold
      refine ⟨k, (hother x hold).trans hk, hzero.trans (not_congr ?_)⟩
      exact (or_iff_right hxp).symm
  · intro x hx
    rw [eliminated_eliminate hrun hpos helim, not_or]
    have hnodup := hperm.nodup_iff.mp hm.nodup
    exact ⟨fun heq => (List.nodup_cons.mp hnodup).1 (heq ▸ hx),
      hm.gone x (hperm.mem_iff.mpr (List.mem_cons_of_mem _ hx))⟩

/-- The last contestant goes and keeps its handle. -/
theorem Member.eliminate_last (hm : Member n ops h)
    (hrun : run n ops = some h) (h1 : h.curSize = 1) :
    ∃ h', step h .eliminateWeakest = some h'
      ∧ Member n (ops ++ [.eliminateWeakest]) h' := by
  obtain ⟨e, harr, helim⟩ := hm.toShape.eliminate_last h1
  have hmem : e.1 ∈ h.ids := by simp [Heap.ids, harr]
  obtain ⟨k, hk, hpos⟩ := hm.handle_pos hmem
  refine ⟨_, by rw [step, helim]; rfl, ?_⟩
  apply hm.removed hrun (by omega) helim hm.toShape.emptied hm.capacity
  · simp [Heap.ids, harr]
  · intro j hj
    exact absurd hj (Nat.not_lt_zero j)
  · exact ⟨k, hk, by omega⟩
  · intro x _
    rfl

/-- One of several contestants goes and gets the handle `-1`. -/
theorem Member.eliminate_several (hm : Member n ops h)
    (hrun : run n ops = some h) (h2 : 2 ≤ h.curSize) :
    ∃ h', step h .eliminateWeakest = some h'
      ∧ Member n (ops ++ [.eliminateWeakest]) h' := by
  obtain ⟨p, mid, last, h', harr, _, hv, helim⟩ :=
    hm.toShape.eliminateWeakest (show (0 : Int) ≠ 2 by decide) h2
  have hs := hm.toShape.popped harr
  have hperm : h.ids.Perm (p.1 :: (h.popped p mid last).ids) :=
    (Heap.perm_popped harr).map Prod.fst
  have hnot : ∀ x, x ∉ (h.popped p mid last).ids →
      h'.handleAt x = (h.popped p mid last).handleAt x := hv.absent
  have hp : p.1 ∉ (h.popped p mid last).ids :=
    (List.nodup_cons.mp (hperm.nodup_iff.mp hm.nodup)).1
  refine ⟨h', by rw [step, helim]; rfl, ?_⟩
  apply hm.removed hrun (by omega) helim (hv.shape hs)
    (hv.capacity.trans hm.capacity) (hperm.trans (hv.ids.symm.cons p.1))
  · intro j hj
    rw [hv.slot]
    cases j with
    | zero => exact ⟨1, hm.toShape.slot_popped_zero harr, Int.le_refl 1⟩
    | succ j =>
        have hsize : h'.curSize = h.curSize - 1 := hv.curSize
        have hlen := hm.size
        rw [harr, List.length_cons, List.length_append,
          List.length_singleton] at hlen
        rw [hm.toShape.slot_popped_succ harr (by omega)]
        exact hm.present (j + 1) (by omega)
  · refine ⟨-1, ?_, by decide⟩
    rw [hnot _ hp, hm.toShape.handleAt_popped harr, if_pos rfl]
  · intro x hx
    have hx' : x ≠ p.1 ∧ x ∉ (h.popped p mid last).ids := by
      rw [hperm.mem_iff, List.mem_cons, not_or] at hx
      exact hx
    have hlast : x ≠ last.1 := by
      rintro rfl
      exact hx'.2 (by simp [Heap.ids, Heap.popped])
    rw [hnot x hx'.2, hm.toShape.handleAt_popped harr, if_neg hx'.1,
      if_neg hlast]

/-- **An elimination** marks the contestant it removes for ever. -/
theorem Member.eliminate (hm : Member n ops h) (hrun : run n ops = some h) :
    ∃ h', step h .eliminateWeakest = some h'
      ∧ Member n (ops ++ [.eliminateWeakest]) h' := by
  rcases Nat.lt_or_ge h.curSize 2 with hfew | h2
  · by_cases h0 : h.curSize = 0
    · refine ⟨h, by simp [step, Heap.eliminateWeakest, h0], ?_⟩
      exact hm.congr fun x => eliminated_empty hrun h0
    · exact hm.eliminate_last hrun (by omega)
  · exact hm.eliminate_several hrun h2

/-! ## Runs -/

/-- An insertion of a contestant among `1..n`, or an elimination. -/
def Op.InOrOut (n : Nat) (op : Op) : Prop :=
  op.InRange n ∧ (op.isInsert = true ∨ op = .eliminateWeakest)

/-- **Run lemma.** -/
theorem run_member (hops : ∀ op ∈ ops, op.InOrOut n) :
    ∃ h, run n ops = some h ∧ Member n ops h := by
  induction ops using List.reverseRecOn with
  | nil => exact ⟨Heap.new n, rfl, Member.new n⟩
  | append_singleton ops op ih =>
      obtain ⟨h, hrun, hm⟩ :=
        ih fun op' hmem => hops op' (List.mem_append_left _ hmem)
      obtain ⟨hrange, hkind⟩ := hops op (by simp)
      cases op with
      | insertContestant id score =>
          obtain ⟨ok, h', hins, hm', _⟩ :=
            hm.insertContestant hrange.1 hrange.2 score
          exact ⟨h', by simp [run_append, hrun, step, hins], hm'⟩
      | eliminateWeakest =>
          obtain ⟨h', hstep, hm'⟩ := hm.eliminate hrun
          exact ⟨h', by simp [run_append, hrun, hstep], hm'⟩
      | earnPoints id point => simp [Op.isInsert] at hkind
      | losePoints id point => simp [Op.isInsert] at hkind
      | crownWinner => simp [Op.isInsert] at hkind

/-- **The membership law**, that who is not in the heap may be inserted,
holds throughout a run exactly if the run never inserts a contestant that
it has eliminated. -/
theorem membership_law_iff (n : Nat) (ops : List Op)
    (hops : ∀ op ∈ ops, op.InOrOut n) :
    (∀ pre id score, pre ++ [.insertContestant id score] <+: ops →
        ∃ h ok h', run n pre = some h
          ∧ h.insertContestant id score = some (ok, h')
          ∧ (ok = true ↔ h.curSize < n ∧ id ∉ h.ids))
      ↔ ∀ pre id score, pre ++ [.insertContestant id score] <+: ops →
          ¬ Eliminated n pre id := by
  have hcall : ∀ pre id score, pre ++ [.insertContestant id score] <+: ops →
      ∃ h ok h', run n pre = some h
        ∧ h.insertContestant id score = some (ok, h')
        ∧ ((ok = true ↔ h.curSize < n ∧ id ∉ h.ids)
          ↔ ¬ Eliminated n pre id) := by
    intro pre id score hp
    have hpre : ∀ op ∈ pre, op.InOrOut n := fun op hmem =>
      hops op (hp.subset (List.mem_append_left _ hmem))
    obtain ⟨h, hrun, hm⟩ := run_member hpre
    obtain ⟨⟨h1, hn⟩, _⟩ : Op.InOrOut n (.insertContestant id score) :=
      hops _ (hp.subset (by simp))
    obtain ⟨ok, h', hins, _, hiff⟩ := hm.insertContestant h1 hn score
    exact ⟨h, ok, h', hrun, hins, hiff⟩
  constructor
  · intro hlaw pre id score hp
    obtain ⟨h, ok, h', hrun, hins, hiff⟩ := hcall pre id score hp
    obtain ⟨h₁, ok₁, h₁', hrun₁, hins₁, hlaw₁⟩ := hlaw pre id score hp
    rw [hrun, Option.some.injEq] at hrun₁
    subst hrun₁
    rw [hins, Option.some.injEq, Prod.mk.injEq] at hins₁
    rw [← hins₁.1] at hlaw₁
    exact hiff.mp hlaw₁
  · intro hnever pre id score hp
    obtain ⟨h, ok, h', hrun, hins, hiff⟩ := hcall pre id score hp
    exact ⟨h, ok, h', hrun, hins, hiff.mpr (hnever pre id score hp)⟩

theorem membership_law_iff_two :
    (∀ pre id score, pre ++ [.insertContestant id score]
          <+: [.insertContestant 2 5, .eliminateWeakest] →
        ∃ h ok h', run 2 pre = some h
          ∧ h.insertContestant id score = some (ok, h')
          ∧ (ok = true ↔ h.curSize < 2 ∧ id ∉ h.ids))
      ↔ ∀ pre id score, pre ++ [.insertContestant id score]
            <+: [.insertContestant 2 5, .eliminateWeakest] →
          ¬ Eliminated 2 pre id :=
  membership_law_iff 2 [.insertContestant 2 5, .eliminateWeakest] (by
    simp [Op.InOrOut, Op.InRange, Op.isInsert])

/-- Contestant 1 came in, was eliminated, and may not come in again: the
heap is empty and says that the contestant is in it. -/
theorem eliminated_stays_out :
    ∃ h, run 1 [.insertContestant 1 5, .eliminateWeakest] = some h
      ∧ h.arr = [] ∧ h.curSize = 0
      ∧ h.insertContestant 1 7 = some (false, h) := by
  refine ⟨⟨[], 1, 0, [1]⟩, by decide +kernel, rfl, rfl, by decide +kernel⟩

end SchoolStuff.ExtendedHeap
