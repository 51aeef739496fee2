import SchoolStuff.ExtendedHeap.Calls

/-!
# ExtendedHeap — filling the heap in order

Contestants that come in as `1, 2, 3, …` get the position of their id, so
their handles are right, and stay right while scores change: before the
first elimination the heap holds the contestants `1..k` and every handle is
right (`Filled`), whatever the order of the scores.
-/

namespace SchoolStuff.ExtendedHeap

/-- The contestants `1..k` have been inserted, no other one, and the
handles are right. -/
structure Filled (n k : Nat) (h : Heap) : Prop extends Consistent n h where
  filled : h.curSize = k
  fresh : ∀ id : Int, (k : Int) < id → id ≤ n → h.handleAt id = some 0

variable {n k : Nat} {h h' : Heap} {id : Int}

theorem Filled.not_mem (hf : Filled n k h) (hk : (k : Int) < id)
    (hn : id ≤ n) : id ∉ h.ids :=
  hf.toConsistent.not_mem_of_zero (by omega) hn (hf.fresh id hk hn)

theorem Filled.new (n : Nat) : Filled n 0 (Heap.new n) := by
  refine ⟨Consistent.new n, rfl, ?_⟩
  intro id hpos hn
  have h1 : 1 ≤ id := hpos
  exact Heap.handleAt_new h1 hn

/-- Inserting the next contestant. -/
theorem Filled.insertContestant (hf : Filled n k h)
    (hn : (k : Int) + 1 ≤ n) (score : Int) :
    ∃ h', (h.push ((k : Int) + 1) score).bubbleUp h.curSize = some h'
      ∧ step h (.insertContestant ((k : Int) + 1) score) = some h'
      ∧ Filled n (k + 1) h' := by
  have hcap := hf.capacity
  have hsize := hf.filled
  have h1 : (1 : Int) ≤ (k : Int) + 1 := by omega
  have hn' : (k : Int) + 1 ≤ h.capacity := by omega
  have hid := hf.not_mem (show (k : Int) < (k : Int) + 1 by omega) hn
  have hs := hf.toShape.push h1 hn' hid score
  obtain ⟨h', hrun, hm⟩ := hs.bubbleUp h.curSize _ (Nat.lt_succ_self _)
  have hrep : RepInv n (h.push ((k : Int) + 1) score) :=
    (hf.toConsistent.push_iff h1 hn hid score).mpr (by rw [hsize])
  refine ⟨h', hrun, ?_, ⟨⟨hm.shape hs, hm.capacity.trans hcap,
    (hm.repInv_iff hs hcap).mpr hrep⟩, ?_, ?_⟩⟩
  · rw [step, hf.toShape.insertContestant_eq h1 hn' (by omega)
      (hf.fresh _ (by omega) hn), hrun]
    rfl
  · rw [hm.curSize]
    exact congrArg (· + 1) hsize
  · intro x hx hxn
    have hx' : (k : Int) + 1 < x := by
      have : ((k + 1 : Nat) : Int) < x := hx
      omega
    have hnot : x ∉ (h.push ((k : Int) + 1) score).ids := by
      rw [Heap.ids_push, List.mem_append, List.mem_singleton, not_or]
      exact ⟨hf.not_mem (by omega) hxn, by omega⟩
    rw [hm.absent x hnot, hf.toShape.handleAt_push h1 hn',
      if_neg (by omega)]
    exact hf.fresh x (by omega) hxn

/-- A full heap refuses every insertion. -/
theorem Filled.insert_full (hf : Filled n n h) (score : Int) :
    step h (.insertContestant id score) = some h := by
  have hfull : h.curSize = h.capacity := hf.filled.trans hf.capacity.symm
  simp [step, Heap.insertContestant, hfull]

/-- Contestants that are moved around, with no other handle touched. -/
theorem Filled.of_points (hf : Filled n k h) (hc : Consistent n h')
    (hsize : h'.curSize = h.curSize)
    (hkeep : ∀ x, x ∉ h.ids → h'.handleAt x = h.handleAt x) :
    Filled n k h' := by
  refine ⟨hc, hsize.trans hf.filled, ?_⟩
  intro x hx hxn
  rw [hkeep x (hf.not_mem hx hxn)]
  exact hf.fresh x hx hxn

/-! ## Runs -/

/-- The calls of the run: contestants inserted in the order `1, 2, 3, …`
before any elimination, points for contestants among `1..n`, and no
`crownWinner`. -/
structure InOrder (n : Nat) (ops : List Op) : Prop where
  range : ∀ op ∈ ops, op.isInsert = false → op.InRange n
  noCrown : Op.crownWinner ∉ ops
  insert : ∀ pre id score, pre ++ [.insertContestant id score] <+: ops →
    Op.eliminateWeakest ∉ pre ∧ id = (pre.countP Op.isInsert : Int) + 1

theorem InOrder.of_prefix {pre ops : List Op} (hin : InOrder n ops)
    (hp : pre <+: ops) : InOrder n pre where
  range op hm := hin.range op (hp.subset hm)
  noCrown hm := hin.noCrown (hp.subset hm)
  insert pre' id score hp' := hin.insert pre' id score (hp'.trans hp)

/-- The number of contestants that an insertion in order leaves. -/
theorem count_insert {ops : List Op} (id score : Int) :
    (ops ++ [Op.insertContestant id score]).countP Op.isInsert
      = ops.countP Op.isInsert + 1 := by
  simp [List.countP_append, Op.isInsert]

theorem count_other {ops : List Op} {op : Op} (hop : op.isInsert = false) :
    (ops ++ [op]).countP Op.isInsert = ops.countP Op.isInsert := by
  simp [List.countP_append, hop]

/-- An insertion in order into a heap that is filled so far. -/
theorem Filled.insert {c : Nat} (hf : Filled n (min c n) h) (score : Int) :
    ∃ h', step h (.insertContestant ((c : Int) + 1) score) = some h'
      ∧ Filled n (min (c + 1) n) h' := by
  by_cases hroom : c < n
  · rw [Nat.min_eq_left (Nat.le_of_lt hroom)] at hf
    rw [Nat.min_eq_left hroom]
    obtain ⟨h', _, hs, hf'⟩ := hf.insertContestant (by omega) score
    exact ⟨h', hs, hf'⟩
  · -- past the capacity the insertion is refused and nothing changes
    rw [Nat.min_eq_right (Nat.le_of_not_lt hroom)] at hf
    rw [Nat.min_eq_right (by omega)]
    exact ⟨h, hf.insert_full score, hf⟩

/-- **Run lemma**: before the first elimination the heap is filled. -/
theorem run_filled {ops : List Op} (hin : InOrder n ops)
    (hno : Op.eliminateWeakest ∉ ops) :
    ∃ h, run n ops = some h ∧ Filled n (min (ops.countP Op.isInsert) n) h := by
  induction ops using List.reverseRecOn with
  | nil =>
      refine ⟨Heap.new n, rfl, ?_⟩
      rw [List.countP_nil, Nat.zero_min]
      exact Filled.new n
  | append_singleton pre op ih =>
      have hp : pre <+: pre ++ [op] := List.prefix_append _ _
      obtain ⟨h, hrun, hf⟩ := ih (hin.of_prefix hp)
        fun hmem => hno (List.mem_append_left _ hmem)
      have hrange := hin.range op (by simp)
      have hpoints : ∀ {id points : Int} {b : Bool}, 1 ≤ id → id ≤ n →
          ∃ h', (h.points id points b).map Prod.snd = some h'
            ∧ Filled n (min (pre.countP Op.isInsert) n) h' := by
        intro id points b h1 hn
        obtain ⟨h', hstep, hc, hsize, hkeep⟩ :=
          hf.toConsistent.points_step h1 hn points b
        exact ⟨h', hstep, hf.of_points hc hsize hkeep⟩
      rw [run_append, hrun, Option.bind_some]
      cases op with
      | insertContestant id score =>
          obtain ⟨_, hid⟩ := hin.insert pre id score (List.prefix_refl _)
          rw [hid, count_insert]
          exact hf.insert score
      | earnPoints id point =>
          rw [count_other rfl]
          exact hpoints (hrange rfl).1 (hrange rfl).2
      | losePoints id point =>
          rw [count_other rfl]
          exact hpoints (hrange rfl).1 (hrange rfl).2
      | eliminateWeakest => exact absurd (by simp) hno
      | crownWinner => exact absurd (by simp) hin.noCrown

end SchoolStuff.ExtendedHeap
