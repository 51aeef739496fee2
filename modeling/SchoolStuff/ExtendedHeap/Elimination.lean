import SchoolStuff.ExtendedHeap.Filled
import SchoolStuff.ExtendedHeap.Priority

/-!
# ExtendedHeap — which contestant an elimination removes

A run that inserts `1, 2, 3, …` before its first elimination fills the heap
with right handles (`Filling`), then shrinks it (`Ready`) until the last
contestant is gone; from there on the handles are wrong and the array is
empty. While every call keeps the heap order, each elimination removes a
contestant with the least score.
-/

namespace SchoolStuff.ExtendedHeap

open BinaryHeap (Ordered)

/-- Consistent handles and ordered scores. -/
structure Ready (n : Nat) (h : Heap) : Prop extends Consistent n h where
  ordered : Ordered h.key h.curSize

/-- The contestants `1..k` have been inserted, and no other one. -/
structure Filling (n k : Nat) (h : Heap) : Prop extends Ready n h where
  filled : h.curSize = k
  fresh : ∀ id : Int, (k : Int) < id → id ≤ n → h.handleAt id = some 0

variable {n k : Nat} {h : Heap} {id : Int}

theorem Filling.base (hf : Filling n k h) : Filled n k h :=
  ⟨hf.toConsistent, hf.filled, hf.fresh⟩

theorem Filling.new (n : Nat) : Filling n 0 (Heap.new n) :=
  ⟨⟨Consistent.new n, fun _ _ hk => absurd hk (Nat.not_lt_zero _)⟩, rfl,
    (Filled.new n).fresh⟩

/-! ## Steps -/

/-- Inserting the next contestant. -/
theorem Filling.insertContestant (hf : Filling n k h)
    (hn : (k : Int) + 1 ≤ n) (score : Int) :
    ∃ h', step h (.insertContestant ((k : Int) + 1) score) = some h'
      ∧ Filling n (k + 1) h' := by
  obtain ⟨h', hrun, hstep, hf'⟩ := hf.base.insertContestant hn score
  have hcap : (k : Int) + 1 ≤ h.capacity := hf.capacity.symm ▸ hn
  have hpush := hf.toShape.push_sized (show (1 : Int) ≤ (k : Int) + 1 by omega)
    hcap score
  obtain ⟨h'', hrun', _, hord⟩ := hpush.bubbleUp h.curSize _
    (Nat.lt_succ_self _) (hf.toShape.push_ordered hf.ordered _ score)
  rw [hrun, Option.some.injEq] at hrun'
  subst hrun'
  exact ⟨h', hstep, ⟨hf'.toConsistent, hord⟩, hf'.filled, hf'.fresh⟩

/-- A score change that keeps the order moves contestants of the heap
around, and touches no handle but theirs. -/
theorem Ready.points (hr : Ready n h) (h1 : 1 ≤ id) (hn : id ≤ n)
    (points : Int) (b : Bool)
    (hok : ∀ i s, h.arr[i]? = some (id, s) →
      ScoreOk h i (CInt.wrap (if b then s + points else s - points))) :
    ∃ h', (h.points id points b).map Prod.snd = some h' ∧ Ready n h'
      ∧ h'.curSize = h.curSize
      ∧ ∀ x, x ∉ h.ids → h'.handleAt x = h.handleAt x := by
  rcases hr.toConsistent.points_cases h1 hn points b with
    ⟨_, heq⟩ | ⟨i, s, hget, heq⟩
  · exact ⟨h, by rw [heq]; rfl, hr, rfl, fun _ _ => rfl⟩
  · obtain ⟨h', hrun, hm, hc', hiff⟩ :=
      hr.toConsistent.rescore_ordered hr.ordered hget
        (CInt.wrap (if b then s + points else s - points))
    refine ⟨h', by rw [heq, hrun]; rfl, ⟨hc', hiff.mpr (hok i s hget)⟩,
      hm.curSize, ?_⟩
    intro x hx
    exact hm.absent x (by rw [Heap.ids_rescore hget]; exact hx)

theorem Filling.of_points {h' : Heap} (hf : Filling n k h) (hr : Ready n h')
    (hsize : h'.curSize = h.curSize)
    (hkeep : ∀ x, x ∉ h.ids → h'.handleAt x = h.handleAt x) :
    Filling n k h' :=
  ⟨hr, hsize.trans hf.filled,
    (hf.base.of_points hr.toConsistent hsize hkeep).fresh⟩

/-- An elimination from a heap that is not empty. -/
theorem Ready.eliminateWeakest (hr : Ready n h) (hpos : h.curSize ≠ 0) :
    ∃ p h', h.eliminateWeakest 0 = some (p, h')
      ∧ h.arr.Perm (p :: h'.arr) ∧ (∀ e ∈ h.arr, p.2 ≤ e.2)
      ∧ h'.curSize = h'.arr.length
      ∧ (2 ≤ h.curSize → PqStepOk h .eliminateWeakest → Ready n h') := by
  obtain ⟨e, he, _⟩ := hr.get (Nat.pos_of_ne_zero hpos)
  have hmin := hr.toShape.root_minimal hr.ordered he
  by_cases h2 : 2 ≤ h.curSize
  · obtain ⟨p, h', helim, hc', hperm, hiff⟩ :=
      hr.toConsistent.eliminate_ordered hr.ordered h2
    have hp : p = e := by
      simp only [Heap.eliminateWeakest, if_neg hpos, he, Option.bind_eq_bind,
        Option.bind_some] at helim
      rw [if_neg (by decide), if_neg (by omega)] at helim
      simp only [Option.bind_eq_some_iff, Option.some.injEq,
        Prod.mk.injEq] at helim
      obtain ⟨_, _, _, _, _, _, _, _, _, _, hpe, _⟩ := helim
      exact hpe.symm
    exact ⟨p, h', helim, hperm, hp ▸ hmin, hc'.size,
      fun _ hok => ⟨hc', hiff.mpr (hok h2)⟩⟩
  · obtain ⟨e', harr, helim⟩ := hr.toShape.eliminate_last
      (show h.curSize = 1 by omega)
    have hee : e' = e := by simpa [harr] using he
    subst hee
    refine ⟨e', _, helim, ?_, hmin, rfl, fun h2' => absurd h2' h2⟩
    rw [harr]

/-! ## Runs -/

/-- The run has eliminated its last contestant. -/
def Emptied (n : Nat) (ops : List Op) : Prop :=
  ∃ pre h, pre ++ [.eliminateWeakest] <+: ops ∧ run n pre = some h
    ∧ h.curSize = 1

/-- Where a run that keeps the order can be. An insertion into the full
heap is refused, so no more than `n` contestants are in. -/
inductive RunState (n : Nat) (ops : List Op) : Prop
  | filling (h : Heap) (hnot : Op.eliminateWeakest ∉ ops)
      (hrun : run n ops = some h)
      (hf : Filling n (min (ops.countP Op.isInsert) n) h)
  | ready (h : Heap) (hmem : Op.eliminateWeakest ∈ ops)
      (hrun : run n ops = some h) (hr : Ready n h)
  | emptied (hlast : Emptied n ops)
      (hempty : ∀ h, run n ops = some h → h.arr = [] ∧ h.curSize = 0)

theorem Emptied.mem {ops : List Op} (he : Emptied n ops) :
    Op.eliminateWeakest ∈ ops := by
  obtain ⟨pre, _, hp, _⟩ := he
  exact hp.subset (by simp)

theorem Emptied.append {ops : List Op} (he : Emptied n ops) (op : Op) :
    Emptied n (ops ++ [op]) := by
  obtain ⟨pre, h, hp, hrun, h1⟩ := he
  exact ⟨pre, h, hp.trans (List.prefix_append _ _), hrun, h1⟩

/-- An empty heap stays empty when nobody is inserted. -/
theorem step_empty {op : Op} {h' : Heap} (harr : h.arr = [])
    (hsize : h.curSize = 0) (hins : op.isInsert = false)
    (hcrown : op ≠ .crownWinner) (hstep : step h op = some h') :
    h'.arr = [] ∧ h'.curSize = 0 := by
  have hpoints : ∀ {id points : Int} {b : Bool},
      (h.points id points b).map Prod.snd = some h' → h' = h := by
    intro id points b hp
    simp only [Heap.points, Option.bind_eq_bind, Option.map_eq_some_iff,
      Option.bind_eq_some_iff] at hp
    obtain ⟨r, ⟨k, _, hr⟩, rfl⟩ := hp
    split at hr
    · rw [← Option.some.inj hr]
    · split at hr
      · simp [harr] at hr
      · rw [← Option.some.inj hr]
  cases op with
  | insertContestant id score => exact absurd hins (by simp [Op.isInsert])
  | earnPoints id point =>
      rw [hpoints hstep]
      exact ⟨harr, hsize⟩
  | losePoints id point =>
      rw [hpoints hstep]
      exact ⟨harr, hsize⟩
  | eliminateWeakest =>
      simp only [step, Heap.eliminateWeakest, hsize, if_true, Option.map_some,
        Option.some.injEq] at hstep
      exact hstep ▸ ⟨harr, hsize⟩
  | crownWinner => exact absurd rfl hcrown

theorem RunState.emptied_append {pre : List Op} {op : Op}
    (hlast : Emptied n pre)
    (hempty : ∀ h, run n pre = some h → h.arr = [] ∧ h.curSize = 0)
    (hins : op.isInsert = false) (hcrown : op ≠ .crownWinner) :
    RunState n (pre ++ [op]) := by
  apply RunState.emptied (hlast.append op)
  intro h' hrun'
  rw [run_append, Option.bind_eq_some_iff] at hrun'
  obtain ⟨h, hrun, hstep⟩ := hrun'
  obtain ⟨harr, hsize⟩ := hempty h hrun
  exact step_empty harr hsize hins hcrown hstep

theorem RunState.points {pre : List Op} {op : Op} (hst : RunState n pre)
    (hins : op.isInsert = false) (hcrown : op ≠ .crownWinner)
    (helim : op ≠ .eliminateWeakest)
    (hready : ∀ h, run n pre = some h → Ready n h →
      ∃ h', step h op = some h' ∧ Ready n h' ∧ h'.curSize = h.curSize
        ∧ ∀ x, x ∉ h.ids → h'.handleAt x = h.handleAt x) :
    RunState n (pre ++ [op]) := by
  have hcount : (pre ++ [op]).countP Op.isInsert
      = pre.countP Op.isInsert := count_other hins
  cases hst with
  | filling h hnot hrun hf =>
      obtain ⟨h', hstep, hr, hsize, hkeep⟩ := hready h hrun hf.toReady
      refine .filling h' ?_ (by rw [run_append, hrun]; exact hstep) ?_
      · simp [hnot, Ne.symm helim]
      · rw [hcount]
        exact hf.of_points hr hsize hkeep
  | ready h hmem hrun hr =>
      obtain ⟨h', hstep, hr', _⟩ := hready h hrun hr
      exact .ready h' (List.mem_append_left _ hmem)
        (by rw [run_append, hrun]; exact hstep) hr'
  | emptied hlast hempty =>
      exact RunState.emptied_append hlast hempty hins hcrown

theorem RunState.insert {pre : List Op} {id score : Int}
    (hst : RunState n pre) (hnot : Op.eliminateWeakest ∉ pre)
    (hid : id = (pre.countP Op.isInsert : Int) + 1) :
    RunState n (pre ++ [.insertContestant id score]) := by
  have hcount : (pre ++ [Op.insertContestant id score]).countP Op.isInsert
      = pre.countP Op.isInsert + 1 := count_insert id score
  cases hst with
  | filling h _ hrun hf =>
      -- past the capacity the insertion is refused and nothing changes
      by_cases hroom : pre.countP Op.isInsert < n
      · rw [Nat.min_eq_left (Nat.le_of_lt hroom)] at hf
        subst hid
        obtain ⟨h', hs, hf'⟩ := hf.insertContestant (by omega) score
        refine .filling h' (by simp [hnot])
          (by rw [run_append, hrun]; exact hs) ?_
        rw [hcount, Nat.min_eq_left hroom]
        exact hf'
      · rw [Nat.min_eq_right (Nat.le_of_not_lt hroom)] at hf
        refine .filling h (by simp [hnot])
          (by rw [run_append, hrun]; exact hf.base.insert_full score) ?_
        rw [hcount, Nat.min_eq_right (by omega)]
        exact hf
  | ready h hmem _ _ => exact absurd hmem hnot
  | emptied hlast _ => exact absurd hlast.mem hnot

theorem Ready.runState_eliminate {pre : List Op} (hr : Ready n h)
    (hrun : run n pre = some h) (hok : PqStepOk h .eliminateWeakest) :
    RunState n (pre ++ [.eliminateWeakest]) := by
  have hmem : Op.eliminateWeakest ∈ pre ++ [.eliminateWeakest] := by simp
  by_cases h0 : h.curSize = 0
  · refine .ready h hmem ?_ hr
    rw [run_append, hrun]
    simp [step, Heap.eliminateWeakest, h0]
  · obtain ⟨p, h', helim, hperm, _, hsize, hnext⟩ := hr.eliminateWeakest h0
    have hrun' : run n (pre ++ [.eliminateWeakest]) = some h' := by
      rw [run_append, hrun]
      simp [step, helim]
    by_cases h2 : 2 ≤ h.curSize
    · exact .ready h' hmem hrun' (hnext h2 hok)
    · have h1 : h.curSize = 1 := by omega
      refine .emptied ⟨pre, h, List.prefix_refl _, hrun, h1⟩ ?_
      intro h'' hrun''
      rw [hrun', Option.some.injEq] at hrun''
      subst hrun''
      have hlen := hperm.length_eq
      rw [← hr.size, List.length_cons] at hlen
      have hnil : h'.arr.length = 0 := by omega
      exact ⟨List.eq_nil_of_length_eq_zero hnil, hsize.trans hnil⟩

theorem RunState.eliminate {pre : List Op} (hst : RunState n pre)
    (hok : ∀ h, run n pre = some h → PqStepOk h .eliminateWeakest) :
    RunState n (pre ++ [.eliminateWeakest]) := by
  cases hst with
  | filling h _ hrun hf => exact hf.runState_eliminate hrun (hok h hrun)
  | ready h _ hrun hr => exact hr.runState_eliminate hrun (hok h hrun)
  | emptied hlast hempty =>
      exact RunState.emptied_append hlast hempty rfl (by simp)

/-- **Run lemma** of the priority queue. -/
theorem run_state {ops : List Op} (hin : InOrder n ops)
    (hok : ∀ pre op, pre ++ [op] <+: ops → ∀ h, run n pre = some h →
      PqStepOk h op) : RunState n ops := by
  induction ops using List.reverseRecOn with
  | nil =>
      apply RunState.filling (Heap.new n) (by simp) rfl
      rw [List.countP_nil, Nat.zero_min]
      exact Filling.new n
  | append_singleton pre op ih =>
      have hp : pre <+: pre ++ [op] := List.prefix_append _ _
      have hst : RunState n pre := ih (hin.of_prefix hp)
        (fun pre' op' hp' => hok pre' op' (hp'.trans hp))
      have hrange := hin.range op (by simp)
      have hstep := hok pre op (List.prefix_refl _)
      cases op with
      | insertContestant id score =>
          obtain ⟨hnot, hid⟩ := hin.insert pre id score (List.prefix_refl _)
          exact hst.insert hnot hid
      | earnPoints id point =>
          obtain ⟨h1, hn⟩ := hrange rfl
          exact hst.points rfl (by simp) (by simp) fun h hrun hr =>
            hr.points h1 hn point true (hstep h hrun)
      | losePoints id point =>
          obtain ⟨h1, hn⟩ := hrange rfl
          exact hst.points rfl (by simp) (by simp) fun h hrun hr =>
            hr.points h1 hn point false (hstep h hrun)
      | eliminateWeakest => exact hst.eliminate hstep
      | crownWinner => exact absurd (by simp) hin.noCrown

/-- **Eliminations remove a minimum.** In every run that inserts the
contestants in order before the first elimination and whose calls keep the
heap order, each elimination from a heap that is not empty removes and
reports a contestant whose score is minimal; and the run gets stuck only
after the last contestant has been eliminated. -/
theorem eliminateWeakest_minimal (n : Nat) (ops : List Op)
    (hin : InOrder n ops)
    (hok : ∀ pre op, pre ++ [op] <+: ops → ∀ h, run n pre = some h →
      PqStepOk h op) :
    (∀ pre, pre ++ [.eliminateWeakest] <+: ops → ∀ h, run n pre = some h →
        h.curSize ≠ 0 →
        ∃ p h', h.eliminateWeakest 0 = some (p, h')
          ∧ h.arr.Perm (p :: h'.arr) ∧ ∀ e ∈ h.arr, p.2 ≤ e.2)
      ∧ ∀ pre, pre <+: ops → run n pre = none → Emptied n pre := by
  have hstate : ∀ pre, pre <+: ops → RunState n pre := by
    intro pre hp
    apply run_state (hin.of_prefix hp)
    exact fun pre' op hp' => hok pre' op (hp'.trans hp)
  constructor
  · intro pre hp h hrun hpos
    have hout : Ready n h → ∃ p h', h.eliminateWeakest 0 = some (p, h')
        ∧ h.arr.Perm (p :: h'.arr) ∧ ∀ e ∈ h.arr, p.2 ≤ e.2 := by
      intro hr
      obtain ⟨p, h', helim, hperm, hmin, _⟩ := hr.eliminateWeakest hpos
      exact ⟨p, h', helim, hperm, hmin⟩
    cases hstate pre ((List.prefix_append _ _).trans hp) with
    | filling h₀ _ hrun₀ hf =>
        rw [hrun, Option.some.injEq] at hrun₀
        exact hout (hrun₀ ▸ hf.toReady)
    | ready h₀ _ hrun₀ hr =>
        rw [hrun, Option.some.injEq] at hrun₀
        exact hout (hrun₀ ▸ hr)
    | emptied _ hempty => exact absurd (hempty h hrun).2 hpos
  · intro pre hp hnone
    cases hstate pre hp with
    | filling h _ hrun _ => simp [hnone] at hrun
    | ready h _ hrun _ => simp [hnone] at hrun
    | emptied hlast _ => exact hlast

theorem snoc_prefix_cons {α : Type*} {pre l : List α} {a b : α} :
    pre ++ [a] <+: b :: l
      ↔ (pre = [] ∧ a = b) ∨ ∃ pre', pre = b :: pre' ∧ pre' ++ [a] <+: l := by
  cases pre with
  | nil => simp
  | cons x pre => simp [List.cons_prefix_cons, and_comm]

/-- Two contestants, the second with the lower score, and an elimination. -/
def twoIn : List Op :=
  [.insertContestant 1 5, .insertContestant 2 3, .eliminateWeakest]

theorem eliminateWeakest_minimal_two :
    (∀ pre, pre ++ [.eliminateWeakest] <+: twoIn → ∀ h, run 2 pre = some h →
        h.curSize ≠ 0 →
        ∃ p h', h.eliminateWeakest 0 = some (p, h')
          ∧ h.arr.Perm (p :: h'.arr) ∧ ∀ e ∈ h.arr, p.2 ≤ e.2)
      ∧ ∀ pre, pre <+: twoIn → run 2 pre = none → Emptied 2 pre := by
  refine eliminateWeakest_minimal 2 twoIn ⟨?_, by decide, ?_⟩ ?_
  · simp [twoIn, Op.InRange, Op.isInsert]
  · intro pre id score hp
    simp only [twoIn, snoc_prefix_cons] at hp
    rcases hp with ⟨rfl, h⟩ | ⟨_, rfl, ⟨rfl, h⟩ | ⟨_, rfl, ⟨rfl, h⟩ | h⟩⟩
    · simp_all
    · simp_all [Op.isInsert]
    · simp at h
    · simp at h
  · intro pre op hp h hrun
    simp only [twoIn, snoc_prefix_cons] at hp
    rcases hp with ⟨rfl, rfl⟩ | ⟨_, rfl, ⟨rfl, rfl⟩ | ⟨_, rfl, ⟨rfl, rfl⟩ | hp⟩⟩
    · trivial
    · trivial
    · intro _
      have hsize : (run 2 [.insertContestant 1 5, .insertContestant 2 3]).map
          Heap.curSize = some 2 := by
        decide +kernel
      rw [hrun, Option.map_some, Option.some.injEq] at hsize
      rw [hsize]
      refine siftOk_stop ?_ ?_ <;> simp [BinaryHeap.left, BinaryHeap.right]
    · simp at hp

/-- Three contestants, and the last one loses points: its score falls
below the one above it. -/
def lowered : List Op :=
  [.insertContestant 1 10, .insertContestant 2 20, .insertContestant 3 30,
    .losePoints 3 25]

/-- Contestant 1 is eliminated with 10 points while contestant 3 has 5. -/
theorem lowered_not_minimal :
    InOrder 3 (lowered ++ [.eliminateWeakest])
      ∧ ∃ h h', run 3 lowered = some h
        ∧ h.eliminateWeakest 0 = some ((1, 10), h') ∧ (3, 5) ∈ h.arr := by
  refine ⟨⟨?_, by decide, ?_⟩, ?_⟩
  · simp [lowered, Op.InRange, Op.isInsert]
  · intro pre id score hp
    simp only [lowered, List.cons_append, List.nil_append,
      snoc_prefix_cons] at hp
    rcases hp with ⟨rfl, h⟩ | ⟨_, rfl, ⟨rfl, h⟩ | ⟨_, rfl, ⟨rfl, h⟩
      | ⟨_, rfl, ⟨rfl, h⟩ | ⟨_, rfl, ⟨rfl, h⟩ | h⟩⟩⟩⟩
    · simp_all
    · simp_all [Op.isInsert]
    · simp only [Op.insertContestant.injEq] at h
      rw [h.1]
      decide
    · simp at h
    · simp at h
    · simp at h
  · refine ⟨⟨[(1, 10), (2, 20), (3, 5)], 3, 3, [1, 2, 3]⟩,
      ⟨[(3, 5), (2, 20)], 3, 2, [-1, 2, 1]⟩, ?_, ?_, by decide⟩
    · decide +kernel
    · decide +kernel

end SchoolStuff.ExtendedHeap
