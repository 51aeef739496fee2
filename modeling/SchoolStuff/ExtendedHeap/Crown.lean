import Mathlib.Data.List.Perm.Subperm
import SchoolStuff.ExtendedHeap.Elimination

/-!
# ExtendedHeap — the winner

`crownWinner` announces the contestant that is left when all others have
been eliminated. Every contestant is then matched by one with no lower
score, unless the loop removed a contestant above all that were left; and
that does not happen while the scores stay in heap order.
-/

namespace SchoolStuff.ExtendedHeap

variable {n : Nat} {h h₁ h₂ : Heap}

/-! ## The loop -/

/-- The heaps at the top of an iteration of the loop of `crownWinner`. -/
def CrownTops : Heap → Heap → Prop :=
  Loop.Tops (fun h : Heap => decide (1 < h.curSize))
    (fun h => (h.eliminateWeakest 1).map Prod.snd)

/-- The first contestant is not above all the others. -/
def Covered (h : Heap) : Prop :=
  ∃ p rest, h.arr = p :: rest ∧ ∃ e ∈ rest, p.2 ≤ e.2

/-- No turn of the loop removes a contestant above all that are left. -/
def CrownOk (h : Heap) : Prop :=
  ∀ h₁, CrownTops h h₁ → 1 < h₁.curSize → Covered h₁

/-- No turn of the loop sifts down with a wrong turn. -/
def CrownSteps (h : Heap) : Prop :=
  ∀ h₁, CrownTops h h₁ → PqStepOk h₁ .eliminateWeakest

/-- `o` only decides what is printed, and whether it is the winner. -/
theorem Heap.eliminateWeakest_one (h : Heap) :
    h.eliminateWeakest 1 = h.eliminateWeakest 0 := by
  simp [Heap.eliminateWeakest]

/-- A turn, read off the loop. -/
theorem Consistent.of_turn (hc : Consistent n h₁)
    (hmore : decide (1 < h₁.curSize) = true)
    (hturn : (h₁.eliminateWeakest 1).map Prod.snd = some h₂) :
    ∃ p rest, h₁.arr = p :: rest ∧ rest.Perm h₂.arr ∧ Consistent n h₂ := by
  obtain ⟨p, rest, h', harr, _, helim, hperm, _, hc'⟩ :=
    hc.crown_turn (of_decide_eq_true hmore)
  rw [helim, Option.map_some, Option.some.injEq] at hturn
  subst hturn
  exact ⟨p, rest, harr, hperm, hc'⟩

theorem Consistent.of_tops (hc : Consistent n h) (ht : CrownTops h h₁) :
    Consistent n h₁ := by
  induction ht with
  | entry => exact hc
  | turn _ hmore hturn ih =>
      obtain ⟨_, _, _, _, hc'⟩ := ih.of_turn hmore hturn
      exact hc'

theorem Consistent.tops_subperm (hc : Consistent n h) (ht : CrownTops h h₁) :
    h₁.arr.Subperm h.arr := by
  induction ht with
  | entry => exact List.Subperm.refl _
  | turn ht hmore hturn ih =>
      obtain ⟨p, rest, harr, hperm, _⟩ := (hc.of_tops ht).of_turn hmore hturn
      rw [harr] at ih
      exact hperm.symm.subperm.trans
        ((List.sublist_cons_self p rest).subperm.trans ih)

/-- While no turn removes a contestant above all that are left, every
contestant is matched by one that is left. -/
theorem Consistent.tops_above (hc : Consistent n h) (hok : CrownOk h)
    (ht : CrownTops h h₁) : ∀ e ∈ h.arr, ∃ e' ∈ h₁.arr, e.2 ≤ e'.2 := by
  induction ht with
  | entry => exact fun e he => ⟨e, he, Int.le_refl e.2⟩
  | turn ht hmore hturn ih =>
      obtain ⟨p, rest, harr, hperm, _⟩ := (hc.of_tops ht).of_turn hmore hturn
      obtain ⟨q, rest', harr', d, hd, hqd⟩ :=
        hok _ ht (of_decide_eq_true hmore)
      rw [harr, List.cons.injEq] at harr'
      obtain ⟨rfl, rfl⟩ := harr'
      intro e he
      obtain ⟨e', he', hle⟩ := ih e he
      rw [harr] at he'
      cases List.mem_cons.mp he' with
      | inl heq =>
          -- the one that goes hands over to the one it is covered by
          subst heq
          exact ⟨d, hperm.mem_iff.mp hd, Int.le_trans hle hqd⟩
      | inr hin => exact ⟨e', hperm.mem_iff.mp hin, hle⟩

/-- The loop ends with one contestant, in a heap that each of its turns
leads to. -/
theorem Consistent.crown_ends (hc : Consistent n h) (hpos : h.curSize ≠ 0) :
    ∃ p h', h.crownWinner = some (p, h') ∧ h'.arr = [p] ∧ CrownTops h h'
      ∧ ∀ h₁, CrownTops h h₁ → CrownTops h₁ h' := by
  obtain ⟨h', hrun, htops, ⟨hc', hpos'⟩, hexit⟩ := Loop.run_ends
    (fun h : Heap => decide (1 < h.curSize))
    (fun h => (h.eliminateWeakest 1).map Prod.snd)
    (fun h => Consistent n h ∧ h.curSize ≠ 0) Heap.curSize
    (by
      rintro h ⟨hc, _⟩ hmore
      have hmore := of_decide_eq_true hmore
      obtain ⟨p, _, h', _, _, helim, _, hsize, hc'⟩ := hc.crown_turn hmore
      exact ⟨h', by rw [helim]; rfl, ⟨hc', by omega⟩, by omega⟩)
    ⟨hc, hpos⟩ (Nat.le_refl h.curSize)
  have hone : h'.curSize = 1 := by
    have := of_decide_eq_false hexit
    omega
  obtain ⟨p, harr⟩ := List.length_eq_one_iff.mp (hc'.size.symm.trans hone)
  have hrun := hrun h.curSize (Nat.le_refl _)
  have hwin : h'.eliminateWeakest 2 = some (p, h') := by
    simp [Heap.eliminateWeakest, hone, harr]
  refine ⟨p, h', ?_, harr, htops, ?_⟩
  · simp [Heap.crownWinner, hrun, hwin]
  · intro h₁ ht
    obtain ⟨fuel, hrun₁⟩ := Loop.run_from_top ht hrun
    exact Loop.tops_of_run Loop.Tops.entry hrun₁

/-- **The winner has the greatest score** exactly if no turn of the loop
removes a contestant above all that are left. -/
theorem Consistent.crown_iff (hc : Consistent n h) (hpos : h.curSize ≠ 0) :
    ∃ p h', h.crownWinner = some (p, h') ∧ p ∈ h.arr
      ∧ ((∀ e ∈ h.arr, e.2 ≤ p.2) ↔ CrownOk h) := by
  obtain ⟨p, h', hcrown, harr', htops, hlead⟩ := hc.crown_ends hpos
  have hp : p ∈ h'.arr := by simp [harr']
  refine ⟨p, h', hcrown, (hc.tops_subperm htops).subset hp, ?_, ?_⟩
  · intro hmax h₁ ht hmore
    have hc₁ := hc.of_tops ht
    obtain ⟨q, rest, h₂, harr, _, helim, hperm, _, hc₂⟩ := hc₁.crown_turn hmore
    have hturn : (h₁.eliminateWeakest 1).map Prod.snd = some h₂ := by
      rw [helim]
      rfl
    have htops₂ := hlead h₂ (ht.turn (decide_eq_true hmore) hturn)
    have hrest : p ∈ rest :=
      hperm.mem_iff.mpr ((hc₂.tops_subperm htops₂).subset hp)
    have hq : q ∈ h.arr := (hc.tops_subperm ht).subset (by simp [harr])
    exact ⟨q, rest, harr, p, hrest, hmax q hq⟩
  · intro hok e he
    obtain ⟨e', he', hle⟩ := hc.tops_above hok htops e he
    rw [harr', List.mem_singleton] at he'
    exact he' ▸ hle

/-! ## Ordered heaps -/

/-- The heap order lasts while no turn sifts down wrongly. -/
theorem Ready.of_tops (hr : Ready n h) (hsteps : CrownSteps h)
    (ht : CrownTops h h₁) : Ready n h₁ := by
  induction ht with
  | entry => exact hr
  | turn ht hmore hturn ih =>
      have hmore := of_decide_eq_true hmore
      obtain ⟨p, h', helim, _, _, _, hnext⟩ :=
        ih.eliminateWeakest (show _ ≠ 0 by omega)
      rw [Heap.eliminateWeakest_one, helim, Option.map_some,
        Option.some.injEq] at hturn
      exact hturn ▸ hnext hmore (hsteps _ ht)

theorem Ready.covered (hr : Ready n h) (hmore : 1 < h.curSize) :
    Covered h := by
  obtain ⟨p, rest, _, harr, hne, _⟩ := hr.toConsistent.crown_turn hmore
  have hmin := hr.toShape.root_minimal hr.ordered (p := p) (by simp [harr])
  obtain ⟨e, he⟩ := List.exists_mem_of_ne_nil rest hne
  exact ⟨p, rest, harr, e, he, hmin e (by simp [harr, he])⟩

theorem Ready.crownOk (hr : Ready n h) (hsteps : CrownSteps h) :
    CrownOk h :=
  fun _ ht hmore => (hr.of_tops hsteps ht).covered hmore

/-- With at most two contestants the one that is left has no child. -/
theorem Consistent.crownSteps_of_two (hc : Consistent n h)
    (h2 : h.curSize ≤ 2) : CrownSteps h := by
  intro h₁ ht _
  have hlen := (hc.tops_subperm ht).length_le
  rw [← hc.size, ← (hc.of_tops ht).size] at hlen
  have hnot : ∀ c, 0 < c → ¬ c < h₁.curSize - 1 := fun c hpos => by omega
  exact siftOk_stop (fun hr => hnot _ (by decide) hr.1)
    (fun hl => hnot _ (by decide) hl.1)

/-! ## Runs -/

/-- **The winner of a run.** After contestants have come in in order and
points have been earned and lost, `crownWinner` ends and announces a
contestant of the heap. Its score is the greatest exactly if no turn of
the loop removes a contestant above all that are left, as it is when no
call of the run and no turn of the loop breaks the heap order. -/
theorem crownWinner_maximal (n : Nat) (ops : List Op) (hin : InOrder n ops)
    (hno : Op.eliminateWeakest ∉ ops) :
    ∃ h, run n ops = some h ∧ (h.curSize ≠ 0 →
      ∃ p h', h.crownWinner = some (p, h') ∧ p ∈ h.arr
        ∧ ((∀ e ∈ h.arr, e.2 ≤ p.2) ↔ CrownOk h)
        ∧ ((∀ pre op, pre ++ [op] <+: ops → ∀ h₀, run n pre = some h₀ →
            PqStepOk h₀ op) → CrownSteps h → ∀ e ∈ h.arr, e.2 ≤ p.2)) := by
  obtain ⟨h, hrun, hf⟩ := run_filled hin hno
  refine ⟨h, hrun, fun hpos => ?_⟩
  obtain ⟨p, h', hcrown, hp, hiff⟩ := hf.toConsistent.crown_iff hpos
  refine ⟨p, h', hcrown, hp, hiff, fun hok hsteps => hiff.mpr ?_⟩
  cases run_state hin hok with
  | filling h₀ _ hrun₀ hf₀ =>
      rw [hrun, Option.some.injEq] at hrun₀
      exact (hrun₀ ▸ hf₀.toReady).crownOk hsteps
  | ready _ hmem _ _ => exact absurd hmem hno
  | emptied hlast _ => exact absurd hlast.mem hno

/-- The calls insert contestants 1 and 2, and then 2 loses points. -/
def twoLose (score₁ score₂ point : Int) : List Op :=
  [.insertContestant 1 score₁, .insertContestant 2 score₂, .losePoints 2 point]

theorem inOrder_twoLose (score₁ score₂ point : Int) :
    InOrder 2 (twoLose score₁ score₂ point) := by
  refine ⟨?_, by simp [twoLose], ?_⟩
  · simp [twoLose, Op.InRange, Op.isInsert]
  · intro pre id score hp
    simp only [twoLose, snoc_prefix_cons] at hp
    rcases hp with ⟨rfl, h⟩ | ⟨_, rfl, ⟨rfl, h⟩ | ⟨_, rfl, ⟨rfl, h⟩ | h⟩⟩
    · simp_all
    · simp_all [Op.isInsert]
    · simp at h
    · simp at h

/-- Contestant 2 has still the greater score, and wins. -/
theorem crownWinner_maximal_two :
    ∃ h p h', run 2 (twoLose 10 20 5) = some h ∧ h.curSize ≠ 0
      ∧ h.crownWinner = some (p, h') ∧ p ∈ h.arr
      ∧ ∀ e ∈ h.arr, e.2 ≤ p.2 := by
  obtain ⟨h, hrun, hwin⟩ := crownWinner_maximal 2 (twoLose 10 20 5)
    (inOrder_twoLose 10 20 5) (by decide)
  have hheap : run 2 (twoLose 10 20 5)
      = some ⟨[(1, 10), (2, 15)], 2, 2, [1, 2]⟩ := by
    decide +kernel
  have hc : Consistent 2 h := by
    obtain ⟨h₀, hrun₀, hf⟩ := run_filled (inOrder_twoLose 10 20 5) (by decide)
    rw [hrun, Option.some.injEq] at hrun₀
    exact hrun₀ ▸ hf.toConsistent
  rw [hrun, Option.some.injEq] at hheap
  have hsize : h.curSize = 2 := by rw [hheap]
  obtain ⟨p, h', hcrown, hp, _, hmax⟩ := hwin (by omega)
  refine ⟨h, p, h', hrun, by omega, hcrown, hp,
    hmax ?_ (hc.crownSteps_of_two (by omega))⟩
  intro pre op hpre h₀ hrun₀
  simp only [twoLose, snoc_prefix_cons] at hpre
  rcases hpre with ⟨rfl, rfl⟩ | ⟨_, rfl, ⟨rfl, rfl⟩ | ⟨_, rfl, ⟨rfl, rfl⟩ | hp⟩⟩
  · trivial
  · trivial
  · have hheap₀ : run 2 [.insertContestant 1 10, .insertContestant 2 20]
        = some ⟨[(1, 10), (2, 20)], 2, 2, [1, 2]⟩ := by
      decide +kernel
    rw [hrun₀, Option.some.injEq] at hheap₀
    subst hheap₀
    intro i s hget
    match i, hget with
    | 0, hget => simp at hget
    | 1, hget =>
        obtain rfl : 20 = s := by simpa using hget
        refine ⟨fun _ => by decide, siftOk_stop ?_ ?_⟩
        · exact fun hr => absurd hr.1 (by decide)
        · exact fun hl => absurd hl.1 (by decide)
    | i + 2, hget => simp at hget
  · simp at hp

/-- Contestant 2 wins with 5 points while contestant 1 has 10. -/
theorem twoLose_wins :
    InOrder 2 (twoLose 10 20 15)
      ∧ Op.eliminateWeakest ∉ twoLose 10 20 15
      ∧ ∃ h h', run 2 (twoLose 10 20 15) = some h
        ∧ h.crownWinner = some ((2, 5), h') ∧ (1, 10) ∈ h.arr := by
  refine ⟨inOrder_twoLose 10 20 15, by decide,
    ⟨[(1, 10), (2, 5)], 2, 2, [1, 2]⟩, ⟨[(2, 5)], 2, 1, [-1, 1]⟩, ?_, ?_,
    by decide⟩
  · decide +kernel
  · decide +kernel

end SchoolStuff.ExtendedHeap
