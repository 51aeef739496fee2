import SchoolStuff.CacheSim.Lru

/-!
# CacheSim — the fully associative loop against the set-associative engine

`full_ass` starts as one stray filler and grows to 512 entries, where
`find` on a single set of 512 ways starts with 512 fillers. The stray
filler is a block accessed before the trace: the vector is the recency
window of `filler :: h`, and a window never depends on an entry that is
not in the trace except for the slot it occupies (`mem_mru_cons`).
-/

namespace SchoolStuff.CacheSim

open SchoolStuff.Recency

/-- One cache of a single set with 512 ways, all filler. -/
def oneSet : Store where
  setAss := [[List.replicate 512 filler]]
  sets := [0]

/-- Plain calls of `find` on that cache, one for each access. -/
def oneSetRun (input : List Access) : Store :=
  input.foldl (fun st a => (find st false a 0 false).2) oneSet

/-! ## The loop is a recency queue -/

theorem fullAssStep_eq (s : Sim) (b : UInt32) :
    s.fullAssStep b
      = { s with
          fullAss := touch 512 s.fullAss b
          full1 := s.full1 + (if b ∈ s.fullAss then 1 else 0) } := by
  by_cases hmem : b ∈ s.fullAss
  · obtain ⟨j, hj, herase⟩ := findIdx?_some hmem
    simp only [Sim.fullAssStep, hj, herase, touch, if_pos hmem]
  · simp only [Sim.fullAssStep, findIdx?_none hmem, touch, if_neg hmem]
    split <;> rfl

/-- One turn of the trace loop on the fully associative part. -/
theorem step_full (s : Sim) (a : Access) :
    (s.step a).fullAss = touch 512 s.fullAss (block a)
      ∧ (s.step a).full1
        = s.full1 + (if block a ∈ s.fullAss then 1 else 0) := by
  have hass : ((List.range 4).foldl (fun s i => s.configStep a i) s).fullAss
      = s.fullAss :=
    Sim.foldl_configStep Sim.fullAss
      (fun s i => by rw [Sim.configStep_frame]) _ s
  have hone : ((List.range 4).foldl (fun s i => s.configStep a i) s).full1
      = s.full1 :=
    Sim.foldl_configStep Sim.full1
      (fun s i => by rw [Sim.configStep_frame]) _ s
  have hhot : ∀ (s : Sim) b, (s.hotColdStep b).fullAss = s.fullAss
      ∧ (s.hotColdStep b).full1 = s.full1 := by
    intro s b
    rw [Sim.hotColdStep_frame]
    exact ⟨rfl, rfl⟩
  rw [Sim.step, (hhot _ _).1, (hhot _ _).2, fullAssStep_eq, hass, hone]
  exact ⟨rfl, rfl⟩

/-- A window of `w` entries over the trace and the stray filler before it
hits on `b` after `h`. -/
def fullHit (w : Nat) (h : List UInt32) (b : UInt32) : Bool :=
  b ∈ mru w (filler :: h)

/-- **Run lemma** of the fully associative loop: the vector is the recency
window of the trace with the stray filler in front. -/
theorem run_full (input : List Access) :
    (Sim.run input).fullAss = mru 512 (filler :: input.map block)
      ∧ (Sim.run input).full1 = tally (fullHit 512) (input.map block) := by
  induction input using List.reverseRecOn with
  | nil => exact ⟨(mru_singleton (by decide) filler).symm, rfl⟩
  | append_singleton input a ih =>
      obtain ⟨ihass, ihone⟩ := ih
      obtain ⟨hass, hone⟩ := step_full (Sim.run input) a
      rw [Sim.run_append, hass, hone, ihass, ihone, List.map_append,
        List.map_singleton, ← List.cons_append, mru_append (by decide),
        tally_append]
      simp only [fullHit, decide_eq_true_eq, and_self]

/-! ## The two hit tests agree -/

theorem setHistory_one (s : Nat) (hs : s < 1) (h : List UInt32) :
    setHistory 1 s h = h := by
  have hs0 : s = 0 := by omega
  subst hs0
  simp [setHistory, Nat.mod_one]

theorem fullHit_eq_lruHit (w : Nat) {h : List UInt32} {b : UInt32}
    (hh : filler ∉ h) (hb : b ≠ filler) : fullHit w h b = lruHit w 1 h b := by
  rw [fullHit, lruHit, setHistory_one _ (Nat.mod_lt _ (by decide))]
  simp only [mem_mru_cons hh hb]

theorem tally_fullHit (w : Nat) {h : List UInt32} (hh : filler ∉ h) :
    tally (fullHit w) h = tally (lruHit w 1) h := by
  induction h using List.reverseRecOn with
  | nil => rfl
  | append_singleton h b ih =>
      have hh' : filler ∉ h := fun hm => hh (by simp [hm])
      have hb : b ≠ filler := fun he => hh (by simp [he])
      rw [tally_append, tally_append, ih hh', fullHit_eq_lruHit w hh' hb]

/-- The set-associative engine on one set of 512 ways. -/
theorem oneSetRun_lruAt (input : List Access)
    (hne : ∀ a ∈ input, block a ≠ filler) :
    LruAt (oneSetRun input) 0 512 1 (input.map block) := by
  induction input using List.reverseRecOn with
  | nil => exact LruAt.nil rfl rfl
  | append_singleton input a ih =>
      have hI := ih (fun x hx => hne x (by simp [hx]))
      have hstep := hI.find (by decide) (by decide) (hne a (by simp))
      rw [oneSetRun, List.foldl_append, List.map_append]
      exact hstep

/-- **The fully associative loop agrees with `find`**: on every trace
without filler blocks `full1` is the hit count of plain calls of `find` on
one set of 512 ways. -/
theorem full1_eq_oneSet_hits (input : List Access)
    (hne : ∀ a ∈ input, block a ≠ filler) :
    (oneSetRun input).sets[0]? = some (Sim.run input).full1 := by
  have hfiller : filler ∉ input.map block := by
    intro hmem
    obtain ⟨a, ha, heq⟩ := List.mem_map.mp hmem
    exact hne a ha heq
  rw [(oneSetRun_lruAt input hne).sets, (run_full input).2,
    tally_fullHit 512 hfiller]

/-- The trace `L 0x40, L 0x60, L 0x40`. -/
theorem full1_eq_oneSet_hits_three :
    (oneSetRun [("L", "0x40"), ("L", "0x60"), ("L", "0x40")]).sets[0]?
      = some (Sim.run [("L", "0x40"), ("L", "0x60"), ("L", "0x40")]).full1 :=
  full1_eq_oneSet_hits _ (by decide)

end SchoolStuff.CacheSim
