import SchoolStuff.CacheSim.FullAssoc

/-!
# CacheSim — the hot/cold loop keeps one line

`full_ass2` starts as one filler, and its loop overwrites entries but never
adds one: the 512-line cache is a register of the last block. It gives the
hit count of a demand-filled cache of 512 lines exactly on the traces that
come back to no block they have left.
-/

namespace SchoolStuff.CacheSim

open SchoolStuff.Recency

/-! ## The loop -/

/-- The victim of a vector of one entry is that entry. -/
theorem minIndex_one (x : UInt32) : minIndex [x] = 0 := by
  show (if x < 1000000 then (0, x) else (0, 1000000)).1 = 0
  split <;> rfl

theorem hotColdStep_one (s : Sim) {x : UInt32} (hx : s.fullAss2 = [x])
    (b : UInt32) :
    (s.hotColdStep b).fullAss2 = [b]
      ∧ (s.hotColdStep b).full2 = s.full2 + if x = b then 1 else 0 := by
  by_cases hxb : x = b
  · simp [Sim.hotColdStep, hx, hxb]
  · have hfind : [x].findIdx? (· == b) = none :=
      findIdx?_none (by simpa using Ne.symm hxb)
    simp only [Sim.hotColdStep, hx, hfind, minIndex_one, if_neg hxb]
    exact ⟨rfl, rfl⟩

/-- The access repeats the one before it. -/
def repeats (h : List UInt32) (b : UInt32) : Bool :=
  decide (h.getLast?.getD filler = b)

/-- **Run lemma**: the vector is the last block, and the hits are the
accesses that repeat the one before them. -/
theorem run_hotCold (input : List Access) :
    (Sim.run input).fullAss2 = [(input.map block).getLast?.getD filler]
      ∧ (Sim.run input).full2 = tally repeats (input.map block) := by
  induction input using List.reverseRecOn with
  | nil => exact ⟨rfl, rfl⟩
  | append_singleton input a ih =>
      obtain ⟨ihass, ihtwo⟩ := ih
      generalize hs : Sim.run input = s at ihass ihtwo
      have hass : ((List.range 4).foldl (fun s i => s.configStep a i) s).fullAss2
          = s.fullAss2 :=
        Sim.foldl_configStep Sim.fullAss2
          (fun s i => by rw [Sim.configStep_frame]) _ s
      have htwo : ((List.range 4).foldl (fun s i => s.configStep a i) s).full2
          = s.full2 :=
        Sim.foldl_configStep Sim.full2
          (fun s i => by rw [Sim.configStep_frame]) _ s
      have hfull : ∀ (s : Sim) b, (s.fullAssStep b).fullAss2 = s.fullAss2
          ∧ (s.fullAssStep b).full2 = s.full2 := by
        intro s b
        rw [Sim.fullAssStep_frame]
        exact ⟨rfl, rfl⟩
      obtain ⟨hhot, hhot'⟩ := hotColdStep_one _
        (((hfull _ _).1.trans hass).trans ihass) (block a)
      rw [Sim.run_append, hs, Sim.step, hhot, hhot', (hfull _ _).2,
        htwo, ihtwo, List.map_append, List.map_singleton, tally_append]
      simp [repeats]

/-! ## Traces that come back -/

/-- A block that was seen before is only accessed right after itself. -/
def StaysGone (h : List UInt32) : Prop :=
  ∀ pre b, pre ++ [b] <+: h → b ∈ pre → pre.getLast? = some b

theorem dedup_length_snoc (h : List UInt32) (b : UInt32) :
    (h ++ [b]).dedup.length = h.dedup.length + if b ∈ h then 0 else 1 := by
  rw [dedup_append_singleton, List.length_append, List.length_singleton]
  by_cases hb : b ∈ h
  · have hmem : b ∈ h.dedup := List.mem_dedup.mpr hb
    have hpos := List.length_pos_of_mem hmem
    rw [List.length_erase_of_mem hmem, if_pos hb]
    omega
  · rw [List.erase_of_not_mem (by simpa using hb), if_neg hb]

theorem staysGone_snoc {h : List UInt32} {b : UInt32} :
    StaysGone (h ++ [b])
      ↔ StaysGone h ∧ (b ∈ h → h.getLast? = some b) := by
  constructor
  · intro hgone
    refine ⟨fun pre x hpre => hgone pre x ?_, hgone h b (List.prefix_refl _)⟩
    exact hpre.trans (List.prefix_append h [b])
  · rintro ⟨hgone, hlast⟩ pre x hpre hx
    rcases List.prefix_concat_iff.mp hpre with heq | hpre
    · obtain ⟨rfl, hxb⟩ := List.append_inj' heq rfl
      obtain rfl := List.singleton_inj.mp hxb
      exact hlast hx
    · exact hgone pre x hpre hx

/-- Repetitions and distinct blocks make up a trace that stays gone, and
fall short of any other. -/
theorem repeats_add_distinct {h : List UInt32} (hne : filler ∉ h) :
    tally repeats h + h.dedup.length ≤ h.length
      ∧ (tally repeats h + h.dedup.length = h.length ↔ StaysGone h) := by
  induction h using List.reverseRecOn with
  | nil =>
      refine ⟨Nat.le_refl 0, iff_of_true rfl ?_⟩
      intro pre b hpre
      simp at hpre
  | append_singleton h b ih =>
      have hbf : b ≠ filler := by
        rintro rfl
        exact hne (by simp)
      obtain ⟨hle, hiff⟩ := ih fun hmem => hne (by simp [hmem])
      have hrep : repeats h b = decide (h.getLast? = some b) := by
        cases hlast : h.getLast? with
        | none => simp [repeats, hlast, Ne.symm hbf]
        | some x => simp [repeats, hlast]
      rw [tally_append, dedup_length_snoc, List.length_append,
        List.length_singleton, staysGone_snoc, ← hiff, hrep]
      by_cases hlast : h.getLast? = some b
      · have hb : b ∈ h := List.mem_of_getLast? hlast
        simp only [hlast, hb, decide_true, if_true, true_implies, and_true]
        omega
      · by_cases hb : b ∈ h
        · -- a block comes back: neither a repetition nor new
          simp only [hlast, hb, decide_false, if_true, true_implies]
          simp
          omega
        · simp only [hlast, hb, decide_false, if_false, false_implies, and_true]
          simp
          omega

/-- **When the hot/cold loop counts like a 512-line cache.** On a trace
without filler blocks `full2` is the number of accesses less the number of
distinct blocks if and only if no block is accessed again after another
one. -/
theorem full2_eq_iff_staysGone (input : List Access)
    (hne : ∀ a ∈ input, block a ≠ filler) :
    (Sim.run input).full2 = input.length - (input.map block).dedup.length
      ↔ StaysGone (input.map block) := by
  have hfiller : filler ∉ input.map block := by
    intro hmem
    obtain ⟨a, ha, heq⟩ := List.mem_map.mp hmem
    exact hne a ha heq
  obtain ⟨hle, hiff⟩ := repeats_add_distinct hfiller
  rw [(run_hotCold input).2, ← hiff]
  rw [List.length_map] at hle ⊢
  omega

/-- Blocks 1, 1 and 2. -/
theorem full2_eq_iff_staysGone_three :
    (Sim.run [("L", "0x20"), ("L", "0x20"), ("L", "0x40")]).full2
        = [("L", "0x20"), ("L", "0x20"), ("L", "0x40")].length
          - ([("L", "0x20"), ("L", "0x20"), ("L", "0x40")].map
              block).dedup.length
      ↔ StaysGone ([("L", "0x20"), ("L", "0x20"), ("L", "0x40")].map block) :=
  full2_eq_iff_staysGone [("L", "0x20"), ("L", "0x20"), ("L", "0x40")]
    (by decide)

/-- Blocks 1, 2 and 1: two distinct blocks, three accesses and no hit. -/
theorem full2_misses_return :
    (∀ a ∈ [("L", "0x20"), ("L", "0x40"), ("L", "0x20")], block a ≠ filler)
      ∧ ([("L", "0x20"), ("L", "0x40"), ("L", "0x20")].map
          block).dedup.length ≤ 512
      ∧ (Sim.run [("L", "0x20"), ("L", "0x40"), ("L", "0x20")]).full2
        ≠ [("L", "0x20"), ("L", "0x40"), ("L", "0x20")].length
          - ([("L", "0x20"), ("L", "0x40"), ("L", "0x20")].map
              block).dedup.length := by
  decide +kernel

end SchoolStuff.CacheSim
