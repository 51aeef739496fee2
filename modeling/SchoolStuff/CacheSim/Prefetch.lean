import SchoolStuff.CacheSim.Flags

/-!
# CacheSim — next-line prefetch

`set_ass3` brings in the block after every access, `set_ass4` the block
after every access that misses. Both are a call of `find` for the block
followed, or not, by a prefetching call (`prefetchTurn`). The two calls
cannot undo each other: with two sets or more, a block and the next one
map to different sets (`succ_mod_ne`).
-/

namespace SchoolStuff.CacheSim

/-! ## One configuration, one turn -/

/-- What a turn of the trace loop does to configuration `i` of `set_ass3`
(`always`) and of `set_ass4`. -/
def prefetchTurn (always : Bool) (a : Access) (st : Store) (i : Nat) : Store :=
  let r := find st false a i false
  if always || !r.1 then (find r.2 false a i true).2 else r.2

/-- What a turn for block `b` leaves in configuration `i`. -/
structure TurnSpec (always : Bool) (b : UInt32) (i n w : Nat)
    (st st' : Store) : Prop where
  ok : ConfigOk st' i n w
  /-- The block that was accessed is there. -/
  here : st'.Resident i b
  /-- So is the next one, after a miss or under `set_ass3`. -/
  next : always = true ∨ ¬ st.Resident i b → st'.Resident i (b + 1)
  /-- An access to a resident block is a hit. -/
  hit : st.Resident i b → st'.sets.getD i 0 = st.sets.getD i 0 + 1

variable {st st' : Store} {i n w : Nat} {a : Access} {b : UInt32}
  {always : Bool}

/-- A block and the next one map to different sets. -/
theorem succ_mod_ne {n : Nat} (hn : 2 ≤ n) (x : Nat) : (x + 1) % n ≠ x % n := by
  intro h
  have hone := Nat.sub_mod_eq_zero_of_mod_eq h
  rw [show x + 1 - x = 1 by omega, Nat.mod_eq_of_lt hn] at hone
  exact absurd hone (by decide)

/-- Blocks of addresses below `2 ^ 32` are no fillers, and neither are
the next ones. -/
theorem block_bounds (hb : b.toNat < 2 ^ 27) :
    (b + 1).toNat = b.toNat + 1 ∧ b ≠ filler ∧ b + 1 ≠ filler := by
  have hsucc : (b + 1).toNat = b.toNat + 1 := by
    rw [UInt32.toNat_add, show (1 : UInt32).toNat = 1 from rfl]
    exact Nat.mod_eq_of_lt (by omega)
  have hfill : filler.toNat = 2 ^ 32 - 1 := rfl
  refine ⟨hsucc, ?_, ?_⟩
  · intro heq
    rw [heq] at hb
    omega
  · intro heq
    rw [heq] at hsucc
    omega

/-- A call leaves its block in its set. -/
theorem FindSpec.resident {prefetch : Bool}
    (h : FindSpec st false a i prefetch) (hpos : 0 < st.size i) :
    (find st false a i prefetch).2.Resident i (target a prefetch) := by
  have hlast := h.last (Or.inl rfl)
  refine ⟨(target a prefetch).toNat % st.size i, ?_,
    List.mem_of_getLast? hlast⟩
  rw [find_size]
  exact Nat.mod_lt _ hpos

/-- The prefetching call counts nothing and leaves a resident block where it
is: the next block has its own set. -/
theorem find_prefetch_spec (hI : ConfigOk st i n w) (hn : 2 ≤ n)
    (hb : (block a).toNat < 2 ^ 27) :
    (find st false a i true).2.Resident i (block a + 1)
      ∧ (st.Resident i (block a) →
        (find st false a i true).2.Resident i (block a))
      ∧ (find st false a i true).2.sets.getD i 0 = st.sets.getD i 0 := by
  obtain ⟨hsucc, hne, hne'⟩ := block_bounds hb
  have hpos : 0 < n := by omega
  have hspec : FindSpec st false a i true := hI.findSpec hpos hne'
  refine ⟨hspec.resident (hI.size.symm ▸ hpos), ?_, ?_⟩
  · intro hres
    have hmem := (hI.resident_iff hpos hne).mp hres
    have hother : (block a).toNat % n
        ≠ (target a true).toNat % st.size i := by
      show _ ≠ (block a + 1).toNat % st.size i
      rw [hI.size, hsucc]
      exact Ne.symm (succ_mod_ne hn _)
    refine ⟨(block a).toNat % n, ?_, ?_⟩
    · rw [find_size, hI.size]
      exact Nat.mod_lt _ hpos
    · rw [hspec.frame i _ (Or.inr hother)]
      exact hmem
  · obtain ⟨hits, hold, hnew⟩ := hspec.counter
    rw [List.getD_eq_getElem?_getD, hnew, List.getD_eq_getElem?_getD, hold]
    simp

/-- **Step lemma**: what a turn leaves. -/
theorem prefetchTurn_spec (hI : ConfigOk st i n w) (hn : 2 ≤ n) (hw : 0 < w)
    (hb : (block a).toNat < 2 ^ 27) :
    TurnSpec always (block a) i n w st (prefetchTurn always a st i) := by
  obtain ⟨_, hne, hne'⟩ := block_bounds hb
  have hpos : 0 < n := by omega
  have hspec : FindSpec st false a i false :=
    hI.findSpec hpos (show target a false ≠ filler from hne)
  have hplain : ConfigOk (find st false a i false).2 i n w :=
    hI.find hpos hw (show target a false ≠ filler from hne)
  have hhere : (find st false a i false).2.Resident i (block a) :=
    hspec.resident (hI.size.symm ▸ hpos)
  have hhit : st.Resident i (block a) →
      (find st false a i false).2.sets.getD i 0 = st.sets.getD i 0 + 1 := by
    intro hres
    obtain ⟨hits, hold, hnew⟩ := hspec.counter
    rw [if_pos ⟨hspec.answer.mpr hres, rfl⟩] at hnew
    rw [List.getD_eq_getElem?_getD, hnew, List.getD_eq_getElem?_getD, hold]
    rfl
  by_cases hcall : (always || !(find st false a i false).1) = true
  · obtain ⟨hnext, hkeep, hcount⟩ := find_prefetch_spec hplain hn hb
    simp only [prefetchTurn, if_pos hcall]
    constructor
    · exact hplain.find hpos hw hne'
    · exact hkeep hhere
    · intro _
      exact hnext
    · intro hres
      rw [hcount, hhit hres]
  · simp only [prefetchTurn, if_neg hcall]
    rw [Bool.not_eq_true, Bool.or_eq_false_iff, Bool.not_eq_false'] at hcall
    constructor
    · exact hplain
    · exact hhere
    · intro hcond
      -- no second call: the policy is that of `set_ass4`, and it was a hit
      rcases hcond with halways | hmiss
      · exact absurd halways (by simp [hcall.1])
      · exact absurd (hspec.answer.mp hcall.2) hmiss
    · exact hhit

/-! ## All configurations -/

theorem prefetchTurn_frame (st : Store) {i j : Nat} (hij : i ≠ j) :
    SameConfig j st (prefetchTurn always a st i) := by
  have hfirst := SameConfig.find st hij false a false
  simp only [prefetchTurn]
  split
  · exact hfirst.trans (SameConfig.find _ hij false a true)
  · exact hfirst

theorem TurnSpec.congr {st₁ st₁' : Store}
    (h : TurnSpec always b i n w st₁ st₁') (hpre : SameConfig i st st₁)
    (hpost : SameConfig i st₁' st') : TurnSpec always b i n w st st' := by
  constructor
  · exact hpost.configOk h.ok
  · exact (hpost.resident_iff b).mpr h.here
  · intro hcond
    rw [hpost.resident_iff]
    exact h.next (hcond.imp_right (mt (hpre.resident_iff b).mp))
  · intro hres
    have hhit := h.hit ((hpre.resident_iff b).mpr hres)
    simp only [List.getD_eq_getElem?_getD, hpost.sets, ← hpre.sets] at hhit ⊢
    exact hhit

/-- The turns of the other configurations change nothing for this one. -/
theorem foldl_prefetchTurn_spec (hn : 2 ≤ n) (hw : 0 < w)
    (hb : (block a).toNat < 2 ^ 27) (l : List Nat) :
    ∀ st, l.Nodup → i ∈ l → ConfigOk st i n w →
      TurnSpec always (block a) i n w st
        (l.foldl (prefetchTurn always a) st) := by
  have hframe : ∀ (l : List Nat) (st : Store), i ∉ l →
      SameConfig i st (l.foldl (prefetchTurn always a) st) := by
    intro l
    induction l with
    | nil => intro st _; exact SameConfig.refl i st
    | cons j l ih =>
        intro st hi
        rw [List.mem_cons, not_or] at hi
        rw [List.foldl_cons]
        exact (prefetchTurn_frame st (Ne.symm hi.1)).trans (ih _ hi.2)
  induction l with
  | nil => intro st _ hi; exact absurd hi List.not_mem_nil
  | cons j l ih =>
      intro st hnodup hi hI
      obtain ⟨hjl, hnodup'⟩ := List.nodup_cons.mp hnodup
      rw [List.foldl_cons]
      by_cases hji : j = i
      · subst hji
        exact (prefetchTurn_spec hI hn hw hb).congr (SameConfig.refl _ _) (hframe l _ hjl)
      · have hsame : SameConfig i st (prefetchTurn always a st j) :=
          prefetchTurn_frame st hji
        have hil : i ∈ l := (List.mem_cons.mp hi).resolve_left (Ne.symm hji)
        exact (ih _ hnodup' hil (hsame.configOk hI)).congr hsame
          (SameConfig.refl _ _)

/-! ## The trace loop -/

theorem configStep_store3 (s : Sim) (a : Access) (i : Nat) :
    (s.configStep a i).store3 = prefetchTurn true a s.store3 i := by
  simp only [Sim.configStep, Sim.directStep]
  split <;> rfl

theorem configStep_store4 (s : Sim) (a : Access) (i : Nat) :
    (s.configStep a i).store4 = prefetchTurn false a s.store4 i := by
  simp only [Sim.configStep, Sim.directStep]
  split <;> rfl

theorem step_prefetch (s : Sim) (a : Access) :
    (s.step a).store3 = (List.range 4).foldl (prefetchTurn true a) s.store3
      ∧ (s.step a).store4
        = (List.range 4).foldl (prefetchTurn false a) s.store4 := by
  have hlast : ∀ (s : Sim) b,
      ((s.fullAssStep b).hotColdStep b).store3 = s.store3
        ∧ ((s.fullAssStep b).hotColdStep b).store4 = s.store4 := by
    intro s b
    rw [Sim.hotColdStep_frame, Sim.fullAssStep_frame]
    exact ⟨rfl, rfl⟩
  rw [Sim.step, (hlast _ _).1, (hlast _ _).2]
  constructor
  · exact (List.foldl_hom Sim.store3
      (fun s i => (configStep_store3 s a i).symm)).symm
  · exact (List.foldl_hom Sim.store4
      (fun s i => (configStep_store4 s a i).symm)).symm

/-- One turn of the trace loop, for both policies. -/
theorem step_turn {s : Sim} {i : Nat} (hi : i < 4) {a : Access}
    (hb : (block a).toNat < 2 ^ 27)
    (h₃ : ConfigOk s.store3 i (numSets i) (ways i))
    (h₄ : ConfigOk s.store4 i (numSets i) (ways i)) :
    TurnSpec true (block a) i (numSets i) (ways i) s.store3 (s.step a).store3
      ∧ TurnSpec false (block a) i (numSets i) (ways i) s.store4
          (s.step a).store4 := by
  have hn : 2 ≤ numSets i := by
    interval_cases i <;> decide
  obtain ⟨hs₃, hs₄⟩ := step_prefetch s a
  rw [hs₃, hs₄]
  have hmem : i ∈ List.range 4 := List.mem_range.mpr hi
  exact ⟨foldl_prefetchTurn_spec hn (ways_pos i) hb _ _ List.nodup_range hmem h₃,
    foldl_prefetchTurn_spec hn (ways_pos i) hb _ _ List.nodup_range hmem h₄⟩

/-- **Run lemma.** -/
theorem run_configOk {i : Nat} (hi : i < 4) (input : List Access)
    (hlt : ∀ a ∈ input, (block a).toNat < 2 ^ 27) :
    ConfigOk (Sim.run input).store3 i (numSets i) (ways i)
      ∧ ConfigOk (Sim.run input).store4 i (numSets i) (ways i) := by
  induction input using List.reverseRecOn with
  | nil =>
      have hinit : ConfigOk Store.init i (numSets i) (ways i) := by
        rw [Store.init_eq]
        apply storeOk_fillers
        interval_cases i <;> rfl
      exact ⟨hinit, hinit⟩
  | append_singleton input a ih =>
      obtain ⟨h₃, h₄⟩ := ih (fun x hx => hlt x (by simp [hx]))
      obtain ⟨ht₃, ht₄⟩ := step_turn hi (hlt a (by simp)) h₃ h₄
      rw [Sim.run_append]
      exact ⟨ht₃.ok, ht₄.ok⟩

/-- **Next-line prefetch.** After an access to a block, `set_ass3` has the
block and the next one, and `set_ass4` has the block, and the next one if
the access missed; an access to the next block that follows at once is
then a hit. -/
theorem next_line_prefetch (trace : List Access)
    (hlt : ∀ a ∈ trace, (block a).toNat < 2 ^ 27) (i : Nat) (hi : i < 4)
    (pre : List Access) (a : Access) (hpre : pre ++ [a] <+: trace) :
    ((Sim.run (pre ++ [a])).store3.Resident i (block a)
        ∧ (Sim.run (pre ++ [a])).store3.Resident i (block a + 1))
      ∧ ((Sim.run (pre ++ [a])).store4.Resident i (block a)
        ∧ (¬ (Sim.run pre).store4.Resident i (block a) →
          (Sim.run (pre ++ [a])).store4.Resident i (block a + 1)))
      ∧ ∀ a' : Access, pre ++ [a] ++ [a'] <+: trace →
          block a' = block a + 1 →
          (Sim.run (pre ++ [a] ++ [a'])).store3.sets.getD i 0
              = (Sim.run (pre ++ [a])).store3.sets.getD i 0 + 1
            ∧ (¬ (Sim.run pre).store4.Resident i (block a) →
              (Sim.run (pre ++ [a] ++ [a'])).store4.sets.getD i 0
                = (Sim.run (pre ++ [a])).store4.sets.getD i 0 + 1) := by
  have hbound : ∀ x ∈ pre ++ [a], (block x).toNat < 2 ^ 27 :=
    fun x hx => hlt x (hpre.subset hx)
  obtain ⟨h₃, h₄⟩ := run_configOk hi pre
    (fun x hx => hbound x (List.mem_append_left _ hx))
  obtain ⟨ht₃, ht₄⟩ := step_turn hi (hbound a (by simp)) h₃ h₄
  rw [← Sim.run_append] at ht₃ ht₄
  have hnext₃ := ht₃.next (Or.inl rfl)
  refine ⟨⟨ht₃.here, hnext₃⟩, ⟨ht₄.here, fun hmiss => ht₄.next (Or.inr hmiss)⟩,
    ?_⟩
  intro a' hpre' hblock
  have hb' : (block a').toNat < 2 ^ 27 := hlt a' (hpre'.subset (by simp))
  obtain ⟨hu₃, hu₄⟩ := step_turn hi hb' ht₃.ok ht₄.ok
  rw [← Sim.run_append, hblock] at hu₃ hu₄
  exact ⟨hu₃.hit hnext₃, fun hmiss => hu₄.hit (ht₄.next (Or.inr hmiss))⟩

/-- Block 2 and block 3 right after it. -/
theorem next_line_prefetch_two :
    (Sim.run [("L", "0x40")]).store3.Resident 0 3
      ∧ (Sim.run [("L", "0x40"), ("S", "0x60")]).store3.sets.getD 0 0
        = (Sim.run [("L", "0x40")]).store3.sets.getD 0 0 + 1 := by
  have h := next_line_prefetch [("L", "0x40"), ("S", "0x60")]
    (by
      simp only [List.forall_mem_cons]
      exact ⟨by decide, by decide, by simp⟩)
    0 (by decide) [] ("L", "0x40") ⟨[("S", "0x60")], rfl⟩
  have hhit := h.2.2 ("S", "0x60") (List.prefix_refl _) (by decide)
  have hnext : block ("L", "0x40") + 1 = 3 := by decide
  simp only [List.nil_append, List.cons_append, hnext] at h hhit
  exact ⟨h.1.2, hhit.1⟩

end SchoolStuff.CacheSim
