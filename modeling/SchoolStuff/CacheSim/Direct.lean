import Mathlib.Data.List.Induction
import Mathlib.Tactic.IntervalCases
import SchoolStuff.Lib.Recency
import SchoolStuff.CacheSim.Basic

/-!
# CacheSim — inclusion of the direct-mapped caches

A slot of a direct-mapped cache holds the last block of its residue class
(`slot`). The size of each of the four caches divides the next one, so the
classes of a larger cache refine those of a smaller one, and a block that
is the last of its class stays the last of the finer class.
-/

namespace SchoolStuff.CacheSim

open SchoolStuff.Recency

/-! ## What a slot holds -/

/-- Slot `r` of `n` after the history `h`: the last block of its class, or
the filler. -/
def slot (n r : Nat) (h : List UInt32) : UInt32 :=
  (h.reverse.find? fun b => decide (b.toNat % n = r)).getD filler

theorem slot_snoc (n r : Nat) (h : List UInt32) (b : UInt32) :
    slot n r (h ++ [b]) = if b.toNat % n = r then b else slot n r h := by
  rw [slot, List.reverse_append, List.reverse_singleton, List.singleton_append,
    List.find?_cons]
  by_cases hb : b.toNat % n = r
  · rw [if_pos hb, decide_eq_true hb]
    rfl
  · rw [if_neg hb, decide_eq_false hb]
    rfl

/-- **A finer class has the same last block**, if that block is in it. -/
theorem slot_of_dvd {n n' : Nat} (hdvd : n ∣ n') {h : List UInt32}
    {b : UInt32} (hb : b ≠ filler) (hslot : slot n (b.toNat % n) h = b) :
    slot n' (b.toNat % n') h = b := by
  cases hfind : h.reverse.find? fun x => decide (x.toNat % n = b.toNat % n) with
  | none =>
      rw [slot, hfind, Option.getD_none] at hslot
      exact absurd hslot.symm hb
  | some x =>
      rw [slot, hfind, Option.getD_some] at hslot
      subst hslot
      obtain ⟨_, after, before, heq, hafter⟩ :=
        List.find?_eq_some_iff_append.mp hfind
      have hfine : h.reverse.find? (fun y => decide (y.toNat % n' = x.toNat % n'))
          = some x := by
        refine List.find?_eq_some_iff_append.mpr
          ⟨by simp, after, before, heq, fun y hy => ?_⟩
        -- two blocks of one finer class are in one coarse class
        have hcoarse := hafter y hy
        simp only [Bool.not_eq_true', decide_eq_false_iff_not] at hcoarse ⊢
        intro hmod
        apply hcoarse
        rw [← Nat.mod_mod_of_dvd y.toNat hdvd, hmod,
          Nat.mod_mod_of_dvd x.toNat hdvd]
      rw [slot, hfine, Option.getD_some]

/-- A block in some slot is in the slot of its class. -/
theorem slot_class {n r : Nat} {h : List UInt32} {b : UInt32}
    (hb : b ≠ filler) (hslot : slot n r h = b) : b.toNat % n = r := by
  cases hfind : h.reverse.find? fun x => decide (x.toNat % n = r) with
  | none =>
      rw [slot, hfind, Option.getD_none] at hslot
      exact absurd hslot.symm hb
  | some x =>
      rw [slot, hfind, Option.getD_some] at hslot
      rw [← hslot]
      simpa using List.find?_some hfind

/-! ## One step -/

/-- The direct-mapped cache of `n` lines hits on `b` after `h`. -/
def directHit (n : Nat) (h : List UInt32) (b : UInt32) : Bool :=
  decide (slot n (b.toNat % n) h = b)

/-- Configuration `i` has `n` lines and is in the state after `h`. -/
structure DirectAt (s : Sim) (i n : Nat) (h : List UInt32) : Prop where
  cache : ∃ cache, s.direct[i]? = some cache ∧ cache.length = n
    ∧ ∀ r, r < n → cache[r]? = some (slot n r h)
  hits : s.directHit[i]? = some (tally (directHit n) h)

variable {s : Sim} {i j n : Nat} {h : List UInt32} {b : UInt32}

/-- **Step lemma** of one configuration. -/
theorem DirectAt.directStep (hI : DirectAt s i n h) (hn : 0 < n) :
    DirectAt (s.directStep b i) i n (h ++ [b]) := by
  obtain ⟨cache, hcache, hlen, hslots⟩ := hI.cache
  have hr := Nat.mod_lt b.toNat hn
  have hget : cache.getD (b.toNat % cache.length) 0
      = slot n (b.toNat % n) h := by
    rw [List.getD_eq_getElem?_getD, hlen, hslots _ hr, Option.getD_some]
  have hgetD : s.direct.getD i [] = cache := by
    rw [List.getD_eq_getElem?_getD, hcache, Option.getD_some]
  simp only [Sim.directStep, hgetD, hget]
  by_cases hhit : slot n (b.toNat % n) h = b
  · rw [if_pos hhit]
    constructor
    · refine ⟨cache, hcache, hlen, fun r hlt => ?_⟩
      rw [slot_snoc]
      split
      · rename_i hrb
        rw [← hrb, hslots _ hr, hhit]
      · exact hslots r hlt
    · rw [List.getElem?_modify_eq, hI.hits, tally_append, directHit,
        decide_eq_true hhit]
      rfl
  · rw [if_neg hhit]
    constructor
    · refine ⟨cache.set (b.toNat % n) b, ?_, by simp [hlen], fun r hlt => ?_⟩
      · rw [List.getElem?_modify_eq, hcache, ← hlen]
        rfl
      · rw [slot_snoc]
        split
        · rename_i hrb
          rw [← hrb, List.getElem?_set_self (hlen.symm ▸ hr)]
        · rename_i hrb
          rw [List.getElem?_set_ne hrb, hslots r hlt]
    · rw [hI.hits, tally_append, directHit, decide_eq_false hhit]
      rfl

/-- Frame: a step of another configuration. -/
theorem DirectAt.frame (hI : DirectAt s i n h) (hij : j ≠ i) :
    DirectAt (s.directStep b j) i n h := by
  rw [Sim.directStep]
  split
  · exact ⟨hI.cache, by rw [List.getElem?_modify_ne _ _ hij, hI.hits]⟩
  · obtain ⟨cache, hcache, hrest⟩ := hI.cache
    exact ⟨⟨cache, by rw [List.getElem?_modify_ne _ _ hij, hcache], hrest⟩,
      hI.hits⟩

/-- The invariant is about two fields of the state. -/
theorem DirectAt.congr {s' : Sim} (hI : DirectAt s i n h)
    (hdirect : s'.direct = s.direct) (hhits : s'.directHit = s.directHit) :
    DirectAt s' i n h := by
  obtain ⟨hcache, hhit⟩ := hI
  exact ⟨hdirect ▸ hcache, hhits ▸ hhit⟩

theorem DirectAt.foldl {a : Access} (hn : 0 < n) :
    ∀ (l : List Nat) {s : Sim} {h : List UInt32}, l.Nodup → DirectAt s i n h →
    DirectAt (l.foldl (fun s j => s.configStep a j) s) i n
      (if i ∈ l then h ++ [block a] else h) := by
  intro l
  induction l with
  | nil => intro s h _ hI; simpa using hI
  | cons j l ih =>
      intro s h hnd hI
      obtain ⟨hjl, hnd'⟩ := List.nodup_cons.mp hnd
      rw [List.foldl_cons]
      by_cases hij : j = i
      · subst hij
        have hstep : DirectAt (s.configStep a j) j n (h ++ [block a]) :=
          (hI.directStep hn).congr rfl rfl
        simpa [hjl] using ih hnd' hstep
      · have hstep : DirectAt (s.configStep a j) i n h :=
          (hI.frame hij).congr rfl rfl
        simpa [Ne.symm hij] using ih hnd' hstep

/-! ## A run -/

/-- The sizes of the four caches. -/
def directSize (i : Nat) : Nat := [32, 128, 512, 1024].getD i 0

theorem directAt_init (hi : i < 4) : DirectAt Sim.init i (directSize i) [] := by
  have hsize : ([32, 128, 512, 1024] : List Nat)[i]? = some (directSize i) := by
    interval_cases i <;> rfl
  constructor
  · refine ⟨List.replicate (directSize i) filler, ?_, List.length_replicate, ?_⟩
    · rw [Sim.init, List.getElem?_map, hsize]
      rfl
    · intro r hr
      rw [List.getElem?_replicate, if_pos hr]
      rfl
  · interval_cases i <;> rfl

/-- **Run lemma.** -/
theorem run_directAt (hi : i < 4) (input : List Access) :
    DirectAt (Sim.run input) i (directSize i) (input.map block) := by
  have hpos : 0 < directSize i := by
    interval_cases i <;> decide
  induction input using List.reverseRecOn with
  | nil => exact directAt_init hi
  | append_singleton input a ih =>
      have hstep := DirectAt.foldl (a := a) hpos (List.range 4)
        List.nodup_range ih
      rw [if_pos (List.mem_range.mpr hi)] at hstep
      rw [Sim.run_append, List.map_append, List.map_singleton, Sim.step]
      generalize (List.range 4).foldl (fun s j => s.configStep a j) (Sim.run input)
        = s at hstep ⊢
      rw [Sim.hotColdStep_frame, Sim.fullAssStep_frame]
      exact hstep.congr rfl rfl

theorem DirectAt.mem_iff (hI : DirectAt s i n h) (b : UInt32) :
    b ∈ s.direct.getD i [] ↔ ∃ r, r < n ∧ slot n r h = b := by
  obtain ⟨cache, hcache, hlen, hslots⟩ := hI.cache
  rw [List.getD_eq_getElem?_getD, hcache, Option.getD_some,
    List.mem_iff_getElem?]
  constructor
  · rintro ⟨r, hr⟩
    have hlt : r < n := hlen ▸ (List.getElem?_eq_some_iff.mp hr).1
    rw [hslots r hlt, Option.some.injEq] at hr
    exact ⟨r, hlt, hr⟩
  · rintro ⟨r, hlt, hr⟩
    exact ⟨r, by rw [hslots r hlt, hr]⟩

/-- **Direct-mapped inclusion.** After every access of a trace without
filler blocks, the blocks resident in one of the first three caches are
resident in the next, and that one has at least as many hits. -/
theorem direct_inclusion (input : List Access)
    (hne : ∀ a ∈ input, block a ≠ filler) (pre : List Access)
    (hpre : pre <+: input) (i : Nat) (hi : i < 3) :
    (∀ b, b ≠ filler → b ∈ (Sim.run pre).direct.getD i [] →
        b ∈ (Sim.run pre).direct.getD (i + 1) [])
      ∧ (Sim.run pre).directHit.getD i 0
        ≤ (Sim.run pre).directHit.getD (i + 1) 0 := by
  have hI := run_directAt (Nat.lt_succ_of_lt hi) pre
  have hI' := run_directAt (Nat.succ_lt_succ hi) pre
  have hdvd : directSize i ∣ directSize (i + 1) := by
    interval_cases i <;> decide
  have hpos : 0 < directSize (i + 1) := by
    interval_cases i <;> decide
  constructor
  · intro b hb hmem
    obtain ⟨r, hr, hslot⟩ := (hI.mem_iff b).mp hmem
    have hclass := slot_class hb hslot
    subst hclass
    exact (hI'.mem_iff b).mpr
      ⟨b.toNat % directSize (i + 1), Nat.mod_lt _ hpos, slot_of_dvd hdvd hb hslot⟩
  · rw [List.getD_eq_getElem?_getD, List.getD_eq_getElem?_getD, hI.hits,
      hI'.hits, Option.getD_some, Option.getD_some]
    apply tally_mono
    intro past b hb hhit
    obtain ⟨a, ha, rfl⟩ := List.mem_map.mp hb
    have hne' := hne a (hpre.subset ha)
    exact decide_eq_true (slot_of_dvd hdvd hne' (of_decide_eq_true hhit))

/-- Blocks 0, 32 and 0 again: a conflict in 32 lines, a hit in 128. -/
theorem direct_inclusion_three :
    (∀ b, b ≠ filler →
        b ∈ (Sim.run [("L", "0x0"), ("L", "0x400"), ("S", "0x0")]).direct.getD
          0 [] →
        b ∈ (Sim.run [("L", "0x0"), ("L", "0x400"), ("S", "0x0")]).direct.getD
          1 [])
      ∧ (Sim.run [("L", "0x0"), ("L", "0x400"), ("S", "0x0")]).directHit.getD 0 0
        ≤ (Sim.run [("L", "0x0"), ("L", "0x400"), ("S", "0x0")]).directHit.getD
          1 0 :=
  direct_inclusion [("L", "0x0"), ("L", "0x400"), ("S", "0x0")] (by decide) _
    (List.prefix_refl _) 0 (by decide)

end SchoolStuff.CacheSim
