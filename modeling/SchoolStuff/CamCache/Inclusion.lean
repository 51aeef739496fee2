import SchoolStuff.CamCache.History
import SchoolStuff.CamCache.Simulation

/-!
# CamCache — inclusion of the set-associative caches

Two caches with the same sets and a different number of ways choose their
victims at different times, and still the smaller one never has a block
that the larger one has not: what a set holds is the recency window of its
part of the trace (`Holds.resident_iff`), and a window of more ways is
larger. This is so while the clock orders the accesses. With access number
`2 ^ 31 - 1` the successor of the clock wraps, row 0 is the victim whatever
it holds, and the inclusion is lost (`inclusion_lost`).
-/

namespace SchoolStuff.CamCache

open Recency (mru mru_mono tally tally_mono)
open WriteBack (keys history isMiss)

/-- The block of the address is in a valid line. -/
def Setup.Resident (c : Setup) (st : Cache) (taddr : Word) : Prop :=
  ∃ i, c.held st i = some (c.blockId taddr)

variable {k b o : Nat} {st : Cache} {trace : List Record}

/-- Set and tag identify a block, whatever the number of offset bits. -/
theorem blockId_blocks (c : Setup) :
    Blocks c c.blockId Prod.fst Prod.snd where
  set_eq _ := rfl
  tag_eq _ := rfl
  inj _ _ hset htag := Prod.ext hset htag

/-- The machine over blocks after a trace. -/
def lruById (k b o : Nat) (trace : List Record) :
    WriteBack.Cache BlockId Nat :=
  WriteBack.run Prod.fst k (accessesOf (setup k b o).blockId trace)

/-- **What is resident** is what the set of the block holds. -/
theorem Holds.resident_iff {t : Nat} (hk : 0 < k) (hb : b < 31)
    (h : Holds k b Prod.snd st (lruById k b o trace) t) (taddr : Word) :
    (setup k b o).Resident st taddr
      ↔ (setup k b o).blockId taddr ∈ mru k
        (history Prod.fst ((setup k b o).set taddr)
          (keys (accessesOf (setup k b o).blockId trace))) := by
  have hs : (setup k b o).set taddr < 2 ^ b := Setup.set_lt hb taddr
  obtain ⟨cam, ways, hcam, _, hways, _, hcontent⟩ := h.setHolds hs
  have hheld (i : Nat) : (setup k b o).held st i = _ :=
    held_ways rfl (k := k) rfl i
  rw [← WriteBack.keys_run hk, ← lruById, Setup.Resident, Setup.blockId]
  generalize (setup k b o).set taddr = s at *
  generalize (setup k b o).tag taddr = tag
  constructor
  · rintro ⟨i, hi⟩
    rw [hheld] at hi
    cases hv : (st.lines.at i).valid with
    | false => simp [hv] at hi
    | true =>
        simp only [hv, if_true, Option.map_eq_some_iff, Prod.mk.injEq] at hi
        obtain ⟨cam', hcam', hdiv, hrow⟩ := hi
        rw [hdiv, hcam, Option.some.injEq] at hcam'
        subst hcam'
        have hline : s * k + i % k = i := by
          rw [← hdiv, Nat.mul_comm, Nat.div_add_mod]
        have hway : i % k ∈ ways :=
          (hways _).mpr ⟨Nat.mod_lt i hk, by rw [hline]; exact hv⟩
        have hmem := List.mem_map_of_mem
          (f := fun j => (cam.row j, (st.lines.at (s * k + j)).dirty)) hway
        rw [hcontent, List.mem_map] at hmem
        obtain ⟨e, he, heq⟩ := hmem
        have hkey : e.1 ∈ keys ((lruById k b o trace).sets s) :=
          List.mem_map_of_mem he
        -- the block has the tag of the row, and is in the set of the row
        have hblock : e.1 = (s, tag) := by
          refine Prod.ext (WriteBack.mem_keys_run hk hkey).2 ?_
          rw [← hrow]
          exact congrArg Prod.fst heq
        rwa [hblock] at hkey
  · intro hkey
    obtain ⟨e, he, heq⟩ := List.mem_map.mp hkey
    have hmem := List.mem_map_of_mem
      (f := fun e : BlockId × Bool => (e.1.2, e.2)) he
    rw [← hcontent, List.mem_map] at hmem
    obtain ⟨j, hj, hrow⟩ := hmem
    obtain ⟨hjk, hv⟩ := (hways j).mp hj
    refine ⟨s * k + j, ?_⟩
    rw [hheld, hv, line_div hjk, line_mod hjk, hcam]
    simp only [if_true, Option.map_some, (Prod.mk.inj hrow).1, heq]

/-- What the simulator computes for `2 ^ b` sets of `k` ways. -/
theorem run_ways (hk : 0 < k) (hb : b < 31) (o : Nat) (trace : List Record)
    (htrace : trace.countP isAccess < 2 ^ 31 - 1) :
    ∃ st, run .S (k * 2 ^ b : Nat) o k trace = .ok (setup k b o, st)
      ∧ Holds k b Prod.snd st (lruById k b o trace) (trace.countP isAccess) := by
  obtain ⟨st, hrun, h⟩ := run_holds hk hb (blockId_blocks (setup k b o)) trace
    htrace
  refine ⟨st, ?_, h⟩
  rw [run, start_pow hk hb, ok_bind, hrun]
  rfl

/-- **Inclusion.** With one more way in every set, for every trace of fewer
than `2 ^ 31 - 1` accesses, a block that is resident without it is resident
with it, and there are no more misses. -/
theorem ways_inclusion (k b o : Nat) (hk : 0 < k) (hb : b < 31)
    (trace : List Record) (htrace : trace.countP isAccess < 2 ^ 31 - 1) :
    ∃ st st', run .S (k * 2 ^ b : Nat) o k trace = .ok (setup k b o, st)
      ∧ run .S ((k + 1) * 2 ^ b : Nat) o (k + 1 : Nat) trace
        = .ok (setup (k + 1) b o, st')
      ∧ (∀ taddr, (setup k b o).Resident st taddr →
        (setup (k + 1) b o).Resident st' taddr)
      ∧ st'.lines.misses ≤ st.lines.misses := by
  obtain ⟨st, hrun, h⟩ := run_ways hk hb o trace htrace
  obtain ⟨st', hrun', h'⟩ := run_ways (Nat.succ_pos k) hb o trace htrace
  refine ⟨st, st', hrun, hrun', ?_, ?_⟩
  · intro taddr hres
    rw [h.resident_iff hk hb] at hres
    rw [h'.resident_iff (Nat.succ_pos k) hb]
    exact mru_mono (Nat.le_succ k) _ hres
  · rw [h.misses, h'.misses, Int.ofNat_le, lruById, lruById,
      WriteBack.misses_run hk, WriteBack.misses_run (Nat.succ_pos k)]
    apply tally_mono
    intro pre x _ hmiss
    simp only [isMiss, Bool.not_eq_true', decide_eq_false_iff_not] at hmiss ⊢
    exact fun hmem => hmiss (mru_mono (Nat.le_succ k) _ hmem)

/-- Two blocks that take turns in one set, with one way and with two. -/
theorem ways_inclusion_three :
    ∃ st st', run .S (1 * 2 ^ 1 : Nat) 1 1
        [some ('R', 0), some ('R', 4), some ('W', 0)] = .ok (setup 1 1 1, st)
      ∧ run .S ((1 + 1) * 2 ^ 1 : Nat) 1 (1 + 1 : Nat)
        [some ('R', 0), some ('R', 4), some ('W', 0)] = .ok (setup 2 1 1, st')
      ∧ (∀ taddr, (setup 1 1 1).Resident st taddr →
        (setup 2 1 1).Resident st' taddr)
      ∧ st'.lines.misses ≤ st.lines.misses :=
  ways_inclusion 1 1 1 (by decide) (by decide) _ (by decide)

/-! ## Where the clock wraps -/

/-- Two ways after the blocks 1, 2, 3 and then 1 were read, the last one
until the clock is `time`. -/
def twoWays (time hits : Int) : Cache where
  lines := ⟨2, [⟨true, false, 3⟩, ⟨true, false, time - 1⟩], 4, hits, 0, time⟩
  fCam := none
  dTags := []
  sCams := [⟨2, [3, 1]⟩]

/-- Three ways after the same accesses. -/
def threeWays (time hits : Int) : Cache where
  lines := ⟨3, [⟨true, false, time - 1⟩, ⟨true, false, 2⟩, ⟨true, false, 3⟩], 3,
    hits, 0, time⟩
  fCam := none
  dTags := []
  sCams := [⟨3, [1, 2, 3]⟩]

/-- Reading a block again and again, up to the last value of the clock. -/
theorem foldlM_replicate {c : Setup} {r : Record} {st : Int → Int → Cache}
    (hstep : ∀ time hits, time < CInt.max → CInt.min ≤ time →
      step c (st time hits) r = .ok (st (time + 1) (hits + 1))) :
    ∀ (n : Nat) (time hits : Int), CInt.min ≤ time → time + n ≤ CInt.max →
      (List.replicate n r).foldlM (step c) (st time hits)
        = .ok (st (time + n) (hits + n)) := by
  intro n
  induction n with
  | zero =>
      intro time hits _ _
      simp [pure, Except.pure]
  | succ n ih =>
      intro time hits hmin hmax
      rw [List.replicate_succ, List.foldlM_cons, hstep time hits (by omega) hmin,
        ok_bind, ih _ _ (by omega) (by omega)]
      push_cast
      rw [Int.add_assoc, Int.add_assoc, Int.add_comm 1]

theorem twoWays_hit (time hits : Int) (hlt : time < CInt.max)
    (hmin : CInt.min ≤ time) :
    step (setup 2 0 0) (twoWays time hits) (some ('R', 1))
      = .ok (twoWays (time + 1) (hits + 1)) := by
  have hint : CInt.InRange (time + 1) := ⟨by omega, by omega⟩
  have hstep : step (setup 2 0 0) (twoWays time hits) (some ('R', 1))
      = .ok ⟨⟨2, [⟨true, false, 3⟩, ⟨true, false, time⟩], 4, hits + 1, 0,
        CInt.wrap (time + 1)⟩, none, [], [⟨2, [3, 1]⟩]⟩ := rfl
  rw [hstep, CInt.wrap_of_inRange hint, twoWays, Int.add_sub_cancel]

theorem threeWays_hit (time hits : Int) (hlt : time < CInt.max)
    (hmin : CInt.min ≤ time) :
    step (setup 3 0 0) (threeWays time hits) (some ('R', 1))
      = .ok (threeWays (time + 1) (hits + 1)) := by
  have hint : CInt.InRange (time + 1) := ⟨by omega, by omega⟩
  have hstep : step (setup 3 0 0) (threeWays time hits) (some ('R', 1))
      = .ok ⟨⟨3, [⟨true, false, time⟩, ⟨true, false, 2⟩, ⟨true, false, 3⟩], 3,
        hits + 1, 0, CInt.wrap (time + 1)⟩, none, [], [⟨3, [1, 2, 3]⟩]⟩ := rfl
  rw [hstep, CInt.wrap_of_inRange hint, threeWays, Int.add_sub_cancel]

/-- The blocks 1, 2, 3 and 1, then block 1 again `n` times, and block 4. -/
def rereads (n : Nat) : List Record :=
  [some ('R', 1), some ('R', 2), some ('R', 3), some ('R', 1)]
    ++ (List.replicate n (some ('R', 1)) ++ [some ('R', 4)])

theorem rereads_count (n : Nat) : (rereads n).countP isAccess = n + 5 := by
  have hread : ∀ taddr : Word, isAccess (some ('R', taddr)) = true :=
    fun _ => rfl
  simp only [rereads, List.countP_append, List.countP_replicate, hread,
    List.countP_cons_of_pos, List.countP_nil, if_true]
  omega

/-- The run of that trace to the last value of the clock, once the states in
which block 1 is read again and again are known. -/
theorem run_rereads {k n : Nat} {st : Int → Int → Cache} {last : Cache}
    (hn : 5 + (n : Int) = CInt.max)
    (hstart : start .S k 0 k = .ok (setup k 0 0, emptyCache k 0))
    (hfirst : [some ('R', (1 : Word)), some ('R', 2), some ('R', 3),
        some ('R', 1)].foldlM (step (setup k 0 0)) (emptyCache k 0)
      = .ok (st 5 4))
    (hstep : ∀ time hits, time < CInt.max → CInt.min ≤ time →
      step (setup k 0 0) (st time hits) (some ('R', 1))
        = .ok (st (time + 1) (hits + 1)))
    (hlast : step (setup k 0 0) (st CInt.max (CInt.max - 1)) (some ('R', 4))
      = .ok last) :
    run .S k 0 k (rereads n) = .ok (setup k 0 0, last) := by
  have hmany := foldlM_replicate hstep n 5 4 (by decide) (Int.le_of_eq hn)
  rw [hn, show (4 : Int) + n = CInt.max - 1 by omega] at hmany
  rw [run, hstart, ok_bind, rereads, List.foldlM_append, hfirst, ok_bind,
    List.foldlM_append, hmany, ok_bind, List.foldlM_cons]
  simp only [hlast, ok_bind]
  rfl

/-- **Where the clock wraps, the inclusion is lost.** Block 1 stays in the
set of two ways, and is the victim in the set of three. -/
theorem rereads_lost {n : Nat} (hn : 5 + (n : Int) = CInt.max) :
    ∃ st st', run .S 2 0 2 (rereads n) = .ok (setup 2 0 0, st)
      ∧ run .S 3 0 3 (rereads n) = .ok (setup 3 0 0, st')
      ∧ (setup 2 0 0).Resident st 1 ∧ ¬ (setup 3 0 0).Resident st' 1 := by
  refine ⟨_, ⟨⟨3, [⟨true, false, CInt.max⟩, ⟨true, false, 2⟩, ⟨true, false, 3⟩],
      4, CInt.max, 0, CInt.min⟩, none, [], [⟨3, [4, 2, 3]⟩]⟩,
    run_rereads (k := 2) hn rfl rfl twoWays_hit rfl,
    run_rereads (k := 3) hn rfl rfl threeWays_hit rfl, ⟨1, rfl⟩, ?_⟩
  rintro ⟨i, hi⟩
  rcases i with _ | _ | _ | i
  · exact absurd hi (by decide)
  · exact absurd hi (by decide)
  · exact absurd hi (by decide)
  · simp [Setup.held, Lines.at] at hi

/-- The trace with `2 ^ 31 - 1` accesses. -/
theorem inclusion_lost :
    (rereads 2147483642).countP isAccess = 2 ^ 31 - 1
      ∧ ∃ st st', run .S 2 0 2 (rereads 2147483642) = .ok (setup 2 0 0, st)
        ∧ run .S 3 0 3 (rereads 2147483642) = .ok (setup 3 0 0, st')
        ∧ (setup 2 0 0).Resident st 1 ∧ ¬ (setup 3 0 0).Resident st' 1 :=
  ⟨rereads_count 2147483642, rereads_lost rfl⟩

end SchoolStuff.CamCache
