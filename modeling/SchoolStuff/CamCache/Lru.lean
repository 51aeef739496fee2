import SchoolStuff.CamCache.Simulation

/-!
# CamCache — exact LRU

What the simulation gives for the set-associative type, in terms of the
trace: every set holds the most recently used blocks of its part of the
trace, and the misses are the accesses to other blocks, as long as the
clock and its successor are `int`s.
-/

namespace SchoolStuff.CamCache

open Recency (mru tally)
open WriteBack (keys history isMiss)

/-- The state after a trace is that of an exact write-back, write-allocate
LRU cache of `2 ^ b` sets of `k` lines. -/
structure ExactLru (k b o : Nat) (trace : List Record) (st : Cache) :
    Prop where
  /-- The lines hold the blocks and dirty bits of the machine. -/
  sets : ∀ s, s < 2 ^ b → SetHolds k (blockTag k b o) st s
    ((lru k b o trace).sets s)
  /-- These blocks are the `k` most recently used ones of the set. -/
  window : ∀ s, keys ((lru k b o trace).sets s)
    = mru k (history (· % 2 ^ b) s (keys (accesses o trace)))
  misses : st.lines.misses
    = tally (isMiss (· % 2 ^ b) k) (keys (accesses o trace))
  writes : st.lines.writes = (lru k b o trace).writes
  /-- The victim of a full set is the front of its window. -/
  victim : ∀ s a, s < 2 ^ b →
    (mru k (history (· % 2 ^ b) s (keys (accesses o trace)))).length = k →
    (mru k (history (· % 2 ^ b) s (keys (accesses o trace)))).head? = some a →
    Evicts k (blockTag k b o) st s a
  /-- The clock and its successor are `int`s. -/
  clock : st.lines.time + 1 < 2 ^ 31

theorem Holds.exactLru {k b o : Nat} {trace : List Record} {st : Cache}
    (hk : 0 < k) (htrace : trace.countP isAccess < 2 ^ 31 - 2)
    (h : Holds k b (blockTag k b o) st (lru k b o trace)
      (trace.countP isAccess)) : ExactLru k b o trace st := by
  have hwindow : ∀ s, keys ((lru k b o trace).sets s)
      = mru k (history (· % 2 ^ b) s (keys (accesses o trace))) :=
    fun s => WriteBack.keys_run hk (accesses o trace) s
  constructor
  · exact fun s hs => h.setHolds hs
  · exact hwindow
  · rw [h.misses, lru, WriteBack.misses_run hk]
  · exact h.writes
  · intro s a hs hfull hhead
    rw [← hwindow, keys, List.length_map] at hfull
    rw [← hwindow, keys, List.head?_map, Option.map_eq_some_iff] at hhead
    obtain ⟨e, he, rfl⟩ := hhead
    have hint : CInt.InRange (st.lines.time + 1) := by
      rw [h.time, CInt.inRange_iff]
      omega
    exact h.evicts hk hint hs hfull he
  · rw [h.time]
    omega

/-- **The set-associative type is exact LRU.** For every configuration that
passes the assertions of the start-up and has fewer than 64 offset and set
bits, and for every trace of fewer than `2 ^ 31 - 2` accesses, no assertion
fails and the state is that of an exact write-back LRU cache. -/
theorem setMode_exact_lru (cacheLines ways : Int) (o : Nat) (c : Setup)
    (st₀ : Cache) (hstart : start .S cacheLines o ways = .ok (c, st₀))
    (hbits : o + c.setBits < 64) (trace : List Record)
    (htrace : trace.countP isAccess < 2 ^ 31 - 2) :
    ∃ (k : Nat) (st : Cache), ways = k ∧ 0 < k
      ∧ cacheLines = (k * 2 ^ c.setBits : Nat)
      ∧ run .S cacheLines o ways trace = .ok (c, st)
      ∧ ExactLru k c.setBits o trace st := by
  obtain ⟨k, b, hg, rfl, rfl, rfl, rfl⟩ := start_S hstart hbits
  obtain ⟨st, hrun, h⟩ := run_holds hg.ways hg.setBits hg.blocks trace (by omega)
  refine ⟨k, st, rfl, hg.ways, rfl, ?_, h.exactLru hg.ways htrace⟩
  rw [run, hstart, ok_bind, hrun]
  rfl

theorem setMode_exact_lru_three :
    ∃ (k : Nat) (st : Cache), (2 : Int) = k ∧ 0 < k
      ∧ (4 : Int) = (k * 2 ^ (setup 2 1 1).setBits : Nat)
      ∧ run .S 4 1 2 [some ('R', 5), none, some ('W', 8)]
        = .ok (setup 2 1 1, st)
      ∧ ExactLru k (setup 2 1 1).setBits 1
        [some ('R', 5), none, some ('W', 8)] st :=
  setMode_exact_lru 4 2 1 (setup 2 1 1) (emptyCache 2 1) (by decide +kernel)
    (by decide) _ (by decide)

end SchoolStuff.CamCache
