import SchoolStuff.CacheSim.Flags

/-!
# CacheSim — the direct-mapped step is `find` on one way

A direct-mapped cache overwrites a slot in place, `find` erases from the
front of a set and appends to it. On sets of one way the two are one
program: slot `r` of the one is set `r` of the other (`OneWay`), and each
access keeps them so (`OneWay.step`).
-/

namespace SchoolStuff.CacheSim

/-- The simulator with one direct-mapped cache, of `n` slots. -/
def oneDirect (n : Nat) : Sim :=
  { Sim.init with direct := [List.replicate n filler], directHit := [0] }

/-- Its state after the direct-mapped steps for the accesses. -/
def directRun (n : Nat) (input : List Access) : Sim :=
  input.foldl (fun s a => s.directStep (block a) 0) (oneDirect n)

/-- Plain calls of `find` on `n` sets of one way, one for each access. -/
def oneWayRun (n : Nat) (input : List Access) : Store :=
  input.foldl (fun st a => (find st false a 0 false).2) (Store.fillers [(n, 1)])

/-- The caches have the same blocks in the same places, and the same
counts. -/
structure OneWay (n : Nat) (s : Sim) (st : Store) : Prop where
  slots : ∃ cache, s.direct = [cache] ∧ cache.length = n
    ∧ st.setAss = [cache.map fun b => [b]]
  hits : ∃ hits, s.directHit = [hits] ∧ st.sets = [hits]

theorem refresh_singleton (x b : UInt32) : refresh [x] b = [b] := by
  by_cases hb : b = x
  · simp [refresh, hb]
  · simp [refresh, hb]

theorem oneWay_init (n : Nat) : OneWay n (oneDirect n) (Store.fillers [(n, 1)]) := by
  constructor
  · exact ⟨List.replicate n filler, rfl, List.length_replicate,
      by simp [Store.fillers]⟩
  · exact ⟨0, rfl, rfl⟩

/-- Both write block `b` to one place. -/
theorem put_singleton {st : Store} {cache : List UInt32}
    (h : st.setAss = [cache.map fun b => [b]]) (r : Nat) (b : UInt32) :
    (st.put 0 r [b]).setAss = [(cache.set r b).map fun b => [b]] := by
  rw [Store.put, h, List.map_set]
  rfl

/-- **Step lemma.** -/
theorem OneWay.step {n : Nat} {s : Sim} {st : Store} (h : OneWay n s st)
    (hn : 0 < n) (a : Access) :
    OneWay n (s.directStep (block a) 0) (find st false a 0 false).2 := by
  obtain ⟨cache, hcache, hlen, hsets⟩ := h.slots
  obtain ⟨hits, hhits, hcount⟩ := h.hits
  have hsize : st.size 0 = cache.length := by
    simp [Store.size, hsets]
  have hr : (block a).toNat % cache.length < cache.length :=
    Nat.mod_lt _ (hlen.symm ▸ hn)
  generalize hr' : (block a).toNat % cache.length = r at hr
  have hline : st.lines 0 r = [cache[r]] := by
    simp [Store.lines, hsets, hr]
  have hslot : s.direct.getD 0 [] = cache := by
    rw [hcache]
    rfl
  have hget : cache.getD r 0 = cache[r] := by
    simp [hr]
  simp only [Sim.directStep, hslot, hr', hget]
  by_cases hhit : cache[r] = block a
  · have hmem : target a false ∈
        st.lines 0 ((target a false).toNat % st.size 0) := by
      show block a ∈ st.lines 0 ((block a).toNat % st.size 0)
      rw [hsize, hr', hline, hhit]
      exact List.mem_singleton_self _
    have hfind := find_of_mem false hmem
    simp only [target, Bool.false_eq_true, if_false, hsize, hr', hline,
      refresh_singleton] at hfind
    rw [hfind, if_pos hhit]
    constructor
    · -- the set gets the block that it has
      refine ⟨cache, hcache, hlen, ?_⟩
      have hsame : cache.set r (block a) = cache := by
        rw [← hhit]
        exact List.set_getElem_self hr
      rw [put_singleton (show (st.hit 0).setAss = _ from hsets), hsame]
    · exact ⟨hits + 1, by simp [hhits], by simp [Store.hit, hcount]⟩
  · have hmem : target a false ∉
        st.lines 0 ((target a false).toNat % st.size 0) := by
      show block a ∉ st.lines 0 ((block a).toNat % st.size 0)
      rw [hsize, hr', hline, List.mem_singleton]
      exact Ne.symm hhit
    have hfind := find_of_not_mem false hmem
    simp only [target, Bool.false_eq_true, if_false, hsize, hr', hline,
      refresh_singleton, Bool.false_and] at hfind
    rw [hfind, if_neg hhit]
    constructor
    · refine ⟨cache.set r (block a), ?_, by simp [hlen],
        put_singleton hsets r (block a)⟩
      show s.direct.modify 0 _ = _
      rw [hcache, ← hr']
      rfl
    · exact ⟨hits, hhits, hcount⟩

/-- **Run lemma.** -/
theorem oneWay_foldl {n : Nat} (hn : 0 < n) (input : List Access) {s : Sim}
    {st : Store} (h : OneWay n s st) :
    OneWay n (input.foldl (fun s a => s.directStep (block a) 0) s)
      (input.foldl (fun st a => (find st false a 0 false).2) st) := by
  induction input generalizing s st with
  | nil => exact h
  | cons a input ih => exact ih (h.step hn a)

/-- **The direct-mapped cache and `find` on one way agree**, in contents
and in hits, after every trace. -/
theorem directRun_eq_oneWayRun (n : Nat) (hn : 0 < n) (input : List Access) :
    (oneWayRun n input).setAss
        = (directRun n input).direct.map (List.map fun b => [b])
      ∧ (oneWayRun n input).sets = (directRun n input).directHit := by
  have h := oneWay_foldl hn input (oneWay_init n)
  obtain ⟨cache, hcache, _, hsets⟩ := h.slots
  obtain ⟨hits, hhits, hcount⟩ := h.hits
  constructor
  · rw [oneWayRun, directRun, hsets, hcache]
    rfl
  · rw [oneWayRun, directRun, hcount, hhits]

/-- Two blocks that share one of two slots. -/
theorem directRun_eq_oneWayRun_two :
    (oneWayRun 2 [("L", "0x40"), ("S", "0x80")]).setAss
        = (directRun 2 [("L", "0x40"), ("S", "0x80")]).direct.map
            (List.map fun b => [b])
      ∧ (oneWayRun 2 [("L", "0x40"), ("S", "0x80")]).sets
        = (directRun 2 [("L", "0x40"), ("S", "0x80")]).directHit :=
  directRun_eq_oneWayRun 2 (by decide) [("L", "0x40"), ("S", "0x80")]

end SchoolStuff.CacheSim
