import Mathlib.Tactic.IntervalCases
import SchoolStuff.Lib.Recency
import SchoolStuff.CacheSim.Basic

/-!
# CacheSim — `find` without flags is exact LRU

The recency order of a set is encoded only in positions of a vector that
is erased from and appended to. `refresh` is what one allocating call of
`find` does to its set; on a set padded in front with fillers it is one
`touch` of the recency queue (`refresh_padded`), so each set always holds
the padded recency window of the blocks that map to it (`LruAt`).
-/

namespace SchoolStuff.CacheSim

open SchoolStuff.Recency

/-! ## One set -/

/-- What an allocating call does to its set: the block ends up last, in
the place of its old entry or of the front entry. -/
def refresh (v : List UInt32) (b : UInt32) : List UInt32 :=
  (if b ∈ v then v.erase b else v.tail) ++ [b]

theorem findIdx?_none {v : List UInt32} {b : UInt32} (h : b ∉ v) :
    v.findIdx? (· == b) = none := by
  rw [List.findIdx?_eq_none_iff]
  intro x hx
  simp only [beq_eq_false_iff_ne]
  rintro rfl
  exact h hx

/-- The scan stops at the first copy of the block, so erasing at the index
it stops at is erasing the block. -/
theorem findIdx?_some {v : List UInt32} {b : UInt32} (h : b ∈ v) :
    ∃ j, v.findIdx? (· == b) = some j ∧ v.eraseIdx j = v.erase b := by
  cases hj : v.findIdx? (· == b) with
  | none =>
      rw [List.findIdx?_eq_none_iff] at hj
      simpa using hj b h
  | some j =>
      refine ⟨j, rfl, ?_⟩
      rw [List.erase_eq_eraseIdx, List.idxOf?, hj]

/-- A set of `w` lines that holds the queue `q` behind fillers. -/
def padded (w : Nat) (q : List UInt32) : List UInt32 :=
  List.replicate (w - q.length) filler ++ q

theorem mem_padded {w : Nat} {q : List UInt32} {b : UInt32}
    (hb : b ≠ filler) : b ∈ padded w q ↔ b ∈ q := by
  simp [padded, List.mem_replicate, hb]

/-- **One allocating call on a padded set is one access of the queue.** -/
theorem refresh_padded {w : Nat} {q : List UInt32} {b : UInt32}
    (hw : 0 < w) (hq : q.length ≤ w) (hb : b ≠ filler) :
    refresh (padded w q) b = padded w (touch w q b) := by
  rw [refresh, touch]
  by_cases hmem : b ∈ q
  · have hpos : 0 < q.length := List.length_pos_of_mem hmem
    have hrep : b ∉ List.replicate (w - q.length) filler := by
      simp [List.mem_replicate, hb]
    rw [if_pos ((mem_padded hb).mpr hmem), if_pos hmem, padded,
      List.erase_append_right _ hrep, padded, List.length_append,
      List.length_erase_of_mem hmem, List.length_singleton,
      show q.length - 1 + 1 = q.length from by omega, List.append_assoc]
  · rw [if_neg (fun h => hmem ((mem_padded hb).mp h)), if_neg hmem]
    by_cases hroom : q.length < w
    · -- a filler is still in front, and it is what gets replaced
      rw [if_pos hroom, padded, padded, List.length_append,
        List.length_singleton,
        show w - q.length = (w - (q.length + 1)) + 1 from by omega,
        List.replicate_succ, List.cons_append, List.tail_cons,
        List.append_assoc]
    · rw [if_neg hroom, padded, padded, List.length_append, List.length_tail,
        List.length_singleton, show w - q.length = 0 from by omega,
        show w - (q.length - 1 + 1) = 0 from by omega]
      rfl

/-! ## One call of `find` -/

@[simp] theorem Store.size_hit (st : Store) (i j : Nat) :
    (st.hit i).size j = st.size j := rfl

@[simp] theorem Store.lines_hit (st : Store) (i j s : Nat) :
    (st.hit i).lines j s = st.lines j s := rfl

theorem Store.sets_hit_self (st : Store) (i : Nat) :
    (st.hit i).sets[i]? = st.sets[i]?.map (· + 1) := by
  rw [Store.hit, List.getElem?_modify_eq]
  rfl

theorem Store.sets_hit_ne (st : Store) {i j : Nat} (h : i ≠ j) :
    (st.hit i).sets[j]? = st.sets[j]? := by
  rw [Store.hit, List.getElem?_modify_ne _ _ h]

@[simp] theorem Store.size_put (st : Store) (i s j : Nat) (v : List UInt32) :
    (st.put i s v).size j = st.size j := by
  simp only [Store.size, Store.put, List.getD_eq_getElem?_getD,
    List.getElem?_modify]
  by_cases hij : i = j
  · cases st.setAss[j]? <;> simp [hij]
  · cases st.setAss[j]? <;> simp [hij]

@[simp] theorem Store.sets_put (st : Store) (i s : Nat) (v : List UInt32) :
    (st.put i s v).sets = st.sets := rfl

theorem Store.lines_put_self {st : Store} {i s : Nat} (v : List UInt32)
    (hs : s < st.size i) : (st.put i s v).lines i s = v := by
  simp only [Store.lines, Store.put, List.getD_eq_getElem?_getD,
    List.getElem?_modify]
  simp only [Store.size, List.getD_eq_getElem?_getD] at hs
  cases hi : st.setAss[i]? with
  | none => simp [hi] at hs
  | some cache => simp_all

theorem Store.lines_put_ne {st : Store} {i s j t : Nat} (v : List UInt32)
    (h : i ≠ j ∨ s ≠ t) : (st.put i s v).lines j t = st.lines j t := by
  simp only [Store.lines, Store.put, List.getD_eq_getElem?_getD,
    List.getElem?_modify]
  cases hj : st.setAss[j]? with
  | none => simp
  | some cache =>
      rcases h with h | h
      · simp [h]
      · by_cases hij : i = j
        · simp [hij, h]
        · simp [hij]

/-- A call that finds its block moves it to the back of its set. -/
theorem find_of_mem {st : Store} {a : Access} {i : Nat} {prefetch : Bool}
    (lmiss : Bool)
    (h : target a prefetch ∈
      st.lines i ((target a prefetch).toNat % st.size i)) :
    find st lmiss a i prefetch
      = (true, (if prefetch then st else st.hit i).put i
          ((target a prefetch).toNat % st.size i)
          (refresh (st.lines i ((target a prefetch).toNat % st.size i))
            (target a prefetch))) := by
  obtain ⟨j, hj, herase⟩ := findIdx?_some h
  simp only [find, hj, herase, refresh, if_pos h]

/-- A call that misses replaces the front of its set, unless it is a store
under `lmiss`. -/
theorem find_of_not_mem {st : Store} {a : Access} {i : Nat}
    {prefetch : Bool} (lmiss : Bool)
    (h : target a prefetch ∉
      st.lines i ((target a prefetch).toNat % st.size i)) :
    find st lmiss a i prefetch
      = (false, if lmiss && !(a.1 == "L") then st
          else st.put i ((target a prefetch).toNat % st.size i)
            (refresh (st.lines i ((target a prefetch).toNat % st.size i))
              (target a prefetch))) := by
  simp only [find, findIdx?_none h, refresh, if_neg h]
  cases lmiss <;> cases a.1 == "L" <;> rfl

/-! ## The invariant of a configuration -/

/-- The blocks of a history that map to set `s` of `n`, in order. -/
def setHistory (n s : Nat) (h : List UInt32) : List UInt32 :=
  h.filter fun b => b.toNat % n = s

/-- Exact LRU with `w` ways and `n` sets hits on `b` after `h`. -/
def lruHit (w n : Nat) (h : List UInt32) (b : UInt32) : Bool :=
  b ∈ mru w (setHistory n (b.toNat % n) h)

theorem setHistory_append (n s : Nat) (h : List UInt32) (b : UInt32) :
    setHistory n s (h ++ [b])
      = if b.toNat % n = s then setHistory n s h ++ [b]
        else setHistory n s h := by
  by_cases hs : b.toNat % n = s <;>
    simp [setHistory, List.filter_append, hs]

/-- **The LRU invariant** after the history `h` of a configuration `i`
with `n` sets of `w` ways: each set is the padded recency window of its
blocks, and the hit counter has counted the accesses whose block was in
that window. -/
structure LruAt (st : Store) (i w n : Nat) (h : List UInt32) : Prop where
  size : st.size i = n
  lines : ∀ s, s < n →
    st.lines i s = padded w (mru w (setHistory n s h))
  sets : st.sets[i]? = some (tally (lruHit w n) h)

/-- A configuration of fillers with a zero counter satisfies the invariant
for the empty history. -/
theorem LruAt.nil {st : Store} {i w n : Nat}
    (hcache : st.setAss.getD i []
      = List.replicate n (List.replicate w filler))
    (hzero : st.sets[i]? = some 0) : LruAt st i w n [] := by
  refine ⟨?_, ?_, hzero⟩
  · rw [Store.size, hcache, List.length_replicate]
  · intro s hs
    rw [Store.lines, hcache, List.getD_eq_getElem?_getD,
      List.getElem?_replicate, if_pos hs]
    simp [setHistory, padded]

/-- Hit or miss, the sets after a plain call are those of one `put`. -/
theorem LruAt.lines_put {st st' : Store} {i w n : Nat} {h : List UInt32}
    (hI : LruAt st i w n h) (hw : 0 < w) {b : UInt32} (hb : b ≠ filler)
    (hst' : st'.setAss = st.setAss) {s : Nat} (hs : s < n) :
    (st'.put i (b.toNat % n) (refresh (st.lines i (b.toNat % n)) b)).lines i s
      = padded w (mru w (setHistory n s (h ++ [b]))) := by
  have hsize : st'.size i = n := by
    rw [Store.size, hst', ← Store.size, hI.size]
  rw [setHistory_append]
  by_cases hsb : b.toNat % n = s
  · subst hsb
    rw [if_pos rfl, Store.lines_put_self _ (by omega), hI.lines _ hs,
      refresh_padded hw (mru_length_le w _) hb, ← mru_append hw]
  · rw [if_neg hsb, Store.lines_put_ne _ (Or.inr hsb), ← hI.lines s hs,
      Store.lines, hst', ← Store.lines]

/-- The lookup of a plain call is the hit test of exact LRU. -/
theorem LruAt.mem_lines {st : Store} {i w n : Nat} {h : List UInt32}
    (hI : LruAt st i w n h) (hn : 0 < n) {b : UInt32} (hb : b ≠ filler) :
    b ∈ st.lines i (b.toNat % n) ↔ lruHit w n h b = true := by
  rw [hI.lines _ (Nat.mod_lt _ hn), mem_padded hb, lruHit, decide_eq_true_eq]

/-- **Step lemma**: one plain call of `find` on configuration `i` extends
the history by the block it looked up. -/
theorem LruAt.find {st : Store} {i w n : Nat} {h : List UInt32}
    (hI : LruAt st i w n h) (hw : 0 < w) (hn : 0 < n) {a : Access}
    (ha : block a ≠ filler) :
    LruAt (find st false a i false).2 i w n (h ++ [block a]) := by
  by_cases hmem : block a ∈ st.lines i ((block a).toNat % n)
  · have hq := (hI.mem_lines hn ha).mp hmem
    have htarget : target a false ∈
        st.lines i ((target a false).toNat % st.size i) := by
      simpa [target, hI.size] using hmem
    have hfind := find_of_mem false htarget
    simp only [target, hI.size, Bool.false_eq_true, if_false] at hfind
    rw [hfind]
    constructor
    · simp [hI.size]
    · intro s hs
      exact hI.lines_put hw ha rfl hs
    · rw [tally_append, hq, Store.sets_put, Store.sets_hit_self, hI.sets]
      rfl
  · have hq := eq_false_of_ne_true (mt (hI.mem_lines hn ha).mpr hmem)
    have htarget : target a false ∉
        st.lines i ((target a false).toNat % st.size i) := by
      simpa [target, hI.size] using hmem
    have hfind := find_of_not_mem false htarget
    simp only [target, hI.size, Bool.false_eq_true, if_false,
      Bool.false_and] at hfind
    rw [hfind]
    constructor
    · simp [hI.size]
    · intro s hs
      exact hI.lines_put hw ha rfl hs
    · rw [tally_append, hq, Store.sets_put, hI.sets]
      rfl

/-- Frame: a call on another configuration leaves configuration `j`
alone. -/
theorem find_frame (st : Store) {i j : Nat} (hij : i ≠ j) (lmiss : Bool)
    (a : Access) (prefetch : Bool) :
    (find st lmiss a i prefetch).2.size j = st.size j
      ∧ (∀ s, (find st lmiss a i prefetch).2.lines j s = st.lines j s)
      ∧ (find st lmiss a i prefetch).2.sets[j]? = st.sets[j]? := by
  by_cases hmem : target a prefetch ∈
      st.lines i ((target a prefetch).toNat % st.size i)
  · rw [find_of_mem lmiss hmem]
    cases prefetch with
    | true => simp [Store.lines_put_ne _ (Or.inl hij)]
    | false =>
        simp [Store.lines_put_ne _ (Or.inl hij), Store.sets_hit_ne st hij]
  · rw [find_of_not_mem lmiss hmem]
    split
    · exact ⟨rfl, fun s => rfl, rfl⟩
    · simp [Store.lines_put_ne _ (Or.inl hij)]

theorem LruAt.frame {st : Store} {i j w n : Nat} {h : List UInt32}
    (hI : LruAt st j w n h) (hij : i ≠ j) (a : Access) :
    LruAt (CacheSim.find st false a i false).2 j w n h := by
  obtain ⟨hsize, hlines, hsets⟩ := find_frame st hij false a false
  exact ⟨by rw [hsize, hI.size], fun s hs => by rw [hlines, hI.lines s hs],
    by rw [hsets, hI.sets]⟩

/-! ## The run of the plain policy -/

/-- Associativity of configuration `i`. -/
def ways (i : Nat) : Nat := 2 ^ (i + 1)

/-- Number of sets of configuration `i`. -/
def numSets (i : Nat) : Nat := 512 / ways i

theorem ways_pos (i : Nat) : 0 < ways i := Nat.pow_pos (by decide)

theorem numSets_pos {i : Nat} (hi : i < 4) : 0 < numSets i := by
  interval_cases i <;> decide

theorem lruAt_init {i : Nat} (hi : i < 4) :
    LruAt Store.init i (ways i) (numSets i) [] := by
  have hassoc : assocs[i]? = some (ways i) := by
    interval_cases i <;> rfl
  refine LruAt.nil ?_ (by interval_cases i <;> rfl)
  rw [Store.init, List.getD_eq_getElem?_getD, List.getElem?_map, hassoc]
  rfl

/-- What one turn of the trace loop does to `set_ass` and `sets1`. -/
def plainStep (st : Store) (a : Access) : Store :=
  (List.range 4).foldl (fun st i => (find st false a i false).2) st

theorem configStep_store1 (s : Sim) (a : Access) (i : Nat) :
    (s.configStep a i).store1 = (find s.store1 false a i false).2 := by
  simp only [Sim.configStep, Sim.directStep]
  split <;> rfl

theorem step_store1 (s : Sim) (a : Access) :
    (s.step a).store1 = plainStep s.store1 a := by
  have hlast : ∀ (s : Sim) b, ((s.fullAssStep b).hotColdStep b).store1 = s.store1 := by
    intro s b
    rw [Sim.hotColdStep_frame, Sim.fullAssStep_frame]
  rw [Sim.step, hlast, plainStep]
  exact (List.foldl_hom Sim.store1
    (fun s i => (configStep_store1 s a i).symm)).symm

/-- One call for each of several configurations extends the history of
exactly these. -/
theorem LruAt.foldl {a : Access} (ha : block a ≠ filler) {j w n : Nat}
    (hw : 0 < w) (hn : 0 < n) {h : List UInt32} :
    ∀ (l : List Nat) (st : Store), l.Nodup → LruAt st j w n h →
    LruAt (l.foldl (fun st i => (CacheSim.find st false a i false).2) st) j
      w n (if j ∈ l then h ++ [block a] else h) := by
  intro l
  induction l generalizing h with
  | nil => intro st _ hI; simpa using hI
  | cons i l ih =>
      intro st hnd hI
      obtain ⟨hil, hnd'⟩ := List.nodup_cons.mp hnd
      rw [List.foldl_cons]
      by_cases hij : i = j
      · subst hij
        have := ih _ hnd' (hI.find hw hn ha)
        simpa [hil] using this
      · have := ih _ hnd' (hI.frame hij a)
        simpa [Ne.symm hij] using this

/-- **Run lemma**: the invariant holds after every trace without filler
blocks. -/
theorem run_lruAt {i : Nat} (hi : i < 4) (input : List Access)
    (hne : ∀ a ∈ input, block a ≠ filler) :
    LruAt (Sim.run input).store1 i (ways i) (numSets i)
      (input.map block) := by
  induction input using List.reverseRecOn with
  | nil => exact lruAt_init hi
  | append_singleton input a ih =>
      have hI := ih (fun x hx => hne x (by simp [hx]))
      have hstep := LruAt.foldl (hne a (by simp)) (ways_pos i)
        (numSets_pos hi) (List.range 4) _ List.nodup_range hI
      rw [if_pos (List.mem_range.mpr hi)] at hstep
      rw [Sim.run_append, List.map_append, List.map_singleton, step_store1]
      exact hstep

/-- **`find` with `lmiss = false` and `prefetch = false` is exact LRU.**
After any prefix `pre` of a trace without filler blocks, every set of the
plain caches holds fillers followed by the most recently used distinct
blocks of the set, least recent first, and `sets1` counts the accesses
whose block was among them. -/
theorem plain_policy_exact_lru (input : List Access)
    (hne : ∀ a ∈ input, block a ≠ filler) (pre : List Access)
    (hpre : pre <+: input) (i : Nat) (hi : i < 4) :
    (∀ s, s < numSets i →
      (Sim.run pre).store1.lines i s
        = padded (ways i)
            (mru (ways i) (setHistory (numSets i) s (pre.map block))))
      ∧ (Sim.run pre).store1.sets[i]?
        = some (tally (lruHit (ways i) (numSets i)) (pre.map block)) := by
  have hI := run_lruAt hi pre (fun a ha => hne a (hpre.subset ha))
  exact ⟨hI.lines, hI.sets⟩

/-- The trace `L 0x40, S 0x60, L 0x40` at the two-way configuration. -/
theorem plain_policy_exact_lru_three :
    (∀ s, s < numSets 0 →
      (Sim.run [("L", "0x40"), ("S", "0x60"), ("L", "0x40")]).store1.lines 0 s
        = padded (ways 0) (mru (ways 0) (setHistory (numSets 0) s
            ([("L", "0x40"), ("S", "0x60"), ("L", "0x40")].map block))))
      ∧ (Sim.run [("L", "0x40"), ("S", "0x60"), ("L", "0x40")]).store1.sets[0]?
        = some (tally (lruHit (ways 0) (numSets 0))
            ([("L", "0x40"), ("S", "0x60"), ("L", "0x40")].map block)) :=
  plain_policy_exact_lru [("L", "0x40"), ("S", "0x60"), ("L", "0x40")]
    (by decide) _ (List.prefix_refl _) 0 (by decide)

end SchoolStuff.CacheSim
