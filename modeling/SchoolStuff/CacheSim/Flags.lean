import SchoolStuff.CacheSim.Lru

/-!
# CacheSim — `find` under every flag

One function serves the four set-associative policies by two flags. What
it does to the configuration it is called on does not depend on how the
caches came about, only on the shape of their sets: `ConfigOk` is that
shape, every call keeps it (`ConfigOk.find`), and `FindSpec` says what one
call answers, counts and changes. The caches may have any number of sets
and of ways.
-/

namespace SchoolStuff.CacheSim

/-! ## The shape of a configuration -/

/-- Set `s` of `n` with `w` ways: fillers aside, no block is in it twice
and all of them map to it. -/
structure SetOk (w n s : Nat) (v : List UInt32) : Prop where
  length : v.length = w
  distinct : (v.filter (· != filler)).Nodup
  congr : ∀ b ∈ v, b ≠ filler → b.toNat % n = s

/-- Configuration `i` has a hit counter and `n` sets of `w` ways. -/
structure ConfigOk (st : Store) (i n w : Nat) : Prop where
  size : st.size i = n
  sets : ∃ hits, st.sets[i]? = some hits
  lines : ∀ s, s < n → SetOk w n s (st.lines i s)

/-- A block is resident in configuration `i`: some set of it has the
block. -/
def Store.Resident (st : Store) (i : Nat) (b : UInt32) : Prop :=
  ∃ s, s < st.size i ∧ b ∈ st.lines i s

/-- In a set that is in order a block is resident in the one place where
`find` looks it up. -/
theorem ConfigOk.resident_iff {st : Store} {i n w : Nat}
    (hI : ConfigOk st i n w) (hn : 0 < n) {b : UInt32} (hb : b ≠ filler) :
    st.Resident i b ↔ b ∈ st.lines i (b.toNat % n) := by
  rw [Store.Resident, hI.size]
  constructor
  · intro h
    obtain ⟨s, hs, hmem⟩ := h
    have hclass := (hI.lines s hs).congr b hmem hb
    rw [hclass]
    exact hmem
  · intro h
    exact ⟨_, Nat.mod_lt _ hn, h⟩

theorem setOk_replicate (w n s : Nat) :
    SetOk w n s (List.replicate w filler) := by
  constructor
  · exact List.length_replicate
  · rw [List.filter_eq_nil_iff.mpr]
    · exact List.nodup_nil
    · intro b hb
      simp [List.eq_of_mem_replicate hb]
  · intro b hb hne
    exact absurd (List.eq_of_mem_replicate hb) hne

/-- What stays of the set is shorter by one, and has no copy of the block
that comes last. -/
theorem SetOk.refresh_split {w n s : Nat} {v : List UInt32} {b : UInt32}
    (h : SetOk w n s v) (hw : 0 < w) (hb : b ≠ filler) :
    ∃ u, CacheSim.refresh v b = u ++ [b] ∧ u ⊆ v ∧ u.length + 1 = w
      ∧ (u.filter (· != filler)).Nodup ∧ b ∉ u := by
  by_cases hmem : b ∈ v
  · have hpos := List.length_pos_of_mem hmem
    refine ⟨v.erase b, ?_, List.erase_subset, ?_, ?_, ?_⟩
    · rw [CacheSim.refresh, if_pos hmem]
    · rw [List.length_erase_of_mem hmem, h.length]
      omega
    · rw [← List.erase_filter]
      exact h.distinct.erase b
    · intro hagain
      have hin : b ∈ (v.erase b).filter (· != filler) :=
        List.mem_filter.mpr ⟨hagain, by simpa using hb⟩
      rw [← List.erase_filter] at hin
      exact h.distinct.not_mem_erase hin
  · have hsub := (List.tail_sublist v).subset
    refine ⟨v.tail, ?_, hsub, ?_, ?_, fun htail => hmem (hsub htail)⟩
    · rw [CacheSim.refresh, if_neg hmem]
    · rw [List.length_tail, h.length]
      omega
    · exact h.distinct.sublist ((List.tail_sublist v).filter _)

/-- **One allocating call keeps the shape of its set.** -/
theorem SetOk.refresh {w n s : Nat} {v : List UInt32} {b : UInt32}
    (h : SetOk w n s v) (hw : 0 < w) (hb : b ≠ filler)
    (hs : b.toNat % n = s) : SetOk w n s (refresh v b) := by
  obtain ⟨u, hu, hsub, hlen, hnodup, hnot⟩ := h.refresh_split hw hb
  rw [hu]
  constructor
  · rw [List.length_append, List.length_singleton, hlen]
  · rw [List.filter_append, List.nodup_append]
    refine ⟨hnodup, (List.nodup_singleton b).filter _, ?_⟩
    intro x hx y hy hxy
    have hyb : y = b := List.mem_singleton.mp (List.mem_filter.mp hy).1
    exact hnot (hyb ▸ hxy ▸ (List.mem_filter.mp hx).1)
  · intro x hx hne
    rcases List.mem_append.mp hx with hx | hx
    · exact h.congr x (hsub hx) hne
    · rw [List.mem_singleton.mp hx, hs]

/-! ## One call -/

/-- What a call of `find` on configuration `i` answers, and what it makes
of the store. -/
structure FindSpec (st : Store) (lmiss : Bool) (a : Access) (i : Nat)
    (prefetch : Bool) : Prop where
  /-- The answer is whether the block was resident. -/
  answer : (find st lmiss a i prefetch).1 = true
    ↔ st.Resident i (target a prefetch)
  /-- Without `lmiss`, or on a load, the block is last in its set now. -/
  last : lmiss = false ∨ a.1 = "L" →
    ((find st lmiss a i prefetch).2.lines i
      ((target a prefetch).toNat % st.size i)).getLast?
      = some (target a prefetch)
  /-- A store that misses under `lmiss` changes nothing. -/
  skip : lmiss = true → a.1 ≠ "L" →
    (find st lmiss a i prefetch).1 = false →
    (find st lmiss a i prefetch).2 = st
  /-- A block that is found counts as a hit, unless it is prefetched. -/
  counter : ∃ hits, st.sets[i]? = some hits
    ∧ (find st lmiss a i prefetch).2.sets[i]?
      = some (if (find st lmiss a i prefetch).1 = true ∧ prefetch = false
          then hits + 1 else hits)
  /-- No other counter and no other set changes. -/
  counters : ∀ j, j ≠ i →
    (find st lmiss a i prefetch).2.sets[j]? = st.sets[j]?
  frame : ∀ j s, (j ≠ i ∨ s ≠ (target a prefetch).toNat % st.size i) →
    (find st lmiss a i prefetch).2.lines j s = st.lines j s

theorem find_size (st : Store) (lmiss : Bool) (a : Access) (i : Nat)
    (prefetch : Bool) (j : Nat) :
    (find st lmiss a i prefetch).2.size j = st.size j := by
  by_cases hmem : target a prefetch ∈
      st.lines i ((target a prefetch).toNat % st.size i)
  · rw [find_of_mem lmiss hmem]
    cases prefetch <;> simp
  · rw [find_of_not_mem lmiss hmem]
    split <;> simp

/-- The answer is read off the set that the block maps to. -/
theorem find_answer (st : Store) (lmiss : Bool) (a : Access) (i : Nat)
    (prefetch : Bool) :
    (find st lmiss a i prefetch).1 = true
      ↔ target a prefetch ∈
        st.lines i ((target a prefetch).toNat % st.size i) := by
  by_cases hmem : target a prefetch ∈
      st.lines i ((target a prefetch).toNat % st.size i)
  · rw [find_of_mem lmiss hmem]
    exact iff_of_true rfl hmem
  · rw [find_of_not_mem lmiss hmem]
    exact iff_of_false Bool.false_ne_true hmem

/-- A call leaves the store alone, for a store that misses under `lmiss`,
or refreshes one set. -/
theorem find_lines (st : Store) (lmiss : Bool) (a : Access) (i : Nat)
    (prefetch : Bool) :
    (lmiss = true ∧ a.1 ≠ "L" ∧ (find st lmiss a i prefetch).2 = st)
      ∨ ((target a prefetch).toNat % st.size i < st.size i →
        (find st lmiss a i prefetch).2.lines i
          ((target a prefetch).toNat % st.size i)
          = refresh (st.lines i ((target a prefetch).toNat % st.size i))
              (target a prefetch)) := by
  by_cases hmem : target a prefetch ∈
      st.lines i ((target a prefetch).toNat % st.size i)
  · rw [find_of_mem lmiss hmem]
    right
    intro hlt
    cases prefetch with
    | true => exact Store.lines_put_self _ hlt
    | false => exact @Store.lines_put_self (st.hit i) i _ _ hlt
  · rw [find_of_not_mem lmiss hmem]
    split
    · rename_i hskip
      simp only [Bool.and_eq_true, Bool.not_eq_true', beq_eq_false_iff_ne]
        at hskip
      exact Or.inl ⟨hskip.1, hskip.2, rfl⟩
    · right
      intro hlt
      exact Store.lines_put_self _ hlt

/-- The other sets stay as they are. -/
theorem find_lines_ne (st : Store) (lmiss : Bool) (a : Access) (i : Nat)
    (prefetch : Bool) {j s : Nat}
    (hjs : j ≠ i ∨ s ≠ (target a prefetch).toNat % st.size i) :
    (find st lmiss a i prefetch).2.lines j s = st.lines j s := by
  have hput := hjs.imp Ne.symm Ne.symm
  by_cases hmem : target a prefetch ∈
      st.lines i ((target a prefetch).toNat % st.size i)
  · rw [find_of_mem lmiss hmem]
    cases prefetch with
    | true => exact Store.lines_put_ne _ hput
    | false => exact @Store.lines_put_ne (st.hit i) i _ _ _ _ hput
  · rw [find_of_not_mem lmiss hmem]
    split
    · rfl
    · exact Store.lines_put_ne _ hput

/-- Only a hit that is not a prefetch is counted. -/
theorem find_counter {st : Store} {i hits : Nat}
    (hhits : st.sets[i]? = some hits) (lmiss : Bool) (a : Access)
    (prefetch : Bool) :
    (find st lmiss a i prefetch).2.sets[i]?
      = some (if (find st lmiss a i prefetch).1 = true ∧ prefetch = false
          then hits + 1 else hits) := by
  by_cases hmem : target a prefetch ∈
      st.lines i ((target a prefetch).toNat % st.size i)
  · rw [find_of_mem lmiss hmem]
    cases prefetch with
    | true => simpa using hhits
    | false => simp [Store.sets_hit_self, hhits]
  · rw [find_of_not_mem lmiss hmem]
    split <;> simpa using hhits

theorem refresh_getLast? (v : List UInt32) (b : UInt32) :
    (refresh v b).getLast? = some b := by
  rw [refresh, List.getLast?_concat]

variable {st : Store} {i n w : Nat} {a : Access} {lmiss prefetch : Bool}

/-- **One call**, on a configuration that is in order. -/
theorem ConfigOk.findSpec (hI : ConfigOk st i n w) (hn : 0 < n)
    (ha : target a prefetch ≠ filler) : FindSpec st lmiss a i prefetch := by
  obtain ⟨hits, hhits⟩ := hI.sets
  have hlt : (target a prefetch).toNat % st.size i < st.size i :=
    Nat.mod_lt _ (hI.size.symm ▸ hn)
  have hanswer := find_answer st lmiss a i prefetch
  constructor
  · rw [hanswer, hI.resident_iff hn ha, hI.size]
  · intro hflags
    rcases find_lines st lmiss a i prefetch with ⟨hl, hls, _⟩ | hput
    · exact absurd hflags (by simp [hl, hls])
    · rw [hput hlt]
      exact refresh_getLast? _ _
  · intro hl hls hmiss
    have hnot := mt hanswer.mpr (by rw [hmiss]; exact Bool.false_ne_true)
    rw [find_of_not_mem lmiss hnot]
    simp [hl, hls]
  · exact ⟨hits, hhits, find_counter hhits lmiss a prefetch⟩
  · intro j hj
    exact (find_frame st (Ne.symm hj) lmiss a prefetch).2.2
  · intro j s hjs
    exact find_lines_ne st lmiss a i prefetch hjs

/-- **Step lemma**: a call keeps the shape of its configuration. -/
theorem ConfigOk.find (hI : ConfigOk st i n w) (hn : 0 < n) (hw : 0 < w)
    (ha : target a prefetch ≠ filler) :
    ConfigOk (find st lmiss a i prefetch).2 i n w := by
  have hspec : FindSpec st lmiss a i prefetch := hI.findSpec hn ha
  have hr : (target a prefetch).toNat % n < n := Nat.mod_lt _ hn
  have hset := hI.lines _ hr
  constructor
  · rw [find_size, hI.size]
  · obtain ⟨hits, _, hcount⟩ := hspec.counter
    exact ⟨_, hcount⟩
  · intro s hs
    by_cases hsr : s = (target a prefetch).toNat % n
    · rcases find_lines st lmiss a i prefetch with ⟨_, _, hsame⟩ | hput
      · rw [hsame]
        exact hI.lines s hs
      · rw [hI.size] at hput
        rw [hsr, hput hr]
        exact hset.refresh hw ha rfl
    · rw [hspec.frame i s (Or.inr (hI.size.symm ▸ hsr))]
      exact hI.lines s hs

/-- What configuration `i` consists of is the same in both stores. -/
structure SameConfig (i : Nat) (st st' : Store) : Prop where
  size : st'.size i = st.size i
  lines : ∀ s, st'.lines i s = st.lines i s
  sets : st'.sets[i]? = st.sets[i]?

theorem SameConfig.refl (i : Nat) (st : Store) : SameConfig i st st :=
  ⟨rfl, fun _ => rfl, rfl⟩

theorem SameConfig.trans {st' st'' : Store} (h : SameConfig i st st')
    (h' : SameConfig i st' st'') : SameConfig i st st'' :=
  ⟨h'.size.trans h.size, fun s => (h'.lines s).trans (h.lines s),
    h'.sets.trans h.sets⟩

theorem SameConfig.find (st : Store) {i j : Nat} (hij : i ≠ j)
    (lmiss : Bool) (a : Access) (prefetch : Bool) :
    SameConfig j st (find st lmiss a i prefetch).2 := by
  obtain ⟨hsize, hlines, hsets⟩ := find_frame st hij lmiss a prefetch
  exact ⟨hsize, hlines, hsets⟩

theorem SameConfig.resident_iff {st' : Store} (h : SameConfig i st st')
    (b : UInt32) : st'.Resident i b ↔ st.Resident i b := by
  simp only [Store.Resident, h.size, h.lines]

theorem SameConfig.configOk {st' : Store} (h : SameConfig i st st')
    (hI : ConfigOk st i n w) : ConfigOk st' i n w := by
  constructor
  · rw [h.size, hI.size]
  · rw [h.sets]
    exact hI.sets
  · intro s hs
    rw [h.lines]
    exact hI.lines s hs

/-! ## Runs of calls -/

/-- One call of `find` on a store. -/
structure Call where
  lmiss : Bool
  access : Access
  config : Nat
  prefetch : Bool

/-- The block that the call looks up. -/
def Call.target (c : Call) : UInt32 := CacheSim.target c.access c.prefetch

/-- The store after the call. -/
def Store.call (st : Store) (c : Call) : Store :=
  (find st c.lmiss c.access c.config c.prefetch).2

/-- The caches before the first call. The geometry lists the number of sets
and the number of ways of each configuration. -/
def Store.fillers (geometry : List (Nat × Nat)) : Store where
  setAss := geometry.map fun g => List.replicate g.1 (List.replicate g.2 filler)
  sets := List.replicate geometry.length 0

theorem Store.init_eq :
    Store.init = Store.fillers (assocs.map fun i => (512 / i, i)) := rfl

/-- Every configuration has the shape that the geometry gives it. -/
def StoreOk (geometry : List (Nat × Nat)) (st : Store) : Prop :=
  ∀ i n w, geometry[i]? = some (n, w) → ConfigOk st i n w

theorem storeOk_fillers (geometry : List (Nat × Nat)) :
    StoreOk geometry (Store.fillers geometry) := by
  intro i n w hg
  have hi : i < geometry.length := (List.getElem?_eq_some_iff.mp hg).1
  have hcache : (Store.fillers geometry).setAss.getD i []
      = List.replicate n (List.replicate w filler) := by
    rw [Store.fillers, List.getD_eq_getElem?_getD, List.getElem?_map, hg]
    rfl
  constructor
  · rw [Store.size, hcache, List.length_replicate]
  · refine ⟨0, ?_⟩
    rw [Store.fillers, List.getElem?_replicate, if_pos hi]
  · intro s hs
    rw [Store.lines, hcache, List.getD_eq_getElem?_getD,
      List.getElem?_replicate, if_pos hs]
    exact setOk_replicate w n s

variable {geometry : List (Nat × Nat)} {c : Call}

theorem StoreOk.call (h : StoreOk geometry st)
    (hgeo : ∀ g ∈ geometry, 0 < g.1 ∧ 0 < g.2) (hc : c.target ≠ filler) :
    StoreOk geometry (st.call c) := by
  intro i n w hg
  by_cases hi : c.config = i
  · obtain ⟨hn, hw⟩ := hgeo _ (List.mem_of_getElem? hg)
    subst hi
    exact (h _ n w hg).find hn hw hc
  · exact (SameConfig.find st hi _ _ _).configOk (h i n w hg)

theorem StoreOk.findSpec (h : StoreOk geometry st)
    (hgeo : ∀ g ∈ geometry, 0 < g.1 ∧ 0 < g.2)
    (hi : c.config < geometry.length) (hc : c.target ≠ filler) :
    FindSpec st c.lmiss c.access c.config c.prefetch := by
  have hg : geometry[c.config]?
      = some (geometry[c.config].1, geometry[c.config].2) :=
    List.getElem?_eq_getElem hi
  exact (h _ _ _ hg).findSpec (hgeo _ (List.mem_of_getElem? hg)).1 hc

/-- **Run lemma.** -/
theorem storeOk_foldl (hgeo : ∀ g ∈ geometry, 0 < g.1 ∧ 0 < g.2)
    {calls : List Call} (hcalls : ∀ c ∈ calls, c.target ≠ filler)
    (h : StoreOk geometry st) :
    StoreOk geometry (calls.foldl Store.call st) := by
  induction calls generalizing st with
  | nil => exact h
  | cons c calls ih =>
      rw [List.foldl_cons]
      exact ih (fun d hd => hcalls d (List.mem_cons_of_mem c hd))
        (h.call hgeo (hcalls c List.mem_cons_self))

/-- **The set-associative caches under every flag.** Whatever calls have
been made, every set has its number of ways, fillers aside no block twice
and none that maps elsewhere; and the next call, whatever it is, answers,
counts and changes what it should. -/
theorem find_calls_ok (geometry : List (Nat × Nat))
    (hgeo : ∀ g ∈ geometry, 0 < g.1 ∧ 0 < g.2) (calls : List Call)
    (hcalls : ∀ c ∈ calls, c.config < geometry.length ∧ c.target ≠ filler) :
    StoreOk geometry (calls.foldl Store.call (Store.fillers geometry))
      ∧ ∀ c : Call, c.config < geometry.length → c.target ≠ filler →
        FindSpec (calls.foldl Store.call (Store.fillers geometry))
          c.lmiss c.access c.config c.prefetch := by
  have hrun := storeOk_foldl hgeo (fun c hc => (hcalls c hc).2)
    (storeOk_fillers geometry)
  exact ⟨hrun, fun c hi hc => hrun.findSpec hgeo hi hc⟩

/-- A load, a prefetch and a store that does not allocate, on one
configuration of two sets and one of one. -/
theorem find_calls_ok_three :
    StoreOk [(2, 1), (1, 2)]
        ([⟨false, ("L", "0x40"), 0, false⟩, ⟨false, ("L", "0x40"), 0, true⟩,
          ⟨true, ("S", "0x60"), 1, false⟩].foldl Store.call
          (Store.fillers [(2, 1), (1, 2)]))
      ∧ FindSpec
          ([⟨false, ("L", "0x40"), 0, false⟩, ⟨false, ("L", "0x40"), 0, true⟩,
            ⟨true, ("S", "0x60"), 1, false⟩].foldl Store.call
            (Store.fillers [(2, 1), (1, 2)]))
          false ("L", "0x60") 0 false := by
  have h := find_calls_ok [(2, 1), (1, 2)] (by decide)
    [⟨false, ("L", "0x40"), 0, false⟩, ⟨false, ("L", "0x40"), 0, true⟩,
      ⟨true, ("S", "0x60"), 1, false⟩] (by
      simp only [List.forall_mem_cons, List.length_cons, List.length_nil]
      refine ⟨⟨by decide, by decide⟩, ⟨by decide, by decide⟩,
        ⟨by decide, by decide⟩, ?_⟩
      simp)
  exact ⟨h.1, h.2 ⟨false, ("L", "0x60"), 0, false⟩ (by decide) (by decide)⟩

end SchoolStuff.CacheSim
