import SchoolStuff.CamCache.SetMode

/-!
# CamCache — one access of the set-associative type

Hit or miss, an access ends with one row of one set written, valid and
most recent (`Used`). `SetOk.use` says what this does to the set,
`SetOk.frame` that it does nothing to the others, and `Holds.access` puts
the hit and the two kinds of miss together: the cache goes where the
write-back LRU machine goes.
-/

namespace SchoolStuff.CamCache

open WriteBack (keys touchSet evictsDirty)

variable {α : Type*} {k s : Nat} {tagOf : α → Word} {d d' : Lines}
  {cam cam' : Cam} {ways : List Nat} {es : List (α × Bool)} {a : α}

/-- Line `i` has been used, with `x` as its dirty bit. -/
structure Used (d d' : Lines) (i : Nat) (x : Bool) : Prop where
  self : d'.at i = ⟨true, x, d.time⟩
  other : ∀ j, j ≠ i → d'.at j = d.at j
  time : d'.time = CInt.wrap (d.time + 1)

/-- The clock goes on until it wraps. -/
theorem Used.time_eq {i : Nat} {x : Bool} (hu : Used d d' i x)
    (hint : CInt.InRange (d.time + 1)) : d'.time = d.time + 1 :=
  hu.time.trans (CInt.wrap_of_inRange hint)

/-- Row `j` holds `tag` now. -/
structure Wrote (cam cam' : Cam) (j : Nat) (tag : Word) : Prop where
  rows : cam'.rows = cam.rows
  data : cam'.data.length = cam.data.length
  self : cam'.row j = tag
  other : ∀ i, i ≠ j → cam'.row i = cam.row i

theorem line_div {j : Nat} (hj : j < k) : (s * k + j) / k = s := by
  rw [Nat.mul_comm, Nat.mul_add_div (by omega), Nat.div_eq_of_lt hj,
    Nat.add_zero]

theorem line_mod {j : Nat} (hj : j < k) : (s * k + j) % k = j := by
  rw [Nat.mul_comm, Nat.mul_add_mod, Nat.mod_eq_of_lt hj]

theorem index_ne {s s' i j : Nat} (hs : s ≠ s') (hi : i < k) (hj : j < k) :
    s * k + i ≠ s' * k + j := by
  intro heq
  apply hs
  rw [← line_div (s := s) hi, heq, line_div hj]

/-- **The set of the access.** The rows `q` stay as they are, in their
order, and row `j` becomes the most recent one. -/
theorem SetOk.use {q : List Nat} {eq : List (α × Bool)} {j : Nat} {x : Bool}
    (h : SetOk k tagOf d cam s ways es) (hu : Used d d' (s * k + j) x)
    (hint : CInt.InRange (d.time + 1))
    (hw : Wrote cam cam' j (tagOf a)) (hjk : j < k) (hq : q.Sublist ways)
    (hjq : j ∉ q) (hperm : (q ++ [j]).Perm (List.range (q ++ [j]).length))
    (hlen : (q ++ [j]).length ≤ k)
    (hvalid : ∀ i, i < k → i ≠ j →
      (i < ways.length ↔ i < (q ++ [j]).length))
    (hcontent : q.map (fun j => (cam.row j, (d.at (s * k + j)).dirty))
      = eq.map fun e => (tagOf e.1, e.2)) :
    SetOk k tagOf d' cam' s (q ++ [j]) (eq ++ [(a, x)]) := by
  -- the rows of `q` are other lines than the one that was used
  have hold : ∀ i ∈ q, d'.at (s * k + i) = d.at (s * k + i) := by
    intro i hi
    apply hu.other
    rintro heq
    have : i = j := by omega
    exact hjq (this ▸ hi)
  have hclock : ∀ i ∈ q, (d'.at (s * k + i)).lastUsed < d.time := by
    intro i hi
    rw [hold i hi]
    exact h.clock i (hq.subset hi)
  constructor
  · rw [hw.rows, h.rows]
  · rw [hw.data, h.data]
  · exact hperm
  · exact hlen
  · intro i hi
    by_cases hij : i = j
    · subst hij
      rw [hu.self]
      have hmem : i ∈ List.range (q ++ [i]).length :=
        hperm.mem_iff.mp (by simp)
      exact iff_of_true rfl (List.mem_range.mp hmem)
    · rw [hu.other _ (by omega), h.valid i hi, hvalid i hi hij]
  · rw [List.pairwise_append]
    refine ⟨?_, List.pairwise_singleton _ _, ?_⟩
    · exact (h.recent.sublist hq).imp_of_mem fun {i i'} hi hi' hlt => by
        rw [hold i hi, hold i' hi']
        exact hlt
    · intro i hi i' hi'
      rw [List.mem_singleton.mp hi', hu.self]
      exact hclock i hi
  · intro i hi
    rw [hu.time_eq hint]
    rcases List.mem_append.mp hi with hi | hi
    · have := hclock i hi
      omega
    · rw [List.mem_singleton.mp hi, hu.self]
      exact Int.lt_succ d.time
  · rw [List.map_append, List.map_append, ← hcontent, List.map_singleton,
      List.map_singleton, hw.self, hu.self]
    congr 1
    apply List.map_congr_left
    intro i hi
    have hij : i ≠ j := fun heq => hjq (heq ▸ hi)
    rw [hw.other i hij, hold i hi]

/-- **Frame**: an access of set `s'` leaves set `s` alone. -/
theorem SetOk.frame {s' j : Nat} {x : Bool}
    (h : SetOk k tagOf d cam s ways es) (hs : s ≠ s') (hj : j < k)
    (hu : Used d d' (s' * k + j) x) (hint : CInt.InRange (d.time + 1)) :
    SetOk k tagOf d' cam s ways es := by
  have hsame : ∀ i, i < k → d'.at (s * k + i) = d.at (s * k + i) :=
    fun i hi => hu.other _ (index_ne hs hi hj)
  have hway : ∀ i ∈ ways, i < k := fun i hi =>
    Nat.lt_of_lt_of_le (h.mem_ways.mp hi) h.length_le
  constructor
  · exact h.rows
  · exact h.data
  · exact h.perm
  · exact h.length_le
  · intro i hi
    rw [hsame i hi]
    exact h.valid i hi
  · exact h.recent.imp_of_mem fun {i i'} hi hi' hlt => by
      rw [hsame i (hway i hi), hsame i' (hway i' hi')]
      exact hlt
  · intro i hi
    have := h.clock i hi
    rw [hsame i (hway i hi), hu.time_eq hint]
    omega
  · rw [← h.content]
    apply List.map_congr_left
    intro i hi
    rw [hsame i (hway i hi)]

/-! ## The end of the loop body -/

/-- The table after line `i` was used. -/
def Lines.use (d : Lines) (i : Nat) (x : Bool) : Lines :=
  { d with
    lines := d.lines.set i ⟨true, x, d.time⟩
    hits := d.hits + 1
    time := CInt.wrap (d.time + 1) }

theorem Lines.used_use {n i : Nat} (hn : d.Sized n) (hi : i < n) (x : Bool) :
    Used d (d.use i x) i x := by
  have hlt : i < d.lines.length := by
    rw [hn.2]
    exact hi
  have hat := fun j => Lines.at_set hlt ⟨true, x, d.time⟩ j
  constructor
  · exact (hat i).trans (if_pos rfl)
  · exact fun j hj => (hat j).trans (if_neg hj)
  · rfl

theorem Lines.Sized.lt {n i : Nat} (hn : d.Sized n) (hi : i < n) :
    (i : Int) < d.n ∧ i < d.lines.length := by
  rw [hn.1, hn.2]
  exact ⟨Int.ofNat_lt.mpr hi, hi⟩

theorem Lines.Sized.use {n : Nat} (hn : d.Sized n) (i : Nat) (x : Bool) :
    (d.use i x).Sized n := by
  simpa [Lines.Sized, Lines.use] using hn

theorem lineSetUsed_eq {n i : Nat} (hn : d.Sized n) (hi : i < n)
    (hvalid : (d.at i).valid = true) :
    lineSetUsed d i = .ok (d.use i (d.at i).dirty) := by
  simp only [lineSetUsed, ensure_pos (hn.lt hi).1, hn.get hi,
    ensure_pos hvalid, ok_bind]
  simp only [Lines.set, Lines.use, Int.toNat_natCast, hvalid]

theorem lineSetDirty_use {n i : Nat} (hn : d.Sized n) (hi : i < n)
    (x : Bool) : lineSetDirty (d.use i x) i = .ok (d.use i true) := by
  have hget := (hn.use i x).get hi
  rw [(Lines.used_use hn hi x).self] at hget
  simp only [lineSetDirty, ensure_pos ((hn.use i x).lt hi).1, hget, ok_bind]
  simp [Lines.set, Lines.use]

/-- The state after line `i` was read or written. -/
def Cache.use (st : Cache) (i : Nat) (w : Bool) : Cache :=
  { st with lines := st.lines.use i ((st.lines.at i).dirty || w) }

theorem useLine_eq {n i : Nat} (st : Cache) (hn : st.lines.Sized n)
    (hi : i < n) (hvalid : (st.lines.at i).valid = true) (w : Bool) :
    useLine st i w = .ok (st.use i w) := by
  rw [useLine, lineSetUsed_eq hn hi hvalid, ok_bind, Cache.use]
  cases w with
  | false => simp only [Bool.false_eq_true, if_false, ok_bind, Bool.or_false]
  | true =>
      simp only [if_true, lineSetDirty_use hn hi, ok_bind, Bool.or_true]

/-! ## Filling a line -/

/-- The table after line `i` was given to another block. -/
def Lines.fill (d : Lines) (i : Nat) : Lines :=
  { d with
    misses := d.misses + 1
    writes := d.writes + if (d.at i).valid && (d.at i).dirty then 1 else 0
    lines := d.lines.set i ⟨true, false, (d.at i).lastUsed⟩ }

theorem lineSetValid_eq {n i : Nat} (hn : d.Sized n) (hi : i < n) :
    lineSetValid .table d i = .ok (d.fill i) := by
  have hget : ∀ m : Int, Lines.get { d with misses := m } i = .ok (d.at i) :=
    fun m => hn.get hi
  simp only [lineSetValid, LinesPtr.deref, ensure_pos (hn.lt hi).1, hget,
    ok_bind]
  cases hv : ((d.at i).valid && (d.at i).dirty) <;>
    simp [Lines.set, Lines.fill, hv]

theorem Lines.Sized.fill {n : Nat} (hn : d.Sized n) (i : Nat) :
    (d.fill i).Sized n := by
  simpa [Lines.Sized, Lines.fill] using hn

theorem Lines.fill_at {n i : Nat} (hn : d.Sized n) (hi : i < n) (j : Nat) :
    (d.fill i).at j
      = if j = i then ⟨true, false, (d.at i).lastUsed⟩ else d.at j :=
  Lines.at_set (hn.lt hi).2 ⟨true, false, (d.at i).lastUsed⟩ j

/-- Filled and used, a line is as if it had been used. -/
theorem Lines.used_fill {n i : Nat} (hn : d.Sized n) (hi : i < n) (x : Bool) :
    Used d ((d.fill i).use i x) i x := by
  have hu := Lines.used_use (hn.fill i) hi x
  constructor
  · exact hu.self
  · intro j hj
    rw [hu.other j hj, Lines.fill_at hn hi, if_neg hj]
  · exact hu.time

theorem camWrite_eq {cam : Cam} {j : Nat} (hrows : cam.rows = k)
    (hdata : cam.data.length = k) (hj : j < k) (tag : Word) :
    ∃ cam', camWrite cam j tag = .ok cam' ∧ Wrote cam cam' j tag := by
  have hlt : (j : Int) < cam.rows := by
    rw [hrows]
    exact Int.ofNat_lt.mpr hj
  have hlen : j < cam.data.length := by
    rw [hdata]
    exact hj
  refine ⟨{ cam with data := cam.data.set j tag }, ?_, ?_⟩
  · rw [camWrite, ensure_pos hlt, ok_bind,
      if_pos ⟨Int.natCast_nonneg j, by simpa using hlen⟩]
    rfl
  · constructor
    · rfl
    · simp
    · simp [Cam.row, hlen]
    · intro i hi
      simp [Cam.row, List.getElem?_set_ne (Ne.symm hi)]

end SchoolStuff.CamCache
