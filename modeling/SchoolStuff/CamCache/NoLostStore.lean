import SchoolStuff.CamCache.DirectMode
import SchoolStuff.CamCache.History
import SchoolStuff.CamCache.Simulation

/-!
# CamCache — no store is lost

The lookups of the direct-access and the set-associative type find the line
of a resident block and fill a line with any other one. So in both types a
line is dirty exactly if its block was written since the line was filled,
and the write-backs and the dirty lines together are the residency intervals
that have seen a write.
-/

namespace SchoolStuff.CamCache

open Residency (Table WrittenSince writtenIntervals countLines)

/-! ## The set-associative type -/

/-- The first `len` rows of a set are its valid ones, and they hold
different tags. -/
structure RowsOk (k : Nat) (d : Lines) (cam : Cam) (s len : Nat) : Prop where
  rows : cam.rows = k
  data : cam.data.length = k
  length_le : len ≤ k
  valid : ∀ j, j < k → ((d.at (s * k + j)).valid = true ↔ j < len)
  inj : ∀ i j, i < len → j < len → cam.row i = cam.row j → i = j

/-- `m` sets of `k` ways. -/
structure WaysOk (k m : Nat) (st : Cache) : Prop where
  sized : st.lines.Sized (k * m)
  cams : st.sCams.length = m
  sets : ∀ s, s < m → ∃ cam len, st.sCams[s]? = some cam
    ∧ RowsOk k st.lines cam s len

variable {k m s len : Nat} {st st' : Cache} {d d' : Lines} {cam cam' : Cam}
  {tag : Word} {c : Setup}

theorem WaysOk.inTable (h : WaysOk k m st) (hs : s < m) :
    InTable k s st.lines := by
  refine ⟨k * m, h.sized, ?_⟩
  rw [Nat.mul_comm]
  exact Nat.mul_le_mul_left k hs

theorem WaysOk.line_lt (h : WaysOk k m st) (hs : s < m) {j : Nat} (hj : j < k) :
    s * k + j < k * m := by
  obtain ⟨n, hn, hlt⟩ := (h.inTable hs).line hj
  exact hn.2.symm.trans h.sized.2 ▸ hlt

/-- **The lookup in a set** finds the valid row of the tag, if there is
one. -/
theorem RowsOk.lookup (h : RowsOk k d cam s len) (ht : InTable k s d)
    (tag : Word) :
    (∃ j, j < len ∧ cam.row j = tag ∧ camRead cam tag = j
        ∧ lineMissing d j (j + s * k) = .ok false)
      ∨ ((∀ j, j < len → cam.row j ≠ tag)
        ∧ lineMissing d (camRead cam tag) (camRead cam tag + s * k)
          = .ok true) := by
  have hle := h.length_le
  rcases camRead_cases cam tag with ⟨hread, hnone⟩ | ⟨j, hread, hj, hrow, hfst⟩
  · refine Or.inr ⟨fun j hj => hnone j (by rw [h.data]; omega), ?_⟩
    rw [hread, lineMissing, if_pos rfl]
  · rw [h.data] at hj
    obtain ⟨n, hn, hlt⟩ := ht.line hj
    have hmissing : lineMissing d j (j + s * k)
        = .ok (!(d.at (s * k + j)).valid) := by
      rw [lineMissing, if_neg (by omega), cast_index, hn.isValid hlt]
      rfl
    by_cases hjl : j < len
    · refine Or.inl ⟨j, hjl, hrow, hread, ?_⟩
      rw [hmissing, (h.valid j hj).mpr hjl]
      rfl
    · refine Or.inr ⟨fun i hi => hfst i (by omega), ?_⟩
      rw [hread, hmissing, eq_false_of_ne_true (mt (h.valid j hj).mp hjl)]
      rfl

/-- **The victim** is the first invalid row, or any row of a full set. -/
theorem RowsOk.victim (h : RowsOk k d cam s len) (ht : InTable k s d)
    (hk : 0 < k) :
    ∃ j, j < k ∧ (len < k → j = len)
      ∧ lineFirstUsed d (s * k) ((s + 1) * k)
        = .ok ((s * k + j : Nat) : Int) := by
  obtain ⟨n, hn, hle, heq⟩ := firstUsed_set ht hk
  by_cases hroom : len < k
  · refine ⟨len, hroom, fun _ => rfl, ?_⟩
    have hinv : (d.at (s * k + len)).valid = false :=
      eq_false_of_ne_true (mt (h.valid len hroom).mp (Nat.lt_irrefl len))
    rw [heq]
    apply firstUsedLoop_invalid hn hinv k (s * k) _ _ hle (by omega) (by omega)
    intro i hi hlt
    obtain ⟨j, rfl⟩ : ∃ j, i = s * k + j := ⟨i - s * k, by omega⟩
    exact (h.valid j (by omega)).mpr (by omega)
  · obtain ⟨i, hi, hrange⟩ :=
      firstUsedLoop_range hn k (s * k) (s * k) (CInt.wrap (d.time + 1)) hle
    refine ⟨i - s * k, by omega, fun hlt => absurd hlt hroom, ?_⟩
    rw [heq, hi, show s * k + (i - s * k) = i by omega]

/-- Filling the victim. -/
theorem RowsOk.fill {n j : Nat} (h : RowsOk k d cam s len)
    (hn : d.Sized n) (hj : j < k) (hlt : s * k + j < n)
    (hfirst : len < k → j = len) (hw : Wrote cam cam' j tag)
    (hnone : ∀ i, i < len → cam.row i ≠ tag) :
    ∃ len', RowsOk k (d.fill (s * k + j)) cam' s len' := by
  have hle := h.length_le
  refine ⟨if len < k then len + 1 else len, ?_⟩
  constructor
  · rw [hw.rows, h.rows]
  · rw [hw.data, h.data]
  · split <;> omega
  · intro i hi
    rw [Lines.fill_at hn hlt]
    by_cases hij : i = j
    · subst hij
      rw [if_pos rfl]
      refine iff_of_true rfl ?_
      split <;> omega
    · rw [if_neg (by omega), h.valid i hi]
      split <;> omega
  · -- the new tag was in no valid row
    have hrow : ∀ i, i < (if len < k then len + 1 else len) → i ≠ j →
        cam'.row i = cam.row i ∧ i < len := by
      intro i hi hij
      refine ⟨hw.other i hij, ?_⟩
      split at hi <;> omega
    intro i i' hi hi' heq
    by_cases hij : i = j <;> by_cases hij' : i' = j
    · rw [hij, hij']
    · obtain ⟨hr, hl⟩ := hrow i' hi' hij'
      rw [hij, hw.self, hr] at heq
      exact absurd heq.symm (hnone i' hl)
    · obtain ⟨hr, hl⟩ := hrow i hi hij
      rw [hij', hw.self, hr] at heq
      exact absurd heq (hnone i hl)
    · obtain ⟨hr, hl⟩ := hrow i hi hij
      obtain ⟨hr', hl'⟩ := hrow i' hi' hij'
      rw [hr, hr'] at heq
      exact h.inj i i' hl hl' heq

/-- Only the valid bits of the set matter. -/
theorem RowsOk.congr (h : RowsOk k d cam s len)
    (hv : ∀ j, j < k →
      (d'.at (s * k + j)).valid = (d.at (s * k + j)).valid) :
    RowsOk k d' cam s len where
  rows := h.rows
  data := h.data
  length_le := h.length_le
  valid j hj := by
    rw [hv j hj]
    exact h.valid j hj
  inj := h.inj

theorem WaysOk.use {i : Nat} (h : WaysOk k m st) (hi : i < k * m)
    (hvalid : (st.lines.at i).valid = true) (w : Bool) :
    WaysOk k m (st.use i w) where
  sized := h.sized.use _ _
  cams := h.cams
  sets s hs := by
    obtain ⟨cam, len, hcam, hok⟩ := h.sets s hs
    refine ⟨cam, len, hcam, hok.congr fun j _ => ?_⟩
    have hu := Lines.used_use h.sized hi ((st.lines.at i).dirty || w)
    by_cases hj : s * k + j = i
    · rw [hj]
      exact (congrArg LineStruct.valid hu.self).trans hvalid.symm
    · exact congrArg LineStruct.valid (hu.other _ hj)

/-- The sets after one of them was filled. -/
theorem WaysOk.fill {j len' : Nat} (h : WaysOk k m st) (hs : s < m) (hj : j < k)
    (hok : RowsOk k (st.lines.fill (s * k + j)) cam' s len') :
    WaysOk k m { st with
      sCams := st.sCams.set s cam'
      lines := st.lines.fill (s * k + j) } := by
  have hcams : s < st.sCams.length := h.cams.symm ▸ hs
  constructor
  · exact h.sized.fill _
  · simpa using h.cams
  · intro s' hs'
    by_cases heq : s' = s
    · subst heq
      exact ⟨cam', len', by simp [hcams], hok⟩
    · obtain ⟨cam₁, len₁, hcam₁, hok₁⟩ := h.sets s' hs'
      refine ⟨cam₁, len₁, ?_, hok₁.congr fun i hi => ?_⟩
      · rw [List.getElem?_set_ne (Ne.symm heq)]
        exact hcam₁
      · rw [Lines.fill_at h.sized (h.line_lt hs hj), if_neg (index_ne heq hi hj)]

/-- What a line of the set holds. -/
theorem RowsOk.held (h : RowsOk k st.lines cam s len) (ht : c.cacheType = .S)
    (hc : c.sLines = k) (hcam : st.sCams[s]? = some cam) {j : Nat}
    (hj : j < len) : c.held st (s * k + j) = some (s, cam.row j) := by
  have hjk : j < k := Nat.lt_of_lt_of_le hj h.length_le
  rw [held_ways ht hc, (h.valid j hjk).mpr hj, line_div hjk, line_mod hjk,
    hcam]
  rfl

/-- No line holds a tag that is in no valid row of its set. -/
theorem RowsOk.absent (h : RowsOk k st.lines cam s len) (hk : 0 < k)
    (ht : c.cacheType = .S) (hc : c.sLines = k)
    (hcam : st.sCams[s]? = some cam)
    (hnone : ∀ j, j < len → cam.row j ≠ tag) (i : Nat) :
    c.held st i ≠ some (s, tag) := by
  rw [held_ways ht hc]
  intro heq
  cases hv : (st.lines.at i).valid with
  | false => simp [hv] at heq
  | true =>
      simp only [hv, if_true, Option.map_eq_some_iff, Prod.mk.injEq] at heq
      obtain ⟨cam', hcam', hdiv, hrow⟩ := heq
      obtain ⟨j, hj, rfl⟩ : ∃ j, j < k ∧ i = s * k + j :=
        ⟨i % k, Nat.mod_lt i hk, by rw [← hdiv, Nat.mul_comm, Nat.div_add_mod]⟩
      rw [line_div hj, hcam, Option.some.injEq] at hcam'
      rw [line_mod hj, ← hcam'] at hrow
      exact hnone j ((h.valid j hj).mp hv) hrow

/-- What the lines hold after the victim is filled. -/
theorem held_fill {n j : Nat} (ht : c.cacheType = .S)
    (hc : c.sLines = k) (hcam : st.sCams[s]? = some cam)
    (hn : st.lines.Sized n) (hlt : s * k + j < n) (hj : j < k)
    (hw : Wrote cam cam' j tag) (i : Nat) :
    c.held { st with
        sCams := st.sCams.set s cam'
        lines := st.lines.fill (s * k + j) } i
      = if i = s * k + j then some (s, tag) else c.held st i := by
  have hs : s < st.sCams.length := (List.getElem?_eq_some_iff.mp hcam).1
  have hfill := Lines.fill_at hn hlt i
  rw [held_ways ht hc, held_ways ht hc]
  show (if ((st.lines.fill (s * k + j)).at i).valid then
    (st.sCams.set s cam')[i / k]?.map _ else none) = _
  rw [hfill]
  by_cases hi : i = s * k + j
  · rw [if_pos hi, if_pos hi, if_pos rfl, hi, line_div hj, line_mod hj,
      List.getElem?_set_self hs, Option.map_some, hw.self]
  · rw [if_neg hi, if_neg hi]
    by_cases hdiv : i / k = s
    · -- another row of the same set
      have hrow : i % k ≠ j := by
        intro hmod
        apply hi
        rw [← hmod, ← hdiv, Nat.mul_comm, Nat.div_add_mod]
      rw [hdiv, List.getElem?_set_self hs, hcam, Option.map_some,
        Option.map_some, hw.other _ hrow]
    · rw [List.getElem?_set_ne (Ne.symm hdiv)]

theorem looks_ways (hk : 0 < k) (ht : c.cacheType = .S) (hc : c.sLines = k)
    (hset : ∀ taddr, c.set taddr < m) : Looks c (k * m) (WaysOk k m) where
  sized h := h.sized
  use h _ hi hvalid w := h.use hi hvalid w
  find := by
    intro st h taddr
    have hs := hset taddr
    obtain ⟨cam, len, hcam, hok⟩ := h.sets _ hs
    have htable := h.inTable hs
    have hfindLine : ∀ tag, findLine c st tag (c.set taddr)
        = findS c st tag (c.set taddr) := by
      intro tag
      rw [findLine, ht]
    rw [hfindLine]
    rcases hok.lookup htable (c.tag taddr) with
      ⟨j, hj, hrow, hread, hmiss⟩ | ⟨hnone, hmiss⟩
    · have hjk : j < k := Nat.lt_of_lt_of_le hj hok.length_le
      refine ⟨c.set taddr * k + j, st, findS_hit hc hcam hread hmiss,
        h.line_lt hs hjk, .hit rfl ?_, h⟩
      rw [hok.held ht hc hcam hj, hrow]
      rfl
    · obtain ⟨j, hj, hfirst, hfound⟩ := hok.victim htable hk
      have hlt := h.line_lt hs hj
      obtain ⟨cam', hwrite, hwrote⟩ :=
        camWrite_eq hok.rows hok.data hj (c.tag taddr)
      obtain ⟨len', hok'⟩ := hok.fill h.sized hj hlt hfirst hwrote hnone
      refine ⟨_, _, findS_miss hc hcam h.sized hlt hj hmiss hfound hwrite, hlt,
        .miss rfl ?_ ?_, h.fill hs hj hok'⟩
      · exact hok.absent hk ht hc hcam hnone
      · exact held_fill ht hc hcam h.sized hlt hj hwrote

/-! ## The direct-access type -/

theorem held_direct (ht : c.cacheType = .D) (i : Nat) :
    c.held st i
      = if (st.lines.at i).valid then st.dTags[i]?.map fun tag => (i, tag)
        else none := by
  simp only [Setup.held, ht]

/-- Only the line of the set could hold the block. -/
theorem absent_direct {taddr : Word} {tag : Word} (ht : c.cacheType = .D)
    (hold : st.dTags[c.set taddr]? = some tag)
    (hmiss : (st.lines.at (c.set taddr)).valid = false ∨ tag ≠ c.tag taddr)
    (i : Nat) : c.held st i ≠ some (c.blockId taddr) := by
  rw [held_direct ht]
  intro heq
  cases hv : (st.lines.at i).valid with
  | false => simp [hv] at heq
  | true =>
      simp only [hv, if_true, Option.map_eq_some_iff, Setup.blockId,
        Prod.mk.injEq] at heq
      obtain ⟨tag, htag, rfl, rfl⟩ := heq
      rcases hmiss with hmiss | hmiss
      · rw [hv] at hmiss
        exact absurd hmiss (by decide)
      · exact hmiss (Option.some.inj (hold.symm.trans htag))

/-- What the lines hold after the line of the set is filled. -/
theorem held_direct_fill {n : Nat} (ht : c.cacheType = .D)
    (hn : st.lines.Sized n) (hs : s < n) (hlt : s < st.dTags.length) (tag : Word)
    (i : Nat) :
    c.held { st with
        dTags := st.dTags.set s tag
        lines := st.lines.fill s } i
      = if i = s then some (s, tag) else c.held st i := by
  rw [held_direct ht, held_direct ht]
  show (if ((st.lines.fill s).at i).valid then
    (st.dTags.set s tag)[i]?.map _ else none) = _
  rw [Lines.fill_at hn hs]
  by_cases hi : i = s
  · rw [if_pos hi, if_pos hi, if_pos rfl, hi, List.getElem?_set_self hlt]
    rfl
  · rw [if_neg hi, if_neg hi, List.getElem?_set_ne (Ne.symm hi)]

theorem looks_direct {n : Nat} (ht : c.cacheType = .D)
    (hset : ∀ taddr, c.set taddr < n) : Looks c n (DirectOk n) where
  sized h := h.sized
  use h _ _ _ _ := ⟨h.sized.use _ _, h.tags⟩
  find := by
    intro st h taddr
    have hs := hset taddr
    have hlt : c.set taddr < st.dTags.length := h.tags.symm ▸ hs
    have hold := List.getElem?_eq_getElem hlt
    have hfindLine : findLine c st (c.tag taddr) (c.set taddr)
        = findD st (c.tag taddr) (c.set taddr) := by
      rw [findLine, ht]
    rw [hfindLine]
    simp only [findD, h.sized.isValid hs, ok_bind, hold]
    by_cases hmiss : (st.lines.at (c.set taddr)).valid = false
        ∨ st.dTags[c.set taddr] ≠ c.tag taddr
    · rw [if_pos hmiss, lineSetValid_eq h.sized hs, ok_bind]
      refine ⟨_, _, rfl, hs, .miss rfl (absent_direct ht hold hmiss) ?_,
        ⟨h.sized.fill _, by simp [h.tags]⟩⟩
      exact held_direct_fill ht h.sized hs hlt (c.tag taddr)
    · rw [if_neg hmiss]
      refine ⟨_, st, rfl, hs, .hit rfl ?_, h⟩
      rw [held_direct ht, hold]
      simp only [not_or, Bool.not_eq_false, ne_eq, not_not] at hmiss
      rw [hmiss.1, if_pos rfl, hmiss.2]
      rfl

/-! ## Both types -/

/-- The states of the loop are states of a write-back table that starts
empty. -/
theorem start_looks {t : CacheType} {cacheLines ways : Int} {o : Nat}
    (ht : t ≠ .F) (h : start t cacheLines o ways = .ok (c, st)) :
    ∃ n I, Looks c n I ∧ I st ∧ Tracks c st Table.empty := by
  have htracks : ∀ n : Nat, st.lines = linesCreate n →
      Tracks c st Table.empty := by
    intro n hn
    constructor
    · intro i
      rw [Setup.held, hn, linesCreate_at]
      rfl
    · intro i
      rw [hn, linesCreate_at]
      rfl
    · rw [hn]
      rfl
  cases t with
  | F => exact absurd rfl ht
  | D =>
      obtain ⟨b, hlog, h⟩ := bind_eq_ok.mp h
      obtain ⟨rfl, rfl⟩ := Prod.mk.inj (Except.ok.inj h)
      have hpos : 0 < cacheLines := by
        rcases mlog2_cases hlog with ⟨_, rfl⟩ | ⟨_, hlt⟩
        · exact Int.pow_pos (by decide)
        · omega
      obtain ⟨n, rfl⟩ := Int.eq_ofNat_of_zero_le (Int.le_of_lt hpos)
      refine ⟨n, DirectOk n, looks_direct rfl
        (Setup.set_lt_sets hlog), ?_, htracks n rfl⟩
      exact ⟨linesCreate_sized n, by simp⟩
  | S =>
      obtain ⟨k, m, hk, rfl, rfl, hc, hlog, rfl⟩ := start_ways h
      refine ⟨k * m, WaysOk k m, looks_ways hk (by rw [hc]) (by rw [hc])
        (Setup.set_lt_sets hlog), ?_, htracks _ rfl⟩
      refine ⟨linesCreate_sized _, List.length_replicate, fun s hs => ?_⟩
      refine ⟨⟨k, List.replicate k 0⟩, 0, by simp [hs], ?_⟩
      constructor
      · rfl
      · exact List.length_replicate
      · exact Nat.zero_le k
      · intro j _
        rw [linesCreate_at]
        simp
      · exact fun i j hi => absurd hi (Nat.not_lt_zero i)

/-- Below 64 offset and set bits, the set and the tag of an address are
those of its block number and no other. -/
theorem blockId_eq_iff (hb : c.setBits < 31)
    (hbits : c.offsetBits + c.setBits < 64) (x y : Word) :
    c.blockId x = c.blockId y
      ↔ block c.offsetBits x = block c.offsetBits y := by
  have hg : Geometry 1 c.setBits c.offsetBits := ⟨by decide, hb, hbits⟩
  have hid : ∀ z, c.blockId z = (block c.offsetBits z % 2 ^ c.setBits,
      blockTag 1 c.setBits c.offsetBits (block c.offsetBits z)) := by
    intro z
    rw [← hg.set_eq, ← hg.tag_eq]
    rfl
  rw [hid, hid, Prod.mk.injEq]
  constructor
  · rintro ⟨hset, htag⟩
    exact blockTag_inj (block_bound _ x) (block_bound _ y) hset htag
  · intro h
    rw [h]
    exact ⟨rfl, rfl⟩

theorem start_setBits {t : CacheType} {cacheLines ways : Int} {o : Nat}
    (ht : t ≠ .F) (h : start t cacheLines o ways = .ok (c, st)) :
    c.offsetBits = o ∧ ∃ n, mlog2 n = .ok c.setBits := by
  cases t with
  | F => exact absurd rfl ht
  | D =>
      obtain ⟨b, hlog, h⟩ := bind_eq_ok.mp h
      obtain ⟨rfl, rfl⟩ := Prod.mk.inj (Except.ok.inj h)
      exact ⟨rfl, cacheLines, hlog⟩
  | S =>
      obtain ⟨k, m, _, _, _, hc, hlog, _⟩ := start_ways h
      exact ⟨by rw [hc], m, hlog⟩

/-- **No store is lost.** In the direct-access and the set-associative type,
after every trace: a line is dirty if and only if the block it holds has
been written since the line was last filled; and the write-backs so far and
the dirty lines together are as many as the residency intervals with a
write. Blocks are told apart by set and tag, which for defined shifts is to
tell block numbers apart. -/
theorem no_lost_store (t : CacheType) (ht : t ≠ .F) (cacheLines ways : Int)
    (o : Nat) (c : Setup) (st₀ : Cache)
    (hstart : start t cacheLines o ways = .ok (c, st₀))
    (trace : List Record) :
    ∃ st, run t cacheLines o ways trace = .ok (c, st)
      ∧ (∀ i, (st.lines.at i).dirty = true
        ↔ ∃ blk, c.held st i = some blk
          ∧ WrittenSince (eventsOf c st₀ trace) i blk)
      ∧ st.lines.writes + st.lines.lines.countP (·.dirty)
        = writtenIntervals (eventsOf c st₀ trace)
      ∧ (o + c.setBits < 64 → ∀ x y,
        c.blockId x = c.blockId y ↔ block o x = block o y) := by
  obtain ⟨n, I, hl, hI, htracks⟩ := start_looks ht hstart
  obtain ⟨st, hrun, hI', htracks', hall, hlines⟩ :=
    hl.run trace hI htracks Residency.ok_empty
  refine ⟨st, ?_, ?_, ?_, ?_⟩
  · rw [run, hstart, ok_bind, hrun]
    rfl
  · intro i
    rw [htracks'.dirty, Residency.dirty_iff hall]
    simp only [htracks'.held]
  · have hcount := Residency.writes_add_dirty_empty hall
      (s := Finset.range n) fun e he => Finset.mem_range.mpr (hlines e he)
    -- the dirty bits of the table are those of the lines
    have hdirty : (Table.empty.run (eventsOf c st₀ trace)).dirty
        = fun i => (st.lines.at i).dirty := by
      funext i
      exact (htracks'.dirty i).symm
    have hlist : countLines (Finset.range n) (fun i => (st.lines.at i).dirty)
        = st.lines.lines.countP (·.dirty) := by
      rw [← (hl.sized hI').2]
      exact Residency.countLines_range _ _ _
    rw [hdirty, hlist] at hcount
    rw [htracks'.writes]
    exact_mod_cast hcount
  · intro hbits
    obtain ⟨ho, m, hlog⟩ := start_setBits ht hstart
    rcases mlog2_cases hlog with ⟨hb, _⟩ | ⟨h64, _⟩
    · intro x y
      rw [← ho]
      exact blockId_eq_iff hb (ho ▸ hbits) x y
    · omega

/-- Two lines of two bytes, direct access: the line of the write is filled
again by the read of address 4. -/
theorem no_lost_store_three :
    ∃ st, run .D 2 1 0 [some ('W', 0), some ('R', 4), some ('W', 2)]
        = .ok (directSetup 1 1, st)
      ∧ (∀ i, (st.lines.at i).dirty = true
        ↔ ∃ blk, (directSetup 1 1).held st i = some blk
          ∧ WrittenSince (eventsOf (directSetup 1 1)
              ⟨linesCreate 2, none, [0, 0], []⟩
              [some ('W', 0), some ('R', 4), some ('W', 2)]) i blk)
      ∧ st.lines.writes + st.lines.lines.countP (·.dirty)
        = writtenIntervals (eventsOf (directSetup 1 1)
            ⟨linesCreate 2, none, [0, 0], []⟩
            [some ('W', 0), some ('R', 4), some ('W', 2)])
      ∧ (1 + (directSetup 1 1).setBits < 64 → ∀ x y,
        (directSetup 1 1).blockId x = (directSetup 1 1).blockId y
          ↔ block 1 x = block 1 y) :=
  no_lost_store .D (by decide) 2 0 1 (directSetup 1 1)
    ⟨linesCreate 2, none, [0, 0], []⟩ (by decide) _

end SchoolStuff.CamCache
