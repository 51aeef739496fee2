import SchoolStuff.Lib.Residency
import SchoolStuff.CamCache.Access

/-!
# CamCache — the accesses of a run as a residency history

The accesses of a run, with the line that served each and whether it was
filled, make a residency history. The line table is the write-back table of
this history, whatever the victims are: it is enough that the lookup finds
the line of a resident block and fills a line with any other (`Looks`).
-/

namespace SchoolStuff.CamCache

open Residency (Event Table Serves ServesAll)

/-! ## The accesses of a run -/

/-- A block as the cache tells blocks apart: its set and its tag. -/
abbrev BlockId := Nat × Word

def Setup.blockId (c : Setup) (taddr : Word) : BlockId :=
  (c.set taddr, c.tag taddr)

/-- The block that a line holds. -/
def Setup.held (c : Setup) (st : Cache) (i : Nat) : Option BlockId :=
  if (st.lines.at i).valid then
    match c.cacheType with
    | .F => st.fCam.map fun cam => (0, cam.row i)
    | .D => st.dTags[i]?.map fun tag => (i, tag)
    | .S => st.sCams[i / c.sLines.toNat]?.map fun cam =>
        (i / c.sLines.toNat, cam.row (i % c.sLines.toNat))
  else none

/-- What a turn of the loop does with a record: the line it finds, and
whether `line_setValid` counted a miss for it. -/
def event (c : Setup) (st : Cache) (r : Record) : Option (Event Nat BlockId) :=
  match r with
  | none => none
  | some (tt, taddr) =>
      if tt ≠ 'I' ∧ tt ≠ 'R' ∧ tt ≠ 'W' then none
      else
        match findLine c st (c.tag taddr) (c.set taddr) with
        | .error _ => none
        | .ok found => some
            { line := found.1.toNat
              block := c.blockId taddr
              fill := decide (found.2.lines.misses ≠ st.lines.misses)
              write := tt == 'W' }

/-- The accesses of a trace from a state on. -/
def eventsOf (c : Setup) : Cache → List Record → List (Event Nat BlockId)
  | _, [] => []
  | st, r :: trace =>
      (event c st r).toList ++
        match step c st r with
        | .error _ => []
        | .ok st' => eventsOf c st' trace

variable {c : Setup} {n : Nat} {st st' : Cache}

theorem event_of_not_access {r : Record} (h : isAccess r = false) :
    event c st r = none := by
  cases r with
  | none => rfl
  | some a =>
      obtain ⟨tt, taddr⟩ := a
      simp only [isAccess, Option.any_some, Bool.or_eq_false_iff,
        beq_eq_false_iff_ne] at h
      rw [event, if_pos ⟨h.1.1, h.1.2, h.2⟩]

theorem event_of_access {tt : Char} {taddr : Word} {i : Nat}
    (h : isAccess (some (tt, taddr)) = true)
    (hfind : findLine c st (c.tag taddr) (c.set taddr) = .ok ((i : Int), st')) :
    event c st (some (tt, taddr))
      = some ⟨i, c.blockId taddr,
          decide (st'.lines.misses ≠ st.lines.misses), tt == 'W'⟩ := by
  simp only [isAccess, Option.any_some, Bool.or_eq_true, beq_iff_eq] at h
  rw [event, if_neg (by rintro ⟨hI, hR, hW⟩; rcases h with (h | h) | h <;>
    contradiction), hfind]
  rfl

/-! ## What the lookup does -/

/-- The block was found in its line, or line `i` was filled with it. -/
inductive Lookup (c : Setup) (st st' : Cache) (blk : BlockId) (i : Nat) : Prop
  | hit (same : st' = st) (held : c.held st i = some blk)
  | miss (fill : st'.lines = st.lines.fill i)
      (absent : ∀ j, c.held st j ≠ some blk)
      (held : ∀ j, c.held st' j = if j = i then some blk else c.held st j)

/-- In the states `I` of `n` lines every access finds or fills a line. -/
structure Looks (c : Setup) (n : Nat) (I : Cache → Prop) : Prop where
  sized : ∀ {st}, I st → st.lines.Sized n
  find : ∀ {st}, I st → ∀ taddr, ∃ (i : Nat) (st' : Cache),
    findLine c st (c.tag taddr) (c.set taddr) = .ok ((i : Int), st') ∧ i < n
      ∧ Lookup c st st' (c.blockId taddr) i ∧ I st'
  use : ∀ {st}, I st → ∀ {i}, i < n → (st.lines.at i).valid = true →
    ∀ w, I (st.use i w)

/-- The line table is this write-back table. -/
structure Tracks (c : Setup) (st : Cache) (t : Table Nat BlockId) : Prop where
  held : ∀ i, c.held st i = t.held i
  dirty : ∀ i, (st.lines.at i).dirty = t.dirty i
  writes : st.lines.writes = t.writes

theorem held_ways (ht : c.cacheType = .S) {k : Nat} (hk : c.sLines = k)
    (i : Nat) :
    c.held st i
      = if (st.lines.at i).valid then
          st.sCams[i / k]?.map fun cam => (i / k, cam.row (i % k))
        else none := by
  simp only [Setup.held, ht, hk, Int.toNat_natCast]

theorem valid_of_held {i : Nat} {blk : BlockId} (h : c.held st i = some blk) :
    (st.lines.at i).valid = true := by
  cases hv : (st.lines.at i).valid with
  | true => rfl
  | false => simp [Setup.held, hv] at h

/-- Using a line changes nothing about the blocks. -/
theorem held_use (hn : st.lines.Sized n) {i : Nat} (hi : i < n)
    (hvalid : (st.lines.at i).valid = true) (w : Bool) (j : Nat) :
    c.held (st.use i w) j = c.held st j := by
  have hu := Lines.used_use hn hi ((st.lines.at i).dirty || w)
  have hv : ((st.use i w).lines.at j).valid = (st.lines.at j).valid := by
    by_cases hj : j = i
    · subst hj
      exact (congrArg LineStruct.valid hu.self).trans hvalid.symm
    · exact congrArg LineStruct.valid (hu.other j hj)
  simp only [Setup.held, hv]
  rfl

theorem dirty_use (hn : st.lines.Sized n) {i : Nat} (hi : i < n) (w : Bool)
    (j : Nat) :
    ((st.use i w).lines.at j).dirty
      = if j = i then (st.lines.at i).dirty || w else (st.lines.at j).dirty := by
  have hu := Lines.used_use hn hi ((st.lines.at i).dirty || w)
  by_cases hj : j = i
  · subst hj
    rw [if_pos rfl]
    exact congrArg LineStruct.dirty hu.self
  · rw [if_neg hj]
    exact congrArg LineStruct.dirty (hu.other j hj)

/-! ## A run -/

variable {I : Cache → Prop} {t : Table Nat BlockId} {tt : Char} {taddr : Word}

theorem Tracks.hit {i : Nat} (ht : Tracks c st t) (hn : st.lines.Sized n)
    (hi : i < n) {blk : BlockId} (hheld : c.held st i = some blk) (w : Bool) :
    Tracks c (st.use i w) (t.access ⟨i, blk, false, w⟩) where
  held j := by
    rw [held_use hn hi (valid_of_held hheld), ht.held]
    rfl
  dirty j := by
    rw [dirty_use hn hi, ht.dirty, ht.dirty]
    simp [Table.access, Function.update_apply]
  writes := by
    show st.lines.writes = _
    simpa [Table.access] using ht.writes

theorem Tracks.miss {i : Nat} (ht : Tracks c st t) (hok : Residency.Ok t)
    (hn : st.lines.Sized n) (hi : i < n) {blk : BlockId}
    (hfill : st'.lines = st.lines.fill i)
    (hheld : ∀ j, c.held st' j = if j = i then some blk else c.held st j)
    (w : Bool) :
    Tracks c (st'.use i w) (t.access ⟨i, blk, true, w⟩) := by
  have hn' : st'.lines.Sized n := by
    rw [hfill]
    exact hn.fill i
  have hself := hheld i
  rw [if_pos rfl] at hself
  constructor
  · intro j
    rw [held_use hn' hi (valid_of_held hself), hheld, ht.held]
    simp [Table.access, Function.update_apply]
  · intro j
    rw [dirty_use hn' hi, hfill, Lines.fill_at hn hi, Lines.fill_at hn hi,
      if_pos rfl]
    by_cases hj : j = i
    · simp [Table.access, hj]
    · simp [Table.access, hj, ht.dirty]
  · -- only a valid line is dirty, so a write-back is counted for each
    have hclean : ((st.lines.at i).valid && (st.lines.at i).dirty)
        = t.dirty i := by
      rw [← ht.dirty]
      cases hv : (st.lines.at i).valid with
      | true => simp
      | false =>
          have hnone : t.held i = none := by
            rw [← ht.held]
            simp [Setup.held, hv]
          rw [ht.dirty, hok.clean hnone]
          rfl
    have hwrites : (st'.use i w).lines.writes = (st.lines.fill i).writes := by
      rw [← hfill]
      rfl
    rw [hwrites, Lines.fill, hclean, ht.writes]
    simp only [Table.access, Bool.true_and]
    push_cast
    split <;> rfl

/-- **Step lemma**: an access of the loop is one of the table. -/
theorem Looks.step (hl : Looks c n I) (hI : I st) (ht : Tracks c st t)
    (hok : Residency.Ok t) (hr : isAccess (some (tt, taddr)) = true) :
    ∃ st' e, step c st (some (tt, taddr)) = .ok st'
      ∧ event c st (some (tt, taddr)) = some e ∧ Serves t e ∧ e.line < n
      ∧ I st' ∧ Tracks c st' (t.access e) := by
  obtain ⟨i, st₁, hfind, hi, hlook, hI₁⟩ := hl.find hI taddr
  have hevent := event_of_access hr hfind
  -- found or filled, the line is valid when it is used
  have hvalid : (st₁.lines.at i).valid = true := by
    cases hlook with
    | hit same held => exact valid_of_held (same ▸ held)
    | miss fill absent held =>
        have hself := held i
        rw [if_pos rfl] at hself
        exact valid_of_held hself
  have hstep : CamCache.step c st (some (tt, taddr))
      = .ok (st₁.use i (tt == 'W')) := by
    rw [step_of_access _ _ taddr hr, hfind]
    exact useLine_eq st₁ (hl.sized hI₁) hi hvalid _
  refine ⟨_, _, hstep, hevent, ?_, hi, hl.use hI₁ hi hvalid _, ?_⟩
  · cases hlook with
    | hit same held =>
        subst same
        exact ⟨by simp, fun _ => by rw [← ht.held]; exact held⟩
    | miss fill absent held =>
        constructor
        · intro _ j
          rw [← ht.held]
          exact absent j
        · intro hf
          simp [fill, Lines.fill] at hf
  · cases hlook with
    | hit same held =>
        subst same
        simpa using ht.hit (hl.sized hI) hi held (tt == 'W')
    | miss fill absent held =>
        have hmisses : decide (st₁.lines.misses ≠ st.lines.misses) = true := by
          simp [fill, Lines.fill]
        rw [hmisses]
        exact ht.miss hok (hl.sized hI) hi fill held (tt == 'W')

/-- **Run lemma.** -/
theorem Looks.run (hl : Looks c n I) (trace : List Record) :
    ∀ {st : Cache} {t : Table Nat BlockId}, I st → Tracks c st t →
      Residency.Ok t → ∃ st', trace.foldlM (CamCache.step c) st = .ok st'
        ∧ I st' ∧ Tracks c st' (t.run (eventsOf c st trace))
        ∧ ServesAll t (eventsOf c st trace)
        ∧ ∀ e ∈ eventsOf c st trace, e.line < n := by
  induction trace with
  | nil =>
      intro st t hI ht _
      exact ⟨st, rfl, hI, ht, trivial, by simp [eventsOf]⟩
  | cons r trace ih =>
      intro st t hI ht hok
      cases hr : isAccess r with
      | false =>
          obtain ⟨st', hrun, hrest⟩ := ih hI ht hok
          refine ⟨st', ?_, ?_⟩
          · rw [List.foldlM_cons, step_of_not_access c st hr, ok_bind, hrun]
          · simpa [eventsOf, event_of_not_access hr,
              step_of_not_access c st hr] using hrest
      | true =>
          obtain ⟨⟨tt, taddr⟩, rfl⟩ : ∃ a, r = some a := by
            cases r with
            | none => exact absurd hr (by decide)
            | some a => exact ⟨a, rfl⟩
          obtain ⟨st₁, e, hstep, hevent, hserves, hlt, hI₁, ht₁⟩ :=
            hl.step hI ht hok hr
          obtain ⟨st', hrun, hI', ht', hall, hlines⟩ :=
            ih hI₁ ht₁ (hok.access hserves)
          have hhist : eventsOf c st (some (tt, taddr) :: trace)
              = e :: eventsOf c st₁ trace := by
            rw [eventsOf, hevent, hstep]
            rfl
          rw [hhist]
          refine ⟨st', ?_, hI', ht', ⟨hserves, hall⟩, ?_⟩
          · rw [List.foldlM_cons, hstep, ok_bind, hrun]
          · intro x hx
            rcases List.mem_cons.mp hx with rfl | hx
            · exact hlt
            · exact hlines x hx

end SchoolStuff.CamCache
