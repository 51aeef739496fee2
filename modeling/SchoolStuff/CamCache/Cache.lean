import SchoolStuff.CamCache.Lines

/-!
# CamCache — the trace loop (`cs220/lab13/cache.c`)

`start` is what `main` does before the loop, from the number of lines on,
`step` is one line of the trace and `run` the two together. The three cache
types share the loop and differ in how they find the line of an access.
Shifts are the compiled ones: the count of an `int` shift is taken modulo
32, that of an `unsigned long` modulo 64.
-/

namespace SchoolStuff.CamCache

/-- `cache_type`: fully associative, direct access, set associative. -/
inductive CacheType
  | F
  | D
  | S
  deriving DecidableEq, Repr

/-! ## Start-up -/

/-- `1<<i`. -/
def shl1 (i : Nat) : Int := if i % 32 = 31 then -2 ^ 31 else 2 ^ (i % 32)

/-- The loop of `mlog2` from `i` on, with `turns` turns to go. -/
def mlog2From (n : Int) : Nat → Nat → Except Fault Nat
  | 0, _ => .ok 64
  | turns + 1, i => do
      if n = shl1 i then .ok i
      else
        ensure (shl1 i < n)
        mlog2From n turns (i + 1)

/-- `mlog2`. -/
def mlog2 (n : Int) : Except Fault Nat := mlog2From n 64 0

/-- The variables of `main` that the loop only reads. -/
structure Setup where
  cacheType : CacheType
  cacheLines : Int
  offsetBits : Nat
  setBits : Nat
  sLines : Int
  deriving DecidableEq, Repr

/-- The variables of `main` that the loop changes. -/
structure Cache where
  lines : Lines
  fCam : Option Cam
  dTags : List Word
  sCams : List Cam
  deriving DecidableEq, Repr

/-- `main` up to the loop, for a cache of `cacheLines` lines. `ways` is the
last parameter of the set-associative type. -/
def start (t : CacheType) (cacheLines : Int) (offsetBits : Nat) (ways : Int) :
    Except Fault (Setup × Cache) :=
  let lines := linesCreate cacheLines
  match t with
  | .F => do
      let fCam ← camCreate cacheLines 0
      .ok (⟨.F, cacheLines, offsetBits, 0, 0⟩, ⟨lines, some fCam, [], []⟩)
  | .D => do
      let dTags := List.replicate cacheLines.toNat 0
      let setBits ← mlog2 cacheLines
      .ok (⟨.D, cacheLines, offsetBits, setBits, 0⟩, ⟨lines, none, dTags, []⟩)
  | .S => do
      if ways = 0 then .error .division
      else
        ensure (cacheLines.tmod ways = 0)
        let sSets := cacheLines.tdiv ways
        let sCams ← (List.range sSets.toNat).mapM fun _ => camCreate ways 0
        let setBits ← mlog2 sSets
        .ok (⟨.S, cacheLines, offsetBits, setBits, ways⟩,
          ⟨lines, none, [], sCams⟩)

/-! ## One line of the trace -/

/-- What `sscanf` gets from a line of the trace: the kind of the access and
the address, or not both. -/
abbrev Record := Option (Char × Word)

/-- `nontagbits`. -/
def Setup.nontagbits (c : Setup) : Nat := c.offsetBits + c.setBits

/-- `tag`. -/
def Setup.tag (c : Setup) (taddr : Word) : Word :=
  (taddr >>> (c.nontagbits % 64)) <<< (c.nontagbits % 4)

/-- `set`. -/
def Setup.set (c : Setup) (taddr : Word) : Nat :=
  ((taddr >>> (c.offsetBits % 64)) &&& BitVec.ofInt 64 (shl1 c.setBits - 1)).toNat

/-- `line==-1 || !line_isValid(lines,i)`. -/
def lineMissing (d : Lines) (line i : Int) : Except Fault Bool :=
  if line = -1 then .ok true
  else do
    let valid ← lineIsValid d i
    .ok (!valid)

/-- `case 'F'`. -/
def findF (c : Setup) (st : Cache) (tag : Word) (set : Nat) :
    Except Fault (Int × Cache) :=
  match st.fCam with
  | none => .error .assertion
  | some cam => do
      let line := camRead cam tag
      let missing ← lineMissing st.lines line line
      if missing then do
        let line ← lineFirstUsed st.lines 0 c.cacheLines
        -- the number of lines stands for the row, then for the line table
        let cam ← camWrite cam c.cacheLines tag
        let lines ← lineSetValid (.ofInt c.cacheLines) st.lines line
        .ok (line, { st with fCam := some cam, lines := lines })
      else .ok (line + set * c.sLines, st)

/-- `case 'D'`. -/
def findD (st : Cache) (tag : Word) (set : Nat) :
    Except Fault (Int × Cache) := do
  let valid ← lineIsValid st.lines set
  match st.dTags[set]? with
  | none => .error .outOfBounds
  | some old =>
      if valid = false ∨ old ≠ tag then do
        let lines ← lineSetValid .table st.lines set
        .ok ((set : Int),
          { st with dTags := st.dTags.set set tag, lines := lines })
      else .ok ((set : Int), st)

/-- `case 'S'`. -/
def findS (c : Setup) (st : Cache) (tag : Word) (set : Nat) :
    Except Fault (Int × Cache) :=
  match st.sCams[set]? with
  | none => .error .outOfBounds
  | some cam => do
      let line := camRead cam tag
      let missing ← lineMissing st.lines line (line + set * c.sLines)
      if missing then do
        let line ← lineFirstUsed st.lines (set * c.sLines)
          ((set + 1) * c.sLines)
        let cam ← camWrite cam (line.tmod c.sLines) tag
        let lines ← lineSetValid .table st.lines line
        .ok (line, { st with sCams := st.sCams.set set cam, lines := lines })
      else .ok (line + set * c.sLines, st)

/-- The `switch` of the loop. -/
def findLine (c : Setup) (st : Cache) (tag : Word) (set : Nat) :
    Except Fault (Int × Cache) :=
  match c.cacheType with
  | .F => findF c st tag set
  | .D => findD st tag set
  | .S => findS c st tag set

/-- An instruction fetch, a read or a write. -/
def isAccess (r : Record) : Bool :=
  r.any fun a => a.1 == 'I' || a.1 == 'R' || a.1 == 'W'

/-- The end of the loop body, for the line that was found. -/
def useLine (st : Cache) (line : Int) (write : Bool) : Except Fault Cache := do
  let lines ← lineSetUsed st.lines line
  let lines ← if write then lineSetDirty lines line else .ok lines
  .ok { st with lines := lines }

/-- One turn of the loop. -/
def step (c : Setup) (st : Cache) (r : Record) : Except Fault Cache :=
  match r with
  | none => .ok st
  | some (tt, taddr) =>
      if tt ≠ 'I' ∧ tt ≠ 'R' ∧ tt ≠ 'W' then .ok st
      else do
        let found ← findLine c st (c.tag taddr) (c.set taddr)
        useLine found.2 found.1 (tt == 'W')

/-- The state in which the loop has read the trace. -/
def run (t : CacheType) (cacheLines : Int) (offsetBits : Nat) (ways : Int)
    (trace : List Record) : Except Fault (Setup × Cache) := do
  let s ← start t cacheLines offsetBits ways
  let st ← trace.foldlM (step s.1) s.2
  .ok (s.1, st)

theorem step_of_not_access (c : Setup) (st : Cache) {r : Record}
    (h : isAccess r = false) : step c st r = .ok st := by
  cases r with
  | none => rfl
  | some a =>
      obtain ⟨tt, taddr⟩ := a
      simp only [isAccess, Option.any_some, Bool.or_eq_false_iff,
        beq_eq_false_iff_ne] at h
      rw [step, if_pos ⟨h.1.1, h.1.2, h.2⟩]

theorem step_of_access (c : Setup) (st : Cache) {tt : Char} (taddr : Word)
    (h : isAccess (some (tt, taddr)) = true) :
    step c st (some (tt, taddr))
      = (findLine c st (c.tag taddr) (c.set taddr)).bind fun found =>
          useLine found.2 found.1 (tt == 'W') := by
  simp only [isAccess, Option.any_some, Bool.or_eq_true, beq_iff_eq] at h
  rw [step, if_neg (by rintro ⟨hI, hR, hW⟩; rcases h with (h | h) | h <;>
    contradiction)]
  rfl

/-! ## The counts -/

/-- The counts have grown by at most `n`. -/
structure Counted (n : Nat) (d d' : Lines) : Prop where
  misses : d.misses ≤ d'.misses ∧ d'.misses ≤ d.misses + n
  hits : d.hits ≤ d'.hits ∧ d'.hits ≤ d.hits + n
  writes : d.writes ≤ d'.writes ∧ d'.writes ≤ d.writes + n

variable {c : Setup} {st st' : Cache} {d d' : Lines} {p : LinesPtr} {line : Int}

theorem lineSetValid_counts (h : lineSetValid p d line = .ok d') :
    d'.misses = d.misses + 1 ∧ d'.hits = d.hits
      ∧ (d'.writes = d.writes ∨ d'.writes = d.writes + 1) := by
  rw [lineSetValid, bind_eq_ok] at h
  obtain ⟨d₁, hd, h⟩ := h
  obtain rfl : d = d₁ := by
    cases p with
    | table => exact Except.ok.inj hd
    | ofInt n =>
        rw [LinesPtr.deref] at hd
        split at hd <;> simp at hd
  obtain ⟨_, _, h⟩ := bind_eq_ok.mp h
  obtain ⟨l, _, h⟩ := bind_eq_ok.mp h
  obtain rfl := Except.ok.inj h
  split
  · exact ⟨rfl, rfl, Or.inr rfl⟩
  · exact ⟨rfl, rfl, Or.inl rfl⟩

theorem lineSetUsed_counts (h : lineSetUsed d line = .ok d') :
    d'.misses = d.misses ∧ d'.hits = d.hits + 1 ∧ d'.writes = d.writes := by
  obtain ⟨_, _, h⟩ := bind_eq_ok.mp h
  obtain ⟨l, _, h⟩ := bind_eq_ok.mp h
  obtain ⟨_, _, h⟩ := bind_eq_ok.mp h
  obtain rfl := Except.ok.inj h
  exact ⟨rfl, rfl, rfl⟩

theorem lineSetDirty_counts (h : lineSetDirty d line = .ok d') :
    d'.misses = d.misses ∧ d'.hits = d.hits ∧ d'.writes = d.writes := by
  obtain ⟨_, _, h⟩ := bind_eq_ok.mp h
  obtain ⟨l, _, h⟩ := bind_eq_ok.mp h
  obtain rfl := Except.ok.inj h
  exact ⟨rfl, rfl, rfl⟩

/-- Whatever the type, a lookup fills at most one line. -/
theorem findLine_fills {tag : Word} {set : Nat}
    (h : findLine c st tag set = .ok (line, st')) :
    st'.lines = st.lines
      ∨ ∃ p line', lineSetValid p st.lines line' = .ok st'.lines := by
  rw [findLine] at h
  split at h
  · rw [findF] at h
    split at h
    · simp at h
    · obtain ⟨missing, _, h⟩ := bind_eq_ok.mp h
      split at h
      · obtain ⟨_, _, h⟩ := bind_eq_ok.mp h
        obtain ⟨_, _, h⟩ := bind_eq_ok.mp h
        obtain ⟨lines, hlines, h⟩ := bind_eq_ok.mp h
        obtain ⟨_, rfl⟩ := Prod.mk.inj (Except.ok.inj h)
        exact Or.inr ⟨_, _, hlines⟩
      · obtain ⟨_, rfl⟩ := Prod.mk.inj (Except.ok.inj h)
        exact Or.inl rfl
  · obtain ⟨valid, _, h⟩ := bind_eq_ok.mp h
    split at h
    · simp at h
    · split at h
      · obtain ⟨lines, hlines, h⟩ := bind_eq_ok.mp h
        obtain ⟨_, rfl⟩ := Prod.mk.inj (Except.ok.inj h)
        exact Or.inr ⟨_, _, hlines⟩
      · obtain ⟨_, rfl⟩ := Prod.mk.inj (Except.ok.inj h)
        exact Or.inl rfl
  · rw [findS] at h
    split at h
    · simp at h
    · obtain ⟨missing, _, h⟩ := bind_eq_ok.mp h
      split at h
      · obtain ⟨_, _, h⟩ := bind_eq_ok.mp h
        obtain ⟨_, _, h⟩ := bind_eq_ok.mp h
        obtain ⟨lines, hlines, h⟩ := bind_eq_ok.mp h
        obtain ⟨_, rfl⟩ := Prod.mk.inj (Except.ok.inj h)
        exact Or.inr ⟨_, _, hlines⟩
      · obtain ⟨_, rfl⟩ := Prod.mk.inj (Except.ok.inj h)
        exact Or.inl rfl

theorem useLine_counts {write : Bool} (h : useLine st line write = .ok st') :
    st'.lines.misses = st.lines.misses ∧ st'.lines.hits = st.lines.hits + 1
      ∧ st'.lines.writes = st.lines.writes := by
  obtain ⟨lines, hused, h⟩ := bind_eq_ok.mp h
  have hu := lineSetUsed_counts hused
  cases write with
  | true =>
      obtain ⟨lines', hdirty, h⟩ := bind_eq_ok.mp h
      obtain rfl := Except.ok.inj h
      have hd := lineSetDirty_counts hdirty
      exact ⟨hd.1.trans hu.1, hd.2.1.trans hu.2.1, hd.2.2.trans hu.2.2⟩
  | false =>
      obtain rfl := Except.ok.inj h
      exact hu

/-- **Step lemma**: one line of the trace. -/
theorem step_counts {r : Record} (h : step c st r = .ok st') :
    Counted 1 st.lines st'.lines := by
  cases hr : isAccess r with
  | false =>
      rw [step_of_not_access c st hr] at h
      obtain rfl := Except.ok.inj h
      exact ⟨by omega, by omega, by omega⟩
  | true =>
      obtain ⟨a, rfl⟩ : ∃ a, r = some a := by
        cases r with
        | none => exact absurd hr (by decide)
        | some a => exact ⟨a, rfl⟩
      rw [step_of_access c st a.2 hr] at h
      obtain ⟨⟨line, st₁⟩, hfind, huse⟩ := bind_eq_ok.mp h
      have hused := useLine_counts huse
      dsimp only at hused
      obtain ⟨hm, hh, hw⟩ := hused
      rcases findLine_fills hfind with heq | ⟨p, line', hfill⟩
      · rw [heq] at hm hh hw
        exact ⟨by omega, by omega, by omega⟩
      · obtain ⟨hm', hh', hw'⟩ := lineSetValid_counts hfill
        exact ⟨by omega, by omega, by omega⟩

/-- **Run lemma.** -/
theorem foldlM_counts (trace : List Record) :
    ∀ {st : Cache}, trace.foldlM (step c) st = .ok st' →
      Counted trace.length st.lines st'.lines := by
  induction trace with
  | nil =>
      intro st h
      obtain rfl := Except.ok.inj h
      exact ⟨by omega, by omega, by omega⟩
  | cons r trace ih =>
      intro st h
      rw [List.foldlM_cons] at h
      obtain ⟨st₁, hstep, hrun⟩ := bind_eq_ok.mp h
      obtain ⟨hm, hh, hw⟩ := step_counts hstep
      obtain ⟨hm', hh', hw'⟩ := ih hrun
      rw [List.length_cons]
      exact ⟨by omega, by omega, by omega⟩

theorem start_lines {t : CacheType} {cacheLines ways : Int} {o : Nat}
    (h : start t cacheLines o ways = .ok (c, st)) :
    st.lines = linesCreate cacheLines := by
  cases t with
  | F =>
      obtain ⟨fCam, _, h⟩ := bind_eq_ok.mp h
      obtain ⟨_, rfl⟩ := Prod.mk.inj (Except.ok.inj h)
      rfl
  | D =>
      obtain ⟨b, _, h⟩ := bind_eq_ok.mp h
      obtain ⟨_, rfl⟩ := Prod.mk.inj (Except.ok.inj h)
      rfl
  | S =>
      rw [start] at h
      split at h
      · simp at h
      · obtain ⟨_, _, h⟩ := bind_eq_ok.mp h
        obtain ⟨sCams, _, h⟩ := bind_eq_ok.mp h
        obtain ⟨b, _, h⟩ := bind_eq_ok.mp h
        obtain ⟨_, rfl⟩ := Prod.mk.inj (Except.ok.inj h)
        rfl

/-- **The counts are `int`s** after a trace of fewer than `2 ^ 31` lines. -/
theorem counts_inRange {t : CacheType} {cacheLines ways : Int} {o : Nat}
    {trace : List Record} (htrace : trace.length < 2 ^ 31)
    (h : run t cacheLines o ways trace = .ok (c, st)) :
    CInt.InRange st.lines.misses ∧ CInt.InRange st.lines.hits
      ∧ CInt.InRange st.lines.writes := by
  obtain ⟨⟨c', st₀⟩, hstart, h⟩ := bind_eq_ok.mp h
  obtain ⟨st', hrun, h⟩ := bind_eq_ok.mp h
  obtain ⟨_, rfl⟩ := Prod.mk.inj (Except.ok.inj h)
  obtain ⟨hm, hh, hw⟩ := foldlM_counts trace hrun
  rw [start_lines hstart] at hm hh hw
  simp only [linesCreate] at hm hh hw
  simp only [CInt.inRange_iff]
  omega

end SchoolStuff.CamCache
