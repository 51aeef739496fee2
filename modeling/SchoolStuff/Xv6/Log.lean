import SchoolStuff.Lib.Writes
import SchoolStuff.Xv6.Block

/-!
# Xv6 — the log (`cs350/cs350-18f-lab6-base/log.c`)

The buffer cache is kept as far as the log sees it: a block that is dirty has
its contents in a buffer, and every other block reads as what is on the disk.
`bwrite` is the only write to the disk, and `writes` lists them. A panic is
`none`, as is a header that does not fit in memory. `start` and `size` are
what `initlog` reads from the superblock.
-/

namespace SchoolStuff.Xv6

def MAXOPBLOCKS : Nat := 10

def LOGSIZE : Nat := MAXOPBLOCKS * 3

/-- Where the log is: what `initlog` reads from the superblock. -/
structure LogArea where
  start : UInt32
  /-- The blocks of the log, its header among them. -/
  size : Nat

/-- `log.start+tail+1`. -/
def LogArea.block (log : LogArea) (tail : Nat) : UInt32 :=
  log.start + UInt32.ofNat (tail + 1)

/-- `struct log`, without its lock and its device. -/
structure Log extends LogArea where
  outstanding : Int
  committing : Bool
  /-- `lh.block[0]` to `lh.block[lh.n - 1]`. -/
  lh : List UInt32

structure Machine where
  disk : Disk
  /-- The blocks that have been written to the disk, the first one first. -/
  writes : List (UInt32 × Block)
  /-- The buffers with `B_DIRTY`. -/
  dirty : UInt32 → Option Block
  log : Log

namespace Machine

/-! ## The buffer cache -/

/-- What `bread` finds in the buffer of a block. -/
def bread (m : Machine) (b : UInt32) : Block := (m.dirty b).getD (m.disk b)

/-- `bwrite` of a buffer of block `b` that holds `data`. -/
def bwrite (m : Machine) (b : UInt32) (data : Block) : Machine :=
  { m with
    disk := Function.update m.disk b data
    writes := m.writes ++ [(b, data)]
    dirty := Function.update m.dirty b none }

/-! ## The disk log -/

def installFrom (m : Machine) (tail : Nat) : List UInt32 → Machine
  | [] => m
  | b :: bs => installFrom (m.bwrite b (m.bread (m.log.block tail))) (tail + 1) bs

/-- `install_trans`. -/
def installTrans (m : Machine) : Machine := m.installFrom 0 m.log.lh

/-- `read_head`. More blocks than `lh.block` has entries are written past its
end. -/
def readHead (m : Machine) : Option Machine := do
  let head := m.bread m.log.start
  let n := (head.word 0).toInt32.toInt
  guard (n ≤ LOGSIZE)
  some { m with log := { m.log with lh := head.words 1 n.toNat } }

/-- The header block, as `write_head` changes it. -/
def headBlock (head : Block) (lh : List UInt32) : Block :=
  (head.setWord 0 (UInt32.ofNat lh.length)).setWords 1 lh

/-- `write_head`. -/
def writeHead (m : Machine) : Machine :=
  m.bwrite m.log.start (headBlock (m.bread m.log.start) m.log.lh)

/-- `log.lh.n = 0`. -/
def clearHead (m : Machine) : Machine := { m with log := { m.log with lh := [] } }

/-- `recover_from_log`. -/
def recoverFromLog (m : Machine) : Option Machine := do
  let m ← m.readHead
  some m.installTrans.clearHead.writeHead

def writeLogFrom (m : Machine) (tail : Nat) : List UInt32 → Machine
  | [] => m
  | b :: bs => writeLogFrom (m.bwrite (m.log.block tail) (m.bread b)) (tail + 1) bs

/-- `write_log`. -/
def writeLog (m : Machine) : Machine := m.writeLogFrom 0 m.log.lh

/-- `commit`. -/
def commit (m : Machine) : Machine :=
  if 0 < m.log.lh.length then
    m.writeLog.writeHead.installTrans.clearHead.writeHead
  else m

end Machine

/-! ## System calls -/

namespace Log

/-- `begin_op`. In `none` it sleeps. -/
def beginOp (log : Log) : Option Log :=
  if log.committing then none
  else if log.lh.length + (log.outstanding + 1) * MAXOPBLOCKS > LOGSIZE then none
  else some { log with outstanding := log.outstanding + 1 }

/-- `end_op`, up to its commit, and `do_commit`. -/
def endOp (log : Log) : Option (Bool × Log) :=
  let log := { log with outstanding := log.outstanding - 1 }
  if log.committing then none
  else if log.outstanding = 0 then some (true, { log with committing := true })
  else some (false, log)

/-- Whether `log_write` panics with "too big a transaction". -/
def TooBig (log : Log) : Prop :=
  log.lh.length ≥ LOGSIZE ∨ log.lh.length ≥ (log.size : Int) - 1

instance (log : Log) : Decidable log.TooBig := by
  unfold TooBig
  exact inferInstance

/-- The tests of `log_write`, which it makes before `acquire(&log.lock)`. -/
def check (log : Log) : Option Unit :=
  if log.TooBig then none else if log.outstanding < 1 then none else some ()

/-- What `log_write` does to the log behind its tests. In `none` it writes past the end
of `lh.block`. -/
def append (log : Log) (b : UInt32) : Option Log :=
  if b ∈ log.lh then some log
  else if log.lh.length < LOGSIZE then some { log with lh := log.lh ++ [b] }
  else none

/-- The part of `log_write` that changes the log, and its tests. -/
def record (log : Log) (b : UInt32) : Option Log :=
  if log.TooBig then none
  else if log.outstanding < 1 then none
  -- log absorption
  else if b ∈ log.lh then some log
  else some { log with lh := log.lh ++ [b] }

theorem beginOp_cases {log log' : Log} (h : log.beginOp = some log') :
    log.committing = false
      ∧ log.lh.length + (log.outstanding + 1) * MAXOPBLOCKS ≤ LOGSIZE
      ∧ log' = { log with outstanding := log.outstanding + 1 } := by
  unfold beginOp at h
  split at h
  · cases h
  · rename_i hcommitting
    split at h
    · cases h
    · rename_i hroom
      cases h
      exact ⟨by simpa using hcommitting, by omega, rfl⟩

theorem endOp_cases {log log' : Log} {doCommit : Bool}
    (h : log.endOp = some (doCommit, log')) :
    log.committing = false ∧ (doCommit = true → log.outstanding = 1)
      ∧ log' = { log with
          outstanding := log.outstanding - 1, committing := doCommit } := by
  simp only [endOp] at h
  split at h
  · cases h
  · rename_i hcommitting
    simp only [Bool.not_eq_true] at hcommitting
    split at h
    · rename_i hlast
      cases h
      exact ⟨hcommitting, fun _ => by omega, rfl⟩
    · cases h
      refine ⟨hcommitting, by simp, ?_⟩
      rw [← hcommitting]

/-- All that `log_write` can do to the log. -/
theorem record_cases {log log' : Log} {b : UInt32} (h : log.record b = some log') :
    ¬log.TooBig ∧ 1 ≤ log.outstanding
      ∧ ((b ∈ log.lh ∧ log' = log)
        ∨ (b ∉ log.lh ∧ log' = { log with lh := log.lh ++ [b] })) := by
  unfold record at h
  split at h
  · cases h
  · rename_i hbig
    split at h
    · cases h
    · rename_i hout
      refine ⟨hbig, by omega, ?_⟩
      split at h
      · rename_i hmem
        cases h
        exact Or.inl ⟨hmem, rfl⟩
      · rename_i hmem
        cases h
        exact Or.inr ⟨hmem, rfl⟩

/-- The two panics are all that stops `log_write`. -/
theorem record_some {log : Log} (hbig : ¬log.TooBig) (hout : 1 ≤ log.outstanding)
    (b : UInt32) : ∃ log', log.record b = some log' := by
  have hout' : ¬log.outstanding < 1 := by omega
  by_cases hmem : b ∈ log.lh
  · exact ⟨log, by simp only [record, if_neg hbig, if_neg hout', if_pos hmem]⟩
  · exact ⟨{ log with lh := log.lh ++ [b] },
      by simp only [record, if_neg hbig, if_neg hout', if_neg hmem]⟩

theorem check_cases {log : Log} (h : log.check = some ()) :
    ¬log.TooBig ∧ 1 ≤ log.outstanding := by
  unfold check at h
  split at h
  · cases h
  · rename_i hbig
    split at h
    · cases h
    · exact ⟨hbig, by omega⟩

theorem append_cases {log log' : Log} {b : UInt32} (h : log.append b = some log') :
    log' = log
      ∨ b ∉ log.lh ∧ log.lh.length < LOGSIZE ∧ log' = { log with lh := log.lh ++ [b] } := by
  unfold append at h
  split at h
  · cases h
    exact Or.inl rfl
  · rename_i hmem
    split at h
    · rename_i hroom
      cases h
      exact Or.inr ⟨hmem, hroom, rfl⟩
    · cases h

/-- **With nothing in between**, the tests and what is behind them are `log_write`. -/
theorem record_eq (log : Log) (b : UInt32) :
    log.record b = log.check.bind fun _ => log.append b := by
  unfold record check
  split
  · rfl
  · rename_i hbig
    have hroom : log.lh.length < LOGSIZE := by
      simp only [TooBig] at hbig
      omega
    split
    · rfl
    · rw [Option.bind_some, append, if_pos hroom]

section record

variable {log log' : Log} {b : UInt32}

theorem record_area (h : log.record b = some log') :
    log'.toLogArea = log.toLogArea := by
  obtain ⟨_, _, ⟨_, rfl⟩ | ⟨_, rfl⟩⟩ := record_cases h <;> rfl

theorem mem_record (h : log.record b = some log') (c : UInt32) :
    c ∈ log'.lh ↔ c ∈ log.lh ∨ c = b := by
  obtain ⟨_, _, ⟨hmem, rfl⟩ | ⟨_, rfl⟩⟩ := record_cases h
  · constructor
    · exact Or.inl
    · rintro (hc | rfl)
      · exact hc
      · exact hmem
  · simp

theorem nodup_record (h : log.record b = some log') (hnodup : log.lh.Nodup) :
    log'.lh.Nodup := by
  obtain ⟨_, _, ⟨_, rfl⟩ | ⟨hmem, rfl⟩⟩ := record_cases h
  · exact hnodup
  · refine List.nodup_append.2 ⟨hnodup, by simp, fun x hx y hy e => hmem ?_⟩
    simp only [List.mem_singleton] at hy
    exact hy ▸ e ▸ hx

/-- The log that `log_write` leaves still fits. -/
theorem length_record (h : log.record b = some log') :
    log'.lh.length ≤ LOGSIZE ∧ log'.lh.length < log.size := by
  obtain ⟨hbig, _, ⟨_, rfl⟩ | ⟨_, rfl⟩⟩ := record_cases h
  · simp only [TooBig] at hbig
    omega
  · simp only [TooBig] at hbig
    simp only [List.length_append, List.length_singleton]
    omega

end record

end Log

namespace Machine

/-- `log_write` of the buffer of block `b`, after the caller has changed it
to `data`. -/
def logWrite (m : Machine) (b : UInt32) (data : Block) : Option Machine := do
  let log ← m.log.record b
  some { m with log := log, dirty := Function.update m.dirty b (some data) }

/-- `log_write` behind its tests. -/
def append (m : Machine) (b : UInt32) (data : Block) : Option Machine := do
  let log ← m.log.append b
  some { m with log := log, dirty := Function.update m.dirty b (some data) }

/-- `log_write` after `log_write`. -/
def logWrites (m : Machine) : List (UInt32 × Block) → Option Machine
  | [] => some m
  | w :: ws => (m.logWrite w.1 w.2).bind (logWrites · ws)

theorem logWrite_cases {m m' : Machine} {b : UInt32} {data : Block}
    (h : m.logWrite b data = some m') :
    ∃ log, m.log.record b = some log ∧ m' = { m with
      log := log, dirty := Function.update m.dirty b (some data) } := by
  simp only [logWrite, Option.bind_eq_bind, Option.bind_eq_some_iff,
    Option.some.injEq] at h
  obtain ⟨log, hlog, rfl⟩ := h
  exact ⟨log, hlog, rfl⟩

theorem append_cases {m m' : Machine} {b : UInt32} {data : Block}
    (h : m.append b data = some m') :
    ∃ log, m.log.append b = some log ∧ m' = { m with
      log := log, dirty := Function.update m.dirty b (some data) } := by
  simp only [append, Option.bind_eq_bind, Option.bind_eq_some_iff,
    Option.some.injEq] at h
  obtain ⟨log, hlog, rfl⟩ := h
  exact ⟨log, hlog, rfl⟩

theorem installFrom_log (m : Machine) (tail : Nat) (bs : List UInt32) :
    (m.installFrom tail bs).log = m.log := by
  induction bs generalizing m tail with
  | nil => rfl
  | cons b bs ih => exact ih _ _

theorem writeLogFrom_log (m : Machine) (tail : Nat) (bs : List UInt32) :
    (m.writeLogFrom tail bs).log = m.log := by
  induction bs generalizing m tail with
  | nil => rfl
  | cons b bs ih => exact ih _ _

/-- A commit leaves nothing but an empty log behind in memory. -/
theorem commit_log (m : Machine) : m.commit.log = { m.log with lh := [] } := by
  unfold commit
  split
  · change { (installFrom _ _ _).log with lh := [] } = _
    rw [installFrom_log]
    change { (writeLogFrom _ _ _).log with lh := [] } = _
    rw [writeLogFrom_log]
  · rename_i hpos
    have hlh : m.log.lh = [] := by
      rw [← List.length_eq_zero_iff]
      omega
    rw [← hlh]

/-- The end of `end_op`, for the last operation. -/
def commitOp (m : Machine) : Machine :=
  { m.commit with log := { m.commit.log with committing := false } }

/-- The machine after a start, on the disk that is left. No operation has
written the superblock, so the log is where it was. -/
def boot (log : LogArea) (d : Disk) : Machine :=
  { disk := d
    writes := []
    dirty := fun _ => none
    log := { log with outstanding := 0, committing := false, lh := [] } }

end Machine

end SchoolStuff.Xv6
