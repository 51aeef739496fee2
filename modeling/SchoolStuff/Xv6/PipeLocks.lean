import SchoolStuff.Xv6.Pipe
import SchoolStuff.Xv6.SleepWakeup

/-!
# PipeLocks — pipes over `sleep` and `wakeup`

`Pipe` takes a call from lock to lock as one step. Here the processes take the
steps of `SleepWakeup` instead, in any order, and a call is `killed` whenever it
looks. A pipe is still a queue, and processes sleep only where they have to: with
one exception, which the code leaves (`failed`).
-/

namespace SchoolStuff.Xv6.Pipe.Locks

open Monitor (Exit Sections Status)
open SleepWakeup (Pc State)

/-- Where a process goes on: `pipewrite` with the bytes that are left. -/
inductive Goal where
  | pipewrite (rest : List UInt8)
  | piperead (n : Nat)
  | pipeclose (writable : Bool)
  deriving DecidableEq

/-- The pipe, and what has happened on it. -/
structure Data where
  pipe : Pipe
  stored : List UInt8
  delivered : List UInt8
  /-- a `pipewrite` has returned -1 -/
  failed : Bool

/-- `pipewrite` with `rest` to store, up to where it sleeps or returns. -/
def pipewrite (killed : Bool) (rest : List UInt8) (d : Data) : Exit Chan Goal Data :=
  let (left, p) := d.pipe.fill rest
  let d := { d with pipe := p, stored := d.stored ++ rest.take (rest.length - left.length) }
  if left = [] then ⟨d, [.nread], none⟩
  else if !p.readopen || killed then ⟨{ d with failed := true }, [], none⟩
  else ⟨d, [.nread], some (.nwrite, .pipewrite left)⟩

/-- `piperead`, up to where it sleeps or returns. -/
def piperead (killed : Bool) (n : Nat) (d : Data) : Exit Chan Goal Data :=
  if d.pipe.nread = d.pipe.nwrite ∧ d.pipe.writeopen = true then
    if killed then ⟨d, [], none⟩ else ⟨d, [], some (.nread, .piperead n)⟩
  else
    let (bytes, p) := d.pipe.drain n
    ⟨{ d with pipe := p, delivered := d.delivered ++ bytes }, [.nwrite], none⟩

def pipeclose (writable : Bool) (d : Data) : Exit Chan Goal Data :=
  ⟨{ d with pipe := d.pipe.closeEnd writable }, [if writable then .nread else .nwrite], none⟩

/-- One section of a call. -/
def turn (killed : Bool) : Goal → Data → Exit Chan Goal Data
  | .pipewrite rest => pipewrite killed rest
  | .piperead n => piperead killed n
  | .pipeclose writable => pipeclose writable

/-- The end of the pipe that a call needs. -/
def Goal.isOpen (p : Pipe) : Goal → Bool
  | .pipewrite _ => p.writeopen
  | .piperead _ => p.readopen
  | .pipeclose writable => if writable then p.writeopen else p.readopen

/-- No process comes to a pipe that has been freed. -/
def sections (ι : Type) : Sections ι Chan Goal Data where
  body _ goal d x := ¬d.pipe.Freed ∧ ∃ killed, x = turn killed goal d
  may _ goal d := goal.isOpen d.pipe = true

/-- A new pipe. -/
def new (data : Fin PIPESIZE → UInt8) : Data := ⟨alloc data, [], [], false⟩

variable {d : Data}

/-- The section of `pipewrite` is a step of `Pipe`. -/
theorem pipewrite_eq (killed : Bool) (rest : List UInt8) (d : Data) (n : Nat) :
    let r := (⟨d.pipe, fun _ => .idle, fun _ => killed⟩ : Sys Unit).pipewrite () n rest
    (pipewrite killed rest d).shared.pipe = r.1.pipe
      ∧ (pipewrite killed rest d).shared.stored = d.stored ++ r.2.stored
      ∧ (pipewrite killed rest d).shared.delivered = d.delivered ++ r.2.delivered := by
  unfold pipewrite Sys.pipewrite
  simp only
  split
  · exact ⟨rfl, rfl, (List.append_nil _).symm⟩
  split
  · exact ⟨rfl, rfl, (List.append_nil _).symm⟩
  · exact ⟨rfl, rfl, (List.append_nil _).symm⟩

/-- The section of `piperead` is a step of `Pipe`. -/
theorem piperead_eq (killed : Bool) (n : Nat) (d : Data) :
    let r := (⟨d.pipe, fun _ => .idle, fun _ => killed⟩ : Sys Unit).piperead () n
    (piperead killed n d).shared.pipe = r.1.pipe
      ∧ (piperead killed n d).shared.stored = d.stored ++ r.2.stored
      ∧ (piperead killed n d).shared.delivered = d.delivered ++ r.2.delivered := by
  unfold piperead Sys.piperead
  simp only
  split
  · split
    · exact ⟨rfl, (List.append_nil _).symm, (List.append_nil _).symm⟩
    · exact ⟨rfl, (List.append_nil _).symm, (List.append_nil _).symm⟩
  · exact ⟨rfl, (List.append_nil _).symm, rfl⟩

/-- **Step lemma.** -/
theorem inv_turn (h : Inv d.pipe d.stored d.delivered) (killed : Bool) (goal : Goal) :
    Inv (turn killed goal d).shared.pipe (turn killed goal d).shared.stored
      (turn killed goal d).shared.delivered := by
  cases goal with
  | pipewrite rest =>
      obtain ⟨hpipe, hstored, hdelivered⟩ := pipewrite_eq killed rest d 0
      rw [turn, hpipe, hstored, hdelivered]
      exact Sys.inv_pipewrite h () 0 rest
  | piperead n =>
      obtain ⟨hpipe, hstored, hdelivered⟩ := piperead_eq killed n d
      rw [turn, hpipe, hstored, hdelivered]
      exact Sys.inv_piperead h () n
  | pipeclose writable => exact h.closeEnd writable

/-! ## Who sleeps -/

/-- What a reader sleeps on. -/
def Reads (d : Data) : Prop :=
  d.failed = true ∨ d.pipe.nread = d.pipe.nwrite ∧ d.pipe.writeopen = true

/-- What a writer sleeps on. -/
def Writes (d : Data) : Prop := d.pipe.Full ∧ d.pipe.readopen = true

theorem fill_full {p : Pipe} (hfull : p.Full) (rest : List UInt8) :
    p.fill rest = (rest, p) := by
  cases rest with
  | nil => rfl
  | cons c cs => rw [Pipe.fill, if_pos hfull]

theorem fill_left {p : Pipe} (rest : List UInt8) (hleft : (p.fill rest).1 ≠ []) :
    (p.fill rest).2.Full := by
  induction rest generalizing p with
  | nil => exact absurd rfl hleft
  | cons c cs ih =>
      rw [Pipe.fill] at hleft ⊢
      split
      · assumption
      · rename_i hfull
        rw [if_neg hfull] at hleft
        exact ih hleft

theorem fill_ends (p : Pipe) (rest : List UInt8) :
    (p.fill rest).2.readopen = p.readopen ∧ (p.fill rest).2.writeopen = p.writeopen := by
  induction rest generalizing p with
  | nil => exact ⟨rfl, rfl⟩
  | cons c cs ih =>
      rw [Pipe.fill]
      split
      · exact ⟨rfl, rfl⟩
      · exact ih (p.put c)

/-- A section that sleeps on `nread` has found it so, and one that does not wake
`nread` leaves it so. -/
theorem reads_turn (killed : Bool) (goal : Goal) :
    (∀ goal', (turn killed goal d).next = some (.nread, goal') →
        Reads (turn killed goal d).shared)
      ∧ (Reads d → .nread ∉ (turn killed goal d).wake →
        Reads (turn killed goal d).shared) := by
  cases goal with
  | pipewrite rest =>
      simp only [turn, pipewrite]
      split
      · exact ⟨fun _ h => (nomatch h), fun _ h => absurd List.mem_cons_self h⟩
      split
      · exact ⟨fun _ h => (nomatch h), fun _ _ => Or.inl rfl⟩
      · exact ⟨fun _ h => (nomatch h), fun _ h => absurd List.mem_cons_self h⟩
  | piperead n =>
      simp only [turn, piperead]
      split
      · rename_i hempty
        split
        · exact ⟨fun _ h => (nomatch h), fun h _ => h⟩
        · exact ⟨fun _ _ => Or.inr hempty, fun h _ => h⟩
      · rename_i hempty
        exact ⟨fun _ h => (nomatch h), fun h _ => Or.inl (h.resolve_right hempty)⟩
  | pipeclose writable =>
      refine ⟨fun _ h => (nomatch h), fun h hwake => ?_⟩
      cases writable with
      | true => exact absurd List.mem_cons_self hwake
      | false => exact h

/-- The same of `nwrite`. -/
theorem writes_turn (killed : Bool) (goal : Goal) :
    (∀ goal', (turn killed goal d).next = some (.nwrite, goal') →
        Writes (turn killed goal d).shared)
      ∧ (Writes d → .nwrite ∉ (turn killed goal d).wake →
        Writes (turn killed goal d).shared) := by
  cases goal with
  | pipewrite rest =>
      have hkept : Writes d → Writes { d with
          pipe := (d.pipe.fill rest).2
          stored := d.stored ++ rest.take (rest.length - (d.pipe.fill rest).1.length) } := by
        intro h
        rw [Writes, fill_full h.1]
        exact h
      simp only [turn, pipewrite]
      split
      · exact ⟨fun _ h => (nomatch h), fun h _ => hkept h⟩
      rename_i hleft
      split
      · exact ⟨fun _ h => (nomatch h), fun h _ => hkept h⟩
      · rename_i hopen
        refine ⟨fun _ _ => ⟨fill_left rest hleft, ?_⟩, fun h _ => hkept h⟩
        simp only [Bool.or_eq_true, Bool.not_eq_true', not_or, Bool.not_eq_false] at hopen
        exact hopen.1
  | piperead n =>
      simp only [turn, piperead]
      split
      · split
        · exact ⟨fun _ h => (nomatch h), fun h _ => h⟩
        · exact ⟨fun _ h => (nomatch h), fun h _ => h⟩
      · exact ⟨fun _ h => (nomatch h), fun _ h => absurd List.mem_cons_self h⟩
  | pipeclose writable =>
      refine ⟨fun _ h => (nomatch h), fun h hwake => ?_⟩
      cases writable with
      | true => exact h
      | false => exact absurd List.mem_cons_self hwake

/-! ## Runs -/

variable {ι : Type} [DecidableEq ι] {data : Fin PIPESIZE → UInt8}
  {es : List (SleepWakeup.Event ι Goal)} {s : State ι Chan Goal Data}

theorem inv_run (hrun : (State.init (new data)).Run (sections ι) es s) :
    Inv s.shared.pipe s.shared.stored s.shared.delivered := by
  refine (hrun.inv.2.threads (I := fun d => Inv d.pipe d.stored d.delivered)
    (P := fun _ _ _ => True) (Inv.alloc data) (fun _ => trivial) (fun _ _ _ _ _ _ => trivial)
    (fun _ _ _ _ _ _ => trivial) ?_).1
  rintro d t goal _ hinv _ ⟨_, killed, rfl⟩
  exact ⟨inv_turn hinv killed goal, trivial, fun _ _ _ _ => trivial⟩

/-- **A pipe is a queue under its locks**: after every run on a new pipe, whatever
the processes do with the spinlock of the pipe and with `ptable.lock`, the bytes
delivered so far and then the bytes in the ring are the bytes stored so far, and
the ring has `nwrite - nread` bytes, at most `PIPESIZE`. -/
theorem pipe_locks_fifo (hrun : (State.init (new data)).Run (sections ι) es s) :
    s.shared.stored = s.shared.delivered ++ s.shared.pipe.ring
      ∧ s.shared.pipe.ring.length = (s.shared.pipe.nwrite - s.shared.pipe.nread).toNat
      ∧ s.shared.pipe.ring.length ≤ PIPESIZE :=
  (inv_run hrun).ring

/-- **Who sleeps on a pipe**: after every run, a reader sleeps only while the ring is
empty and the write end open, or a `wakeup` is on the way to it, or a `pipewrite` has
returned -1 (one that is killed when the pipe is full does not wake the readers); and
a writer sleeps only while the ring is full and the read end open, or a `wakeup` is on
the way to it. -/
theorem pipe_sleepers (hrun : (State.init (new data)).Run (sections ι) es s) {t : ι}
    {goal : Goal} :
    (s.pc t = .sleeping .nread goal → .nread ∈ s.pending ∨ s.shared.failed = true
        ∨ s.shared.pipe.ring = [] ∧ s.shared.pipe.writeopen = true)
      ∧ (s.pc t = .sleeping .nwrite goal → .nwrite ∈ s.pending
        ∨ s.shared.pipe.ring.length = PIPESIZE ∧ s.shared.pipe.readopen = true) := by
  obtain ⟨_, hlength, _⟩ := (inv_run hrun).ring
  have hreach := hrun.inv.2
  refine ⟨fun ht => ?_, fun ht => ?_⟩
  · refine (State.asleep_of_sleeping ht).imp_right fun hasleep => ?_
    have hreads : Reads s.shared := by
      refine hreach.waits (I := fun _ => True) trivial (fun _ _ _ _ _ _ => trivial) ?_ ?_ hasleep
      · rintro d t goal _ goal' _ ⟨_, killed, rfl⟩ hnext
        exact (reads_turn killed goal).1 goal' hnext
      · rintro d t goal _ _ ⟨_, killed, rfl⟩ hd hwake
        exact (reads_turn killed goal).2 hd hwake
    refine hreads.imp_right fun ⟨hempty, hopen⟩ => ⟨List.eq_nil_of_length_eq_zero ?_, hopen⟩
    rw [hlength, hempty, UInt32.sub_self]
    rfl
  · refine (State.asleep_of_sleeping ht).imp_right fun hasleep => ?_
    have hwrites : Writes s.shared := by
      refine hreach.waits (I := fun _ => True) trivial (fun _ _ _ _ _ _ => trivial) ?_ ?_ hasleep
      · rintro d t goal _ goal' _ ⟨_, killed, rfl⟩ hnext
        exact (writes_turn killed goal).1 goal' hnext
      · rintro d t goal _ _ ⟨_, killed, rfl⟩ hd hwake
        exact (writes_turn killed goal).2 hd hwake
    refine ⟨?_, hwrites.2⟩
    have hfull : s.shared.pipe.nwrite = s.shared.pipe.nread + UInt32.ofNat PIPESIZE := hwrites.1
    rw [hlength, hfull, UInt32.add_comm, UInt32.add_sub_cancel]
    rfl

/-- A reader sleeps, and a writer has stored three bytes and is about to wake it. -/
def oneSleeps : List (SleepWakeup.Event Bool Goal) :=
  [.call true (.piperead 2), .acquire true, .sleep true, .sched true, .unlock,
    .call false (.pipewrite [7, 8, 9]), .acquire false]

theorem oneSleeps_run : ∃ s : State Bool Chan Goal Data,
    (State.init (new fun _ => 0)).Run (sections Bool) oneSleeps s
      ∧ s.shared.stored = [7, 8, 9] ∧ s.pc true = .sleeping .nread (.piperead 2) := by
  have hfreed : ¬(alloc fun _ => 0).Freed := fun h => nomatch h.1
  exact ⟨_, .cons ⟨rfl, rfl, rfl⟩ (.cons ⟨_, _, rfl, rfl, ⟨hfreed, false, rfl⟩, rfl⟩
    (.cons ⟨_, _, rfl, rfl, rfl⟩ (.cons ⟨_, _, rfl, rfl⟩ (.cons ⟨rfl, rfl⟩
      (.cons ⟨rfl, rfl, rfl⟩ (.cons ⟨_, _, rfl, rfl, ⟨hfreed, false, rfl⟩, rfl⟩ .nil)))))),
    by decide +kernel, rfl⟩

theorem pipe_locks_fifo_three :
    ∃ s : State Bool Chan Goal Data, s.shared.stored = [7, 8, 9]
      ∧ s.shared.stored = s.shared.delivered ++ s.shared.pipe.ring
      ∧ s.shared.pipe.ring.length = (s.shared.pipe.nwrite - s.shared.pipe.nread).toNat
      ∧ s.shared.pipe.ring.length ≤ PIPESIZE :=
  have ⟨s, hrun, hstored, _⟩ := oneSleeps_run
  ⟨s, hstored, pipe_locks_fifo hrun⟩

/-- One byte more than the ring has room for. -/
def tooMany : List UInt8 := List.replicate (PIPESIZE + 1) 7

/-- A process writes them, and sleeps with the last one. -/
def writerSleeps : List (SleepWakeup.Event Bool Goal) :=
  [.call true (.piperead 2), .acquire true, .sleep true, .sched true, .unlock,
    .call false (.pipewrite tooMany), .acquire false, .wakeup false, .sleep false, .sched false]

theorem writerSleeps_run : ∃ s : State Bool Chan Goal Data,
    (State.init (new fun _ => 0)).Run (sections Bool) writerSleeps s
      ∧ s.pc true = .runnable (.piperead 2) ∧ s.pc false = .sleeping .nwrite (.pipewrite [7]) := by
  have hfreed : ¬(alloc fun _ => 0).Freed := fun h => nomatch h.1
  have hturn : ∃ d, turn false (.pipewrite tooMany) (new fun _ => 0)
      = ⟨d, [.nread], some (.nwrite, .pipewrite [7])⟩ := by
    have hleft : ((alloc fun _ => 0).fill tooMany).1 = [7] := by decide +kernel
    have hopen : ((alloc fun _ => 0).fill tooMany).2.readopen = true := (fill_ends _ _).1
    simp only [turn, pipewrite, new, hleft, hopen, List.cons_ne_nil, if_false, Bool.not_true,
      Bool.or_self, Bool.false_eq_true]
    exact ⟨_, rfl⟩
  obtain ⟨d, hturn⟩ := hturn
  exact ⟨_, .cons ⟨rfl, rfl, rfl⟩ (.cons ⟨_, _, rfl, rfl, ⟨hfreed, false, rfl⟩, rfl⟩
    (.cons ⟨_, _, rfl, rfl, rfl⟩ (.cons ⟨_, _, rfl, rfl⟩ (.cons ⟨rfl, rfl⟩
      (.cons ⟨rfl, rfl, rfl⟩ (.cons ⟨_, _, rfl, rfl, ⟨hfreed, false, hturn.symm⟩, rfl⟩
        (.cons ⟨_, _, _, rfl, rfl, rfl⟩ (.cons ⟨_, _, rfl, rfl, rfl⟩
          (.cons ⟨_, _, rfl, rfl⟩ .nil))))))))), rfl, rfl⟩

/-- A reader that sleeps in one run, and a writer in another one. -/
theorem pipe_sleepers_both :
    ∃ s s' : State Bool Chan Goal Data, s.pc true = .sleeping .nread (.piperead 2)
      ∧ s'.pc false = .sleeping .nwrite (.pipewrite [7])
      ∧ ∀ u, u = s ∨ u = s' → ∀ t goal,
        (u.pc t = .sleeping .nread goal → .nread ∈ u.pending
          ∨ u.shared.failed = true ∨ u.shared.pipe.ring = [] ∧ u.shared.pipe.writeopen = true)
        ∧ (u.pc t = .sleeping .nwrite goal → .nwrite ∈ u.pending
          ∨ u.shared.pipe.ring.length = PIPESIZE ∧ u.shared.pipe.readopen = true) := by
  obtain ⟨s, hrun, _, hpc⟩ := oneSleeps_run
  obtain ⟨s', hrun', _, hpc'⟩ := writerSleeps_run
  refine ⟨s, s', hpc, hpc', ?_⟩
  rintro u (rfl | rfl) t goal
  · exact pipe_sleepers hrun
  · exact pipe_sleepers hrun'

end SchoolStuff.Xv6.Pipe.Locks
