import SchoolStuff.Lib.Ring
import Mathlib.Algebra.Order.Ring.Nat
import Mathlib.Logic.Function.Basic

/-!
# Xv6 — pipes (`pipe.c`)

A call of `pipewrite` or `piperead` holds the lock of the pipe from its start,
or from where it is woken, up to where it sleeps or returns: that is one step
here. Any number of processes take such steps in any order. The counters are
`uint`s and wrap.
-/

namespace SchoolStuff.Xv6

abbrev PIPESIZE : Nat := 512

/-- `struct pipe`. -/
structure Pipe where
  data : Fin PIPESIZE → UInt8
  /-- number of bytes read -/
  nread : UInt32
  /-- number of bytes written -/
  nwrite : UInt32
  readopen : Bool
  writeopen : Bool

namespace Pipe

scoped instance : NeZero PIPESIZE := ⟨Nat.succ_ne_zero 511⟩

/-- The pipe that `pipealloc` makes of a page. -/
def alloc (data : Fin PIPESIZE → UInt8) : Pipe :=
  { data := data, nread := 0, nwrite := 0, readopen := true, writeopen := true }

/-- One end less is open. -/
def closeEnd (p : Pipe) (writable : Bool) : Pipe :=
  if writable then { p with writeopen := false } else { p with readopen := false }

/-- `pipeclose` frees the page when both ends are closed. -/
def Freed (p : Pipe) : Prop := p.readopen = false ∧ p.writeopen = false

instance (p : Pipe) : Decidable p.Freed := by unfold Freed; infer_instance

def Full (p : Pipe) : Prop := p.nwrite = p.nread + UInt32.ofNat PIPESIZE

instance (p : Pipe) : Decidable p.Full := by unfold Full; infer_instance

/-- `p->data[p->nwrite++ % PIPESIZE] = c`. -/
def put (p : Pipe) (c : UInt8) : Pipe :=
  { p with
    data := Function.update p.data (Fin.ofNat PIPESIZE p.nwrite.toNat) c
    nwrite := p.nwrite + 1 }

/-- The loop of `pipewrite`, up to where it finds the pipe full: the bytes that
are left. -/
def fill : List UInt8 → Pipe → List UInt8 × Pipe
  | [], p => ([], p)
  | c :: cs, p => if p.Full then (c :: cs, p) else fill cs (p.put c)

/-- The loop of `piperead` that copies at most `n` bytes. -/
def drain : Nat → Pipe → List UInt8 × Pipe
  | 0, p => ([], p)
  | n + 1, p =>
      if p.nread = p.nwrite then ([], p)
      else
        let c := p.data (Fin.ofNat PIPESIZE p.nread.toNat)
        let (cs, p') := drain n { p with nread := p.nread + 1 }
        (c :: cs, p')

/-- The bytes in the ring, `nwrite - nread` of them. -/
def ring (p : Pipe) : List UInt8 :=
  Ring.contents PIPESIZE (fun k => p.data (Fin.ofNat PIPESIZE k)) p.nread.toNat
    (p.nwrite - p.nread).toNat

/-! ## Processes -/

/-- The channels that processes sleep on. -/
inductive Chan where
  | nread
  | nwrite
  deriving DecidableEq

/-- Where a process is: in `pipewrite` of `n` bytes with `rest` still to store,
or in `piperead` of at most `n`. -/
inductive Call where
  | idle
  | pipewrite (n : Nat) (rest : List UInt8) (asleep : Bool)
  | piperead (n : Nat) (asleep : Bool)
  deriving DecidableEq

/-- A writer sleeps on `nwrite`, and a reader on `nread`. -/
def Call.wake (chan : Chan) : Call → Call
  | .idle => .idle
  | .pipewrite n rest asleep => .pipewrite n rest (asleep && chan ≠ .nwrite)
  | .piperead n asleep => .piperead n (asleep && chan ≠ .nread)

/-- A value that a call returns: `piperead` with the `n` that it was given. -/
inductive Ret where
  | pipewrite (r : Int)
  | piperead (n : Nat) (r : Int)
  deriving DecidableEq

/-- What a step has stored and delivered, and the call that has returned. -/
structure Effect where
  stored : List UInt8
  delivered : List UInt8
  ret : Option Ret

/-- The pipe and the processes. -/
structure Sys (ι : Type) where
  pipe : Pipe
  call : ι → Call
  killed : ι → Bool

/-- A step: a call starts, a call that is awake runs on, an end is closed, or a
process is killed. -/
inductive Event (ι : Type) where
  | pipewrite (t : ι) (addr : List UInt8)
  | piperead (t : ι) (n : Nat)
  | resume (t : ι)
  | pipeclose (writable : Bool)
  | kill (t : ι)

namespace Sys

variable {ι : Type} [DecidableEq ι]

def wakeup (s : Sys ι) (chan : Chan) : Sys ι :=
  { s with call := fun t => (s.call t).wake chan }

def setCall (s : Sys ι) (t : ι) (call : Call) : Sys ι :=
  { s with call := Function.update s.call t call }

/-- `pipewrite` with `rest` to store, up to where it sleeps or returns. -/
def pipewrite (s : Sys ι) (t : ι) (n : Nat) (rest : List UInt8) : Sys ι × Effect :=
  let (left, p) := s.pipe.fill rest
  let s := { s with pipe := p }
  let stored := rest.take (rest.length - left.length)
  if left = [] then
    ((s.wakeup .nread).setCall t .idle, ⟨stored, [], some (.pipewrite n)⟩)
  else if !p.readopen || s.killed t then
    (s.setCall t .idle, ⟨stored, [], some (.pipewrite (-1))⟩)
  else ((s.wakeup .nread).setCall t (.pipewrite n left true), ⟨stored, [], none⟩)

/-- `piperead`, up to where it sleeps or returns. -/
def piperead (s : Sys ι) (t : ι) (n : Nat) : Sys ι × Effect :=
  if s.pipe.nread = s.pipe.nwrite ∧ s.pipe.writeopen = true then
    if s.killed t then (s.setCall t .idle, ⟨[], [], some (.piperead n (-1))⟩)
    else (s.setCall t (.piperead n true), ⟨[], [], none⟩)
  else
    let (bytes, p) := s.pipe.drain n
    let s := { s with pipe := p }
    ((s.wakeup .nwrite).setCall t .idle,
      ⟨[], bytes, some (.piperead n bytes.length)⟩)

/-- `pipeclose`. -/
def pipeclose (s : Sys ι) (writable : Bool) : Sys ι :=
  { s with pipe := s.pipe.closeEnd writable }.wakeup (if writable then .nread else .nwrite)

/-- `kill`, which wakes the process. -/
def kill (s : Sys ι) (t : ι) : Sys ι :=
  let call := (s.call t).wake .nread
  { s.setCall t (call.wake .nwrite) with killed := Function.update s.killed t true }

/-- One step. There is none on a pipe that has been freed. -/
def step (s : Sys ι) (e : Event ι) : Option (Sys ι × Effect) :=
  if s.pipe.Freed then none
  else match e with
    | .pipewrite t addr =>
        if s.call t = .idle then some (s.pipewrite t addr.length addr) else none
    | .piperead t n => if s.call t = .idle then some (s.piperead t n) else none
    | .resume t =>
        match s.call t with
        | .pipewrite n rest false => some (s.pipewrite t n rest)
        | .piperead n false => some (s.piperead t n)
        | _ => none
    | .pipeclose writable => some (s.pipeclose writable, ⟨[], [], none⟩)
    | .kill t => some (s.kill t, ⟨[], [], none⟩)

/-- A run, with what its steps have stored and delivered. -/
def run (s : Sys ι) : List (Event ι) → Option (Sys ι × List Effect)
  | [] => some (s, [])
  | e :: es => do
      let (s, fx) ← s.step e
      let (s, fxs) ← run s es
      some (s, fx :: fxs)

/-- A new pipe, and nobody in a call. -/
def init (data : Fin PIPESIZE → UInt8) (killed : ι → Bool) : Sys ι :=
  { pipe := alloc data, call := fun _ => .idle, killed := killed }

end Sys

/-- The bytes that writers have stored, in that order. -/
def stored (fxs : List Effect) : List UInt8 := fxs.flatMap Effect.stored

/-- The bytes that have been delivered to readers, in that order. -/
def delivered (fxs : List Effect) : List UInt8 := fxs.flatMap Effect.delivered

/-! ## The ring -/

/-- The pipe has the bytes of `puts` from `taken` on. -/
structure Queue (p : Pipe) (puts : List UInt8) (taken : Nat) : Prop where
  nread : p.nread = UInt32.ofNat taken
  nwrite : p.nwrite = UInt32.ofNat puts.length
  holds : Ring.Holds PIPESIZE (fun k => p.data (Fin.ofNat PIPESIZE k)) puts taken

variable {p : Pipe} {puts : List UInt8} {taken : Nat}

theorem Queue.alloc (data : Fin PIPESIZE → UInt8) : Queue (alloc data) [] 0 :=
  ⟨rfl, rfl, Ring.Holds.empty _⟩

/-- 2^32 is a multiple of the size: an index may be taken of a counter that has
wrapped. -/
theorem ofNat_wrapped (k : Nat) :
    Fin.ofNat PIPESIZE (UInt32.ofNat k).toNat = Fin.ofNat PIPESIZE k := by
  apply Fin.ext
  rw [Fin.val_ofNat, Fin.val_ofNat, UInt32.toNat_ofNat']
  exact Nat.mod_mod_of_dvd k (by decide)

theorem ofNat_mod (k : Nat) :
    Fin.ofNat PIPESIZE (k % PIPESIZE) = Fin.ofNat PIPESIZE k := by
  apply Fin.ext
  rw [Fin.val_ofNat, Fin.val_ofNat, Nat.mod_mod]

theorem ofNat_eq_iff {a b : Nat} (hab : a ≤ b) (hb : b ≤ a + PIPESIZE) :
    UInt32.ofNat a = UInt32.ofNat b ↔ a = b := by
  have hsize : PIPESIZE < 2 ^ 32 := by decide
  rw [← UInt32.toNat_inj, UInt32.toNat_ofNat', UInt32.toNat_ofNat']
  exact Ring.wrap_eq_iff hab (by omega)

theorem Queue.empty_iff (h : Queue p puts taken) :
    p.nread = p.nwrite ↔ taken = puts.length := by
  rw [h.nread, h.nwrite]
  exact ofNat_eq_iff h.holds.taken_le h.holds.room

theorem Queue.full_iff (h : Queue p puts taken) :
    p.Full ↔ puts.length = taken + PIPESIZE := by
  have hle := h.holds.taken_le
  rw [Full, h.nread, h.nwrite, ← UInt32.ofNat_add]
  exact ofNat_eq_iff h.holds.room (by omega)

/-- **One byte is stored.** -/
theorem Queue.put (h : Queue p puts taken) (hfull : ¬p.Full) (c : UInt8) :
    Queue (p.put c) (puts ++ [c]) taken := by
  have hroom := h.holds.room
  have hne := mt h.full_iff.2 hfull
  refine ⟨h.nread, ?_, h.holds.put (by omega) ?_ fun k hk => ?_⟩
  · rw [List.length_append, List.length_singleton, UInt32.ofNat_add, ← h.nwrite]
    rfl
  · simp only [Pipe.put, h.nwrite, ofNat_wrapped, ofNat_mod]
    exact Function.update_self _ _ _
  · simp only [Pipe.put, h.nwrite, ofNat_wrapped, ofNat_mod]
    apply Function.update_of_ne
    intro heq
    exact hk (congrArg Fin.val heq)

/-- The index of the `k`-th byte in the ring. -/
theorem Queue.index (h : Queue p puts taken) (k : Nat) :
    Fin.ofNat PIPESIZE (p.nread.toNat + k) = Fin.ofNat PIPESIZE (taken + k) := by
  have hnread : p.nread.toNat % PIPESIZE = taken % PIPESIZE := by
    rw [h.nread]
    exact congrArg Fin.val (ofNat_wrapped taken)
  apply Fin.ext
  rw [Fin.val_ofNat, Fin.val_ofNat, Nat.add_mod, hnread, ← Nat.add_mod]

/-- **The loop of `pipewrite`** stores a part of the bytes, and all of them
unless the pipe is full. -/
theorem Queue.fill {addr : List UInt8} (h : Queue p puts taken) :
    ∃ bytes, addr = bytes ++ (p.fill addr).1
      ∧ Queue (p.fill addr).2 (puts ++ bytes) taken := by
  induction addr generalizing p puts with
  | nil => exact ⟨[], rfl, by rw [List.append_nil]; exact h⟩
  | cons c cs ih =>
      rw [Pipe.fill]
      split
      · exact ⟨[], rfl, by rw [List.append_nil]; exact h⟩
      · rename_i hfull
        obtain ⟨bytes, hcs, hqueue⟩ := ih (h.put hfull c)
        refine ⟨c :: bytes, congrArg (c :: ·) hcs, ?_⟩
        rw [List.append_assoc] at hqueue
        exact hqueue

/-- **The loop of `piperead`** takes the first bytes of the ring. -/
theorem Queue.drain (h : Queue p puts taken) (n : Nat) :
    (p.drain n).1 = (puts.drop taken).take n
      ∧ Queue (p.drain n).2 puts (taken + (p.drain n).1.length) := by
  induction n generalizing p taken with
  | zero => exact ⟨rfl, h⟩
  | succ n ih =>
      rw [Pipe.drain]
      split
      · rename_i hempty
        rw [h.empty_iff.1 hempty, List.drop_length]
        exact ⟨rfl, (h.empty_iff.1 hempty) ▸ h⟩
      · rename_i hempty
        have hlt : taken < puts.length :=
          Nat.lt_of_le_of_ne h.holds.taken_le (mt h.empty_iff.2 hempty)
        obtain ⟨hget, hholds⟩ := h.holds.take hlt
        have hnext : Queue { p with nread := p.nread + 1 } puts (taken + 1) := by
          refine ⟨?_, h.nwrite, hholds⟩
          rw [UInt32.ofNat_add, ← h.nread]
          rfl
        obtain ⟨hbytes, hqueue⟩ := ih hnext
        rw [ofNat_mod] at hget
        have hdrop : puts.drop taken
            = p.data (Fin.ofNat PIPESIZE taken) :: puts.drop (taken + 1) := by
          rw [List.drop_eq_getElem_cons hlt, ← Option.some.inj
            ((List.getElem?_eq_getElem hlt).symm.trans hget)]
        have hindex : Fin.ofNat PIPESIZE p.nread.toNat = Fin.ofNat PIPESIZE taken :=
          h.index 0
        refine ⟨?_, ?_⟩
        · simp only [hdrop, List.take_succ_cons, hbytes, hindex]
        · simp only [List.length_cons]
          rw [Nat.add_comm _ 1, ← Nat.add_assoc]
          exact hqueue

/-- The ring is what is stored and not taken. -/
theorem Queue.ring_eq (h : Queue p puts taken) :
    p.ring = puts.drop taken ∧ (p.nwrite - p.nread).toNat = puts.length - taken := by
  have hle := h.holds.taken_le
  have hroom := h.holds.room
  have hcount : (p.nwrite - p.nread).toNat = puts.length - taken := by
    have hsize : PIPESIZE < 2 ^ 32 := by decide
    rw [h.nwrite, h.nread, ← UInt32.ofNat_sub hle, UInt32.toNat_ofNat',
      Nat.mod_eq_of_lt (by omega)]
  refine ⟨?_, hcount⟩
  rw [ring, hcount, ← h.holds.contents_eq]
  apply List.map_congr_left
  intro k _
  simp only [ofNat_mod, h.index]

/-! ## One step -/

/-- Between two steps the ring has what `a`, the bytes stored so far, has more
than `b`, the bytes delivered so far. -/
structure Inv (p : Pipe) (a b : List UInt8) : Prop where
  queue : Queue p a b.length
  initial : b <+: a

theorem Inv.alloc (data : Fin PIPESIZE → UInt8) : Inv (alloc data) [] [] :=
  ⟨Queue.alloc data, List.prefix_refl []⟩

theorem Inv.closeEnd {a b : List UInt8} (h : Inv p a b) (writable : Bool) :
    Inv (p.closeEnd writable) a b := by
  refine ⟨?_, h.initial⟩
  unfold Pipe.closeEnd
  cases writable <;> exact ⟨h.queue.nread, h.queue.nwrite, h.queue.holds⟩

/-- What is stored and not delivered is in the ring. -/
theorem Inv.ring {a b : List UInt8} (h : Inv p a b) :
    a = b ++ p.ring ∧ p.ring.length = (p.nwrite - p.nread).toNat
      ∧ p.ring.length ≤ PIPESIZE := by
  obtain ⟨hring, hcount⟩ := h.queue.ring_eq
  have hroom := h.queue.holds.room
  refine ⟨?_, Ring.length_contents _ _ _ _, ?_⟩
  · rw [hring]
    exact (List.prefix_iff_eq_append.1 h.initial).symm
  · rw [hring, List.length_drop]
    omega

namespace Sys

variable {ι : Type} [DecidableEq ι] {s s' : Sys ι} {a b : List UInt8}

theorem inv_pipewrite (h : Inv s.pipe a b) (t : ι) (n : Nat) (rest : List UInt8) :
    Inv (s.pipewrite t n rest).1.pipe (a ++ (s.pipewrite t n rest).2.stored)
      (b ++ (s.pipewrite t n rest).2.delivered) := by
  obtain ⟨bytes, hrest, hqueue⟩ := @Queue.fill s.pipe _ _ rest h.queue
  have hstored : rest.take (rest.length - (s.pipe.fill rest).1.length) = bytes := by
    have hlen := congrArg List.length hrest
    rw [List.length_append] at hlen
    rw [hlen, Nat.add_sub_cancel]
    conv => lhs; rw [hrest]
    exact List.take_left
  have hinv : Inv (s.pipe.fill rest).2 (a ++ bytes) b :=
    ⟨hqueue, h.initial.trans (List.prefix_append a bytes)⟩
  unfold pipewrite
  simp only
  split
  · simp only [hstored, List.append_nil]
    exact hinv
  split
  · simp only [hstored, List.append_nil]
    exact hinv
  · simp only [hstored, List.append_nil]
    exact hinv

theorem inv_piperead (h : Inv s.pipe a b) (t : ι) (n : Nat) :
    Inv (s.piperead t n).1.pipe (a ++ (s.piperead t n).2.stored)
      (b ++ (s.piperead t n).2.delivered) := by
  have hkept : Inv s.pipe (a ++ []) (b ++ []) := by
    rw [List.append_nil, List.append_nil]
    exact h
  unfold piperead
  split
  · split
    · exact hkept
    · exact hkept
  · obtain ⟨hbytes, hqueue⟩ := h.queue.drain n
    rw [← List.length_append] at hqueue
    refine ⟨?_, ?_⟩
    · rw [List.append_nil]
      exact hqueue
    · obtain ⟨left, rfl⟩ := h.initial
      rw [List.drop_left] at hbytes
      simp only [List.append_nil, hbytes]
      exact (List.prefix_append_right_inj b).2 (List.take_prefix n left)

/-- What a step can be. -/
theorem step_cases {e : Event ι} {r : Sys ι × Effect} (hstep : s.step e = some r) :
    (∃ t n rest, r = s.pipewrite t n rest) ∨ (∃ t n, r = s.piperead t n)
      ∨ (∃ writable, r = (s.pipeclose writable, ⟨[], [], none⟩))
      ∨ ∃ t, r = (s.kill t, ⟨[], [], none⟩) := by
  unfold step at hstep
  split at hstep
  · cases hstep
  cases e with
  | pipewrite t addr =>
      simp only [Option.ite_none_right_eq_some, Option.some.injEq] at hstep
      exact Or.inl ⟨t, addr.length, addr, hstep.2.symm⟩
  | piperead t n =>
      simp only [Option.ite_none_right_eq_some, Option.some.injEq] at hstep
      exact Or.inr (Or.inl ⟨t, n, hstep.2.symm⟩)
  | resume t =>
      simp only at hstep
      split at hstep
      · exact Or.inl ⟨t, _, _, (Option.some.inj hstep).symm⟩
      · exact Or.inr (Or.inl ⟨t, _, (Option.some.inj hstep).symm⟩)
      · cases hstep
  | pipeclose writable =>
      exact Or.inr (Or.inr (Or.inl ⟨writable, (Option.some.inj hstep).symm⟩))
  | kill t => exact Or.inr (Or.inr (Or.inr ⟨t, (Option.some.inj hstep).symm⟩))

/-- **Step lemma.** -/
theorem inv_step (h : Inv s.pipe a b) {e : Event ι} {r : Sys ι × Effect}
    (hstep : s.step e = some r) :
    Inv r.1.pipe (a ++ r.2.stored) (b ++ r.2.delivered) := by
  have hkept : Inv s.pipe (a ++ []) (b ++ []) := by
    rw [List.append_nil, List.append_nil]
    exact h
  obtain ⟨t, n, rest, rfl⟩ | ⟨t, n, rfl⟩ | ⟨writable, rfl⟩ | ⟨t, rfl⟩ := step_cases hstep
  · exact inv_pipewrite h t n rest
  · exact inv_piperead h t n
  · exact hkept.closeEnd writable
  · exact hkept

/-- **Run lemma.** -/
theorem inv_run {es : List (Event ι)} {fxs : List Effect} (h : Inv s.pipe a b)
    (hrun : s.run es = some (s', fxs)) :
    Inv s'.pipe (a ++ Pipe.stored fxs) (b ++ Pipe.delivered fxs) := by
  induction es generalizing s a b fxs with
  | nil =>
      cases hrun
      rw [Pipe.stored, Pipe.delivered, List.flatMap_nil, List.flatMap_nil,
        List.append_nil, List.append_nil]
      exact h
  | cons e es ih =>
      simp only [run, Option.bind_eq_bind, Option.bind_eq_some_iff] at hrun
      obtain ⟨⟨s₁, fx⟩, hstep, ⟨s₂, fxs₁⟩, hrest, heq⟩ := hrun
      cases heq
      have hinv := ih (inv_step h hstep) hrest
      simp only [Pipe.stored, Pipe.delivered, List.flatMap_cons] at hinv ⊢
      rwa [← List.append_assoc, ← List.append_assoc]

/-- `piperead` of at least one byte returns 0 only at the end of the file. -/
theorem piperead_zero {t : ι} {n m : Nat} (hn : 0 < n)
    (hret : (s.piperead t m).2.ret = some (.piperead n 0)) :
    s.pipe.nread = s.pipe.nwrite ∧ s.pipe.writeopen = false := by
  unfold piperead at hret
  split at hret
  · split at hret
    · cases hret
    · cases hret
  · rename_i hopen
    simp only [Option.some.injEq, Ret.piperead.injEq] at hret
    obtain ⟨rfl, hzero⟩ := hret
    have hempty : s.pipe.nread = s.pipe.nwrite := by
      by_contra hne
      -- otherwise the loop copies a byte at once
      obtain ⟨m, rfl⟩ := Nat.exists_eq_succ_of_ne_zero (Nat.ne_of_gt hn)
      rw [Pipe.drain, if_neg hne] at hzero
      exact absurd hzero (by simp only [List.length_cons]; omega)
    exact ⟨hempty, by simpa [hempty] using hopen⟩

theorem pipewrite_ret (t : ι) (m : Nat) (rest : List UInt8) (n : Nat) (k : Int) :
    (s.pipewrite t m rest).2.ret ≠ some (.piperead n k) := by
  unfold pipewrite
  simp only
  split
  · simp
  split
  · simp
  · simp

theorem step_ret {e : Event ι} {r : Sys ι × Effect} {n : Nat} (hn : 0 < n)
    (hstep : s.step e = some r) (hret : r.2.ret = some (.piperead n 0)) :
    s.pipe.nread = s.pipe.nwrite ∧ s.pipe.writeopen = false := by
  obtain ⟨t, m, rest, rfl⟩ | ⟨t, m, rfl⟩ | ⟨writable, rfl⟩ | ⟨t, rfl⟩ := step_cases hstep
  · exact absurd hret (pipewrite_ret t m rest n 0)
  · exact piperead_zero hn hret
  · cases hret
  · cases hret

end Sys

/-- **A pipe is a queue.** After every run on a new pipe, the bytes delivered
so far and then the bytes in the ring are the bytes stored so far; the ring has
`nwrite - nread` bytes, and at most `PIPESIZE`; and when `piperead` of at least
one byte returns 0, the ring is empty and the write end is closed. -/
theorem pipe_fifo {ι : Type} [DecidableEq ι] {data : Fin PIPESIZE → UInt8}
    {killed : ι → Bool} {es : List (Event ι)} {s : Sys ι} {fxs : List Effect}
    (hrun : (Sys.init data killed).run es = some (s, fxs)) :
    stored fxs = delivered fxs ++ s.pipe.ring
      ∧ s.pipe.ring.length = (s.pipe.nwrite - s.pipe.nread).toNat
      ∧ s.pipe.ring.length ≤ PIPESIZE
      ∧ ∀ e s' fx n, 0 < n → s.step e = some (s', fx) →
        fx.ret = some (.piperead n 0) →
        s.pipe.ring = [] ∧ s.pipe.writeopen = false := by
  have hinv := Sys.inv_run (Inv.alloc data) hrun
  rw [List.nil_append, List.nil_append] at hinv
  obtain ⟨hring, hlength, hroom⟩ := hinv.ring
  refine ⟨hring, hlength, hroom, fun e s' fx n hn hstep hret => ?_⟩
  obtain ⟨hempty, hclosed⟩ := Sys.step_ret hn hstep hret
  refine ⟨List.eq_nil_of_length_eq_zero ?_, hclosed⟩
  rw [hlength, hempty, UInt32.sub_self]
  rfl

/-- A writer stores three bytes, and closes its end; a reader gets two of them
and then the last one. -/
def threeBytes : List (Event Nat) :=
  [.piperead 1 2, .pipewrite 0 [7, 8, 9], .resume 1, .pipeclose true,
    .piperead 1 2, .piperead 1 2]

theorem pipe_fifo_three :
    ∃ s fxs, (Sys.init (fun _ => 0) fun _ : Nat => false).run threeBytes = some (s, fxs)
      ∧ delivered fxs = [7, 8, 9]
      ∧ stored fxs = delivered fxs ++ s.pipe.ring
      ∧ s.pipe.ring.length = (s.pipe.nwrite - s.pipe.nread).toNat
      ∧ s.pipe.ring.length ≤ PIPESIZE
      ∧ ∀ e s' fx n, 0 < n → s.step e = some (s', fx) →
        fx.ret = some (.piperead n 0) →
        s.pipe.ring = [] ∧ s.pipe.writeopen = false := by
  have hsome : (((Sys.init (fun _ => 0) fun _ : Nat => false).run threeBytes).map
      fun r => delivered r.2) = some [7, 8, 9] := by
    decide +kernel
  obtain ⟨⟨s, fxs⟩, hrun, hdelivered⟩ := Option.map_eq_some_iff.1 hsome
  exact ⟨s, fxs, hrun, hdelivered, pipe_fifo hrun⟩

end Pipe

end SchoolStuff.Xv6
