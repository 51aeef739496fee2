import Mathlib.Algebra.Order.Ring.Nat
import SchoolStuff.Lib.Linked
import SchoolStuff.Xv6.SleepWakeup

/-!
# Ide — the disk driver (`ide.c`)

`iderw` puts its buffer at the end of a queue and sleeps on it. The drive has the
command of the first buffer; when it interrupts, `ideintr` ends that one, wakes its
process and starts the next. Processes and interrupts come in any order, with the
steps of `SleepWakeup`. The sleep-lock of a buffer is there as `user`, the one
process that can be the next to call `iderw` on it.
-/

namespace SchoolStuff.Xv6.Ide

open Monitor (Exit Sections Status)
open SleepWakeup (Pc State)

abbrev FSSIZE : Nat := 1000

/-- `struct buf`, as far as the driver looks at it. -/
structure Buf (α : Type) where
  dev : UInt32
  blockno : UInt32
  /-- `B_VALID` -/
  valid : Bool
  /-- `B_DIRTY` -/
  dirty : Bool
  data : α

/-- `(b->flags & (B_VALID|B_DIRTY)) == B_VALID` -/
def Buf.isDone {α : Type} (x : Buf α) : Bool := x.valid && !x.dirty

/-- A command: what goes to the ports 0x1f3 to 0x1f6, and the data that follow
`IDE_CMD_WRITE`. -/
structure Cmd (α : Type) where
  f3 : UInt8
  f4 : UInt8
  f5 : UInt8
  f6 : UInt8
  write : Option α

/-- What `idestart` tells the drive. A block is one sector. -/
def cmd {α : Type} (x : Buf α) : Cmd α :=
  let sector := x.blockno
  { f3 := (sector &&& 0xff).toUInt8
    f4 := ((sector >>> 8) &&& 0xff).toUInt8
    f5 := ((sector >>> 16) &&& 0xff).toUInt8
    f6 := ((0xe0 : UInt32) ||| ((x.dev &&& 1) <<< 4) ||| ((sector >>> 24) &&& 0x0f)).toUInt8
    write := if x.dirty then some x.data else none }

/-- The two drives, by their sectors. -/
abbrev Drives (α : Type) := Bool → Nat → α

/-- The drive and the sector that a command is for. -/
def Cmd.drive {α : Type} (c : Cmd α) : Bool := (c.f6 >>> 4) &&& 1 = 1

def Cmd.sector {α : Type} (c : Cmd α) : Nat :=
  c.f3.toNat + 256 * (c.f4.toNat + 256 * (c.f5.toNat + 256 * (c.f6 &&& 0x0f).toNat))

def store {α : Type} (disk : Drives α) (drive : Bool) (sector : Nat) (data : α) : Drives α :=
  Function.update disk drive (Function.update (disk drive) sector data)

/-- What the drive does. A write that fails does not store. -/
def Cmd.exec {α : Type} (failed : Bool) (c : Cmd α) (disk : Drives α) : Drives α :=
  match c.write with
  | some data => if failed then disk else store disk c.drive c.sector data
  | none => disk

/-- The driver, and the drives with the command that they have not done yet. -/
structure Driver (β α : Type) where
  buf : β → Buf α
  qnext : β → Option β
  idequeue : Option β
  active : Option (Cmd α)
  disk : Drives α

namespace Driver

variable {β α : Type} [DecidableEq β]

/-- `idestart`. It does not come back from `idewait` while a command is not done. -/
def idestart (s : Driver β α) (b : β) : Option (Driver β α) :=
  if FSSIZE ≤ (s.buf b).blockno.toNat then none
  else if s.active.isSome then none
  else some { s with active := some (cmd (s.buf b)) }

/-- `ideintr`, once the drive is through with its command; `failed` is what its status
says. `idewait` makes something of it for a read; for a write nobody looks at it. The
second component is the buffer on which `wakeup` is called. -/
def ideintr (failed : Bool) (s : Driver β α) : Option (Driver β α × Option β) :=
  match s.active with
  | none => none
  | some c =>
      let s := { s with active := none, disk := c.exec failed s.disk }
      match s.idequeue with
      | none => some (s, none)
      | some b =>
          let x := s.buf b
          let data := if !x.dirty && !failed then s.disk c.drive c.sector else x.data
          let s := { s with
            idequeue := s.qnext b
            buf := Function.update s.buf b { x with data := data, valid := true, dirty := false } }
          match s.idequeue with
          | none => some (s, some b)
          | some b' => (s.idestart b').map fun s => (s, some b)

/-- `iderw` up to its loop. -/
def iderw [Fintype β] (havedisk1 : Bool) (s : Driver β α) (b : β) : Option (Driver β α) :=
  if (s.buf b).isDone then none
  else if (s.buf b).dev ≠ 0 ∧ havedisk1 = false then none
  else
    match Linked.append s.qnext s.idequeue (Fintype.card β) b with
    | none => none
    | some (qnext, idequeue) =>
        let s := { s with qnext := qnext, idequeue := idequeue }
        if s.idequeue = some b then s.idestart b else some s

end Driver

/-- What a process is about to do: `iderw` with its buffer as it has made it, the loop
of `iderw`, or the interrupt. -/
inductive Goal (β α : Type) where
  | iderw (b : β) (x : Buf α)
  | loop (b : β) (x : Buf α)
  | ideintr

/-- A request that is done: its buffer, before and after, and whether the drive has
failed it. -/
structure Done (β α : Type) where
  b : β
  before : Buf α
  after : Buf α
  failed : Bool

/-- The driver, who is the next to use each buffer, and what has happened. -/
structure Data (ι β α : Type) where
  ide : Driver β α
  user : β → ι
  arrived : List (β × Buf α)
  queue : List (β × Buf α)
  done : List (Done β α)
  /-- the buffers with which `iderw` was called, and with which it returned -/
  returned : List (β × Buf α × Buf α)

variable {ι β α : Type} [DecidableEq β]

/-- The loop of `iderw`. When it returns, the buffer goes to a next user. -/
def loop (next : ι) (b : β) (x : Buf α) (d : Data ι β α) : Exit β (Goal β α) (Data ι β α) :=
  if (d.ide.buf b).isDone then
    ⟨{ d with
        returned := d.returned ++ [(b, x, d.ide.buf b)]
        user := Function.update d.user b next }, [], none⟩
  else ⟨d, [], some (b, .loop b x)⟩

/-- One section; none where the kernel panics. -/
def turn [Fintype β] (havedisk1 failed : Bool) (next : ι) :
    Goal β α → Data ι β α → Option (Exit β (Goal β α) (Data ι β α))
  | .iderw b x, d =>
      ({ d.ide with buf := Function.update d.ide.buf b x }.iderw havedisk1 b).map fun ide =>
        loop next b x { d with
          ide := ide, arrived := d.arrived ++ [(b, x)], queue := d.queue ++ [(b, x)] }
  | .loop b x, d => some (loop next b x d)
  | .ideintr, d =>
      (d.ide.ideintr failed).map fun (ide, woken) =>
        match woken with
        | none => ⟨{ d with ide := ide }, [], none⟩
        | some b =>
            ⟨{ d with
                ide := ide
                queue := d.queue.tail
                done := d.done ++ [⟨b, d.ide.buf b, ide.buf b, failed⟩] }, [b], none⟩

/-- What `iderw` may be called with. -/
structure Good (havedisk1 : Bool) (x : Buf α) : Prop where
  todo : x.isDone = false
  dev : x.dev ≠ 0 → havedisk1 = true
  blockno : x.blockno.toNat < FSSIZE

/-- Processes, and the interrupt (`none`), which comes when a command is done. -/
def sections [Fintype β] (havedisk1 : Bool) :
    Sections (Option ι) β (Goal β α) (Data ι β α) where
  body _ goal d x := ∃ failed next, turn havedisk1 failed next goal d = some x
  may t goal d :=
    match goal with
    | .iderw b x => t = some (d.user b) ∧ Good havedisk1 x
    | .loop _ _ => False
    | .ideintr => t = none ∧ d.ide.active.isSome = true

/-- `ideinit`, with anything in the buffers and on the disks. -/
def init (buf : β → Buf α) (qnext : β → Option β) (disk : Drives α) (user : β → ι) :
    Data ι β α :=
  ⟨⟨buf, qnext, none, none, disk⟩, user, [], [], [], []⟩

/-! ## A disk that does one request after the other -/

def Buf.drive (x : Buf α) : Bool := x.dev &&& 1 = 1

/-- The requests, done in this order on `disk`. -/
inductive Replay (disk : Drives α) : List (Done β α) → Drives α → Prop
  | nil : Replay disk [] disk
  | write {ds : List (Done β α)} {disk' : Drives α} {b : β} {x : Buf α} :
      Replay disk ds disk' → x.dirty = true →
      Replay disk (ds ++ [⟨b, x, { x with valid := true, dirty := false }, false⟩])
        (store disk' x.drive x.blockno.toNat x.data)
  | read {ds : List (Done β α)} {disk' : Drives α} {b : β} {x : Buf α} :
      Replay disk ds disk' → x.dirty = false →
      Replay disk (ds ++ [⟨b, x, { x with
        data := disk' x.drive x.blockno.toNat, valid := true, dirty := false }, false⟩]) disk'
  /-- the drive reports an error: the data stay where they are, on the drive and in the
  buffer, which is marked as valid and clean all the same -/
  | failed {ds : List (Done β α)} {disk' : Drives α} {b : β} {x : Buf α} :
      Replay disk ds disk' →
      Replay disk (ds ++ [⟨b, x, { x with valid := true, dirty := false }, true⟩]) disk'

theorem toNat_and_byte (n : UInt32) : (n &&& 0xff).toUInt8.toNat = n.toNat % 256 := by
  have hmask := Nat.and_two_pow_sub_one_eq_mod n.toNat 8
  simp only [Nat.reducePow, Nat.reduceSub] at hmask
  rw [UInt32.toNat_toUInt8, UInt32.toNat_and, show (0xff : UInt32).toNat = 255 from rfl, hmask]
  omega

theorem toNat_shr (n : UInt32) {k : UInt32} (hk : k.toNat < 32) :
    (n >>> k).toNat = n.toNat / 2 ^ k.toNat := by
  rw [UInt32.toNat_shiftRight, Nat.mod_eq_of_lt hk, Nat.shiftRight_eq_div_pow]

theorem and_one (n : UInt32) : n &&& 1 = 0 ∨ n &&& 1 = 1 := by
  have hmod : (n &&& 1).toNat = n.toNat % 2 := by
    rw [UInt32.toNat_and]
    exact Nat.and_one_is_mod _
  rcases Nat.mod_two_eq_zero_or_one n.toNat with h | h
  · exact Or.inl (UInt32.toNat_inj.1 (hmod.trans h))
  · exact Or.inr (UInt32.toNat_inj.1 (hmod.trans h))

/-- The bits of the port 0x1f6. -/
theorem f6_bits {bit : UInt32} (h : bit = 0 ∨ bit = 1) :
    ((((0xe0 : UInt32) ||| (bit <<< 4) ||| 0).toUInt8 >>> 4) &&& 1 = 1 ↔ bit = 1)
      ∧ (((0xe0 : UInt32) ||| (bit <<< 4) ||| 0).toUInt8 &&& 0x0f).toNat = 0 := by
  rcases h with rfl | rfl <;> decide

omit [DecidableEq β] in
/-- The ports hold the whole block number. -/
theorem cmd_address {x : Buf α} (hx : x.blockno.toNat < FSSIZE) :
    (cmd x).drive = x.drive ∧ (cmd x).sector = x.blockno.toNat := by
  have hsector : x.blockno.toNat < 1000 := hx
  have hhigh : (x.blockno >>> 24) &&& 0x0f = 0 := by
    have hzero : x.blockno >>> 24 = 0 := by
      refine UInt32.toNat_inj.1 ((toNat_shr _ (by decide)).trans ?_)
      exact Nat.div_eq_of_lt (Nat.lt_trans hsector (by decide))
    rw [hzero]
    rfl
  obtain ⟨hdrive, hlow⟩ := f6_bits (and_one x.dev)
  refine ⟨?_, ?_⟩
  · simp only [Cmd.drive, cmd, hhigh, Buf.drive]
    exact decide_eq_decide.2 hdrive
  · simp only [Cmd.sector, cmd, hhigh, hlow, toNat_and_byte]
    rw [toNat_shr _ (by decide), toNat_shr _ (by decide)]
    simp only [UInt32.reduceToNat]
    omega

/-! ## The queue -/

/-- What holds whenever `idelock` is free. -/
structure Inv (disk : Drives α) (d : Data ι β α) : Prop where
  chain : Linked.Chain d.ide.qnext d.ide.idequeue (d.queue.map Prod.fst)
  nodup : (d.queue.map Prod.fst).Nodup
  buf : ∀ e ∈ d.queue, d.ide.buf e.1 = e.2
  todo : ∀ e ∈ d.queue, e.2.isDone = false ∧ e.2.blockno.toNat < FSSIZE
  active : d.ide.active = d.queue.head?.map fun e => cmd e.2
  arrived : d.arrived = d.done.map (fun e => (e.b, e.before)) ++ d.queue
  replay : Replay disk d.done d.ide.disk
  returned : ∀ e ∈ d.returned, ∃ failed, ⟨e.1, e.2.1, e.2.2, failed⟩ ∈ d.done

variable {disk : Drives α} {d : Data ι β α} {b : β} {x : Buf α}

omit [DecidableEq β] in
theorem inv_init (buf : β → Buf α) (qnext : β → Option β) (disk : Drives α) (user : β → ι) :
    Inv disk (init buf qnext disk user) :=
  ⟨rfl, List.nodup_nil, fun _ h => (nomatch h), fun _ h => (nomatch h), rfl, rfl, .nil,
    fun _ h => (nomatch h)⟩

/-- **`iderw` does not panic, and puts its buffer at the end.** -/
theorem Inv.iderw [Fintype β] (h : Inv disk d) {havedisk1 : Bool} (hx : Good havedisk1 x)
    (hb : b ∉ d.queue.map Prod.fst) :
    ∃ ide, Driver.iderw havedisk1 { d.ide with buf := Function.update d.ide.buf b x } b = some ide
      ∧ ide.buf = Function.update d.ide.buf b x
      ∧ Inv disk { d with
          ide := ide, arrived := d.arrived ++ [(b, x)], queue := d.queue ++ [(b, x)] } := by
  have hlength : (d.queue.map Prod.fst).length ≤ Fintype.card β := h.nodup.length_le_card
  obtain ⟨qnext, idequeue, happend, hchain⟩ := h.chain.append h.nodup hb hlength
  have hself : Function.update d.ide.buf b x b = x := Function.update_self ..
  have hother : ∀ e ∈ d.queue, Function.update d.ide.buf b x e.1 = d.ide.buf e.1 := fun e he =>
    Function.update_of_ne (ne_of_mem_of_not_mem (List.mem_map_of_mem he) hb) ..
  have hdev : ¬(x.dev ≠ 0 ∧ havedisk1 = false) := fun ⟨hne, hno⟩ =>
    nomatch (hx.dev hne).symm.trans hno
  -- all but the command of the drive
  have hinv : ∀ active, active = (d.queue ++ [(b, x)]).head?.map (fun e => cmd e.2) →
      Inv disk { d with
        ide := { d.ide with
          buf := Function.update d.ide.buf b x, qnext := qnext, idequeue := idequeue,
          active := active }
        arrived := d.arrived ++ [(b, x)], queue := d.queue ++ [(b, x)] } := by
    intro active hactive
    refine ⟨?_, ?_, ?_, ?_, hactive, ?_, h.replay, h.returned⟩
    · rw [List.map_append]
      exact hchain
    · rw [List.map_append]
      exact List.nodup_append_comm.1 (List.nodup_cons.2 ⟨hb, h.nodup⟩)
    · intro e he
      rcases List.mem_append.1 he with he | he
      · exact (hother e he).trans (h.buf e he)
      · rw [List.mem_singleton.1 he]
        exact hself
    · intro e he
      rcases List.mem_append.1 he with he | he
      · exact h.todo e he
      · rw [List.mem_singleton.1 he]
        exact ⟨hx.todo, hx.blockno⟩
    · rw [h.arrived, List.append_assoc]
  unfold Driver.iderw
  simp only [hself, hx.todo, Bool.false_eq_true, if_false, if_neg hdev, happend]
  cases hq : d.queue with
  | nil =>
      rw [hq] at hchain
      have hhead : idequeue = some b := hchain.1
      have hidle : d.ide.active = none := by rw [h.active, hq]; rfl
      rw [if_pos hhead, Driver.idestart]
      simp only [hself, if_neg (Nat.not_le.2 hx.blockno), hidle, Option.isSome_none,
        Bool.false_eq_true, if_false]
      refine ⟨_, rfl, rfl, ?_⟩
      have hdone := hinv (some (cmd x)) (by rw [hq]; rfl)
      rw [hq] at hdone
      exact hdone
  | cons e q =>
      rw [hq] at hchain hb
      have hhead : idequeue = some e.1 := hchain.1
      have hne : ¬idequeue = some b := by
        rw [hhead]
        intro heq
        exact hb (Option.some.inj heq ▸ List.mem_cons_self)
      rw [if_neg hne]
      refine ⟨_, rfl, rfl, ?_⟩
      have hdone := hinv d.ide.active (by rw [h.active, hq]; rfl)
      rw [hq] at hdone
      exact hdone

omit [DecidableEq β] in
/-- What a command does to the drives and to its buffer. -/
theorem replay_cmd {ds : List (Done β α)} {disk' : Drives α} (h : Replay disk ds disk') (b : β)
    (hx : x.blockno.toNat < FSSIZE) (failed : Bool) :
    Replay disk (ds ++ [⟨b, x, { x with
        data := if !x.dirty && !failed then
          (cmd x).exec failed disk' (cmd x).drive (cmd x).sector else x.data
        valid := true
        dirty := false }, failed⟩]) ((cmd x).exec failed disk') := by
  obtain ⟨hdrive, hsector⟩ := cmd_address hx
  cases failed with
  | true =>
      have hexec : (cmd x).exec true disk' = disk' := by
        rw [Cmd.exec]
        split <;> rfl
      rw [hexec, Bool.not_true, Bool.and_false, if_neg Bool.false_ne_true]
      exact h.failed
  | false =>
      cases hdirty : x.dirty with
      | true =>
          have hexec : (cmd x).exec false disk' = store disk' x.drive x.blockno.toNat x.data := by
            rw [Cmd.exec, ← hdrive, ← hsector]
            simp only [cmd, hdirty, if_true, Bool.false_eq_true, if_false]
          rw [hexec]
          exact h.write hdirty
      | false =>
          have hexec : (cmd x).exec false disk' = disk' := by
            rw [Cmd.exec]
            simp only [cmd, hdirty, Bool.false_eq_true, if_false]
          rw [hexec, hdrive, hsector]
          exact h.read hdirty

/-- **`ideintr` does not panic, and ends the first request.** -/
theorem Inv.ideintr (h : Inv disk d) {q : List (β × Buf α)} (hq : d.queue = (b, x) :: q)
    (failed : Bool) :
    ∃ ide y, d.ide.ideintr failed = some (ide, some b)
      ∧ ide.buf = Function.update d.ide.buf b y ∧ y.isDone = true
      ∧ Inv disk { d with ide := ide, queue := q, done := d.done ++ [⟨b, x, y, failed⟩] } := by
  have hmem : ∀ e ∈ q, e ∈ d.queue := fun e he => hq ▸ List.mem_cons_of_mem _ he
  have hfirst : (b, x) ∈ d.queue := hq ▸ List.mem_cons_self
  have hactive : d.ide.active = some (cmd x) := by rw [h.active, hq]; rfl
  have hbuf : d.ide.buf b = x := h.buf _ hfirst
  have hchain := h.chain
  have hnodup := h.nodup
  rw [hq] at hchain hnodup
  obtain ⟨hhead, hrest⟩ := hchain
  obtain ⟨hb, hnodup⟩ := List.nodup_cons.1 hnodup
  have hreplay := replay_cmd h.replay b (h.todo _ hfirst).2 failed
  generalize hy : { x with
    data := if !x.dirty && !failed then
      (cmd x).exec failed d.ide.disk (cmd x).drive (cmd x).sector else x.data
    valid := true
    dirty := false } = y at hreplay
  have hother : ∀ e ∈ q, Function.update d.ide.buf b y e.1 = d.ide.buf e.1 := fun e he =>
    Function.update_of_ne (ne_of_mem_of_not_mem (List.mem_map_of_mem he) hb) ..
  -- all but the next command
  have hinv : ∀ active, active = q.head?.map (fun e => cmd e.2) →
      Inv disk { d with
        ide := { d.ide with
          idequeue := d.ide.qnext b, buf := Function.update d.ide.buf b y, active := active,
          disk := (cmd x).exec failed d.ide.disk }
        queue := q, done := d.done ++ [⟨b, x, y, failed⟩] } := by
    intro active hactive
    refine ⟨hrest, hnodup, fun e he => (hother e he).trans (h.buf e (hmem e he)),
      fun e he => h.todo e (hmem e he), hactive, ?_, hreplay,
      fun e he => (h.returned e he).imp fun _ hdone => List.mem_append_left _ hdone⟩
    rw [h.arrived, hq, List.map_append, List.append_assoc]
    rfl
  unfold Driver.ideintr
  simp only [hactive, hhead, hbuf, hy]
  cases hqq : q with
  | nil =>
      rw [hqq] at hrest
      rw [show d.ide.qnext b = none from hrest]
      have hdone := hinv none (by rw [hqq]; rfl)
      rw [hqq, show d.ide.qnext b = none from hrest] at hdone
      exact ⟨_, y, rfl, rfl, by rw [← hy]; rfl, hdone⟩
  | cons e q' =>
      rw [hqq] at hrest
      have hnext : d.ide.qnext b = some e.1 := hrest.1
      have he : e ∈ q := hqq ▸ List.mem_cons_self
      have hebuf := (hother e he).trans (h.buf e (hmem e he))
      rw [hnext]
      simp only [Driver.idestart, hebuf, if_neg (Nat.not_le.2 (h.todo e (hmem e he)).2),
        Option.isSome_none, Bool.false_eq_true, if_false, Option.map_some]
      have hdone := hinv (some (cmd e.2)) (by rw [hqq]; rfl)
      rw [hqq, hnext] at hdone
      exact ⟨_, y, rfl, rfl, by rw [← hy]; rfl, hdone⟩

/-! ## The processes -/

/-- Of the buffers that `t` uses, only `b` can be in the queue. -/
def Only (d : Data ι β α) (t : Option ι) (b : Option β) : Prop :=
  ∀ c ∈ d.queue.map Prod.fst, t = some (d.user c) → some c = b

/-- The request is done, and nobody has used its buffer since. -/
def Ended (d : Data ι β α) (b : β) (x : Buf α) : Prop :=
  b ∉ d.queue.map Prod.fst ∧ (d.ide.buf b).isDone = true
    ∧ ∃ failed, ⟨b, x, d.ide.buf b, failed⟩ ∈ d.done

/-- Where a process can be. -/
def Where (havedisk1 : Bool) (d : Data ι β α) (t : Option ι) : Status β (Goal β α) → Prop
  | .idle => Only d t none
  | .ready (.iderw b x) => t = some (d.user b) ∧ Good havedisk1 x ∧ Only d t none
  | .ready (.loop b x) => t = some (d.user b) ∧ Only d t (some b) ∧ ((b, x) ∈ d.queue ∨ Ended d b x)
  | .ready .ideintr => t = none ∧ d.queue ≠ []
  | .asleep c goal =>
      ∃ x, goal = .loop c x ∧ t = some (d.user c) ∧ Only d t (some c) ∧ (c, x) ∈ d.queue

variable {havedisk1 : Bool} {t u : Option ι}

omit [DecidableEq β] in
theorem Only.not_mem (h : Only d t none) (ht : t = some (d.user b)) :
    b ∉ d.queue.map Prod.fst := fun hb => nomatch h b hb ht

/-- What a section leaves of another process. -/
theorem Where.other {d' : Data ι β α} {st : Status β (Goal β α)} {wake : List β}
    (h : Where havedisk1 d u st)
    (huser : ∀ c, u = some (d.user c) → u = some (d'.user c))
    (hqueue : ∀ c ∈ d'.queue.map Prod.fst, u = some (d'.user c) →
      c ∈ d.queue.map Prod.fst ∧ u = some (d.user c))
    (hloop : ∀ c x, u = some (d.user c) → (c, x) ∈ d.queue ∨ Ended d c x →
      (c, x) ∈ d'.queue ∨ Ended d' c x)
    (hasleep : ∀ c x, (c, x) ∈ d.queue → c ∉ wake → (c, x) ∈ d'.queue)
    (hintr : u = none → d.queue ≠ [] → d'.queue ≠ []) :
    Where havedisk1 d' u (st.wake wake) := by
  have honly : ∀ b, Only d u b → Only d' u b := fun b hb c hc hu =>
    have ⟨hc', hu'⟩ := hqueue c hc hu
    hb c hc' hu'
  cases st with
  | idle => exact honly _ h
  | ready goal =>
      cases goal with
      | iderw b x => exact ⟨huser b h.1, h.2.1, honly _ h.2.2⟩
      | loop b x => exact ⟨huser b h.1, honly _ h.2.1, hloop b x h.1 h.2.2⟩
      | ideintr => exact ⟨h.1, hintr h.1 h.2⟩
  | asleep c goal =>
      obtain ⟨x, rfl, hu, hb, hmem⟩ := h
      by_cases hc : c ∈ wake
      · simp only [Status.wake, if_pos hc]
        exact ⟨huser c hu, honly _ hb, hloop c x hu (Or.inl hmem)⟩
      · simp only [Status.wake, if_neg hc]
        exact ⟨x, rfl, huser c hu, honly _ hb, hasleep c x hmem hc⟩

/-- What a section does: it keeps what holds, of the process and of all others. -/
structure Keeps (havedisk1 : Bool) (disk : Drives α) (d : Data ι β α) (t : Option ι)
    (x : Exit β (Goal β α) (Data ι β α)) : Prop where
  inv : Inv disk x.shared
  self : Where havedisk1 x.shared t x.status
  other : ∀ u st, u ≠ t → Where havedisk1 d u st → Where havedisk1 x.shared u (st.wake x.wake)

theorem Inv.keeps_loop (h : Inv disk d) (ht : t = some (d.user b)) (hb : Only d t (some b))
    (hx : (b, x) ∈ d.queue ∨ Ended d b x) (next : ι) :
    Keeps havedisk1 disk d t (loop next b x d) := by
  unfold loop
  split
  · rename_i hdone
    -- it returns, for its request is done
    obtain ⟨hmem, _, hended⟩ : Ended d b x := by
      refine hx.resolve_left fun hmem => ?_
      rw [h.buf _ hmem] at hdone
      exact nomatch hdone.symm.trans (h.todo _ hmem).1
    have huser : ∀ c ∈ d.queue.map Prod.fst, Function.update d.user b next c = d.user c :=
      fun c hc => Function.update_of_ne (ne_of_mem_of_not_mem hc hmem) ..
    refine ⟨⟨h.chain, h.nodup, h.buf, h.todo, h.active, h.arrived, h.replay, fun e he => ?_⟩,
      fun c hc hu => ?_, fun u st hu hst => hst.other (fun c hc => ?_) (fun c hc hu => ?_)
        (fun _ _ _ => id) (fun _ _ hmem _ => hmem) fun _ => id⟩
    · rcases List.mem_append.1 he with he | he
      · exact h.returned e he
      · rw [List.mem_singleton.1 he]
        exact hended
    · have hu' : t = some (d.user c) := hu.trans (congrArg some (huser c hc))
      cases hb c hc hu'
      exact absurd hc hmem
    · have hne : c ≠ b := by
        rintro rfl
        exact hu (hc.trans ht.symm)
      exact hc.trans (congrArg some (Function.update_of_ne hne ..).symm)
    · exact ⟨hc, hu.trans (congrArg some (huser c hc))⟩
  · rename_i hdone
    -- it sleeps, for its request is in the queue
    have hmem : (b, x) ∈ d.queue := hx.resolve_right fun hended => hdone hended.2.1
    exact ⟨h, ⟨x, rfl, ht, hb, hmem⟩, fun u st _ hst => hst.other (fun _ => id)
      (fun _ hc hu => ⟨hc, hu⟩) (fun _ _ _ => id) (fun _ _ hmem _ => hmem) fun _ => id⟩

theorem Inv.keeps_iderw [Fintype β] (h : Inv disk d) (ht : t = some (d.user b))
    (hx : Good havedisk1 x) (honly : Only d t none) (failed : Bool) (next : ι) :
    ∃ e, turn havedisk1 failed next (.iderw b x) d = some e ∧ Keeps havedisk1 disk d t e := by
  have hb := honly.not_mem ht
  obtain ⟨ide, hiderw, hbuf, hinv⟩ := h.iderw hx hb
  refine ⟨_, congrArg (Option.map _) hiderw, ?_⟩
  have hloop : Keeps havedisk1 disk _ t (loop next b x _) := hinv.keeps_loop ht
    (fun c hc hu => ?_) (Or.inl (List.mem_append_right _ List.mem_cons_self)) next
  · refine ⟨hloop.inv, hloop.self, fun u st hu hst => ?_⟩
    have hne : ∀ c, u = some (d.user c) → c ≠ b := by
      rintro c hc rfl
      exact hu (hc.trans ht.symm)
    have hother : Where havedisk1 { d with
        ide := ide, arrived := d.arrived ++ [(b, x)], queue := d.queue ++ [(b, x)] } u
        (st.wake []) := hst.other
      (fun _ => id) (fun c hc hc' => ?_) (fun c y hc hmem => ?_)
      (fun c y hmem _ => List.mem_append_left _ hmem)
      (fun _ _ => List.append_ne_nil_of_right_ne_nil _ (List.cons_ne_nil _ _))
    · have hwake := hloop.other u _ hu hother
      have hnil : st.wake [] = st := by
        cases st with
        | asleep c r => rfl
        | _ => rfl
      rw [hnil] at hwake
      exact hwake
    · rw [List.map_append] at hc
      rcases List.mem_append.1 hc with hc | hc
      · exact ⟨hc, hc'⟩
      · exact absurd (List.mem_singleton.1 hc) (hne c hc')
    · refine hmem.imp (fun hmem => List.mem_append_left _ hmem) ?_
      rintro ⟨hmem, hdone, hended⟩
      have hsame : ide.buf c = d.ide.buf c := by
        rw [hbuf]
        exact Function.update_of_ne (hne c hc) ..
      refine ⟨fun hmem' => ?_, hsame ▸ hdone, ?_⟩
      · rw [List.map_append] at hmem'
        rcases List.mem_append.1 hmem' with hmem' | hmem'
        · exact hmem hmem'
        · exact hne c hc (List.mem_singleton.1 hmem')
      · show ∃ failed, (⟨c, y, ide.buf c, failed⟩ : Done β α) ∈ d.done
        rw [hsame]
        exact hended
  · rw [List.map_append] at hc
    rcases List.mem_append.1 hc with hc | hc
    · exact nomatch honly c hc hu
    · exact congrArg some (List.mem_singleton.1 hc)

theorem Inv.keeps_ideintr [Fintype β] (h : Inv disk d) (hne : d.queue ≠ []) (failed : Bool)
    (next : ι) :
    ∃ e, turn havedisk1 failed next .ideintr d = some e ∧ Keeps havedisk1 disk d none e := by
  obtain ⟨⟨b, x⟩, q, hq⟩ := List.exists_cons_of_ne_nil hne
  obtain ⟨ide, y, hintr, hbuf, hdone, hinv⟩ := h.ideintr hq failed
  have hx : d.ide.buf b = x := h.buf _ (hq ▸ List.mem_cons_self)
  have hy : ide.buf b = y := by rw [hbuf, Function.update_self]
  have hnodup := h.nodup
  rw [hq] at hnodup
  have hb : b ∉ q.map Prod.fst := (List.nodup_cons.1 hnodup).1
  refine ⟨⟨{ d with
    ide := ide, queue := q, done := d.done ++ [⟨b, x, y, failed⟩] }, [b], none⟩, ?_, ?_⟩
  · simp only [turn, hintr, Option.map_some, hx, hy, hq, List.tail_cons]
  have hended : Ended { d with
      ide := ide, queue := q, done := d.done ++ [⟨b, x, y, failed⟩] } b x := by
    refine ⟨hb, ?_, ?_⟩
    · rw [hy]
      exact hdone
    · rw [hy]
      exact ⟨failed, List.mem_append_right _ List.mem_cons_self⟩
  refine ⟨hinv, fun _ _ hu => (nomatch hu), fun u st hu hst => hst.other (fun _ => id)
    (fun c hc hu => ⟨?_, hu⟩) (fun c y' _ hmem => ?_) (fun c y' hmem hc => ?_)
    fun hnone => absurd hnone hu⟩
  · rw [hq]
    exact List.mem_cons_of_mem _ hc
  · obtain hmem | ⟨hmem, hdone', hended'⟩ := hmem
    · rw [hq] at hmem
      rcases List.mem_cons.1 hmem with heq | hmem
      · cases heq
        exact Or.inr hended
      · exact Or.inl hmem
    · rw [hq, List.map_cons, List.mem_cons, not_or] at hmem
      have hsame : ide.buf c = d.ide.buf c := by
        rw [hbuf]
        exact Function.update_of_ne hmem.1 ..
      refine Or.inr ⟨hmem.2, hsame ▸ hdone', ?_⟩
      show ∃ failed', (⟨c, y', ide.buf c, failed'⟩ : Done β α) ∈ d.done ++ _
      rw [hsame]
      exact hended'.imp fun _ hdone => List.mem_append_left _ hdone
  · rw [hq] at hmem
    rcases List.mem_cons.1 hmem with heq | hmem
    · cases heq
      exact absurd List.mem_cons_self hc
    · exact hmem

/-- **Step lemma**: no section panics, and each one keeps what holds. -/
theorem Inv.turn [Fintype β] (h : Inv disk d) {goal : Goal β α}
    (ht : Where havedisk1 d t (.ready goal)) (failed : Bool) (next : ι) :
    ∃ e, turn havedisk1 failed next goal d = some e ∧ Keeps havedisk1 disk d t e := by
  cases goal with
  | iderw b x => exact h.keeps_iderw ht.1 ht.2.1 ht.2.2 failed next
  | loop b x => exact ⟨_, rfl, h.keeps_loop ht.1 ht.2.1 ht.2.2 next⟩
  | ideintr =>
      obtain ⟨rfl, hne⟩ := ht
      exact h.keeps_ideintr hne failed next

/-! ## Runs -/

variable [Fintype β] [DecidableEq ι] {buf : β → Buf α} {qnext : β → Option β} {user : β → ι}
  {es : List (SleepWakeup.Event (Option ι) (Goal β α))}
  {s : State (Option ι) β (Goal β α) (Data ι β α)}

theorem inv_run
    (hrun : (State.init (init buf qnext disk user)).Run (sections havedisk1) es s) :
    Inv disk s.shared ∧ ∀ t, Where havedisk1 s.shared t (s.abs.status t) := by
  refine hrun.inv.2.threads (I := Inv disk) (P := Where havedisk1) (inv_init ..)
    (fun _ _ hc => (nomatch hc)) ?_ ?_ ?_
  · intro d t goal hinv honly hmay
    cases goal with
    | iderw b x => exact ⟨hmay.1, hmay.2, honly⟩
    | loop b x => exact hmay.elim
    | ideintr =>
        refine ⟨hmay.1, fun hq => ?_⟩
        have hactive := hmay.2
        rw [hinv.active, hq] at hactive
        cases hactive
  · rintro d t c goal _ ⟨x, rfl, ht, honly, hmem⟩
    exact ⟨ht, honly, Or.inl hmem⟩
  · rintro d t goal x hinv hwhere ⟨failed, next, hturn⟩
    obtain ⟨e, hturn', hkeeps⟩ := hinv.turn hwhere failed next
    cases hturn.symm.trans hturn'
    exact ⟨hkeeps.inv, hkeeps.self, hkeeps.other⟩

/-- **The driver is a disk that does one request after the other**: after every run, the
links of the queue lead through the requests that are not done; those that are done and
then those in the queue are the requests in the order in which they came; what the drives
hold and what has been read into the buffers is what a disk does that takes the requests
one at a time in this order, but for those that the drives have failed; and `iderw` returns
with its request done, or failed. -/
theorem ide_in_order
    (hrun : (State.init (init buf qnext disk user)).Run (sections havedisk1) es s) :
    Linked.Chain s.shared.ide.qnext s.shared.ide.idequeue (s.shared.queue.map Prod.fst)
      ∧ s.shared.arrived = s.shared.done.map (fun e => (e.b, e.before)) ++ s.shared.queue
      ∧ Replay disk s.shared.done s.shared.ide.disk
      ∧ ∀ e ∈ s.shared.returned, ∃ failed, ⟨e.1, e.2.1, e.2.2, failed⟩ ∈ s.shared.done :=
  have h := (inv_run hrun).1
  ⟨h.chain, h.arrived, h.replay, h.returned⟩

/-- **The driver neither panics nor forgets**: after every run, each process that is about
to run its section can do so, whatever the drive reports; a process sleeps in `iderw` only
while its buffer is in the queue, or a `wakeup` is on the way to it; and the drive has the
command of the first buffer in the queue. -/
theorem ide_runs
    (hrun : (State.init (init buf qnext disk user)).Run (sections havedisk1) es s)
    {t : Option ι} {goal : Goal β α} :
    (s.pc t = .want goal → ∀ failed next, (turn havedisk1 failed next goal s.shared).isSome)
      ∧ (∀ b, s.pc t = .sleeping b goal → b ∈ s.pending ∨ b ∈ s.shared.queue.map Prod.fst)
      ∧ s.shared.ide.active = s.shared.queue.head?.map fun e => cmd (s.shared.ide.buf e.1) := by
  obtain ⟨hinv, hwhere⟩ := inv_run hrun
  refine ⟨fun ht failed next => ?_, fun b ht => ?_, ?_⟩
  · have hready : s.abs.status t = .ready goal := by
      show (s.pc t).status s.pending = _
      rw [ht]
      rfl
    have hgoal := hwhere t
    rw [hready] at hgoal
    obtain ⟨e, hturn, _⟩ := hinv.turn hgoal failed next
    rw [hturn]
    rfl
  · refine (State.asleep_of_sleeping ht).imp_right fun hasleep => ?_
    have hgoal := hwhere t
    rw [hasleep] at hgoal
    obtain ⟨x, _, _, _, hmem⟩ := hgoal
    exact List.mem_map_of_mem hmem
  · rw [hinv.active]
    cases hq : s.shared.queue with
    | nil => rfl
    | cons e q =>
        have hbuf := hinv.buf e (hq ▸ List.mem_cons_self)
        simp only [List.head?_cons, Option.map_some, hbuf]

/-- The requests for one block: of a process that writes it, and of one that reads it. -/
abbrev writeReq : Buf Nat := ⟨0, 7, false, true, 9⟩

abbrev readReq : Buf Nat := ⟨0, 7, false, false, 0⟩

/-- A process writes a block, and another one reads it. The drive fails the write, and
the first process returns; then it does the read. -/
def failedWrite : List (SleepWakeup.Event (Option Bool) (Goal Bool Nat)) :=
  [.call (some true) (.iderw true writeReq), .acquire (some true), .sleep (some true),
    .sched (some true), .unlock,
    .call (some false) (.iderw false readReq), .acquire (some false), .sleep (some false),
    .sched (some false), .unlock,
    .call none .ideintr, .acquire none, .wakeup none, .release none,
    .lock, .pick (some true), .resume (some true), .acquire (some true), .release (some true),
    .call none .ideintr, .acquire none]

theorem failedWrite_run : ∃ s : State (Option Bool) Bool (Goal Bool Nat) (Data Bool Bool Nat),
    (State.init (init (fun _ => readReq) (fun _ => none) (fun _ n => n) id)).Run
      (sections false) failedWrite s
      ∧ s.pc (some false) = .sleeping false (.loop false readReq)
      ∧ s.shared.done.map (fun e => (e.failed, e.after.data)) = [(true, 9), (false, 7)]
      ∧ s.shared.returned = [(true, writeReq, { writeReq with valid := true, dirty := false })] :=
  have good : ∀ x : Buf Nat, x = writeReq ∨ x = readReq → Good false x := by
    rintro x (rfl | rfl)
    · exact ⟨rfl, fun h => absurd rfl h, by decide⟩
    · exact ⟨rfl, fun h => absurd rfl h, by decide⟩
  ⟨_, .cons ⟨rfl, ⟨rfl, good _ (.inl rfl)⟩, rfl⟩
    (.cons ⟨_, _, rfl, rfl, ⟨false, true, rfl⟩, rfl⟩ (.cons ⟨_, _, rfl, rfl, rfl⟩
      (.cons ⟨_, _, rfl, rfl⟩ (.cons ⟨rfl, rfl⟩
    (.cons ⟨rfl, ⟨rfl, good _ (.inr rfl)⟩, rfl⟩
    (.cons ⟨_, _, rfl, rfl, ⟨false, false, rfl⟩, rfl⟩ (.cons ⟨_, _, rfl, rfl, rfl⟩
      (.cons ⟨_, _, rfl, rfl⟩ (.cons ⟨rfl, rfl⟩
    (.cons ⟨rfl, ⟨rfl, rfl⟩, rfl⟩
    (.cons ⟨_, _, rfl, rfl, ⟨true, false, rfl⟩, rfl⟩ (.cons ⟨_, _, _, rfl, rfl, rfl⟩
      (.cons ⟨rfl, rfl⟩
    (.cons ⟨rfl, rfl⟩ (.cons ⟨_, rfl, rfl, rfl⟩ (.cons ⟨_, rfl, rfl⟩
      (.cons ⟨_, _, rfl, rfl, ⟨false, true, rfl⟩, rfl⟩ (.cons ⟨rfl, rfl⟩
    (.cons ⟨rfl, ⟨rfl, rfl⟩, rfl⟩
    (.cons ⟨_, _, rfl, rfl, ⟨false, false, rfl⟩, rfl⟩ .nil)))))))))))))))))))),
    rfl, rfl, rfl⟩

theorem ide_in_order_two :
    ∃ s : State (Option Bool) Bool (Goal Bool Nat) (Data Bool Bool Nat),
      s.shared.done.map (fun e => (e.failed, e.after.data)) = [(true, 9), (false, 7)]
        ∧ s.shared.returned = [(true, writeReq, { writeReq with valid := true, dirty := false })]
        ∧ Linked.Chain s.shared.ide.qnext s.shared.ide.idequeue (s.shared.queue.map Prod.fst)
        ∧ s.shared.arrived = s.shared.done.map (fun e => (e.b, e.before)) ++ s.shared.queue
        ∧ Replay (fun _ n => n) s.shared.done s.shared.ide.disk
        ∧ ∀ e ∈ s.shared.returned, ∃ failed, ⟨e.1, e.2.1, e.2.2, failed⟩ ∈ s.shared.done :=
  have ⟨s, hrun, _, hdone, hreturned⟩ := failedWrite_run
  ⟨s, hdone, hreturned, ide_in_order hrun⟩

theorem ide_runs_two :
    ∃ s : State (Option Bool) Bool (Goal Bool Nat) (Data Bool Bool Nat),
      s.pc (some false) = .sleeping false (.loop false readReq)
        ∧ ∀ t goal, (s.pc t = .want goal → ∀ failed next,
            (turn false failed next goal s.shared).isSome)
          ∧ (∀ b, s.pc t = .sleeping b goal →
            b ∈ s.pending ∨ b ∈ s.shared.queue.map Prod.fst)
          ∧ s.shared.ide.active = s.shared.queue.head?.map fun e => cmd (s.shared.ide.buf e.1) :=
  have ⟨s, hrun, hpc, _⟩ := failedWrite_run
  ⟨s, hpc, fun _ _ => ide_runs hrun⟩

end SchoolStuff.Xv6.Ide
