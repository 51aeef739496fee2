import Mathlib.Data.List.Nodup
import Mathlib.Logic.Relation
import SchoolStuff.Xv6.Log

/-!
# Xv6 — a transaction survives a crash whole or not at all

Every disk that a stop can leave behind is `Clean`, with an empty header over
the home blocks of before or of after the transaction, or `Logged`, with the
header and the log blocks of the transaction on it. `finish_stops` is the part
that `commit` and `recover_from_log` share: from a `Logged` disk it goes
through `Logged` disks to a `Clean` one. `crash_atomic` follows the disk
through any number of stops.
-/

namespace SchoolStuff.Xv6

/-- The block `b` belongs to the log. -/
def LogArea.InLog (log : LogArea) (b : UInt32) : Prop :=
  log.start.toNat ≤ b.toNat ∧ b.toNat < log.start.toNat + log.size

/-- The numbers of the log blocks are block numbers. -/
def LogArea.Fits (log : LogArea) : Prop :=
  0 < log.size ∧ log.start.toNat + log.size ≤ 2 ^ 32

/-! ## What the disk holds -/

/-- An empty header, and the home blocks of `t`. -/
structure Clean (log : LogArea) (t d : Disk) : Prop where
  head : (d log.start).word 0 = 0
  home : ∀ b, ¬log.InLog b → d b = t b

/-- The header and the log blocks of a transaction on `bs` that leads to the
home blocks of `t`. -/
structure Logged (log : LogArea) (bs : List UInt32) (t d : Disk) : Prop where
  head : (d log.start).word 0 = UInt32.ofNat bs.length
  blocks : (d log.start).words 1 bs.length = bs
  body : ∀ i (h : i < bs.length), d (log.block i) = t bs[i]
  home : ∀ b, ¬log.InLog b → b ∉ bs → d b = t b

/-- What a transaction may be on: home blocks, few enough for the log. -/
structure LogArea.Admits (log : LogArea) (bs : List UInt32) : Prop where
  nodup : bs.Nodup
  home : ∀ b ∈ bs, ¬log.InLog b
  header : bs.length ≤ LOGSIZE
  room : bs.length < log.size

/-! ## The numbers of the log blocks -/

namespace LogArea

variable {log : LogArea}

theorem block_toNat (hfits : log.Fits) {i : Nat} (hi : i + 1 < log.size) :
    (log.block i).toNat = log.start.toNat + (i + 1) := by
  have hlt : log.start.toNat + (i + 1) < 2 ^ 32 := by
    have := hfits.2
    omega
  simp only [block, UInt32.toNat_add, UInt32.toNat_ofNat']
  omega

theorem block_inLog (hfits : log.Fits) {i : Nat} (hi : i + 1 < log.size) :
    log.InLog (log.block i) := by
  have := block_toNat hfits hi
  constructor <;> omega

theorem block_ne_start (hfits : log.Fits) {i : Nat} (hi : i + 1 < log.size) :
    log.block i ≠ log.start := by
  intro h
  have := block_toNat hfits hi
  rw [h] at this
  omega

theorem block_inj (hfits : log.Fits) {i j : Nat} (hi : i + 1 < log.size)
    (hj : j + 1 < log.size) (h : log.block i = log.block j) : i = j := by
  have := block_toNat hfits hi
  rw [h, block_toNat hfits hj] at this
  omega

theorem start_inLog (hfits : log.Fits) : log.InLog log.start := by
  have := hfits.1
  constructor <;> omega

end LogArea

namespace Machine

/-! ## Writes of the machine -/

/-- `bwrite` after `bwrite`. -/
def bwrites (m : Machine) (ws : List (UInt32 × Block)) : Machine :=
  ws.foldl (fun m w => m.bwrite w.1 w.2) m

@[simp] theorem bwrites_disk (m : Machine) (ws : List (UInt32 × Block)) :
    (m.bwrites ws).disk = Writes.apply m.disk ws := by
  induction ws generalizing m with
  | nil => rfl
  | cons w ws ih => exact ih _

@[simp] theorem bwrites_writes (m : Machine) (ws : List (UInt32 × Block)) :
    (m.bwrites ws).writes = m.writes ++ ws := by
  induction ws generalizing m with
  | nil => simp [bwrites]
  | cons w ws ih =>
      have := ih (m.bwrite w.1 w.2)
      simpa [bwrites, bwrite] using this

@[simp] theorem bwrites_log (m : Machine) (ws : List (UInt32 × Block)) :
    (m.bwrites ws).log = m.log := by
  induction ws generalizing m with
  | nil => rfl
  | cons w ws ih => exact ih _

theorem bwrites_clean {m : Machine} (ws : List (UInt32 × Block)) {b : UInt32}
    (h : m.dirty b = none) : (m.bwrites ws).dirty b = none := by
  induction ws generalizing m with
  | nil => exact h
  | cons w ws ih =>
      apply ih
      change Function.update m.dirty w.1 none b = none
      by_cases hb : b = w.1
      · rw [hb, Function.update_self]
      · rw [Function.update_of_ne hb, h]

theorem bwrites_written {m : Machine} {ws : List (UInt32 × Block)} {b : UInt32}
    (h : b ∈ ws.map Prod.fst) : (m.bwrites ws).dirty b = none := by
  induction ws generalizing m with
  | nil => simp at h
  | cons w ws ih =>
      rcases List.mem_cons.1 h with rfl | h
      · have hfirst : (m.bwrite w.1 w.2).dirty w.1 = none := by
          simp only [bwrite, Function.update_self]
        exact bwrites_clean ws hfirst
      · exact ih h

/-- A block that is not written reads as before. -/
theorem bread_bwrite {m : Machine} {b c : UInt32} (data : Block) (h : b ≠ c) :
    (m.bwrite c data).bread b = m.bread b := by
  simp only [bread, bwrite, Function.update_of_ne h]

theorem bread_of_clean {m : Machine} {b : UInt32} (h : m.dirty b = none) :
    m.bread b = m.disk b := by
  simp only [bread, h, Option.getD_none]

/-! ## Copying blocks -/

/-- Both loops over the log are this one, with source and destination of each
turn. -/
def copy (m : Machine) : List (UInt32 × UInt32) → Machine
  | [] => m
  | p :: ps => copy (m.bwrite p.2 (m.bread p.1)) ps

/-- **The copy loop**, when it does not write what it has still to read, writes
what the sources held at its start. -/
theorem copy_eq {m : Machine} {ps : List (UInt32 × UInt32)}
    (h : ∀ p ∈ ps, ∀ q ∈ ps, p.1 ≠ q.2) :
    m.copy ps = m.bwrites (ps.map fun p => (p.2, m.bread p.1)) := by
  induction ps generalizing m with
  | nil => rfl
  | cons p ps ih =>
      have hrest : ∀ q ∈ ps, ∀ r ∈ ps, q.1 ≠ r.2 := fun q hq r hr =>
        h q (List.mem_cons_of_mem _ hq) r (List.mem_cons_of_mem _ hr)
      have hread : ps.map (fun q => (q.2, (m.bwrite p.2 (m.bread p.1)).bread q.1))
          = ps.map fun q => (q.2, m.bread q.1) := by
        apply List.map_congr_left
        intro q hq
        rw [bread_bwrite _ (h q (List.mem_cons_of_mem _ hq) p List.mem_cons_self)]
      rw [copy, ih hrest, hread]
      rfl

/-- The log blocks of `n` turns of a loop from `tail` on. -/
def logBlocks (m : Machine) (tail n : Nat) : List UInt32 :=
  (List.range' tail n).map m.log.block

theorem installFrom_eq (m : Machine) (tail : Nat) (bs : List UInt32) :
    m.installFrom tail bs = m.copy ((m.logBlocks tail bs.length).zip bs) := by
  induction bs generalizing m tail with
  | nil =>
      rw [List.zip_nil_right]
      rfl
  | cons b bs ih => exact ih _ _

theorem writeLogFrom_eq (m : Machine) (tail : Nat) (bs : List UInt32) :
    m.writeLogFrom tail bs = m.copy (bs.zip (m.logBlocks tail bs.length)) := by
  induction bs generalizing m tail with
  | nil => rfl
  | cons b bs ih => exact ih _ _

/-- Every log block of a transaction belongs to the log, and is not the
header. -/
theorem mem_logBlocks {m : Machine} (hfits : m.log.Fits) {bs : List UInt32}
    (hbs : m.log.Admits bs) {c : UInt32} (hc : c ∈ m.logBlocks 0 bs.length) :
    m.log.InLog c ∧ c ≠ m.log.start := by
  obtain ⟨i, hi, rfl⟩ := List.mem_map.1 hc
  have hroom := hbs.room
  simp only [List.mem_range'_1] at hi
  exact ⟨LogArea.block_inLog hfits (by omega), LogArea.block_ne_start hfits (by omega)⟩

theorem logBlocks_ne_home {m : Machine} (hfits : m.log.Fits) {bs : List UInt32}
    (hbs : m.log.Admits bs) {b c : UInt32} (hb : b ∈ bs)
    (hc : c ∈ m.logBlocks 0 bs.length) : c ≠ b := by
  rintro rfl
  exact hbs.home c hb (mem_logBlocks hfits hbs hc).1

/-! ## The header -/

theorem headBlock_head (head : Block) (bs : List UInt32) :
    (headBlock head bs).word 0 = UInt32.ofNat bs.length := by
  rw [headBlock, word_setWords_lt (by omega) (by decide), word_setWord (by decide),
    if_pos rfl]

theorem headBlock_words (head : Block) {bs : List UInt32} (h : bs.length ≤ LOGSIZE) :
    (headBlock head bs).words 1 bs.length = bs := by
  have hsize : 4 * (1 + LOGSIZE) ≤ BSIZE := by decide
  exact words_setWords (by omega)

/-- `writeHead` is one write, of a header with the logged blocks. -/
theorem writeHead_eq (m : Machine) :
    m.writeHead
      = m.bwrites [(m.log.start, headBlock (m.bread m.log.start) m.log.lh)] := rfl

end Machine

/-! ## Disks under a write -/

namespace Clean

variable {log : LogArea} {t d : Disk}

/-- An empty header makes a disk clean. -/
theorem of_head_write (h : ∀ b, ¬log.InLog b → d b = t b) (hfits : log.Fits)
    (head : Block) :
    Clean log t (Function.update d log.start (Machine.headBlock head [])) where
  head := by rw [Function.update_self, Machine.headBlock_head]; rfl
  home := by
    intro b hb
    have hne : b ≠ log.start := fun e => hb (e ▸ LogArea.start_inLog hfits)
    rw [Function.update_of_ne hne, h b hb]

/-- A write to a log block that is not the header leaves it clean. -/
theorem body_write (h : Clean log t d) {c : UInt32} (hc : log.InLog c)
    (hne : c ≠ log.start) (data : Block) : Clean log t (Function.update d c data) where
  head := by rw [Function.update_of_ne hne.symm, h.head]
  home := by
    intro b hb
    have hbc : b ≠ c := fun e => hb (e ▸ hc)
    rw [Function.update_of_ne hbc, h.home b hb]

end Clean

namespace Logged

variable {log : LogArea} {bs : List UInt32} {t d : Disk}

/-- Whatever is written to a block of the transaction, its log stays. -/
theorem install_write (h : Logged log bs t d) (hfits : log.Fits)
    (hbs : log.Admits bs) {b : UInt32} (hb : b ∈ bs) (data : Block) :
    Logged log bs t (Function.update d b data) := by
  have hstart : log.start ≠ b := fun e =>
    hbs.home b hb (e ▸ LogArea.start_inLog hfits)
  refine ⟨?_, ?_, ?_, ?_⟩
  · rw [Function.update_of_ne hstart, h.head]
  · rw [Function.update_of_ne hstart, h.blocks]
  · intro i hi
    have hroom := hbs.room
    have hin : log.InLog (log.block i) := LogArea.block_inLog hfits (by omega)
    have hne : log.block i ≠ b := fun e => hbs.home b hb (e ▸ hin)
    rw [Function.update_of_ne hne, h.body i hi]
  · intro c hc hcbs
    have hne : c ≠ b := fun e => hcbs (e ▸ hb)
    rw [Function.update_of_ne hne, h.home c hc hcbs]

end Logged

namespace Machine

/-! ## From the header on -/

/-- What `install_trans` writes. -/
def installs (m : Machine) : List (UInt32 × Block) :=
  ((m.logBlocks 0 m.log.lh.length).zip m.log.lh).map fun p => (p.2, m.bread p.1)

theorem installs_keys (m : Machine) : m.installs.map Prod.fst = m.log.lh := by
  simp only [installs, List.map_map]
  exact List.map_snd_zip (by simp [logBlocks])

theorem mem_installs {m : Machine} {i : Nat} (hi : i < m.log.lh.length) :
    (m.log.lh[i], m.bread (m.log.block i)) ∈ m.installs := by
  apply List.mem_map.2
  refine ⟨(m.log.block i, m.log.lh[i]), ?_, rfl⟩
  apply List.mem_iff_getElem.2
  exact ⟨i, by simpa [logBlocks] using hi, by simp [logBlocks]⟩

theorem installTrans_eq {m : Machine} (hfits : m.log.Fits)
    (hbs : m.log.Admits m.log.lh) : m.installTrans = m.bwrites m.installs := by
  rw [installTrans, installFrom_eq, copy_eq]
  · rfl
  · intro p hp q hq
    exact logBlocks_ne_home hfits hbs (List.of_mem_zip hq).2 (List.of_mem_zip hp).1

/-- The end of `commit`, and of `recover_from_log`. -/
def finish (m : Machine) : Machine := m.installTrans.clearHead.writeHead

theorem finish_lh (m : Machine) : m.finish.log.lh = [] := rfl

/-- Every buffer of the transaction has been written in the end. -/
theorem finish_dirty {m : Machine} (hfits : m.log.Fits)
    (hbs : m.log.Admits m.log.lh) (hdirty : ∀ b, b ∉ m.log.lh → m.dirty b = none)
    (b : UInt32) : m.finish.dirty b = none := by
  have hinstalled : m.installTrans.dirty b = none := by
    rw [installTrans_eq hfits hbs]
    by_cases hb : b ∈ m.log.lh
    · exact bwrites_written (m.installs_keys ▸ hb)
    · exact bwrites_clean _ (hdirty b hb)
  rw [finish, writeHead_eq]
  exact bwrites_clean _ hinstalled

/-- **From a logged disk on**: stopped anywhere the disk is logged or clean, and
in the end it is clean. -/
theorem finish_stops {m : Machine} {t : Disk} (hfits : m.log.Fits)
    (hbs : m.log.Admits m.log.lh) (hdirty : ∀ b, m.log.InLog b → m.dirty b = none)
    (h : Logged m.log.toLogArea m.log.lh t m.disk) :
    ∃ ws, m.finish.writes = m.writes ++ ws
      ∧ m.finish.disk = Writes.apply m.disk ws
      ∧ Writes.Throughout (fun d => Logged m.log.toLogArea m.log.lh t d
          ∨ Clean m.log.toLogArea t d) m.disk ws
      ∧ Clean m.log.toLogArea t m.finish.disk := by
  have hinstall := installTrans_eq hfits hbs
  have hlogged : Writes.Throughout (Logged m.log.toLogArea m.log.lh t) m.disk
      m.installs := by
    apply Writes.throughout_of_step h
    intro w hw d hd
    have hmem : w.1 ∈ m.log.lh := m.installs_keys ▸ List.mem_map_of_mem hw
    exact hd.install_write hfits hbs hmem w.2
  -- a logged block is home once its write is through, however often
  have hhome : ∀ b, ¬m.log.InLog b → Writes.apply m.disk m.installs b = t b := by
    intro b hb
    by_cases hmem : b ∈ m.log.lh
    · obtain ⟨i, hi, rfl⟩ := List.getElem_of_mem hmem
      have hin : m.log.InLog (m.log.block i) :=
        LogArea.block_inLog hfits (by have := hbs.room; omega)
      have hnodup : (m.installs.map Prod.fst).Nodup := m.installs_keys ▸ hbs.nodup
      rw [Writes.apply_of_mem hnodup _ (mem_installs hi), bread_of_clean (hdirty _ hin)]
      exact h.body i hi
    · rw [Writes.apply_of_not_mem _ (m.installs_keys ▸ hmem)]
      exact h.home b hb hmem
  let head := headBlock ((m.bwrites m.installs).bread m.log.start) []
  have hfinish : m.finish = ({ m.bwrites m.installs with
      log := { m.log with lh := [] } } : Machine).bwrites [(m.log.start, head)] := by
    simp only [finish, hinstall, writeHead_eq, clearHead, bwrites_log]
    rfl
  have hclean : Clean m.log.toLogArea t (Writes.apply m.disk
      (m.installs ++ [(m.log.start, head)])) := by
    rw [Writes.apply_append]
    exact Clean.of_head_write hhome hfits _
  have hdisk : m.finish.disk
      = Writes.apply m.disk (m.installs ++ [(m.log.start, head)]) := by
    rw [hfinish, bwrites_disk, bwrites_disk, Writes.apply_append]
  refine ⟨m.installs ++ [(m.log.start, head)], ?_, hdisk, ?_, hdisk ▸ hclean⟩
  · rw [hfinish, bwrites_writes, bwrites_writes, List.append_assoc]
  · rw [Writes.apply_append] at hclean
    apply (hlogged.mono fun d hd => Or.inl hd).append
    exact Writes.Throughout.single (Or.inl hlogged.at_end) (Or.inr hclean)

/-! ## Recovery -/

/-- The kernel has stopped in the recovery of `d`, and left `d'` behind. -/
def StopsInRecovery (log : LogArea) (d d' : Disk) : Prop :=
  ∃ m k, recoverFromLog (boot log d) = some m ∧ d' = Writes.apply d (m.writes.take k)

/-- A clean disk is a logged one, of a transaction on no block. -/
theorem logged_nil {log : LogArea} {t d : Disk} :
    Logged log [] t d ↔ Clean log t d := by
  constructor
  · intro h
    exact ⟨h.head, fun b hb => h.home b hb (by simp)⟩
  · intro h
    exact ⟨h.head, rfl, by simp, fun b hb _ => h.home b hb⟩

/-- `read_head` finds the transaction that is logged on the disk. -/
theorem readHead_eq {log : LogArea} {bs : List UInt32} {t d : Disk}
    (hbs : bs.length ≤ LOGSIZE) (h : Logged log bs t d) :
    (boot log d).readHead
      = some { boot log d with log := { (boot log d).log with lh := bs } } := by
  have hsize : LOGSIZE = 30 := rfl
  have hhead : (boot log d).bread (boot log d).log.start = d log.start := rfl
  have hn : (UInt32.ofNat bs.length).toInt32.toInt = bs.length := by
    rw [UInt32.toInt32_ofNat', Int32.toInt_ofNat_of_lt (by omega)]
  simp only [readHead, hhead, h.head, hn, guard]
  rw [if_pos (by omega)]
  simp only [Int.toNat_natCast, h.blocks]
  rfl


/-- **Recovery of a logged disk** completes, ends on a clean disk, and stopped
before that leaves the disk logged or clean. -/
theorem recover_logged {log : LogArea} {bs : List UInt32} {t d : Disk}
    (hfits : log.Fits) (hbs : log.Admits bs) (h : Logged log bs t d) :
    ∃ m, recoverFromLog (boot log d) = some m ∧ Clean log t m.disk
      ∧ ∀ k, Logged log bs t (Writes.apply d (m.writes.take k))
          ∨ Clean log t (Writes.apply d (m.writes.take k)) := by
  let m : Machine := { boot log d with log := { (boot log d).log with lh := bs } }
  obtain ⟨ws, hwrites, _, hstops, hclean⟩ :=
    finish_stops (m := m) (t := t) hfits hbs (fun _ _ => rfl) h
  have hrun : recoverFromLog (boot log d) = some m.finish := by
    rw [recoverFromLog, readHead_eq hbs.header h]
    rfl
  have hws : m.finish.writes = ws := hwrites
  refine ⟨m.finish, hrun, hclean, fun k => ?_⟩
  rw [hws]
  exact hstops k

/-- Stops in the recovery keep a disk logged or clean. -/
theorem stopsInRecovery_step {log : LogArea} {bs : List UInt32} {t d d' : Disk}
    (hfits : log.Fits) (hbs : log.Admits bs) (h : Logged log bs t d ∨ Clean log t d)
    (hstop : StopsInRecovery log d d') : Logged log bs t d' ∨ Clean log t d' := by
  obtain ⟨m', k, hm', rfl⟩ := hstop
  rcases h with h | h
  · obtain ⟨m, hm, _, hk⟩ := recover_logged hfits hbs h
    rw [hm, Option.some.injEq] at hm'
    exact hm' ▸ hk k
  · have hnil : log.Admits [] :=
      ⟨List.nodup_nil, by simp, by simp, hfits.1⟩
    obtain ⟨m, hm, _, hk⟩ := recover_logged hfits hnil (logged_nil.2 h)
    rw [hm, Option.some.injEq] at hm'
    right
    rcases hk k with hk | hk
    · exact hm' ▸ logged_nil.1 hk
    · exact hm' ▸ hk

theorem stopsInRecovery_run {log : LogArea} {bs : List UInt32} {t d d' : Disk}
    (hfits : log.Fits) (hbs : log.Admits bs) (h : Logged log bs t d ∨ Clean log t d)
    (hstops : Relation.ReflTransGen (StopsInRecovery log) d d') :
    Logged log bs t d' ∨ Clean log t d' := by
  induction hstops with
  | refl => exact h
  | tail _ hstop ih => exact stopsInRecovery_step hfits hbs ih hstop

/-- **However often it is stopped**, the recovery of a logged or clean disk
ends on a clean one. -/
theorem recovers {log : LogArea} {bs : List UInt32} {t d d' : Disk}
    (hfits : log.Fits) (hbs : log.Admits bs) (h : Logged log bs t d ∨ Clean log t d)
    (hstops : Relation.ReflTransGen (StopsInRecovery log) d d') :
    ∃ m, recoverFromLog (boot log d') = some m ∧ Clean log t m.disk := by
  rcases stopsInRecovery_run hfits hbs h hstops with h' | h'
  · obtain ⟨m, hm, hclean, _⟩ := recover_logged hfits hbs h'
    exact ⟨m, hm, hclean⟩
  · have hnil : log.Admits [] :=
      ⟨List.nodup_nil, by simp, by simp, hfits.1⟩
    obtain ⟨m, hm, hclean, _⟩ := recover_logged hfits hnil (logged_nil.2 h')
    exact ⟨m, hm, hclean⟩

/-! ## Commit -/

/-- What `write_log` writes. -/
def bodies (m : Machine) : List (UInt32 × Block) :=
  (m.log.lh.zip (m.logBlocks 0 m.log.lh.length)).map fun p => (p.2, m.bread p.1)

theorem bodies_keys (m : Machine) :
    m.bodies.map Prod.fst = m.logBlocks 0 m.log.lh.length := by
  simp only [bodies, List.map_map]
  exact List.map_snd_zip (by simp [logBlocks])

theorem writeLog_eq {m : Machine} (hfits : m.log.Fits)
    (hbs : m.log.Admits m.log.lh) : m.writeLog = m.bwrites m.bodies := by
  rw [writeLog, writeLogFrom_eq, copy_eq]
  · rfl
  · intro p hp q hq
    exact (logBlocks_ne_home hfits hbs (List.of_mem_zip hp).1
      (List.of_mem_zip hq).2).symm

theorem logBlocks_nodup {m : Machine} (hfits : m.log.Fits) {n : Nat}
    (hn : n < m.log.size) : (m.logBlocks 0 n).Nodup := by
  apply List.Nodup.map_on _ List.nodup_range'
  intro i hi j hj h
  simp only [List.mem_range'_1] at hi hj
  exact LogArea.block_inj hfits (by omega) (by omega) h

theorem mem_bodies {m : Machine} {i : Nat} (hi : i < m.log.lh.length) :
    (m.log.block i, m.bread m.log.lh[i]) ∈ m.bodies := by
  apply List.mem_map.2
  refine ⟨(m.log.lh[i], m.log.block i), ?_, rfl⟩
  apply List.mem_iff_getElem.2
  exact ⟨i, by simpa [logBlocks] using hi, by simp [logBlocks]⟩

/-- `m` has recorded the transaction `ws` over the disk `d`. -/
structure Recorded (d : Disk) (ws : List (UInt32 × Block)) (m : Machine) : Prop where
  disk : m.disk = d
  nodup : m.log.lh.Nodup
  mem : ∀ b, b ∈ m.log.lh ↔ b ∈ ws.map Prod.fst
  bread : ∀ b, m.bread b = Writes.apply d ws b
  clean : ∀ b, b ∉ m.log.lh → m.dirty b = none
  header : m.log.lh.length ≤ LOGSIZE
  room : m.log.lh.length < m.log.size

theorem Recorded.admits {d : Disk} {ws : List (UInt32 × Block)} {m : Machine}
    (h : Recorded d ws m) (hhome : ∀ w ∈ ws, ¬m.log.InLog w.1) :
    m.log.Admits m.log.lh := by
  refine ⟨h.nodup, fun b hb => ?_, h.header, h.room⟩
  obtain ⟨w, hw, rfl⟩ := List.mem_map.1 ((h.mem b).1 hb)
  exact hhome w hw

/-- The log blocks and the header, on the disk together: the transaction is
logged. -/
theorem Recorded.logged {d : Disk} {ws : List (UInt32 × Block)} {m : Machine}
    (h : Recorded d ws m) (hfits : m.log.Fits)
    (hhome : ∀ w ∈ ws, ¬m.log.InLog w.1) (head : Block) :
    Logged m.log.toLogArea m.log.lh (Writes.apply d ws)
      (Function.update (Writes.apply d m.bodies) m.log.start
        (headBlock head m.log.lh)) := by
  have hroom := h.room
  refine ⟨?_, ?_, ?_, ?_⟩
  · rw [Function.update_self, headBlock_head]
  · rw [Function.update_self, headBlock_words _ h.header]
  · intro i hi
    have hnodup : (m.bodies.map Prod.fst).Nodup :=
      m.bodies_keys ▸ logBlocks_nodup hfits h.room
    rw [Function.update_of_ne (LogArea.block_ne_start hfits (by omega)),
      Writes.apply_of_mem hnodup _ (mem_bodies hi), h.bread]
  · intro b hb hmem
    have hne : b ≠ m.log.start := fun e => hb (e ▸ LogArea.start_inLog hfits)
    have hbody : b ∉ m.bodies.map Prod.fst := by
      rw [bodies_keys]
      intro hin
      exact hb (mem_logBlocks hfits (h.admits hhome) hin).1
    rw [Function.update_of_ne hne, Writes.apply_of_not_mem _ hbody,
      Writes.apply_of_not_mem _ (fun hin => hmem ((h.mem b).2 hin))]

/-- The log blocks and the header, one after the other. -/
theorem logged_eq {m : Machine} (hfits : m.log.Fits) (hbs : m.log.Admits m.log.lh) :
    m.writeLog.writeHead = (m.bwrites m.bodies).bwrites
      [(m.log.start, headBlock ((m.bwrites m.bodies).bread m.log.start) m.log.lh)] := by
  rw [writeLog_eq hfits hbs, writeHead_eq, bwrites_log]

theorem logged_log {m : Machine} (hfits : m.log.Fits)
    (hbs : m.log.Admits m.log.lh) : m.writeLog.writeHead.log = m.log := by
  rw [logged_eq hfits hbs, bwrites_log, bwrites_log]

theorem commit_eq {m : Machine} (hpos : 0 < m.log.lh.length) :
    m.commit = m.writeLog.writeHead.finish := by
  rw [commit, if_pos hpos]
  rfl

/-- **Commit**: stopped anywhere, it leaves a disk that is clean with the home
blocks of before, logged, or clean with the home blocks of the transaction. -/
theorem commit_stops {d : Disk} {ws : List (UInt32 × Block)} {m : Machine}
    (h : Recorded d ws m) (hfits : m.log.Fits)
    (hhome : ∀ w ∈ ws, ¬m.log.InLog w.1) (hclean : Clean m.log.toLogArea d d) :
    ∃ vs, m.commit.writes = m.writes ++ vs
      ∧ Writes.Throughout (fun e => Clean m.log.toLogArea d e
          ∨ Logged m.log.toLogArea m.log.lh (Writes.apply d ws) e
          ∨ Clean m.log.toLogArea (Writes.apply d ws) e) d vs
      ∧ Clean m.log.toLogArea (Writes.apply d ws) m.commit.disk := by
  have hbs := h.admits hhome
  rcases Nat.eq_zero_or_pos m.log.lh.length with hzero | hpos
  · -- nothing was recorded, and nothing is written
    have hws : ws = [] := by
      cases ws with
      | nil => rfl
      | cons w ws =>
          have : w.1 ∈ m.log.lh := (h.mem w.1).2 (by simp)
          rw [List.length_eq_zero_iff.1 hzero] at this
          simp at this
    subst hws
    have hcommit : m.commit = m := by simp [commit, hzero]
    refine ⟨[], by simp [hcommit], Writes.Throughout.nil (Or.inl hclean), ?_⟩
    rw [hcommit, h.disk]
    exact hclean
  · let head := headBlock ((m.bwrites m.bodies).bread m.log.start) m.log.lh
    let m₃ := m.writeLog.writeHead
    have hcommit : m.commit = m₃.finish := commit_eq hpos
    have hm₃ : m₃ = (m.bwrites m.bodies).bwrites [(m.log.start, head)] :=
      logged_eq hfits hbs
    have hlog₃ : m₃.log = m.log := logged_log hfits hbs
    have hdisk₃ : m₃.disk
        = Function.update (Writes.apply d m.bodies) m.log.start head := by
      simp [hm₃, h.disk]
    -- until the head is written, the writes are inside the log
    have hbody : Writes.Throughout (Clean m.log.toLogArea d) d m.bodies := by
      apply Writes.throughout_of_step hclean
      intro w hw e he
      have hmem : w.1 ∈ m.logBlocks 0 m.log.lh.length :=
        m.bodies_keys ▸ List.mem_map_of_mem hw
      have hw := mem_logBlocks hfits hbs hmem
      exact he.body_write hw.1 hw.2 w.2
    have hlogged := h.logged hfits hhome ((m.bwrites m.bodies).bread m.log.start)
    obtain ⟨vs, hwrites, hdisk, hstops, hend⟩ :=
      finish_stops (m := m₃) (t := Writes.apply d ws) (hlog₃ ▸ hfits) (hlog₃ ▸ hbs)
        (fun b hb => hm₃ ▸ bwrites_clean _ (bwrites_clean _
          (h.clean b fun hmem => hbs.home b hmem (hlog₃ ▸ hb))))
        (by rw [hlog₃, hdisk₃]; exact hlogged)
    refine ⟨m.bodies ++ [(m.log.start, head)] ++ vs, ?_, ?_, ?_⟩
    · rw [hcommit, hwrites]
      simp only [hm₃, bwrites_writes, List.append_assoc]
    · rw [hlog₃] at hstops
      apply Writes.Throughout.append
      · apply (hbody.mono fun e he => Or.inl he).append
        exact Writes.Throughout.single (Or.inl hbody.at_end)
          (Or.inr (Or.inl hlogged))
      · rw [Writes.apply_append]
        rw [hdisk₃] at hstops
        exact hstops.mono fun e he => Or.inr he
    · rw [hcommit]
      exact hlog₃ ▸ hend

/-! ## Transactions -/

/-- The state between two transactions: nothing is logged, on the disk or in
memory, and no buffer is dirty. -/
structure Idle (m : Machine) : Prop where
  lh : m.log.lh = []
  clean : ∀ b, m.dirty b = none
  head : (m.disk m.log.start).word 0 = 0

/-- **`log_write`** adds one write to the transaction. -/
theorem Recorded.logWrite {d : Disk} {ws : List (UInt32 × Block)} {m m' : Machine}
    {b : UInt32} {data : Block} (h : Recorded d ws m)
    (hwrite : m.logWrite b data = some m') : Recorded d (ws ++ [(b, data)]) m' := by
  simp only [Machine.logWrite, Option.bind_eq_bind, Option.bind_eq_some_iff,
    Option.some.injEq] at hwrite
  obtain ⟨log, hrecord, rfl⟩ := hwrite
  have hmem := Log.mem_record hrecord
  have hlength := Log.length_record hrecord
  refine ⟨h.disk, Log.nodup_record hrecord h.nodup, fun c => ?_, fun c => ?_,
    fun c hc => ?_, hlength.1, ?_⟩
  · rw [List.map_append, List.mem_append, ← h.mem, hmem]
    simp
  · rw [Writes.apply_append, Writes.apply_cons, Writes.apply_nil]
    by_cases hc : c = b
    · subst hc
      simp [Machine.bread]
    · rw [Function.update_of_ne hc, ← h.bread]
      simp only [Machine.bread, Function.update_of_ne hc]
  · rw [hmem, not_or] at hc
    exact (Function.update_of_ne hc.2 _ _).trans (h.clean c hc.1)
  · exact Log.record_area hrecord ▸ hlength.2

theorem Recorded.logWrites {d : Disk} {ws vs : List (UInt32 × Block)}
    {m m' : Machine} (h : Recorded d ws m) (hwrites : m.logWrites vs = some m') :
    Recorded d (ws ++ vs) m' := by
  induction vs generalizing ws m with
  | nil =>
      cases hwrites
      rwa [List.append_nil]
  | cons v vs ih =>
      simp only [Machine.logWrites, Option.bind_eq_some_iff] at hwrites
      obtain ⟨m₁, hwrite, hrest⟩ := hwrites
      have := ih (h.logWrite hwrite) hrest
      rwa [List.append_assoc] at this

theorem logWrites_area {vs : List (UInt32 × Block)} {m m' : Machine}
    (h : m.logWrites vs = some m') : m'.log.toLogArea = m.log.toLogArea := by
  induction vs generalizing m with
  | nil =>
      cases h
      rfl
  | cons v vs ih =>
      simp only [Machine.logWrites, Machine.logWrite, Option.bind_eq_bind,
        Option.bind_eq_some_iff, Option.some.injEq] at h
      obtain ⟨m₁, ⟨log, hrecord, rfl⟩, hrest⟩ := h
      exact (ih hrest).trans (Log.record_area hrecord)

theorem Idle.recorded {m : Machine} (h : m.Idle) (hfits : m.log.Fits) :
    Recorded m.disk [] m := by
  refine ⟨rfl, by simp [h.lh], by simp [h.lh], fun b => ?_, fun b _ => h.clean b,
    by simp [h.lh], ?_⟩
  · exact bread_of_clean (h.clean b)
  · rw [h.lh]
    exact hfits.1

/-- The disk when the machine stops after `k` of the writes of `commit`. -/
def stopInCommit (m : Machine) (k : Nat) : Disk :=
  Writes.apply m.disk (({ m with writes := [] } : Machine).commit.writes.take k)

/-- **Crash atomicity**: whenever the machine stops in the commit of a recorded
transaction, and however often again in the recovery, the home blocks end as
they were before the transaction or as the transaction wrote them. -/
theorem crash_atomic {m m₁ : Machine} {ws : List (UInt32 × Block)} {k : Nat}
    {d : Disk} (hfits : m.log.Fits) (hidle : m.Idle)
    (hhome : ∀ w ∈ ws, ¬m.log.InLog w.1) (hws : m.logWrites ws = some m₁)
    (hstops : Relation.ReflTransGen (StopsInRecovery m.log.toLogArea)
      (m₁.stopInCommit k) d) :
    ∃ m₂, recoverFromLog (boot m.log.toLogArea d) = some m₂
      ∧ ((∀ b, ¬m.log.InLog b → m₂.disk b = m.disk b)
        ∨ ∀ b, ¬m.log.InLog b → m₂.disk b = Writes.apply m.disk ws b)
      ∧ ∀ b, ¬m.log.InLog b → b ∉ ws.map Prod.fst → m₂.disk b = m.disk b := by
  have harea := logWrites_area hws
  have hrec₁ := (hidle.recorded hfits).logWrites hws
  have hrec : Recorded m.disk ws { m₁ with writes := [] } :=
    ⟨hrec₁.disk, hrec₁.nodup, hrec₁.mem, hrec₁.bread, hrec₁.clean, hrec₁.header,
      hrec₁.room⟩
  have hclean : Clean m.log.toLogArea m.disk m.disk := ⟨hidle.head, fun _ _ => rfl⟩
  obtain ⟨vs, hvs, hstop, _⟩ :=
    commit_stops hrec (harea ▸ hfits) (harea ▸ hhome) (harea ▸ hclean)
  have hbs := hrec₁.admits (harea ▸ hhome)
  have hstop_disk : m₁.stopInCommit k = Writes.apply m.disk (vs.take k) := by
    rw [stopInCommit, hvs, hrec₁.disk]
    rfl
  have hk := hstop k
  rw [← hstop_disk] at hk
  simp only [harea] at hk hbs
  have hother : ∀ b, b ∉ ws.map Prod.fst →
      Writes.apply m.disk ws b = m.disk b := fun b hb =>
    Writes.apply_of_not_mem _ hb
  rcases hk with hold | hnew
  · obtain ⟨m₂, hm₂, h₂⟩ := recovers hfits hbs (Or.inr hold) hstops
    exact ⟨m₂, hm₂, Or.inl h₂.home, fun b hb _ => h₂.home b hb⟩
  · obtain ⟨m₂, hm₂, h₂⟩ := recovers hfits hbs hnew hstops
    exact ⟨m₂, hm₂, Or.inr h₂.home,
      fun b hb hws => (h₂.home b hb).trans (hother b hws)⟩

/-- Three writes to two blocks. The machine stops in the commit, behind the header, and
then in two recoveries. -/
theorem crash_atomic_three :
    ∃ m₁ d₁ d₂ m₂, logWrites ⟨fun _ _ => 0, [], fun _ => none, ⟨⟨2, 30⟩, 1, false, []⟩⟩
        [(700, fun _ => 7), (701, fun _ => 8), (700, fun _ => 9)] = some m₁
      ∧ StopsInRecovery ⟨2, 30⟩ (m₁.stopInCommit 4) d₁ ∧ StopsInRecovery ⟨2, 30⟩ d₁ d₂
      ∧ recoverFromLog (boot ⟨2, 30⟩ d₂) = some m₂
      ∧ ((∀ b, ¬(LogArea.mk 2 30).InLog b → m₂.disk b = fun _ => 0)
        ∨ ∀ b, ¬(LogArea.mk 2 30).InLog b → m₂.disk b = Writes.apply (fun _ _ => 0)
            [(700, fun _ => 7), (701, fun _ => 8), (700, fun _ => 9)] b) := by
  let m : Machine := ⟨fun _ _ => 0, [], fun _ => none, ⟨⟨2, 30⟩, 1, false, []⟩⟩
  let ws : List (UInt32 × Block) := [(700, fun _ => 7), (701, fun _ => 8), (700, fun _ => 9)]
  have hidle : m.Idle := ⟨rfl, fun _ => rfl, rfl⟩
  have hfits : m.log.Fits := by
    constructor <;> decide
  have hhome : ∀ w ∈ ws, ¬m.log.InLog w.1 := by
    have h700 : ¬m.log.InLog 700 := by
      simp only [LogArea.InLog]
      decide
    have h701 : ¬m.log.InLog 701 := by
      simp only [LogArea.InLog]
      decide
    simp only [ws, List.forall_mem_cons]
    exact ⟨h700, h701, h700, fun _ hw => absurd hw List.not_mem_nil⟩
  have hws : ∃ m₁, m.logWrites ws = some m₁ := ⟨_, rfl⟩
  obtain ⟨m₁, hm₁⟩ := hws
  obtain ⟨n₁, hn₁, _⟩ := crash_atomic (k := 4) hfits hidle hhome hm₁ .refl
  -- the first recovery stops behind one block, the second one behind two
  have hstop₁ : StopsInRecovery m.log.toLogArea (m₁.stopInCommit 4) _ := ⟨n₁, 1, hn₁, rfl⟩
  obtain ⟨n₂, hn₂, _⟩ := crash_atomic hfits hidle hhome hm₁ (.single hstop₁)
  have hstop₂ : StopsInRecovery m.log.toLogArea _ _ := ⟨n₂, 2, hn₂, rfl⟩
  obtain ⟨m₂, hm₂, hdisk, _⟩ :=
    crash_atomic hfits hidle hhome hm₁ (.tail (.single hstop₁) hstop₂)
  exact ⟨m₁, _, _, m₂, hm₁, hstop₁, hstop₂, hm₂, hdisk⟩

/-! ## Every transaction has its turn -/

/-- Any distinct blocks, fewer than the log has blocks, can be recorded. -/
theorem logWrites_some {m : Machine} {ws : List (UInt32 × Block)}
    (hout : 1 ≤ m.log.outstanding) (hnodup : (ws.map Prod.fst).Nodup)
    (hheader : m.log.lh.length + ws.length ≤ LOGSIZE)
    (hroom : m.log.lh.length + ws.length < m.log.size) :
    ∃ m', m.logWrites ws = some m' := by
  induction ws generalizing m with
  | nil => exact ⟨m, rfl⟩
  | cons w ws ih =>
      simp only [List.length_cons] at hheader hroom
      rw [List.map_cons, List.nodup_cons] at hnodup
      have hsmall : ¬m.log.TooBig := by
        simp only [Log.TooBig, not_or]
        omega
      obtain ⟨log, hlog⟩ := Log.record_some hsmall hout w.1
      have hcases := (Log.record_cases hlog).2.2
      have hlh : log.lh.length ≤ m.log.lh.length + 1 := by
        obtain ⟨_, rfl⟩ | ⟨_, rfl⟩ := hcases <;> simp
      have hout₁ : log.outstanding = m.log.outstanding := by
        obtain ⟨_, rfl⟩ | ⟨_, rfl⟩ := hcases <;> rfl
      have hsize : log.size = m.log.size :=
        congrArg LogArea.size (Log.record_area hlog)
      have hwrite : m.logWrite w.1 w.2 = some { m with
          log := log, dirty := Function.update m.dirty w.1 (some w.2) } := by
        simp [Machine.logWrite, hlog]
      obtain ⟨m', hm'⟩ := ih (m := { m with
          log := log, dirty := Function.update m.dirty w.1 (some w.2) })
        (by simp only [hout₁]; exact hout) hnodup.2 (by simp only; omega)
        (by simp only [hsize]; omega)
      refine ⟨m', ?_⟩
      rw [Machine.logWrites, hwrite, Option.bind_some]
      exact hm'

/-! ## Between two transactions -/

theorem finish_idle {m : Machine} {t : Disk} (hfits : m.log.Fits)
    (hbs : m.log.Admits m.log.lh) (hdirty : ∀ b, b ∉ m.log.lh → m.dirty b = none)
    (hclean : Clean m.log.toLogArea t m.finish.disk) : m.finish.Idle := by
  have harea : m.finish.log.toLogArea = m.log.toLogArea := by
    have hinstall := installTrans_eq hfits hbs
    simp [finish, writeHead_eq, clearHead, hinstall]
  exact ⟨m.finish_lh, finish_dirty hfits hbs hdirty, harea ▸ hclean.head⟩

/-- After the commit of a transaction the next one can start. -/
theorem commit_idle {d : Disk} {ws : List (UInt32 × Block)} {m : Machine}
    (h : Recorded d ws m) (hfits : m.log.Fits)
    (hhome : ∀ w ∈ ws, ¬m.log.InLog w.1) (hclean : Clean m.log.toLogArea d d) :
    m.commit.Idle := by
  have hbs := h.admits hhome
  obtain ⟨_, _, _, hend⟩ := commit_stops h hfits hhome hclean
  rcases Nat.eq_zero_or_pos m.log.lh.length with hzero | hpos
  · have hcommit : m.commit = m := by simp [commit, hzero]
    have hlh : m.log.lh = [] := List.length_eq_zero_iff.1 hzero
    rw [hcommit]
    refine ⟨hlh, fun b => h.clean b (by simp [hlh]), ?_⟩
    rw [h.disk]
    exact hclean.head
  · have hcommit := commit_eq hpos
    rw [hcommit] at hend ⊢
    have hlog := logged_log hfits hbs
    apply finish_idle (t := Writes.apply d ws) (hlog ▸ hfits) (hlog ▸ hbs)
    · intro b hb
      rw [logged_eq hfits hbs]
      exact bwrites_clean _ (bwrites_clean _ (h.clean b (hlog ▸ hb)))
    · exact hlog ▸ hend

/-- So it can after a recovery. -/
theorem recover_idle {log : LogArea} {bs : List UInt32} {t d : Disk} {m : Machine}
    (hfits : log.Fits) (hbs : log.Admits bs) (h : Logged log bs t d)
    (hm : recoverFromLog (boot log d) = some m) : m.Idle := by
  let m₀ : Machine := { boot log d with log := { (boot log d).log with lh := bs } }
  obtain ⟨_, _, _, _, hclean⟩ :=
    finish_stops (m := m₀) (t := t) hfits hbs (fun _ _ => rfl) h
  rw [recoverFromLog, readHead_eq hbs.header h] at hm
  cases hm
  exact finish_idle (m := m₀) hfits hbs (fun _ _ => rfl) hclean

end Machine

end SchoolStuff.Xv6
