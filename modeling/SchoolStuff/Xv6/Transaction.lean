import Mathlib.Data.List.Nodup
import SchoolStuff.Xv6.Files
import SchoolStuff.Xv6.Log

/-!
# Xv6 — the blocks that a write puts in the log (`fs.c`, `log.c`)

`Tx` is a file system together with the blocks that a running operation has
passed to `log_write`, each of them once: the log absorbs the others. The
functions are those of `Fs`, and do to the file system what those do
(`writei_fs`). `cost` is what the operation has logged and what it still owes
for the indirect block, so that each turn of the loop of `writei` raises it by
at most 2, and by 1 where the file has the block.
-/

namespace SchoolStuff.Xv6

/-- An operation between `begin_op` and `end_op`. -/
structure Tx where
  fs : Fs
  blocks : List UInt32

namespace Tx

/-- A change of the buffer of block `b`, and `log_write`. -/
def logWrite (t : Tx) (b : UInt32) (change : Block → Block) : Tx :=
  { fs := t.fs.logWrite b change, blocks := t.blocks.insert b }

def bzero (t : Tx) (b : UInt32) : Tx := t.logWrite b fun _ _ => 0

def balloc (t : Tx) : Except Panic (UInt32 × Tx) :=
  match t.fs.freeBlock with
  | some b =>
      .ok (UInt32.ofNat b,
        (t.logWrite (t.fs.sb.bblock b) fun bp => bp.setBit (b % BPB)).bzero
          (UInt32.ofNat b))
  | none => .error .ballocOutOfBlocks

def iupdate (t : Tx) (i : UInt32) : Tx :=
  t.logWrite (t.fs.sb.iblock i) fun bp =>
    bp.setWords (16 * (i.toNat % IPB)) (t.fs.inode i).words

def setAddr (t : Tx) (i : UInt32) (k : Fin (NDIRECT + 1)) (a : UInt32) : Tx :=
  { t with fs := t.fs.setAddr i k a }

def setSize (t : Tx) (i : UInt32) (size : UInt32) : Tx :=
  { t with fs := t.fs.setSize i size }

def bmapAddr (t : Tx) (i : UInt32) (k : Fin (NDIRECT + 1)) :
    Except Panic (UInt32 × Tx) :=
  let addr := (t.fs.inode i).addrs k
  if addr = 0 then do
    let (addr, t) ← t.balloc
    .ok (addr, t.setAddr i k addr)
  else .ok (addr, t)

/-- `bmap` behind the direct blocks, once there is an indirect block. -/
def bmapIndirect (t : Tx) (indirect : UInt32) (bn : Nat) : Except Panic (UInt32 × Tx) :=
  let addr := (t.fs.disk indirect).word bn
  if addr = 0 then do
    let (addr, t) ← t.balloc
    .ok (addr, t.logWrite indirect fun bp => bp.setWord bn addr)
  else .ok (addr, t)

def bmap (t : Tx) (i : UInt32) (bn : Nat) : Except Panic (UInt32 × Tx) :=
  if bn < NDIRECT then t.bmapAddr i (Fin.ofNat _ bn)
  else
    let bn := bn - NDIRECT
    if bn < NINDIRECT then do
      let (indirect, t) ← t.bmapAddr i (Fin.ofNat _ NDIRECT)
      t.bmapIndirect indirect bn
    else .error .bmapOutOfRange

def writeLoop (t : Tx) (i : UInt32) (off : Nat) (src : List UInt8) : Except Panic Tx :=
  if _ : src.length = 0 then .ok t
  else do
    let (b, t) ← t.bmap i (off / BSIZE)
    let m := Fs.chunk off src.length
    let t := t.logWrite b fun bp => bp.splice (off % BSIZE) (src.take m)
    t.writeLoop i (off + m) (src.drop m)
termination_by src.length
decreasing_by
  have hpos : 0 < Fs.chunk off src.length := Fs.chunk_pos off ‹¬src.length = 0›
  rw [List.length_drop]
  omega

def writei (t : Tx) (i off : UInt32) (src : List UInt8) :
    Except Panic (Option UInt32 × Tx) :=
  let n := UInt32.ofNat src.length
  if (t.fs.inode i).type = T_DEV then .error .device
  else if off > (t.fs.inode i).size ∨ off + n < off then .ok (none, t)
  else if off + n > UInt32.ofNat (MAXFILE * BSIZE) then .ok (none, t)
  else do
    let t ← t.writeLoop i off.toNat src
    if n > 0 ∧ off + n > (t.fs.inode i).size then
      .ok (some n, (t.setSize i (off + n)).iupdate i)
    else .ok (some n, t)

/-! ## The file system of an operation -/

/-- What is left of a result if the log is left out. -/
def forget {α : Type} (r : α × Tx) : α × Fs := (r.1, r.2.fs)

theorem balloc_fs (t : Tx) : t.balloc.map forget = t.fs.balloc := by
  unfold balloc Fs.balloc
  cases t.fs.freeBlock <;> rfl

theorem bmapAddr_fs (t : Tx) (i : UInt32) (k : Fin (NDIRECT + 1)) :
    (t.bmapAddr i k).map forget = t.fs.bmapAddr i k := by
  unfold bmapAddr Fs.bmapAddr
  simp only
  split
  · rw [← balloc_fs]
    cases t.balloc <;> rfl
  · rfl

theorem bmap_fs (t : Tx) (i : UInt32) (bn : Nat) :
    (t.bmap i bn).map forget = t.fs.bmap i bn := by
  unfold bmap Fs.bmap
  simp only
  split
  · exact bmapAddr_fs t i _
  split
  · rw [← bmapAddr_fs]
    cases t.bmapAddr i (Fin.ofNat _ NDIRECT) with
    | error e => rfl
    | ok r =>
        obtain ⟨indirect, t₁⟩ := r
        change (t₁.bmapIndirect indirect _).map forget = _
        unfold bmapIndirect
        change _ = if (t₁.fs.disk indirect).word _ = 0 then _ else _
        simp only
        split
        · change _ = (t₁.fs.balloc >>= _)
          rw [← balloc_fs]
          cases t₁.balloc <;> rfl
        · rfl
  · rfl

theorem writeLoop_fs (i : UInt32) : ∀ (n : Nat) (src : List UInt8), src.length = n →
    ∀ (t : Tx) (off : Nat), (t.writeLoop i off src).map fs = t.fs.writeLoop i off src := by
  intro n
  induction n using Nat.strongRecOn with
  | ind n ih =>
      intro src hlen t off
      rw [writeLoop, Fs.writeLoop]
      split
      · rfl
      · rename_i hn
        have hpos := Fs.chunk_pos off hn
        rw [← bmap_fs]
        cases t.bmap i (off / BSIZE) with
        | error e => rfl
        | ok r =>
            obtain ⟨b, t₁⟩ := r
            exact ih (src.length - Fs.chunk off src.length) (by omega) _
              (List.length_drop ..) _ _

/-- **The same call**, but for the log. -/
theorem writei_fs (t : Tx) (i off : UInt32) (src : List UInt8) :
    (t.writei i off src).map forget = t.fs.writei i off src := by
  unfold writei Fs.writei
  simp only
  split
  · rfl
  split
  · rfl
  split
  · rfl
  rw [← writeLoop_fs i src.length src rfl]
  cases t.writeLoop i off.toNat src with
  | error e => rfl
  | ok t₁ =>
      change Except.map forget (if _ then _ else _) = if _ then _ else _
      split <;> rfl

/-! ## What is logged -/

/-- From `t` to `t'` the disk has changed in blocks of `t'` only. -/
structure Logged (t t' : Tx) : Prop where
  mem : ∀ b ∈ t.blocks, b ∈ t'.blocks
  nodup : t.blocks.Nodup → t'.blocks.Nodup
  disk : ∀ b, b ∉ t'.blocks → t'.fs.disk b = t.fs.disk b

namespace Logged

variable {t t₁ t' : Tx}

theorem refl (t : Tx) : Logged t t := ⟨fun _ hb => hb, fun h => h, fun _ _ => rfl⟩

theorem trans (h : Logged t t₁) (h' : Logged t₁ t') : Logged t t' :=
  ⟨fun b hb => h'.mem b (h.mem b hb), fun hnodup => h'.nodup (h.nodup hnodup),
    fun b hb => (h'.disk b hb).trans (h.disk b fun hmem => hb (h'.mem b hmem))⟩

theorem logWrite (h : Logged t t') (b : UInt32) (f : Block → Block) :
    Logged t (t'.logWrite b f) := by
  refine h.trans ⟨fun c hc => List.mem_insert_of_mem hc, fun hnodup => hnodup.insert,
    fun c hc => Fs.logWrite_disk_ne _ _ ?_⟩
  rintro rfl
  exact hc List.mem_insert_self

/-- The copies of the inodes are not on the disk. -/
theorem setAddr (h : Logged t t') (i : UInt32) (k : Fin (NDIRECT + 1)) (a : UInt32) :
    Logged t (t'.setAddr i k a) := ⟨h.mem, h.nodup, h.disk⟩

theorem setSize (h : Logged t t') (i size : UInt32) : Logged t (t'.setSize i size) :=
  ⟨h.mem, h.nodup, h.disk⟩

end Logged

theorem balloc_logged (t : Tx) :
    Ends (fun _ => True) t.balloc fun r => Logged t r.2 := by
  unfold balloc
  cases t.fs.freeBlock with
  | none => trivial
  | some b => exact ((Logged.refl t).logWrite _ _).logWrite _ _

theorem bmapAddr_logged (t : Tx) (i : UInt32) (k : Fin (NDIRECT + 1)) :
    Ends (fun _ => True) (t.bmapAddr i k) fun r => Logged t r.2 := by
  unfold bmapAddr
  simp only
  split
  · exact (balloc_logged t).bind fun r hr => hr.setAddr i k r.1
  · exact Logged.refl t

theorem bmap_logged (t : Tx) (i : UInt32) (bn : Nat) :
    Ends (fun _ => True) (t.bmap i bn) fun r => Logged t r.2 := by
  unfold bmap
  simp only
  split
  · exact bmapAddr_logged t i _
  split
  · refine (bmapAddr_logged t i _).bind fun r hr => ?_
    unfold bmapIndirect
    simp only
    split
    · exact (balloc_logged r.2).bind fun r' hr' => (hr.trans hr').logWrite _ _
    · exact hr
  · trivial

theorem writeLoop_logged (i : UInt32) : ∀ (n : Nat) (src : List UInt8), src.length = n →
    ∀ (t : Tx) (off : Nat),
      Ends (fun _ => True) (t.writeLoop i off src) fun t' => Logged t t' := by
  intro n
  induction n using Nat.strongRecOn with
  | ind n ih =>
      intro src hlen t off
      rw [writeLoop]
      split
      · exact Logged.refl t
      · rename_i hn
        have hpos := Fs.chunk_pos off hn
        refine (bmap_logged t i (off / BSIZE)).bind fun r hr => ?_
        exact (ih (src.length - Fs.chunk off src.length) (by omega) _ (List.length_drop ..) _
          _).mono fun t' ht' => (hr.logWrite _ _).trans ht'

/-- **The disk changes in the blocks that are logged**, and nowhere else. -/
theorem writei_logged (t : Tx) (i off : UInt32) (src : List UInt8) :
    Ends (fun _ => True) (t.writei i off src) fun r => Logged t r.2 := by
  unfold writei
  simp only
  split
  · trivial
  split
  · exact Logged.refl t
  split
  · exact Logged.refl t
  refine (writeLoop_logged i src.length src rfl t off.toNat).bind fun t' ht' => ?_
  split
  · exact (ht'.setSize i _).logWrite _ _
  · exact ht'

/-! ## What it costs -/

/-- The blocks that the indirect block of inode `i` may still take: itself and
the one of the bitmap. -/
def owed (t : Tx) (i : UInt32) : Nat :=
  let indirect := (t.fs.inode i).addrs (Fin.ofNat _ NDIRECT)
  if indirect = 0 then 2 else if indirect ∈ t.blocks then 0 else 1

def cost (t : Tx) (i : UInt32) : Nat := t.blocks.length + t.owed i

theorem length_insert_le (l : List UInt32) (b : UInt32) :
    (l.insert b).length ≤ l.length + 1 := by
  rw [List.length_insert]
  split <;> omega

theorem owed_mono {t t' : Tx} {i : UInt32}
    (haddrs : (t'.fs.inode i).addrs (Fin.ofNat _ NDIRECT)
      = (t.fs.inode i).addrs (Fin.ofNat _ NDIRECT))
    (hsub : ∀ b ∈ t.blocks, b ∈ t'.blocks) : t'.owed i ≤ t.owed i := by
  unfold owed
  simp only [haddrs]
  split
  · exact Nat.le_refl _
  split
  · exact Nat.zero_le _
  · rename_i hnot
    rw [if_neg fun hmem => hnot (hsub _ hmem)]

theorem cost_logWrite (t : Tx) (b : UInt32) (f : Block → Block) (i : UInt32) :
    (t.logWrite b f).cost i ≤ t.cost i + 1 := by
  have howed : (t.logWrite b f).owed i ≤ t.owed i :=
    owed_mono rfl fun _ hmem => List.mem_insert_of_mem hmem
  exact Nat.le_trans (Nat.add_le_add (length_insert_le t.blocks b) howed) (by
    unfold cost
    omega)

/-- A block that `balloc` returns is logged with one of the bitmap. -/
theorem balloc_blocks {t : Tx} (h : t.fs.Shape) :
    Ends (· = .ballocOutOfBlocks) t.balloc fun r =>
      r.1 ≠ 0 ∧ r.2.fs.inode = t.fs.inode ∧ r.1 ∈ r.2.blocks
        ∧ (∀ b ∈ t.blocks, b ∈ r.2.blocks) ∧ r.2.blocks.length ≤ t.blocks.length + 2 := by
  have hspec := Fs.balloc_spec h
  rw [← balloc_fs] at hspec
  revert hspec
  unfold balloc
  cases t.fs.freeBlock with
  | none => exact fun _ => rfl
  | some b =>
      intro hspec
      refine ⟨hspec.data.ne_zero, rfl, List.mem_insert_self, fun c hc =>
        List.mem_insert_of_mem (List.mem_insert_of_mem hc), ?_⟩
      have h₁ := length_insert_le t.blocks (t.fs.sb.bblock b)
      have h₂ := length_insert_le (t.blocks.insert (t.fs.sb.bblock b)) (UInt32.ofNat b)
      exact Nat.le_trans h₂ (Nat.succ_le_succ h₁)

theorem addrs_setAddr (st : Fs) (i : UInt32) (k : Fin (NDIRECT + 1)) (a : UInt32)
    (l : Fin (NDIRECT + 1)) : ((st.setAddr i k a).inode i).addrs l
      = Function.update (st.inode i).addrs k a l := by
  rw [Fs.setAddr_self]

/-- A direct block is logged, and with a new one a block of the bitmap. -/
theorem bmapAddr_cost {t : Tx} (h : t.fs.Shape) {i : UInt32} {k : Nat} (hk : k < NDIRECT)
    (f : Block → Block) :
    Ends (· = .ballocOutOfBlocks) (t.bmapAddr i (Fin.ofNat _ k)) fun r =>
      (r.2.logWrite r.1 f).cost i ≤ t.cost i + if t.fs.held i k = 0 then 2 else 1 := by
  rw [Fs.held_direct t.fs i (Nat.le_of_lt hk)]
  unfold bmapAddr
  simp only
  by_cases hzero : (t.fs.inode i).addrs (Fin.ofNat _ k) = 0
  · rw [if_pos hzero, if_pos hzero]
    refine (balloc_blocks h).bind ?_
    rintro ⟨a, t₁⟩ ⟨_, hinode, hmem, hsub, (hlen : t₁.blocks.length ≤ _)⟩
    have hne : Fin.ofNat (NDIRECT + 1) NDIRECT ≠ Fin.ofNat (NDIRECT + 1) k := by
      rw [ne_eq, Fs.ofNat_inj (Nat.le_refl _) (Nat.le_of_lt hk)]
      omega
    have haddrs : (((t₁.setAddr i (Fin.ofNat _ k) a).logWrite a f).fs.inode i).addrs
        (Fin.ofNat _ NDIRECT) = (t.fs.inode i).addrs (Fin.ofNat _ NDIRECT) := by
      refine (addrs_setAddr t₁.fs i _ a _).trans ?_
      rw [Function.update_of_ne hne]
      exact congrFun (congrArg Inode.addrs (congrFun hinode i)) _
    have howed := owed_mono haddrs fun b hb => List.mem_insert_of_mem (hsub b hb)
    have hblocks : ((t₁.setAddr i (Fin.ofNat _ k) a).logWrite a f).blocks = t₁.blocks :=
      List.insert_of_mem hmem
    change ((t₁.setAddr i (Fin.ofNat _ k) a).logWrite a f).cost i ≤ _
    unfold cost
    rw [hblocks]
    omega
  · rw [if_neg hzero, if_neg hzero]
    exact cost_logWrite t _ f i

/-- With the indirect block, what is owed for it is paid. -/
theorem bmapAddr_indirect {t : Tx} (h : t.fs.Shape) (i : UInt32) :
    Ends (· = .ballocOutOfBlocks) (t.bmapAddr i (Fin.ofNat _ NDIRECT)) fun r =>
      (r.2.fs.inode i).addrs (Fin.ofNat _ NDIRECT) = r.1 ∧ r.1 ≠ 0
        ∧ r.2.cost i ≤ t.cost i ∧ (t.fs.held i NDIRECT ≠ 0 → r.2 = t) := by
  rw [Fs.held_direct t.fs i (Nat.le_refl _)]
  unfold bmapAddr
  simp only
  by_cases hzero : (t.fs.inode i).addrs (Fin.ofNat _ NDIRECT) = 0
  · rw [if_pos hzero]
    refine (balloc_blocks h).bind ?_
    rintro ⟨a, t₁⟩ ⟨hne, hinode, hmem, hsub, hlen⟩
    have haddr : ((t₁.setAddr i (Fin.ofNat _ NDIRECT) a).fs.inode i).addrs
        (Fin.ofNat _ NDIRECT) = a :=
      (addrs_setAddr t₁.fs i _ a _).trans (Function.update_self _ _ _)
    refine ⟨haddr, hne, ?_, fun hheld => absurd hzero hheld⟩
    have hpaid : (t₁.setAddr i (Fin.ofNat _ NDIRECT) a).owed i = 0 := by
      unfold owed
      rw [haddr, if_neg hne]
      exact if_pos hmem
    have hdue : t.owed i = 2 := if_pos hzero
    unfold cost
    rw [hpaid, hdue]
    exact hlen
  · rw [if_neg hzero]
    exact ⟨rfl, hzero, Nat.le_refl _, fun _ => rfl⟩

/-- A block that the indirect one leads to. -/
theorem bmapIndirect_cost {t : Tx} (h : t.fs.Shape) {i indirect : UInt32}
    (haddr : (t.fs.inode i).addrs (Fin.ofNat _ NDIRECT) = indirect) (hne : indirect ≠ 0)
    (bn : Nat) (f : Block → Block) :
    Ends (· = .ballocOutOfBlocks) (t.bmapIndirect indirect bn) fun r =>
      (r.2.logWrite r.1 f).cost i
        ≤ t.cost i + if (t.fs.disk indirect).word bn = 0 then 2 else 1 := by
  unfold bmapIndirect
  simp only
  by_cases hzero : (t.fs.disk indirect).word bn = 0
  · rw [if_pos hzero, if_pos hzero]
    refine (balloc_blocks h).bind ?_
    rintro ⟨a, t₁⟩ ⟨_, hinode, hmem, hsub, (hlen : t₁.blocks.length ≤ _)⟩
    change ((t₁.logWrite indirect _).logWrite a f).cost i ≤ _
    have haddr' : (t₁.fs.inode i).addrs (Fin.ofNat _ NDIRECT) = indirect := by
      rw [hinode, haddr]
    have hblocks : ((t₁.logWrite indirect fun bp => bp.setWord bn a).logWrite a f).blocks
        = t₁.blocks.insert indirect :=
      List.insert_of_mem (List.mem_insert_of_mem hmem)
    have hpaid : ((t₁.logWrite indirect fun bp => bp.setWord bn a).logWrite a f).owed i
        = 0 := by
      unfold owed
      rw [hblocks]
      change (if (t₁.fs.inode i).addrs _ = 0 then 2 else _) = 0
      rw [haddr', if_neg hne]
      exact if_pos (haddr' ▸ List.mem_insert_self)
    have hdue : t.owed i = if indirect ∈ t.blocks then 0 else 1 := by
      unfold owed
      rw [haddr]
      exact if_neg hne
    unfold cost
    rw [hpaid, hblocks, hdue, List.length_insert]
    by_cases hin : indirect ∈ t.blocks
    · rw [if_pos hin, if_pos (hsub _ hin)]
      omega
    · rw [if_neg hin]
      split <;> omega
  · rw [if_neg hzero, if_neg hzero]
    exact cost_logWrite t _ f i

/-- **A turn of the loop** of `writei` logs a block, and pays for a new one with
a block of the bitmap. -/
theorem bmap_cost {t : Tx} (h : t.fs.Shape) {i : UInt32} (hi : t.fs.Allocated i) {bn : Nat}
    (hbn : bn < MAXFILE) (f : Block → Block) :
    Ends (· = .ballocOutOfBlocks) (t.bmap i bn) fun r =>
      (r.2.logWrite r.1 f).cost i
        ≤ t.cost i + if t.fs.held i (Fs.slotOf bn) = 0 then 2 else 1 := by
  unfold bmap
  by_cases hdirect : bn < NDIRECT
  · have hslot : Fs.slotOf bn = bn := if_pos hdirect
    rw [if_pos hdirect, hslot]
    exact bmapAddr_cost h hdirect f
  · have hmax : MAXFILE = NDIRECT + NINDIRECT := rfl
    have hslot : Fs.slotOf bn = NDIRECT + 1 + (bn - NDIRECT) := by
      rw [Fs.slotOf, if_neg hdirect]
      omega
    simp only [if_neg hdirect, if_pos (show bn - NDIRECT < NINDIRECT by omega)]
    rw [hslot, Fs.held_indirect]
    -- the state behind the indirect block has its shape as well
    have hshape := Fs.bmapAddr_spec h hi (Nat.le_refl NDIRECT)
    rw [← bmapAddr_fs] at hshape
    refine Ends.bind (P := fun r => r.2.fs.Shape
      ∧ (r.2.fs.inode i).addrs (Fin.ofNat _ NDIRECT) = r.1 ∧ r.1 ≠ 0
      ∧ r.2.cost i ≤ t.cost i ∧ (t.fs.held i NDIRECT ≠ 0 → r.2 = t)) ?_ ?_
    · have hind := bmapAddr_indirect h i
      cases hr : t.bmapAddr i (Fin.ofNat _ NDIRECT) with
      | error e =>
          rw [hr] at hind
          exact hind
      | ok r =>
          rw [hr] at hind hshape
          exact ⟨hshape.shape, hind⟩
    rintro ⟨indirect, t₁⟩ ⟨hshape₁, haddr, hne, hcost, hsame⟩
    refine (bmapIndirect_cost hshape₁ haddr hne (bn - NDIRECT) f).mono ?_
    rintro ⟨b, t₂⟩ hle
    refine Nat.le_trans hle ?_
    by_cases hheld : t.fs.held i NDIRECT = 0
    · rw [if_pos hheld, if_pos rfl]
      split <;> omega
    · obtain rfl : t₁ = t := hsame hheld
      rw [if_neg hheld, Fs.held_direct _ _ (Nat.le_refl _), haddr]

/-- A turn leaves a file system whose slots are right. -/
theorem turn_spec {t : Tx} (h : t.fs.Shape) {i : UInt32} (hi : t.fs.Allocated i) {off : Nat}
    (hoff : off < MAXFILE * BSIZE) {src : List UInt8}
    (hsrc : src.length ≤ BSIZE - off % BSIZE) :
    Ends (· = .ballocOutOfBlocks) (t.bmap i (off / BSIZE)) fun r =>
      let t' := r.2.logWrite r.1 fun bp => bp.splice (off % BSIZE) src
      t'.fs.Shape ∧ t'.fs.Allocated i
        ∧ t'.cost i ≤ t.cost i
          + if t.fs.held i (Fs.slotOf (off / BSIZE)) = 0 then 2 else 1 := by
  have hbn := Fs.div_lt_maxfile hoff
  have hmapped := Fs.bmap_spec h hi hbn
  have hcost := bmap_cost h hi hbn fun bp => bp.splice (off % BSIZE) src
  rw [← bmap_fs] at hmapped
  cases hr : t.bmap i (off / BSIZE) with
  | error e =>
      rw [hr] at hcost
      exact hcost
  | ok r =>
      obtain ⟨b, t₁⟩ := r
      rw [hr] at hmapped hcost
      obtain ⟨hshape, hwrote, (hheld : t₁.fs.held i _ = b), (hne : b ≠ 0), _⟩ := hmapped
      have hi₁ := ((hwrote off).allocated i).2 hi
      have hhas : t₁.fs.Has i off := by
        unfold Fs.Has
        rw [hheld]
        exact hne
      obtain ⟨hshape', hwrote'⟩ := Fs.splice_spec (show t₁.fs.Shape from hshape) hi₁ hoff
        hhas src hsrc
      rw [hheld] at hshape' hwrote'
      exact ⟨hshape', (hwrote'.allocated i).2 hi₁, hcost⟩

/-- **The loop of `writei`** over bytes in `k` blocks. -/
theorem writeLoop_cost {i : UInt32} : ∀ (n : Nat) (src : List UInt8), src.length = n →
    ∀ (off k : Nat) (t : Tx), t.fs.Shape → t.fs.Allocated i → off + n ≤ MAXFILE * BSIZE →
      (n ≠ 0 → off % BSIZE + n ≤ BSIZE * k) →
      Ends (· = .ballocOutOfBlocks) (t.writeLoop i off src) fun t' =>
        t'.cost i + (if n ≠ 0 ∧ t.fs.held i (Fs.slotOf (off / BSIZE)) ≠ 0 then 1 else 0)
          ≤ t.cost i + 2 * k := by
  intro n
  induction n using Nat.strongRecOn with
  | ind n ih =>
      intro src hlen off k t h hi hmax hk
      rw [writeLoop]
      by_cases hn : src.length = 0
      · rw [dif_pos hn]
        change t.cost i + _ ≤ _
        rw [if_neg fun hpos => hpos.1 (hlen.symm.trans hn)]
        omega
      · have hbsize : BSIZE = 512 := rfl
        have hpos := Fs.chunk_pos off hn
        have hle := Fs.chunk_le off src.length
        have hin := hk (hlen ▸ hn)
        have htake : (src.take (Fs.chunk off src.length)).length
            ≤ BSIZE - off % BSIZE := by
          rw [List.length_take]
          omega
        rw [dif_neg hn]
        refine (turn_spec h hi (by omega) htake).bind ?_
        rintro ⟨b, t₁⟩ ⟨hshape, hi₁, hcost⟩
        -- what is left begins at the next block
        have hrest : src.length - Fs.chunk off src.length ≠ 0 →
            (off + Fs.chunk off src.length) % BSIZE
              + (src.length - Fs.chunk off src.length) ≤ BSIZE * (k - 1) := by
          intro hne
          have hchunk : Fs.chunk off src.length = BSIZE - off % BSIZE := by
            unfold Fs.chunk at hne ⊢
            omega
          rw [hchunk, hbsize] at hne ⊢
          rw [hbsize] at hin
          omega
        refine (ih (src.length - Fs.chunk off src.length) (by omega) _
          (List.length_drop ..) (off + Fs.chunk off src.length) (k - 1) _ hshape hi₁ (by omega)
          hrest).mono fun t' hle' => ?_
        have hk₁ : 1 ≤ k := by
          by_contra hzero
          have : k = 0 := by omega
          rw [this] at hin
          omega
        by_cases hzero : t.fs.held i (Fs.slotOf (off / BSIZE)) = 0
        · rw [if_pos hzero] at hcost
          rw [if_neg fun hheld => hheld.2 hzero]
          omega
        · rw [if_neg hzero] at hcost
          rw [if_pos ⟨by omega, hzero⟩]
          omega

/-- **A call of `writei`** for three blocks of bytes, at any offset. Only the
first block of the file can be there before, and it is if the bytes do not
begin with it. -/
theorem writei_cost {st : Fs} (h : st.Owned) {i : UInt32} (hi : st.Allocated i)
    (hdev : (st.inode i).type ≠ T_DEV) (off : UInt32) {src : List UInt8}
    (hsrc : src.length ≤ 3 * BSIZE) :
    Ends (· = .ballocOutOfBlocks) (Tx.writei ⟨st, []⟩ i off src) fun r =>
      r.2.blocks.length ≤ MAXOPBLOCKS := by
  have hbsize : BSIZE = 512 := rfl
  have hops : MAXOPBLOCKS = 10 := rfl
  have hfile : MAXFILE * BSIZE = 71680 := rfl
  have hn : (UInt32.ofNat src.length).toNat = src.length :=
    UInt32.toNat_ofNat_of_lt' (Nat.lt_of_le_of_lt hsrc (by decide))
  unfold writei
  simp only [if_neg hdev]
  split
  · exact Nat.zero_le _
  rename_i hin
  rw [Fs.wraps_iff, gt_iff_lt, UInt32.lt_iff_toNat_lt, hn] at hin
  have hadd : (off + UInt32.ofNat src.length).toNat = off.toNat + src.length := by
    rw [UInt32.toNat_add, hn]
    omega
  split
  · exact Nat.zero_le _
  rename_i hmax
  have hmax' : off.toNat + src.length ≤ MAXFILE * BSIZE := by
    rw [gt_iff_lt, UInt32.lt_iff_toNat_lt, hadd] at hmax
    exact Nat.le_of_not_lt hmax
  have hfirst : (⟨st, []⟩ : Tx).cost i ≤ 2 := by
    unfold cost owed
    simp only [List.length_nil, List.not_mem_nil, if_false]
    split <;> omega
  -- the byte before the offset has the block of the offset
  have hhas : off.toNat % BSIZE ≠ 0 → st.Has i off.toNat := by
    intro hmid
    rw [hbsize] at hmid
    have hp := (h.sized i hi (off.toNat - 1) (by omega)).2
    unfold Fs.Has at hp ⊢
    have hdiv : (off.toNat - 1) / BSIZE = off.toNat / BSIZE := by
      rw [hbsize]
      omega
    rwa [hdiv] at hp
  by_cases hmid : off.toNat % BSIZE = 0
  · refine (writeLoop_cost src.length src rfl off.toNat 3 ⟨st, []⟩ h.toShape hi hmax'
      fun _ => by omega).bind fun t hcost => ?_
    have hle : t.blocks.length ≤ t.cost i := Nat.le_add_right _ _
    have hfew : t.blocks.length ≤ 9 := by omega
    split
    · exact Nat.le_trans (length_insert_le _ _) (Nat.succ_le_succ hfew)
    · exact Nat.le_succ_of_le hfew
  · have hlt := Nat.mod_lt off.toNat (show 0 < BSIZE by decide)
    refine (writeLoop_cost src.length src rfl off.toNat 4 ⟨st, []⟩ h.toShape hi hmax'
      fun _ => by omega).bind fun t hcost => ?_
    have hle : t.blocks.length ≤ t.cost i := Nat.le_add_right _ _
    by_cases hzero : src.length = 0
    · have hgrow : ¬UInt32.ofNat src.length > 0 := by
        rw [hzero]
        decide
      rw [if_neg (hgrow ·.1)]
      change t.blocks.length ≤ _
      omega
    · rw [if_pos ⟨hzero, hhas hmid⟩] at hcost
      have hfew : t.blocks.length ≤ 9 := by omega
      split
      · exact Nat.le_trans (length_insert_le _ _) (Nat.succ_le_succ hfew)
      · exact Nat.le_succ_of_le hfew

end Tx

end SchoolStuff.Xv6
