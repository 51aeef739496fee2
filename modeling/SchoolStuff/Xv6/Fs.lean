import SchoolStuff.Xv6.Block

/-!
# Xv6 — blocks and inodes (`cs350/cs350-18f-lab6-base/fs.c`)

The disk is what `bread` sees through the buffer cache and the log: a
`log_write` is a change of a block, and of one block only. `inode` holds the
copy of each inode that `ilock` leaves in the inode cache, read from the disk
when it was locked first. A panic is an error. So is a call on a device, which
would go to a driver.
-/

namespace SchoolStuff.Xv6

abbrev NDIRECT : Nat := 12

instance (priority := 1100) : NeZero (NDIRECT + 1) := ⟨by decide⟩

/-- `BSIZE / sizeof(uint)`. -/
abbrev NINDIRECT : Nat := BSIZE / 4

abbrev MAXFILE : Nat := NDIRECT + NINDIRECT

/-- `BSIZE / sizeof(struct dinode)`. -/
abbrev IPB : Nat := BSIZE / 64

def T_DIR : Int16 := 1
def T_FILE : Int16 := 2
def T_DEV : Int16 := 3

structure SuperBlock where
  size : UInt32
  nblocks : UInt32
  ninodes : UInt32
  nlog : UInt32
  logstart : UInt32
  inodestart : UInt32
  bmapstart : UInt32
  deriving DecidableEq

/-- `readsb`. -/
def readsb (d : Disk) : SuperBlock :=
  let b := d 1
  { size := b.word 0
    nblocks := b.word 1
    ninodes := b.word 2
    nlog := b.word 3
    logstart := b.word 4
    inodestart := b.word 5
    bmapstart := b.word 6 }

/-- `IBLOCK(i, sb)`. -/
def SuperBlock.iblock (sb : SuperBlock) (i : UInt32) : UInt32 :=
  UInt32.ofNat (i.toNat / IPB) + sb.inodestart

/-- `BBLOCK(b, sb)`. -/
def SuperBlock.bblock (sb : SuperBlock) (b : Nat) : UInt32 :=
  UInt32.ofNat (b / BPB) + sb.bmapstart

/-! ## Inodes on the disk -/

/-- The part of `struct inode` that is a copy of the inode on the disk. -/
structure Inode where
  type : Int16
  major : Int16
  minor : Int16
  nlink : Int16
  size : UInt32
  addrs : Fin (NDIRECT + 1) → UInt32

/-- Two `short`s, the first one at the lower address. -/
def shorts (a b : Int16) : UInt32 :=
  UInt32.ofNat (a.toUInt16.toNat + 2 ^ 16 * b.toUInt16.toNat)

def firstShort (w : UInt32) : Int16 := (UInt16.ofNat w.toNat).toInt16

def secondShort (w : UInt32) : Int16 := (UInt16.ofNat (w.toNat / 2 ^ 16)).toInt16

/-- `struct dinode`, as the `uint`s that it takes. -/
def Inode.words (ip : Inode) : List UInt32 :=
  shorts ip.type ip.major :: shorts ip.minor ip.nlink :: ip.size :: List.ofFn ip.addrs

/-- The `slot`-th inode of an inode block. -/
def dinode (b : Block) (slot : Nat) : Inode :=
  { type := firstShort (b.word (16 * slot))
    major := secondShort (b.word (16 * slot))
    minor := firstShort (b.word (16 * slot + 1))
    nlink := secondShort (b.word (16 * slot + 1))
    size := b.word (16 * slot + 2)
    addrs := fun k => b.word (16 * slot + 3 + k) }

/-! ## Blocks -/

inductive Panic where
  | ballocOutOfBlocks
  | freeingFreeBlock
  | bmapOutOfRange
  /-- A call of a device driver, which is no panic. -/
  | device
  deriving DecidableEq

structure Fs where
  disk : Disk
  sb : SuperBlock
  inode : UInt32 → Inode

namespace Fs

/-- `bread`, a change of the buffer, and `log_write`. -/
def logWrite (st : Fs) (b : UInt32) (change : Block → Block) : Fs :=
  { st with disk := Function.update st.disk b (change (st.disk b)) }

/-- `bzero`. -/
def bzero (st : Fs) (b : UInt32) : Fs := st.logWrite b fun _ _ => 0

/-- The block that the loops of `balloc` stop at. -/
def freeBlock (st : Fs) : Option Nat :=
  (List.range ((st.sb.size.toNat + BPB - 1) / BPB)).findSome? fun i =>
    let b := i * BPB
    let bp := st.disk (st.sb.bblock b)
    ((List.range BPB).find? fun bi => b + bi < st.sb.size.toNat && !bp.bit bi).map
      (b + ·)

/-- `balloc`. -/
def balloc (st : Fs) : Except Panic (UInt32 × Fs) :=
  match st.freeBlock with
  | some b =>
      .ok (UInt32.ofNat b,
        (st.logWrite (st.sb.bblock b) fun bp => bp.setBit (b % BPB)).bzero
          (UInt32.ofNat b))
  | none => .error .ballocOutOfBlocks

/-- `bfree`. -/
def bfree (st : Fs) (b : UInt32) : Except Panic Fs :=
  let st := { st with sb := readsb st.disk }
  let bb := st.sb.bblock b.toNat
  let bi := b.toNat % BPB
  if (st.disk bb).bit bi then .ok (st.logWrite bb fun bp => bp.clearBit bi)
  else .error .freeingFreeBlock

/-! ## Inodes -/

/-- What `ilock` reads from the disk. -/
def dinode (st : Fs) (i : UInt32) : Inode :=
  Xv6.dinode (st.disk (st.sb.iblock i)) (i.toNat % IPB)

/-- `iupdate`. -/
def iupdate (st : Fs) (i : UInt32) : Fs :=
  st.logWrite (st.sb.iblock i) fun bp =>
    bp.setWords (16 * (i.toNat % IPB)) (st.inode i).words

/-- The copy of inode `i` after a change. -/
def setInode (st : Fs) (i : UInt32) (ip : Inode) : Fs :=
  { st with inode := Function.update st.inode i ip }

/-- `ip->addrs[k] = a`. -/
def setAddr (st : Fs) (i : UInt32) (k : Fin (NDIRECT + 1)) (a : UInt32) : Fs :=
  let ip := st.inode i
  st.setInode i { ip with addrs := Function.update ip.addrs k a }

/-- `ip->size = size`. -/
def setSize (st : Fs) (i : UInt32) (size : UInt32) : Fs :=
  st.setInode i { st.inode i with size := size }

/-! ## Inode content -/

/-- The address at index `k`, of a block that is allocated if there is none. -/
def bmapAddr (st : Fs) (i : UInt32) (k : Fin (NDIRECT + 1)) :
    Except Panic (UInt32 × Fs) :=
  let addr := (st.inode i).addrs k
  if addr = 0 then do
    let (addr, st) ← st.balloc
    .ok (addr, st.setAddr i k addr)
  else .ok (addr, st)

/-- `bmap`. -/
def bmap (st : Fs) (i : UInt32) (bn : Nat) : Except Panic (UInt32 × Fs) :=
  if bn < NDIRECT then st.bmapAddr i (Fin.ofNat _ bn)
  else
    let bn := bn - NDIRECT
    if bn < NINDIRECT then do
      let (indirect, st) ← st.bmapAddr i (Fin.ofNat _ NDIRECT)
      let addr := (st.disk indirect).word bn
      if addr = 0 then do
        let (addr, st) ← st.balloc
        .ok (addr, st.logWrite indirect fun bp => bp.setWord bn addr)
      else .ok (addr, st)
    else .error .bmapOutOfRange

/-- A turn of the first loop of `itrunc`. -/
def truncDirect (i : UInt32) (st : Fs) (k : Fin (NDIRECT + 1)) : Except Panic Fs :=
  if (st.inode i).addrs k ≠ 0 then do
    let st ← st.bfree ((st.inode i).addrs k)
    .ok (st.setAddr i k 0)
  else .ok st

/-- A turn of the second one, over the addresses of the indirect block. -/
def truncIndirect (indirect : UInt32) (st : Fs) (j : Nat) : Except Panic Fs :=
  let a := (st.disk indirect).word j
  if a ≠ 0 then st.bfree a else .ok st

/-- The end of `itrunc`: the addresses in the indirect block, and the block. -/
def freeIndirect (st : Fs) (i : UInt32) : Except Panic Fs :=
  let indirect := (st.inode i).addrs (Fin.ofNat _ NDIRECT)
  if indirect ≠ 0 then do
    let st ← (List.range NINDIRECT).foldlM (truncIndirect indirect) st
    let st ← st.bfree indirect
    .ok (st.setAddr i (Fin.ofNat _ NDIRECT) 0)
  else .ok st

/-- `itrunc`. -/
def itrunc (st : Fs) (i : UInt32) : Except Panic Fs := do
  let st ← ((List.range NDIRECT).map (Fin.ofNat (NDIRECT + 1))).foldlM
    (truncDirect i) st
  let st ← st.freeIndirect i
  .ok ((st.setSize i 0).iupdate i)

/-- The bytes from `off` to the end of its block, and no more than `n`. -/
def chunk (off n : Nat) : Nat := min n (BSIZE - off % BSIZE)

theorem chunk_pos (off : Nat) {n : Nat} (h : n ≠ 0) : 0 < chunk off n := by
  have := Nat.mod_lt off (show 0 < BSIZE by decide)
  unfold chunk
  omega

/-- The loop of `readi` over the `n` bytes that are left. -/
def readLoop (st : Fs) (i : UInt32) (off n : Nat) : Except Panic (List UInt8 × Fs) :=
  if _ : n = 0 then .ok ([], st)
  else do
    let (b, st) ← st.bmap i (off / BSIZE)
    let m := chunk off n
    let (rest, st') ← st.readLoop i (off + m) (n - m)
    .ok ((st.disk b).bytes (off % BSIZE) m ++ rest, st')
termination_by n
decreasing_by
  have hpos : 0 < chunk off n := chunk_pos off ‹¬n = 0›
  omega

/-- `readi`, with the bytes at `dst` in place of their number. In `none` it
returns -1. -/
def readi (st : Fs) (i off n : UInt32) : Except Panic (Option (List UInt8) × Fs) :=
  let size := (st.inode i).size
  if (st.inode i).type = T_DEV then .error .device
  else if off > size ∨ off + n < off then .ok (none, st)
  else do
    let n := if off + n > size then size - off else n
    let (bytes, st) ← st.readLoop i off.toNat n.toNat
    .ok (some bytes, st)

/-- The loop of `writei` over the bytes at `src` that are left. -/
def writeLoop (st : Fs) (i : UInt32) (off : Nat) (src : List UInt8) :
    Except Panic Fs :=
  if _ : src.length = 0 then .ok st
  else do
    let (b, st) ← st.bmap i (off / BSIZE)
    let m := chunk off src.length
    let st := st.logWrite b fun bp => bp.splice (off % BSIZE) (src.take m)
    st.writeLoop i (off + m) (src.drop m)
termination_by src.length
decreasing_by
  have hpos : 0 < chunk off src.length := chunk_pos off ‹¬src.length = 0›
  rw [List.length_drop]
  omega

/-- `writei` of the bytes at `src`. In `none` it returns -1. -/
def writei (st : Fs) (i off : UInt32) (src : List UInt8) :
    Except Panic (Option UInt32 × Fs) :=
  let n := UInt32.ofNat src.length
  if (st.inode i).type = T_DEV then .error .device
  else if off > (st.inode i).size ∨ off + n < off then .ok (none, st)
  else if off + n > UInt32.ofNat (MAXFILE * BSIZE) then .ok (none, st)
  else do
    let st ← st.writeLoop i off.toNat src
    if n > 0 ∧ off + n > (st.inode i).size then
      .ok (some n, (st.setSize i (off + n)).iupdate i)
    else .ok (some n, st)

end Fs

end SchoolStuff.Xv6
