import SchoolStuff.Xv6.Dirs

/-!
# Xv6 — the first disk (`cs350/cs350-18f-lab6-base/mkfs.c`)

The image is a file of the host, which lets `mkfs` write where it wants to,
and whose holes read as zeros. A failed assertion ends `mkfs`, and so does a
read past the end of the image.
-/

namespace SchoolStuff.Xv6.Mkfs

open Dirs (NINODES DIRSIZ Path Name slash dot dotdot)

/-! ## The layout -/

abbrev FSSIZE : Nat := 1000

abbrev LOGSIZE : Nat := 30

abbrev nbitmap : Nat := FSSIZE / (BSIZE * 8) + 1

abbrev ninodeblocks : Nat := NINODES / IPB + 1

abbrev nlog : Nat := LOGSIZE

/-- The boot block, the superblock, the log, the inodes and the bitmap. -/
abbrev nmeta : Nat := 2 + nlog + ninodeblocks + nbitmap

abbrev nblocks : Nat := FSSIZE - nmeta

def sb : SuperBlock :=
  { size := UInt32.ofNat FSSIZE
    nblocks := UInt32.ofNat nblocks
    ninodes := UInt32.ofNat NINODES
    nlog := UInt32.ofNat nlog
    logstart := 2
    inodestart := UInt32.ofNat (2 + nlog)
    bmapstart := UInt32.ofNat (2 + nlog + ninodeblocks) }

/-- `struct superblock`, as the `uint`s that it takes. -/
def words (sb : SuperBlock) : List UInt32 :=
  [sb.size, sb.nblocks, sb.ninodes, sb.nlog, sb.logstart, sb.inodestart, sb.bmapstart]

def ROOTINO : UInt32 := 1

/-! ## Sectors -/

/-- Why `mkfs` does not write an image. -/
inductive Halt where
  | assert
  | exit
  deriving DecidableEq

structure State where
  disk : Disk
  /-- The length of the image. -/
  blocks : Nat
  freeinode : UInt32
  freeblock : UInt32

namespace State

/-- The block at the offset `sec * BSIZE`, which is a `uint`. -/
def sector (sec : UInt32) : UInt32 := sec * UInt32.ofNat BSIZE / UInt32.ofNat BSIZE

def wsect (s : State) (sec : UInt32) (buf : Block) : State :=
  { s with
    disk := Function.update s.disk (sector sec) buf
    blocks := max s.blocks ((sector sec).toNat + 1) }

def rsect (s : State) (sec : UInt32) : Except Halt Block :=
  if (sector sec).toNat < s.blocks then .ok (s.disk (sector sec)) else .error .exit

def winode (s : State) (inum : UInt32) (ip : Inode) : Except Halt State := do
  let bn := sb.iblock inum
  let buf ← s.rsect bn
  .ok (s.wsect bn (buf.setWords (16 * (inum.toNat % IPB)) ip.words))

def rinode (s : State) (inum : UInt32) : Except Halt Inode := do
  let buf ← s.rsect (sb.iblock inum)
  .ok (dinode buf (inum.toNat % IPB))

def ialloc (s : State) (type : Int16) : Except Halt (UInt32 × State) := do
  let inum := s.freeinode
  let s := { s with freeinode := inum + 1 }
  let s ← s.winode inum
    { type := type, major := 0, minor := 0, nlink := 1, size := 0, addrs := fun _ => 0 }
  .ok (inum, s)

/-- The block of the bitmap. -/
def bitmap (used : Nat) : Block := (List.range used).foldl Block.setBit fun _ => 0

def balloc (s : State) (used : Int32) : Except Halt State :=
  if used.toInt < BSIZE * 8 then .ok (s.wsect sb.bmapstart (bitmap used.toInt.toNat))
  else .error .assert

/-! ## `iappend` -/

/-- `din.addrs[k]` gets a block if it has none. -/
def addr (s : State) (din : Inode) (k : Fin (NDIRECT + 1)) : Inode × State :=
  if din.addrs k = 0 then
    ({ din with addrs := Function.update din.addrs k s.freeblock },
      { s with freeblock := s.freeblock + 1 })
  else (din, s)

/-- `indirect[k]`, of the block `ind`, gets a block if it has none. -/
def indirectAddr (s : State) (ind : UInt32) (k : Nat) : Except Halt (UInt32 × State) := do
  let indirect ← s.rsect ind
  if indirect.word k = 0 then
    let x := s.freeblock
    let s := { s with freeblock := x + 1 }
    .ok (x, s.wsect ind (indirect.setWord k x))
  else .ok (indirect.word k, s)

/-- The block `x` that the loop writes to. -/
def appendBlock (s : State) (din : Inode) (fbn : Nat) :
    Except Halt (UInt32 × Inode × State) :=
  if fbn < NDIRECT then
    let (din, s) := s.addr din (Fin.ofNat _ fbn)
    .ok (din.addrs (Fin.ofNat _ fbn), din, s)
  else do
    let (din, s) := s.addr din (Fin.ofNat _ NDIRECT)
    let (x, s) ← s.indirectAddr (din.addrs (Fin.ofNat _ NDIRECT)) (fbn - NDIRECT)
    .ok (x, din, s)

/-- What is left of the block that `off` is in. -/
theorem block_rest (off : Nat) :
    (off / BSIZE + 1) * BSIZE - off = BSIZE - off % BSIZE := by
  have hdiv := Nat.div_add_mod off BSIZE
  have hmul : (off / BSIZE + 1) * BSIZE = BSIZE * (off / BSIZE) + BSIZE := by
    rw [Nat.add_mul, Nat.one_mul, Nat.mul_comm]
  omega

/-- The loop, over the bytes that are left. It keeps `off` below the end of
the largest file, so `off` does not overflow. -/
def appendLoop (s : State) (din : Inode) (off : Nat) (src : List UInt8) :
    Except Halt (Inode × Nat × State) :=
  if _ : src.length = 0 then .ok (din, off, s)
  else
    let fbn := off / BSIZE
    if fbn < MAXFILE then do
      let (x, din, s) ← s.appendBlock din fbn
      let n1 := min src.length ((fbn + 1) * BSIZE - off)
      let buf ← s.rsect x
      let s := s.wsect x (buf.splice (off - fbn * BSIZE) (src.take n1))
      s.appendLoop din (off + n1) (src.drop n1)
    else .error .assert
termination_by src.length
decreasing_by
  have hmod := Nat.mod_lt off (show 0 < BSIZE by decide)
  have hrest := block_rest off
  rw [List.length_drop]
  omega

def iappend (s : State) (inum : UInt32) (src : List UInt8) : Except Halt State := do
  let din ← s.rinode inum
  let (din, off, s) ← s.appendLoop din din.size.toNat src
  s.winode inum { din with size := UInt32.ofNat off }

end State

/-! ## `main` -/

/-- An input file: its argument, a string in C, and what each `read` returns. -/
structure File where
  arg : Path
  chunks : List (List UInt8)
  arg_nul : 0 ∉ arg
  chunk_le : ∀ c ∈ chunks, 0 < c.length ∧ c.length ≤ BSIZE

namespace File

/-- The name without a leading `_`. -/
def name (f : File) : Name := if f.arg.head? = some 95 then f.arg.tail else f.arg

def content (f : File) : List UInt8 := f.chunks.flatten

end File

def strncpy (src : List UInt8) (n : Nat) : List UInt8 :=
  src.take n ++ List.replicate (n - src.length) 0

/-- The bytes of a `struct dirent`. -/
def dirent (inum : UInt32) (name : Name) : List UInt8 :=
  byteOf inum 0 :: byteOf inum 1 :: strncpy name DIRSIZ

namespace State

/-- The image before the first inode. -/
@[irreducible] def start : State :=
  let s : State :=
    { disk := fun _ _ => 0, blocks := 0, freeinode := 1, freeblock := UInt32.ofNat nmeta }
  let s := (List.range FSSIZE).foldl (fun s i => s.wsect (UInt32.ofNat i) fun _ => 0) s
  s.wsect 1 (Block.setWords (fun _ => 0) 0 (words sb))

/-- The root directory, with `.` and `..`. -/
def makeRoot (s : State) : Except Halt State := do
  let (rootino, s) ← s.ialloc T_DIR
  if rootino = ROOTINO then
    let s ← s.iappend rootino (dirent rootino dot)
    s.iappend rootino (dirent rootino dotdot)
  else .error .assert

/-- A turn of the loop over the arguments. -/
def addFile (s : State) (f : File) : Except Halt State :=
  if slash ∈ f.arg then .error .assert
  else do
    let (inum, s) ← s.ialloc T_FILE
    let s ← s.iappend ROOTINO (dirent inum f.name)
    f.chunks.foldlM (fun s buf => s.iappend inum buf) s

/-- The size of the root directory ends at the end of a block. -/
def fixRoot (s : State) : Except Halt State := do
  let din ← s.rinode ROOTINO
  let off := (din.size.toNat / BSIZE + 1) * BSIZE
  s.winode ROOTINO { din with size := UInt32.ofNat off }

/-- `main`, from the first inode on. -/
def build (s : State) (files : List File) : Except Halt State := do
  let s ← s.makeRoot
  let s ← files.foldlM addFile s
  let s ← s.fixRoot
  s.balloc s.freeblock.toInt32

end State

def mkfs (files : List File) : Except Halt State := State.start.build files

end SchoolStuff.Xv6.Mkfs
