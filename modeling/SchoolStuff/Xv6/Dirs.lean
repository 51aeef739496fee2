import Mathlib.Data.List.FinRange
import Mathlib.Data.List.TakeWhile
import SchoolStuff.Xv6.Fs

/-!
# Xv6 — directories and links (`sysfile.c`, `fs.c`, `file.c`, `mkfs.c`)

A system call is one step: no other process runs between its locks. An inode
is what the disk has of it. The cache is write-through, so a copy there is the
same, and the state of the cache is the references to each inode, whether its
copy is valid, and its lock. The contents of a directory are its entries. The
blocks under them are left out: a call that finds the disk full panics, and is
no step. So `nlink` does not overflow either, which takes more entries than
the disk of `mkfs` has room for.
-/

namespace SchoolStuff.Xv6.Dirs

abbrev DIRSIZ : Nat := 14

/-- The inodes on the disk of `mkfs`. -/
abbrev NINODES : Nat := 200

instance : NeZero NINODES := ⟨by decide⟩

/-- The inodes in the cache. -/
abbrev NINODE : Nat := 50

abbrev NOFILE : Nat := 16

abbrev NFILE : Nat := 100

abbrev Inum := Fin NINODES

def ROOTINO : Inum := 1

/-- A string in C, up to the NUL. -/
abbrev Path := List UInt8

/-- The name in an entry, up to `DIRSIZ` bytes or the NUL. -/
abbrev Name := List UInt8

def slash : UInt8 := 47

def dot : Name := [46]

def dotdot : Name := [46, 46]

/-- `struct dirent`. An entry is free if its inode is 0. -/
structure Dirent where
  inum : Inum
  name : Name
  deriving DecidableEq

/-- The part of `struct inode` that links and directories take. -/
structure Inode where
  type : Int16
  nlink : Int
  dirents : List Dirent
  deriving DecidableEq

/-- `struct file`: the inode of an `FD_INODE`, or an `FD_NONE`. -/
structure File where
  ref : Nat
  ip : Option Inum
  deriving DecidableEq

structure Proc where
  cwd : Inum
  ofile : Fin NOFILE → Option (Fin NFILE)

/-- The kernel with `n` processes, those that have exited among them. -/
structure Kernel (n : Nat) where
  inode : Inum → Inode
  ref : Inum → Nat
  valid : Inum → Bool
  locked : Inum → Bool
  file : Fin NFILE → File
  proc : Fin n → Option Proc

/-- Why a call does not return. -/
inductive Stop where
  | ialloc
  | iget
  | ilock
  | ilockNoType
  | iunlock
  | dirlookup
  | dirlink
  | unlinkNlink
  | createDots
  | createDirlink
  | fileclose
  | initExiting
  /-- The process sleeps on a lock that it holds. -/
  | deadlock
  /-- The process has exited, and makes no call. -/
  | exited
  deriving DecidableEq

/-! ## Paths -/

/-- `skipelem`. -/
def skipelem (path : Path) : Option (Name × Path) :=
  let path := path.dropWhile (· = slash)
  if path = [] then none
  else
    let s := path.takeWhile (· ≠ slash)
    let path := path.dropWhile (· ≠ slash)
    some (s.take DIRSIZ, path.dropWhile (· = slash))

theorem skipelem_length {path rest : Path} {name : Name}
    (h : skipelem path = some (name, rest)) : rest.length < path.length := by
  unfold skipelem at h
  simp only at h
  split at h
  · cases h
  rename_i hne
  cases h
  obtain ⟨c, tail, htail⟩ := List.exists_cons_of_ne_nil hne
  have hc : c ≠ slash := by
    have := List.head_dropWhile_not (fun c => decide (c = slash)) hne
    simpa only [htail, List.head_cons, decide_eq_false_iff_not] using this
  have hpath := List.length_dropWhile_le (fun c => decide (c = slash)) path
  have hskip := List.length_dropWhile_le (fun c => decide (c ≠ slash)) tail
  have hslash := List.length_dropWhile_le (fun c => decide (c = slash))
    (tail.dropWhile fun c => decide (c ≠ slash))
  rw [htail, List.length_cons] at hpath
  rw [htail, List.dropWhile_cons, if_pos (decide_eq_true hc)]
  omega

/-! ## Directory entries -/

/-- The entry that the loop of `dirlookup` stops at, and its index. -/
def lookup (des : List Dirent) (name : Name) : Option (Dirent × Nat) :=
  des.zipIdx.find? fun x => x.1.inum ≠ 0 ∧ x.1.name = name

/-- The index that the loop of `dirlink` stops at. -/
def slot (des : List Dirent) : Nat := des.findIdx (·.inum = 0)

/-- `writei` of an entry in place of another one, or after the last one. -/
def writeDirent (des : List Dirent) (off : Nat) (de : Dirent) : List Dirent :=
  if off < des.length then des.set off de else des ++ [de]

/-- `isdirempty`. -/
def isdirempty (ip : Inode) : Bool := (ip.dirents.drop 2).all (·.inum = 0)

namespace Kernel

variable {n : Nat}

/-! ## The inode cache -/

def setInode (st : Kernel n) (i : Inum) (ip : Inode) : Kernel n :=
  { st with inode := Function.update st.inode i ip }

/-- `ip->nlink += k`, and `iupdate`. -/
def addNlink (st : Kernel n) (i : Inum) (k : Int) : Kernel n :=
  st.setInode i { st.inode i with nlink := (st.inode i).nlink + k }

def setDirents (st : Kernel n) (i : Inum) (des : List Dirent) : Kernel n :=
  st.setInode i { st.inode i with dirents := des }

/-- The entries of `icache` that are taken. -/
def cached (st : Kernel n) : Nat := (List.finRange NINODES).countP (0 < st.ref ·)

/-- `iget`. -/
def iget (st : Kernel n) (i : Inum) : Except Stop (Kernel n) :=
  if 0 < st.ref i then .ok { st with ref := Function.update st.ref i (st.ref i + 1) }
  else if st.cached < NINODE then
    .ok { st with
      ref := Function.update st.ref i 1
      valid := Function.update st.valid i false }
  else .error .iget

/-- `idup`. -/
def idup (st : Kernel n) (i : Inum) : Kernel n :=
  { st with ref := Function.update st.ref i (st.ref i + 1) }

/-- `ilock`. -/
def ilock (st : Kernel n) (i : Inum) : Except Stop (Kernel n) :=
  if st.ref i < 1 then .error .ilock
  else if st.locked i then .error .deadlock
  else if ¬st.valid i ∧ (st.inode i).type = 0 then .error .ilockNoType
  else
    .ok { st with
      locked := Function.update st.locked i true
      valid := Function.update st.valid i true }

/-- `iunlock`. -/
def iunlock (st : Kernel n) (i : Inum) : Except Stop (Kernel n) :=
  if ¬st.locked i ∨ st.ref i < 1 then .error .iunlock
  else .ok { st with locked := Function.update st.locked i false }

/-- The inode has no links and no other references: truncate and free. -/
def ifree (st : Kernel n) (i : Inum) : Kernel n :=
  { st.setInode i { st.inode i with type := 0, dirents := [] } with
    valid := Function.update st.valid i false }

/-- `iput`. -/
def iput (st : Kernel n) (i : Inum) : Except Stop (Kernel n) :=
  if st.locked i then .error .deadlock
  else
    let st :=
      if st.valid i ∧ (st.inode i).nlink = 0 ∧ st.ref i = 1 then st.ifree i else st
    .ok { st with ref := Function.update st.ref i (st.ref i - 1) }

/-- `iunlockput`. -/
def iunlockput (st : Kernel n) (i : Inum) : Except Stop (Kernel n) := do
  let st ← st.iunlock i
  st.iput i

/-- `ialloc`. -/
def ialloc (st : Kernel n) (type : Int16) : Except Stop (Inum × Kernel n) :=
  match (List.finRange NINODES).find? fun i => i ≠ 0 ∧ (st.inode i).type = 0 with
  | none => .error .ialloc
  | some i => do
      let st ← (st.setInode i ⟨type, 0, []⟩).iget i
      .ok (i, st)

/-! ## Directories -/

/-- `dirlookup`: the inode, and the index of its entry. -/
def dirlookup (st : Kernel n) (dp : Inum) (name : Name) :
    Except Stop (Option (Inum × Nat) × Kernel n) :=
  if (st.inode dp).type ≠ T_DIR then .error .dirlookup
  else
    match lookup (st.inode dp).dirents name with
    | none => .ok (none, st)
    | some (de, off) => do
        let st ← st.iget de.inum
        .ok (some (de.inum, off), st)

/-- `dirlink`, which returns 0 (`true`) or -1. -/
def dirlink (st : Kernel n) (dp : Inum) (name : Name) (inum : Inum) :
    Except Stop (Bool × Kernel n) := do
  let (found, st) ← st.dirlookup dp name
  match found with
  | some (ip, _) => do
      let st ← st.iput ip
      .ok (false, st)
  | none =>
      let des := (st.inode dp).dirents
      if 16 * (slot des + 1) > MAXFILE * BSIZE then .error .dirlink
      else .ok (true, st.setDirents dp (writeDirent des (slot des) ⟨inum, name⟩))

/-- The loop of `namex`. -/
def namexLoop (st : Kernel n) (ip : Inum) (path : Path) (nameiparent : Bool)
    (name : Name) : Except Stop (Option (Inum × Name) × Kernel n) :=
  match _ : skipelem path with
  | none =>
      if nameiparent then do
        let st ← st.iput ip
        .ok (none, st)
      else .ok (some (ip, name), st)
  | some (name, path) => do
      let st ← st.ilock ip
      if (st.inode ip).type ≠ T_DIR then do
        let st ← st.iunlockput ip
        .ok (none, st)
      else if nameiparent ∧ path = [] then do
        let st ← st.iunlock ip
        .ok (some (ip, name), st)
      else do
        let (next, st) ← st.dirlookup ip name
        let st ← st.iunlockput ip
        match next with
        | none => .ok (none, st)
        | some (next, _) => st.namexLoop next path nameiparent name
termination_by path.length
decreasing_by exact skipelem_length ‹_›

/-- `namex`, for a process in the directory `cwd`. -/
def namex (st : Kernel n) (cwd : Inum) (path : Path) (nameiparent : Bool) :
    Except Stop (Option (Inum × Name) × Kernel n) := do
  if path.head? = some slash then do
    let st ← st.iget ROOTINO
    st.namexLoop ROOTINO path nameiparent []
  else (st.idup cwd).namexLoop cwd path nameiparent []

/-- `namei`. -/
def namei (st : Kernel n) (cwd : Inum) (path : Path) :
    Except Stop (Option Inum × Kernel n) := do
  let (r, st) ← st.namex cwd path false
  .ok (r.map Prod.fst, st)

/-- `nameiparent`. -/
def nameiparent (st : Kernel n) (cwd : Inum) (path : Path) :
    Except Stop (Option (Inum × Name) × Kernel n) :=
  st.namex cwd path true

/-! ## Files -/

def setFile (st : Kernel n) (f : Fin NFILE) (fp : File) : Kernel n :=
  { st with file := Function.update st.file f fp }

def setProc (st : Kernel n) (p : Fin n) (pr : Option Proc) : Kernel n :=
  { st with proc := Function.update st.proc p pr }

/-- The file that `filealloc` returns. -/
def freeFile (st : Kernel n) : Option (Fin NFILE) :=
  (List.finRange NFILE).find? fun f => (st.file f).ref = 0

/-- `fileclose`. -/
def fileclose (st : Kernel n) (f : Fin NFILE) : Except Stop (Kernel n) :=
  let fp := st.file f
  if fp.ref < 1 then .error .fileclose
  else if fp.ref - 1 > 0 then .ok (st.setFile f { fp with ref := fp.ref - 1 })
  else
    let st := st.setFile f ⟨0, none⟩
    match fp.ip with
    | none => .ok st
    | some ip => st.iput ip

/-- The descriptor that `fdalloc` returns. -/
def freeFd (pr : Proc) : Option (Fin NOFILE) :=
  (List.finRange NOFILE).find? fun fd => pr.ofile fd = none

/-! ## System calls -/

/-- `bad:` in `sys_link`. -/
def linkBad (st : Kernel n) (ip : Inum) : Except Stop (Int × Kernel n) := do
  let st ← st.ilock ip
  let st ← (st.addNlink ip (-1)).iunlockput ip
  .ok (-1, st)

/-- `sys_link`, once the file `ip` is known and locked. -/
def linkFile (st : Kernel n) (pr : Proc) (ip : Inum) (new : Path) :
    Except Stop (Int × Kernel n) := do
  let st ← (st.addNlink ip 1).iunlock ip
  let (dp, st) ← st.nameiparent pr.cwd new
  match dp with
  | none => st.linkBad ip
  | some (dp, name) => do
      let st ← st.ilock dp
      let (linked, st) ← st.dirlink dp name ip
      let st ← st.iunlockput dp
      if linked then do
        let st ← st.iput ip
        .ok (0, st)
      else st.linkBad ip

/-- `sys_link`. -/
def sysLink (st : Kernel n) (pr : Proc) (old new : Path) :
    Except Stop (Int × Kernel n) := do
  let (ip, st) ← st.namei pr.cwd old
  match ip with
  | none => .ok (-1, st)
  | some ip => do
      let st ← st.ilock ip
      if (st.inode ip).type = T_DIR then do
        let st ← st.iunlockput ip
        .ok (-1, st)
      else st.linkFile pr ip new

/-- `sys_unlink`, once the entry of `ip` at `off` is known. -/
def unlinkEntry (st : Kernel n) (dp ip : Inum) (off : Nat) :
    Except Stop (Int × Kernel n) := do
  let st ← st.ilock ip
  if (st.inode ip).nlink < 1 then .error .unlinkNlink
  else if (st.inode ip).type = T_DIR ∧ ¬isdirempty (st.inode ip) then do
    let st ← st.iunlockput ip
    let st ← st.iunlockput dp
    .ok (-1, st)
  else do
    let st := st.setDirents dp (writeDirent (st.inode dp).dirents off ⟨0, []⟩)
    let st := if (st.inode ip).type = T_DIR then st.addNlink dp (-1) else st
    let st ← st.iunlockput dp
    let st ← (st.addNlink ip (-1)).iunlockput ip
    .ok (0, st)

/-- `sys_unlink`. -/
def sysUnlink (st : Kernel n) (pr : Proc) (path : Path) :
    Except Stop (Int × Kernel n) := do
  let (dp, st) ← st.nameiparent pr.cwd path
  match dp with
  | none => .ok (-1, st)
  | some (dp, name) => do
      let st ← st.ilock dp
      if name = dot ∨ name = dotdot then do
        let st ← st.iunlockput dp
        .ok (-1, st)
      else do
        let (found, st) ← st.dirlookup dp name
        match found with
        | none => do
            let st ← st.iunlockput dp
            .ok (-1, st)
        | some (ip, off) => st.unlinkEntry dp ip off

/-- The `.` and `..` of a new directory. -/
def createDots (st : Kernel n) (dp ip : Inum) : Except Stop (Kernel n) := do
  let (linked, st) ← (st.addNlink dp 1).dirlink ip dot ip
  if linked then do
    let (linked, st) ← st.dirlink ip dotdot dp
    if linked then .ok st else .error .createDots
  else .error .createDots

/-- `create`, when there is no entry of the name. -/
def createNew (st : Kernel n) (dp : Inum) (name : Name) (type : Int16) :
    Except Stop (Option Inum × Kernel n) := do
  let (ip, st) ← st.ialloc type
  let st ← st.ilock ip
  let st := st.setInode ip { st.inode ip with nlink := 1 }
  let st ← if type = T_DIR then st.createDots dp ip else .ok st
  let (linked, st) ← st.dirlink dp name ip
  if linked then do
    let st ← st.iunlockput dp
    .ok (some ip, st)
  else .error .createDirlink

/-- `create`. The inode that it returns is locked. -/
def create (st : Kernel n) (cwd : Inum) (path : Path) (type : Int16) :
    Except Stop (Option Inum × Kernel n) := do
  let (dp, st) ← st.nameiparent cwd path
  match dp with
  | none => .ok (none, st)
  | some (dp, name) => do
      let st ← st.ilock dp
      let (found, st) ← st.dirlookup dp name
      match found with
      | some (ip, _) => do
          let st ← st.iunlockput dp
          let st ← st.ilock ip
          if type = T_FILE ∧ (st.inode ip).type = T_FILE then .ok (some ip, st)
          else do
            let st ← st.iunlockput ip
            .ok (none, st)
      | none => st.createNew dp name type

/-- `sys_open` with `O_CREATE`, after `create` has returned `ip`. -/
def openInode (st : Kernel n) (p : Fin n) (pr : Proc) (ip : Inum) :
    Except Stop (Int × Kernel n) :=
  match st.freeFile with
  | none => do
      let st ← st.iunlockput ip
      .ok (-1, st)
  | some f =>
      let st := st.setFile f { st.file f with ref := 1 }
      match freeFd pr with
      | none => do
          let st ← st.fileclose f
          let st ← st.iunlockput ip
          .ok (-1, st)
      | some fd => do
          let st := st.setProc p (some { pr with
            ofile := Function.update pr.ofile fd (some f) })
          let st ← st.iunlock ip
          .ok (fd.val, st.setFile f { st.file f with ip := some ip })

/-- `sys_open` with `O_CREATE`. -/
def sysOpen (st : Kernel n) (p : Fin n) (pr : Proc) (path : Path) :
    Except Stop (Int × Kernel n) := do
  let (ip, st) ← st.create pr.cwd path T_FILE
  match ip with
  | none => .ok (-1, st)
  | some ip => st.openInode p pr ip

/-- `sys_mkdir`. -/
def sysMkdir (st : Kernel n) (pr : Proc) (path : Path) :
    Except Stop (Int × Kernel n) := do
  let (ip, st) ← st.create pr.cwd path T_DIR
  match ip with
  | none => .ok (-1, st)
  | some ip => do
      let st ← st.iunlockput ip
      .ok (0, st)

/-- `sys_chdir`. -/
def sysChdir (st : Kernel n) (p : Fin n) (pr : Proc) (path : Path) :
    Except Stop (Int × Kernel n) := do
  let (ip, st) ← st.namei pr.cwd path
  match ip with
  | none => .ok (-1, st)
  | some ip => do
      let st ← st.ilock ip
      if (st.inode ip).type ≠ T_DIR then do
        let st ← st.iunlockput ip
        .ok (-1, st)
      else do
        let st ← st.iunlock ip
        let st ← st.iput pr.cwd
        .ok (0, st.setProc p (some { pr with cwd := ip }))

/-- `argfd`. -/
def argfd (pr : Proc) (fd : Int) : Option (Fin NOFILE × Fin NFILE) :=
  if fd < 0 ∨ fd ≥ NOFILE then none
  else
    let fd := Fin.ofNat NOFILE fd.toNat
    (pr.ofile fd).map (fd, ·)

/-- `sys_close`. -/
def sysClose (st : Kernel n) (p : Fin n) (pr : Proc) (fd : Int) :
    Except Stop (Int × Kernel n) :=
  match argfd pr fd with
  | none => .ok (-1, st)
  | some (fd, f) => do
      let st := st.setProc p (some { pr with ofile := Function.update pr.ofile fd none })
      let st ← st.fileclose f
      .ok (0, st)

/-- A turn of the loop of `exit`, for the files that the process has left. -/
def closeFd (p : Fin n) (s : Proc × Kernel n) (fd : Fin NOFILE) :
    Except Stop (Proc × Kernel n) :=
  match s.1.ofile fd with
  | none => .ok s
  | some f => do
      let st ← s.2.fileclose f
      let pr := { s.1 with ofile := Function.update s.1.ofile fd none }
      .ok (pr, st.setProc p (some pr))

/-- `exit`. The first process is `initproc`. -/
def exit (st : Kernel n) (p : Fin n) (pr : Proc) : Except Stop (Kernel n) :=
  if p.val = 0 then .error .initExiting
  else do
    let (pr, st) ← (List.finRange NOFILE).foldlM (closeFd p) (pr, st)
    let st ← st.iput pr.cwd
    .ok (st.setProc p none)

end Kernel

/-- A system call. `openCreate` is `open` with `O_CREATE`. -/
inductive Call where
  | mkdir (path : Path)
  | openCreate (path : Path)
  | link (old new : Path)
  | unlink (path : Path)
  | chdir (path : Path)
  | close (fd : Int)
  | exit

namespace Kernel

variable {n : Nat}

/-- A system call of process `p`, which is `pr`. -/
def syscall (st : Kernel n) (p : Fin n) (pr : Proc) : Call → Except Stop (Int × Kernel n)
  | .mkdir path => st.sysMkdir pr path
  | .openCreate path => st.sysOpen p pr path
  | .link old new => st.sysLink pr old new
  | .unlink path => st.sysUnlink pr path
  | .chdir path => st.sysChdir p pr path
  | .close fd => st.sysClose p pr fd
  | .exit => do
      let st ← st.exit p pr
      .ok (0, st)

def step (st : Kernel n) (p : Fin n) (c : Call) : Except Stop (Kernel n) :=
  match st.proc p with
  | none => .error .exited
  | some pr => do
      let (_, st) ← st.syscall p pr c
      .ok st

def run (st : Kernel n) : List (Fin n × Call) → Except Stop (Kernel n)
  | [] => .ok st
  | (p, c) :: cs => do
      let st ← st.step p c
      st.run cs

end Kernel

/-! ## The first state -/

/-- The name that `mkfs` gives to a file, without a leading `_`. -/
def fileName (arg : Path) : Name :=
  (if arg.head? = some 95 then arg.tail else arg).take DIRSIZ

/-- The entries that `mkfs` appends to the root directory. -/
def rootDirents (args : List Path) : List Dirent :=
  ⟨ROOTINO, dot⟩ :: ⟨ROOTINO, dotdot⟩
    :: args.mapIdx fun k arg => ⟨Fin.ofNat NINODES (k + 2), fileName arg⟩

/-- The inodes that `mkfs` writes. The size of the root directory ends at the
end of a block. -/
def mkfs (args : List Path) (i : Inum) : Inode :=
  if i = ROOTINO then
    let des := rootDirents args
    let full := (16 * des.length / BSIZE + 1) * BSIZE / 16
    ⟨T_DIR, 1, des ++ List.replicate (full - des.length) ⟨0, []⟩⟩
  else if 2 ≤ i.val ∧ i.val < args.length + 2 then ⟨T_FILE, 1, []⟩
  else ⟨0, 0, []⟩

/-- `n` processes on the disk of `mkfs`, all of them in the root directory. -/
def boot (n : Nat) (args : List Path) : Kernel n :=
  { inode := mkfs args
    ref := fun i => if i = ROOTINO then n else 0
    valid := fun _ => false
    locked := fun _ => false
    file := fun _ => ⟨0, none⟩
    proc := fun _ => some { cwd := ROOTINO, ofile := fun _ => none } }

end SchoolStuff.Xv6.Dirs
