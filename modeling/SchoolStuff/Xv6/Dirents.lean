import SchoolStuff.Lib.Records
import SchoolStuff.Xv6.Dirs
import SchoolStuff.Xv6.Files

/-!
# Xv6 — directories on the disk (`fs.c`, `sysfile.c`, `string.c`)

`Dirs` has a directory as a list of entries. Here it is a file, and its entries
are read and written with `readi` and `writei`. Of `unlink` there is what it
does to the entries: the locks, the references and the link counts are in
`Dirs`. `Store` is what the calls are for, files of bytes and directories of
entries.
-/

namespace SchoolStuff.Xv6.Dirents

open Dirs (DIRSIZ Inum Name dot dotdot)

/-! ## Strings -/

/-- `strncmp`. The bytes behind the end of a list are NULs. -/
def strncmp (p q : List UInt8) : Nat → Int
  | 0 => 0
  | n + 1 =>
      if p.headD 0 ≠ 0 ∧ p.headD 0 = q.headD 0 then strncmp p.tail q.tail n
      else (p.headD 0).toNat - (q.headD 0).toNat

/-- `namecmp`. -/
def namecmp (s t : List UInt8) : Int := strncmp s t DIRSIZ

/-- The bytes that `strncpy` stores. -/
def strncpy (t : List UInt8) : Nat → List UInt8
  | 0 => []
  | n + 1 =>
      if t.headD 0 ≠ 0 then t.headD 0 :: strncpy t.tail n else List.replicate (n + 1) 0

/-- The name that a directory knows a string by. -/
def entryName (s : List UInt8) : Name := (s.takeWhile (· ≠ 0)).take DIRSIZ

/-! ## Entries -/

/-- `struct dirent`. -/
structure Dirent where
  inum : UInt16
  name : List UInt8
  deriving DecidableEq

namespace Dirent

def bytes (de : Dirent) : List UInt8 :=
  UInt8.ofNat de.inum.toNat :: UInt8.ofNat (de.inum.toNat / 256) :: de.name

/-- The `struct dirent` at these bytes. -/
def ofBytes (bs : List UInt8) : Dirent :=
  ⟨UInt16.ofNat ((bs.getD 0 0).toNat + 256 * (bs.getD 1 0).toNat), bs.drop 2⟩

/-- The `struct dirent` of an entry. -/
def ofEntry (de : Dirs.Dirent) : Dirent :=
  ⟨UInt16.ofNat de.inum.val, strncpy de.name DIRSIZ⟩

end Dirent

inductive Stop where
  | fs (e : Panic)
  | dirlookupNotDir
  | dirlookupRead
  | dirlinkRead
  | dirlink
  | isdirempty
  | unlinkWritei
  /-- A call of `writei` or `itrunc` on what is no file. -/
  | notFile
  deriving DecidableEq

/-! ## The calls -/

/-- `readi` of the entry at `off`. -/
def readDirent (st : Fs) (dp : UInt32) (off : Nat) (err : Stop) :
    Except Stop (Dirent × Fs) := do
  let (r, st) ← (st.readi dp (UInt32.ofNat off) 16).mapError Stop.fs
  match r with
  | none => .error err
  | some bs => if bs.length = 16 then .ok (Dirent.ofBytes bs, st) else .error err

/-- `writei` of the entry at `off`. -/
def writeDirent (st : Fs) (dp : UInt32) (off : Nat) (de : Dirent) (err : Stop) :
    Except Stop Fs := do
  let (r, st) ← (st.writei dp (UInt32.ofNat off) de.bytes).mapError Stop.fs
  if r = some 16 then .ok st else .error err

/-- The loops over the entries of a directory: the entry that one stops at, if
any, and the offset. -/
def scan (dp : UInt32) (stop : Dirent → Bool) (err : Stop) (st : Fs) (off : Nat) :
    Except Stop (Option Dirent × Nat × Fs) :=
  if _ : off < (st.inode dp).size.toNat then do
    let (de, st') ← readDirent st dp off err
    if stop de then .ok (some de, off, st') else scan dp stop err st' (off + 16)
  else .ok (none, off, st)
termination_by 2 ^ 32 - off
decreasing_by
  have := (st.inode dp).size.toNat_lt
  omega

/-- `dirlookup` without the `iget` of its result. -/
def dirlookup (st : Fs) (dp : UInt32) (name : List UInt8) :
    Except Stop (Option (UInt32 × Nat) × Fs) :=
  if (st.inode dp).type ≠ T_DIR then .error .dirlookupNotDir
  else do
    let (de, off, st) ← scan dp (fun de => de.inum ≠ 0 ∧ namecmp name de.name = 0)
      .dirlookupRead st 0
    .ok (de.map fun de => (de.inum.toUInt32, off), st)

/-- `dirlink`, which returns 0 (`true`) or -1. -/
def dirlink (st : Fs) (dp : UInt32) (name : List UInt8) (inum : UInt32) :
    Except Stop (Bool × Fs) := do
  let (found, st) ← dirlookup st dp name
  match found with
  | some _ => .ok (false, st)
  | none => do
      let (_, off, st) ← scan dp (fun de => de.inum = 0) .dirlinkRead st 0
      let st ← writeDirent st dp off ⟨inum.toUInt16, strncpy name DIRSIZ⟩ .dirlink
      .ok (true, st)

def isdirempty (st : Fs) (dp : UInt32) : Except Stop (Bool × Fs) := do
  let (de, _, st) ← scan dp (fun de => de.inum ≠ 0) .isdirempty st (2 * 16)
  .ok (de.isNone, st)

/-- Whether `sys_unlink` may unlink `ip`. -/
def unlinkable (st : Fs) (ip : UInt32) : Except Stop (Bool × Fs) :=
  if (st.inode ip).type = T_DIR then isdirempty st ip else .ok (true, st)

/-- What `sys_unlink` does to the entries of `dp`: the inode that it unlinks. -/
def unlink (st : Fs) (dp : UInt32) (name : List UInt8) :
    Except Stop (Option UInt32 × Fs) :=
  if namecmp name dot = 0 ∨ namecmp name dotdot = 0 then .ok (none, st)
  else do
    let (found, st) ← dirlookup st dp name
    match found with
    | none => .ok (none, st)
    | some (ip, off) => do
        let (empty, st) ← unlinkable st ip
        if empty then do
          let st ← writeDirent st dp off ⟨0, List.replicate DIRSIZ 0⟩ .unlinkWritei
          .ok (some ip, st)
        else .ok (none, st)

/-- A call with its inode locked. -/
inductive Op where
  | file (c : Call)
  | dirlookup (dp : UInt32) (name : List UInt8)
  | dirlink (dp : UInt32) (name : List UInt8) (inum : Inum)
  | unlink (dp : UInt32) (name : List UInt8)

inductive Answer where
  | file (r : Result)
  /-- The inode and the offset of its entry. -/
  | found (r : Option (UInt32 × Nat))
  | linked (r : Bool)
  | unlinked (r : Option UInt32)
  deriving DecidableEq

def call (st : Fs) : Op → Except Stop (Answer × Fs)
  | .file c => do
      let (r, st) ← (st.call c).mapError Stop.fs
      .ok (.file r, st)
  | .dirlookup dp name => do
      let (r, st) ← dirlookup st dp name
      .ok (.found r, st)
  | .dirlink dp name inum => do
      let (r, st) ← dirlink st dp name (UInt32.ofNat inum.val)
      .ok (.linked r, st)
  | .unlink dp name => do
      let (r, st) ← unlink st dp name
      .ok (.unlinked r, st)

def run (st : Fs) : List Op → Except Stop (List Answer × Fs)
  | [] => .ok ([], st)
  | op :: ops => do
      let (r, st) ← call st op
      let (rs, st) ← run st ops
      .ok (r :: rs, st)

/-! ## Files and directories -/

inductive Content where
  | file (bytes : List UInt8)
  | dir (des : List Dirs.Dirent)

/-- The files and directories, by their inodes. -/
abbrev Store := UInt32 → Option Content

namespace Store

/-- The inode and the offset of the entry that has this name. -/
def find (des : List Dirs.Dirent) (name : List UInt8) : Option (UInt32 × Nat) :=
  (Dirs.lookup des (entryName name)).map fun x => (UInt32.ofNat x.1.inum.val, 16 * x.2)

/-- A directory that holds nothing but `.` and `..`. -/
def isEmpty (s : Store) (i : UInt32) : Bool :=
  match s i with
  | some (.dir des) => (des.drop 2).all (·.inum = 0)
  | _ => true

def call (s : Store) : Op → Except Stop (Answer × Store)
  | .file c =>
      match s c.inum with
      | some (.file bytes) =>
          let (r, files) := Files.call (fun _ => bytes) c
          .ok (.file r, Function.update s c.inum (some (.file (files c.inum))))
      | _ => .error .notFile
  | .dirlookup dp name =>
      match s dp with
      | some (.dir des) => .ok (.found (find des name), s)
      | _ => .error .dirlookupNotDir
  | .dirlink dp name inum =>
      match s dp with
      | some (.dir des) =>
          if (find des name).isSome then .ok (.linked false, s)
          else if 16 * (Dirs.slot des + 1) > MAXFILE * BSIZE then .error .dirlink
          else
            let des := Dirs.writeDirent des (Dirs.slot des) ⟨inum, entryName name⟩
            .ok (.linked true, Function.update s dp (some (.dir des)))
      | _ => .error .dirlookupNotDir
  | .unlink dp name =>
      if entryName name = dot ∨ entryName name = dotdot then .ok (.unlinked none, s)
      else
        match s dp with
        | some (.dir des) =>
            match find des name with
            | none => .ok (.unlinked none, s)
            | some (ip, off) =>
                if s.isEmpty ip then
                  let des := Dirs.writeDirent des (off / 16) ⟨0, []⟩
                  .ok (.unlinked (some ip), Function.update s dp (some (.dir des)))
                else .ok (.unlinked none, s)
        | _ => .error .dirlookupNotDir

def run (s : Store) : List Op → Except Stop (List Answer × Store)
  | [] => .ok ([], s)
  | op :: ops => do
      let (r, s) ← s.call op
      let (rs, s) ← s.run ops
      .ok (r :: rs, s)

end Store

end SchoolStuff.Xv6.Dirents
