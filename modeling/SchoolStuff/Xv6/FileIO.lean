import SchoolStuff.Xv6.Dirs
import SchoolStuff.Xv6.Transaction

/-!
# Xv6 — `fileread` and `filewrite` (`file.c`)

A process reads and writes at the offset of a `struct file`, and `filewrite`
cuts what it writes into operations of the log. `Flat` does the same to arrays
of bytes, with one write for each call. The files are those of an `FD_INODE`;
the other ones are in `Pipe`.
-/

namespace SchoolStuff.Xv6.FileIO

open Dirs (NFILE)

/-- `struct file` of an `FD_INODE`. -/
structure File where
  readable : Bool
  writable : Bool
  ip : UInt32
  off : UInt32

inductive Stop where
  | fs (e : Panic)
  | shortFilewrite
  deriving DecidableEq

/-- An operation of the log that has ended: the file system before and behind
it, and the blocks that it has logged. -/
structure Op where
  before : Fs
  blocks : List UInt32
  after : Fs

/-- `max` in `filewrite`. -/
def maxWrite : Nat := (MAXOPBLOCKS - 1 - 1 - 2) / 2 * 512

/-- `f->off += r`. -/
def File.advance (f : File) (r : UInt32) : File := { f with off := f.off + r }

/-- `fileread`, with the bytes at `addr` in place of their number. -/
def fileread (st : Fs) (f : File) (n : Nat) :
    Except Stop (Option (List UInt8) × File × Fs) :=
  if f.readable = false then .ok (none, f, st)
  else do
    let (r, st) ← (st.readi f.ip f.off (UInt32.ofNat n)).mapError Stop.fs
    match r with
    | none => .ok (none, f, st)
    | some bytes => .ok (some bytes, f.advance (UInt32.ofNat bytes.length), st)

/-- The loop of `filewrite`, over the bytes that are left of `addr`. It returns
how many of them are written. -/
def filewriteLoop (st : Fs) (f : File) (src : List UInt8) :
    Except Stop (Nat × List Op × File × Fs) :=
  if _ : src.length = 0 then .ok (0, [], f, st)
  else do
    let n1 := min src.length maxWrite
    let (r, t) ← (Tx.writei ⟨st, []⟩ f.ip f.off (src.take n1)).mapError Stop.fs
    let op : Op := ⟨st, t.blocks, t.fs⟩
    match r with
    | none => .ok (0, [op], f, t.fs)
    | some r =>
        if r.toNat = n1 then do
          let (i, ops, f, st) ← filewriteLoop t.fs (f.advance r) (src.drop n1)
          .ok (n1 + i, op :: ops, f, st)
        else .error .shortFilewrite
termination_by src.length
decreasing_by
  have hmax : maxWrite = 1536 := rfl
  rw [List.length_drop]
  omega

/-- `filewrite`. -/
def filewrite (st : Fs) (f : File) (src : List UInt8) :
    Except Stop (Int × List Op × File × Fs) :=
  if f.writable = false then .ok (-1, [], f, st)
  else do
    let (i, ops, f, st) ← filewriteLoop st f src
    .ok (if i = src.length then i else -1, ops, f, st)

/-- The sizes come from `argint`, and `argptr` refuses the negative ones. -/
inductive Call where
  | read (f : Fin NFILE) (n : Nat) (h : n < 2 ^ 31)
  | write (f : Fin NFILE) (src : List UInt8) (h : src.length < 2 ^ 31)

inductive Answer where
  /-- The bytes that `fileread` stores, or -1. -/
  | bytes (r : Option (List UInt8))
  | count (r : Int)
  deriving DecidableEq

/-- The file system, and the open files. -/
structure Sys where
  fs : Fs
  file : Fin NFILE → File

namespace Sys

def call (s : Sys) : Call → Except Stop (Answer × List Op × Sys)
  | .read f n _ => do
      let (r, fp, st) ← fileread s.fs (s.file f) n
      .ok (.bytes r, [], ⟨st, Function.update s.file f fp⟩)
  | .write f src _ => do
      let (r, ops, fp, st) ← filewrite s.fs (s.file f) src
      .ok (.count r, ops, ⟨st, Function.update s.file f fp⟩)

def run (s : Sys) : List Call → Except Stop (List Answer × List Op × Sys)
  | [] => .ok ([], [], s)
  | c :: cs => do
      let (r, ops, s) ← s.call c
      let (rs, ops', s) ← s.run cs
      .ok (r :: rs, ops ++ ops', s)

end Sys

/-! ## Files as arrays -/

/-- The content of each inode, and the open files. -/
structure Flat where
  content : Files
  file : Fin NFILE → File

/-- How many of `n` bytes are written from an offset on: all of them, or as
many whole operations as the file has room for. -/
def written (off n : Nat) : Nat :=
  if off + n ≤ MAXFILE * BSIZE then n
  else maxWrite * ((MAXFILE * BSIZE - off) / maxWrite)

namespace Flat

def call (s : Flat) : Call → Answer × Flat
  | .read f n _ =>
      let fp := s.file f
      if fp.readable = false then (.bytes none, s)
      else
        let bytes := ((s.content fp.ip).drop fp.off.toNat).take n
        (.bytes (some bytes),
          { s with file := Function.update s.file f (fp.advance (UInt32.ofNat bytes.length)) })
  | .write f src _ =>
      let fp := s.file f
      if fp.writable = false then (.count (-1), s)
      else
        let m := written fp.off.toNat src.length
        (.count (if m = src.length then m else -1),
          { content := Function.update s.content fp.ip
              (splice (s.content fp.ip) fp.off.toNat (src.take m))
            file := Function.update s.file f (fp.advance (UInt32.ofNat m)) })

def run (s : Flat) : List Call → List Answer × Flat
  | [] => ([], s)
  | c :: cs =>
      let (r, s) := s.call c
      let (rs, s) := s.run cs
      (r :: rs, s)

end Flat

end SchoolStuff.Xv6.FileIO
