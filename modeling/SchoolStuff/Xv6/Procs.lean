import SchoolStuff.Xv6.Dirs
import SchoolStuff.Xv6.Pipe

/-!
# Xv6 — processes and open files (`proc.c`, `file.c`, `sysfile.c`, `pipe.c`)

A system call is one step, and so is each time that `wait` looks through the
table. Memory is left out: `kalloc` and `copyuvm` succeed or fail as the step
says. So are inodes and directories (see `Dirs`): a step of `open` says whether
there is an inode for it. Scheduling, and sleeping on other channels than those
of `wait` and of pipes, are steps of their own.
-/

namespace SchoolStuff.Xv6.Procs

open Dirs (NOFILE NFILE)

abbrev NPROC : Nat := 64

instance : NeZero NPROC := ⟨by decide⟩

/-- `enum procstate`. -/
inductive ProcState where
  | unused
  | embryo
  | sleeping
  | runnable
  | running
  | zombie
  deriving DecidableEq

/-- An address that a process sleeps on: a process, a counter of a pipe, or
another one. -/
inductive Chan where
  | proc (p : Fin NPROC)
  | pipe (page : Nat) (chan : Pipe.Chan)
  | other (addr : UInt32)
  deriving DecidableEq

/-- `struct proc`. -/
structure Proc where
  state : ProcState
  pid : Int
  parent : Option (Fin NPROC)
  chan : Option Chan
  killed : Bool
  ofile : Fin NOFILE → Option (Fin NFILE)

/-- The type of a `struct file`. -/
inductive FileType where
  | none
  | pipe
  | inode
  deriving DecidableEq

/-- `struct file`, with the page of its pipe. -/
structure File where
  type : FileType
  ref : Nat
  readable : Bool
  writable : Bool
  pipe : Nat
  deriving DecidableEq

/-- A page that `pipealloc` was given, and how often it has been freed. -/
structure Page where
  pipe : Pipe
  frees : Nat

structure Kernel where
  proc : Fin NPROC → Proc
  nextpid : Int
  file : Fin NFILE → File
  /-- The pages of all pipes, in the order in which they were allocated. -/
  pages : List Page

/-- Why a step does not end. -/
inductive Stop where
  /-- `panic("filedup")`. -/
  | filedup
  /-- `panic("fileclose")`. -/
  | fileclose
  /-- The file of a pipe has no page. -/
  | noPipe
  /-- `panic("init exiting")`. -/
  | initExiting
  /-- `nextpid` overflows. -/
  | nextpid
  /-- The process does not run, so it makes no call; or it is not there to be
  scheduled. -/
  | notTaken
  deriving DecidableEq

def initproc : Fin NPROC := 0

def O_WRONLY : UInt32 := 1

def O_RDWR : UInt32 := 2

/-- `wakeup1`, for one process. -/
def Proc.wake (chan : Chan) (pr : Proc) : Proc :=
  if pr.state = .sleeping ∧ pr.chan = some chan then { pr with state := .runnable } else pr

namespace Kernel

def setProc (st : Kernel) (p : Fin NPROC) (pr : Proc) : Kernel :=
  { st with proc := Function.update st.proc p pr }

def setState (st : Kernel) (p : Fin NPROC) (state : ProcState) : Kernel :=
  st.setProc p { st.proc p with state := state }

def setFd (st : Kernel) (p : Fin NPROC) (fd : Fin NOFILE) (x : Option (Fin NFILE)) : Kernel :=
  st.setProc p { st.proc p with ofile := Function.update (st.proc p).ofile fd x }

def setFile (st : Kernel) (f : Fin NFILE) (fp : File) : Kernel :=
  { st with file := Function.update st.file f fp }

@[simp] theorem setProc_self (st : Kernel) (p : Fin NPROC) (pr : Proc) :
    (st.setProc p pr).proc p = pr := Function.update_self _ _ _

theorem setProc_ne (st : Kernel) {p q : Fin NPROC} (pr : Proc) (hq : q ≠ p) :
    (st.setProc p pr).proc q = st.proc q := Function.update_of_ne hq _ _

@[simp] theorem setFile_self (st : Kernel) (f : Fin NFILE) (fp : File) :
    (st.setFile f fp).file f = fp := Function.update_self _ _ _

theorem setFile_ne (st : Kernel) {f g : Fin NFILE} (fp : File) (hg : g ≠ f) :
    (st.setFile f fp).file g = st.file g := Function.update_of_ne hg _ _

/-- `wakeup1`. -/
def wakeup1 (st : Kernel) (chan : Chan) : Kernel :=
  { st with proc := fun p => (st.proc p).wake chan }

/-! ## Files -/

/-- `filealloc`. -/
def filealloc (st : Kernel) : Option (Fin NFILE × Kernel) :=
  ((List.finRange NFILE).find? fun f => (st.file f).ref = 0).map fun f =>
    (f, st.setFile f { st.file f with ref := 1 })

/-- `filedup`. -/
def filedup (st : Kernel) (f : Fin NFILE) : Except Stop Kernel :=
  if (st.file f).ref < 1 then .error .filedup
  else .ok (st.setFile f { st.file f with ref := (st.file f).ref + 1 })

/-- `pipeclose`. -/
def pipeclose (st : Kernel) (k : Nat) (writable : Bool) : Except Stop Kernel :=
  match st.pages[k]? with
  | none => .error .noPipe
  | some page =>
      let st := st.wakeup1 (.pipe k (if writable then .nread else .nwrite))
      let pipe := page.pipe.closeEnd writable
      let frees := if pipe.Freed then page.frees + 1 else page.frees
      .ok { st with pages := st.pages.set k ⟨pipe, frees⟩ }

/-- `fileclose`. -/
def fileclose (st : Kernel) (f : Fin NFILE) : Except Stop Kernel :=
  let ff := st.file f
  if ff.ref < 1 then .error .fileclose
  else if 0 < ff.ref - 1 then .ok (st.setFile f { ff with ref := ff.ref - 1 })
  else
    let st := st.setFile f { ff with ref := 0, type := .none }
    match ff.type with
    | .pipe => st.pipeclose ff.pipe ff.writable
    | _ => .ok st

/-- `pipealloc`, with what `kalloc` returns. -/
def pipealloc (st : Kernel) (page : Option (Fin PIPESIZE → UInt8)) :
    Except Stop (Option (Fin NFILE × Fin NFILE) × Kernel) :=
  match st.filealloc with
  | none => .ok (none, st)
  | some (f0, st) =>
      match st.filealloc with
      | none => do
          let st ← st.fileclose f0
          .ok (none, st)
      | some (f1, st) =>
          match page with
          | none => do
              let st ← st.fileclose f0
              let st ← st.fileclose f1
              .ok (none, st)
          | some data =>
              let k := st.pages.length
              let st : Kernel := { st with pages := st.pages ++ [⟨Pipe.alloc data, 0⟩] }
              let st := st.setFile f0 { st.file f0 with
                type := .pipe, readable := true, writable := false, pipe := k }
              let st := st.setFile f1 { st.file f1 with
                type := .pipe, readable := false, writable := true, pipe := k }
              .ok (some (f0, f1), st)

/-- `argfd`. -/
def argfd (pr : Proc) (fd : Int) : Option (Fin NOFILE × Fin NFILE) :=
  if h : fd < 0 ∨ fd ≥ NOFILE then none
  else
    let fd : Fin NOFILE := ⟨fd.toNat, by omega⟩
    (pr.ofile fd).map (fd, ·)

/-- `fdalloc`. -/
def fdalloc (st : Kernel) (p : Fin NPROC) (f : Fin NFILE) :
    Option (Fin NOFILE × Kernel) :=
  ((List.finRange NOFILE).find? fun fd => ((st.proc p).ofile fd).isNone).map fun fd =>
    (fd, st.setFd p fd (some f))

/-- `sys_dup`. -/
def sysDup (st : Kernel) (p : Fin NPROC) (fd : Int) : Except Stop (Int × Kernel) :=
  match argfd (st.proc p) fd with
  | none => .ok (-1, st)
  | some (_, f) =>
      match st.fdalloc p f with
      | none => .ok (-1, st)
      | some (fd, st) => do
          let st ← st.filedup f
          .ok (fd.val, st)

/-- `sys_close`. -/
def sysClose (st : Kernel) (p : Fin NPROC) (fd : Int) : Except Stop (Int × Kernel) :=
  match argfd (st.proc p) fd with
  | none => .ok (-1, st)
  | some (fd, f) => do
      let st ← (st.setFd p fd none).fileclose f
      .ok (0, st)

/-- `sys_open`. `ip` says whether there is an inode that can be opened so. -/
def sysOpen (st : Kernel) (p : Fin NPROC) (ip : Bool) (omode : UInt32) :
    Except Stop (Int × Kernel) :=
  if ip = false then .ok (-1, st)
  else
    match st.filealloc with
    | none => .ok (-1, st)
    | some (f, st) =>
        match st.fdalloc p f with
        | none => do
            let st ← st.fileclose f
            .ok (-1, st)
        | some (fd, st) =>
            .ok (fd.val, st.setFile f { st.file f with
              type := .inode
              readable := omode &&& O_WRONLY = 0
              writable := omode &&& O_WRONLY ≠ 0 ∨ omode &&& O_RDWR ≠ 0 })

/-- `sys_pipe`, with what `kalloc` returns. -/
def sysPipe (st : Kernel) (p : Fin NPROC) (page : Option (Fin PIPESIZE → UInt8)) :
    Except Stop (Int × Kernel) := do
  let (files, st) ← st.pipealloc page
  match files with
  | none => .ok (-1, st)
  | some (rf, wf) =>
      match st.fdalloc p rf with
      | none => do
          let st ← st.fileclose rf
          let st ← st.fileclose wf
          .ok (-1, st)
      | some (fd0, st) =>
          match st.fdalloc p wf with
          | none => do
              let st ← (st.setFd p fd0 none).fileclose rf
              let st ← st.fileclose wf
              .ok (-1, st)
          | some (_, st) => .ok (0, st)

/-! ## Processes -/

/-- `allocproc`. `kstack` says whether `kalloc` has a page. -/
def allocproc (st : Kernel) (kstack : Bool) :
    Except Stop (Option (Fin NPROC) × Kernel) :=
  match (List.finRange NPROC).find? fun q => (st.proc q).state = .unused with
  | none => .ok (none, st)
  | some np =>
      if st.nextpid = 2 ^ 31 - 1 then .error .nextpid
      else
        let st : Kernel := { st.setProc np { st.proc np with
          state := .embryo, pid := st.nextpid } with nextpid := st.nextpid + 1 }
        if kstack then .ok (some np, st) else .ok (none, st.setState np .unused)

/-- A turn of the loop of `fork` over the files. -/
def dupFd (p np : Fin NPROC) (st : Kernel) (fd : Fin NOFILE) : Except Stop Kernel :=
  match (st.proc p).ofile fd with
  | none => .ok st
  | some f => do
      let st ← st.filedup f
      .ok (st.setFd np fd (some f))

/-- `fork`. `pgdir` says whether `copyuvm` succeeds. -/
def fork (st : Kernel) (p : Fin NPROC) (kstack pgdir : Bool) :
    Except Stop (Int × Kernel) := do
  let (np, st) ← st.allocproc kstack
  match np with
  | none => .ok (-1, st)
  | some np =>
      if pgdir then do
        let st := st.setProc np { st.proc np with parent := some p }
        let st ← (List.finRange NOFILE).foldlM (dupFd p np) st
        .ok ((st.proc np).pid, st.setState np .runnable)
      else .ok (-1, st.setState np .unused)

/-- A turn of the first loop of `exit`. -/
def closeFd (p : Fin NPROC) (st : Kernel) (fd : Fin NOFILE) : Except Stop Kernel :=
  match (st.proc p).ofile fd with
  | none => .ok st
  | some f => do
      let st ← st.fileclose f
      .ok (st.setFd p fd none)

/-- `wakeup1(curproc->parent)`. -/
def wakeParent (st : Kernel) (p : Fin NPROC) : Kernel :=
  match (st.proc p).parent with
  | some parent => st.wakeup1 (.proc parent)
  | none => st

/-- A turn of the second loop of `exit`, over the children. -/
def abandon (p : Fin NPROC) (st : Kernel) (q : Fin NPROC) : Kernel :=
  if (st.proc q).parent = some p then
    let st := st.setProc q { st.proc q with parent := some initproc }
    if (st.proc q).state = .zombie then st.wakeup1 (.proc initproc) else st
  else st

/-- `exit`. -/
def exit (st : Kernel) (p : Fin NPROC) : Except Stop Kernel :=
  if p = initproc then .error .initExiting
  else do
    let st ← (List.finRange NOFILE).foldlM (closeFd p) st
    let st := (List.finRange NPROC).foldl (abandon p) (st.wakeParent p)
    .ok (st.setState p .zombie)

/-- `wait`, from where it looks through the table up to where it returns or
sleeps. -/
def wait (st : Kernel) (p : Fin NPROC) : Option Int × Kernel :=
  match (List.finRange NPROC).find? fun q =>
      (st.proc q).parent = some p ∧ (st.proc q).state = .zombie with
  | some q =>
      (some (st.proc q).pid, st.setProc q { st.proc q with
        pid := 0, parent := none, killed := false, state := .unused })
  | none =>
      let havekids := (List.finRange NPROC).any fun q => (st.proc q).parent = some p
      if havekids = false ∨ (st.proc p).killed = true then (some (-1), st)
      else
        (none, st.setProc p { st.proc p with state := .sleeping, chan := some (.proc p) })

/-- `kill`. -/
def kill (st : Kernel) (pid : Int) : Int × Kernel :=
  match (List.finRange NPROC).find? fun q => (st.proc q).pid = pid with
  | none => (-1, st)
  | some q =>
      (0, st.setProc q { st.proc q with
        killed := true
        state := if (st.proc q).state = .sleeping then .runnable else (st.proc q).state })

end Kernel

/-! ## Steps -/

/-- A call of a running process, with the allocations that succeed. -/
inductive Call where
  | fork (kstack pgdir : Bool)
  | exit
  | wait
  | kill (pid : Int)
  | openInode (ip : Bool) (omode : UInt32)
  | dup (fd : Int)
  | pipe (page : Option (Fin PIPESIZE → UInt8))
  | close (fd : Int)
  | yield
  | sleep (chan : Chan)

inductive Event where
  | call (p : Fin NPROC) (c : Call)
  /-- The scheduler runs a process, and its `sleep` returns. -/
  | scheduler (p : Fin NPROC)
  /-- `wakeup`. -/
  | wakeup (chan : Chan)

namespace Kernel

/-- The value that a call returns. -/
def returns (x : Except Stop (Int × Kernel)) : Except Stop (Option Int × Kernel) :=
  x.map fun r => (some r.1, r.2)

/-- A call of process `p`, and the value that it returns, if it does. -/
def syscall (st : Kernel) (p : Fin NPROC) : Call → Except Stop (Option Int × Kernel)
  | .fork kstack pgdir => returns (st.fork p kstack pgdir)
  | .exit => (st.exit p).map (none, ·)
  | .wait => .ok (st.wait p)
  | .kill pid => returns (.ok (st.kill pid))
  | .openInode ip omode => returns (st.sysOpen p ip omode)
  | .dup fd => returns (st.sysDup p fd)
  | .pipe page => returns (st.sysPipe p page)
  | .close fd => returns (st.sysClose p fd)
  | .yield => .ok (none, st.setState p .runnable)
  | .sleep chan =>
      .ok (none, st.setProc p { st.proc p with state := .sleeping, chan := some chan })

def step (st : Kernel) : Event → Except Stop (Option Int × Kernel)
  | .call p c => if (st.proc p).state = .running then st.syscall p c else .error .notTaken
  | .scheduler p =>
      if (st.proc p).state = .runnable then
        .ok (none, st.setProc p { st.proc p with state := .running, chan := none })
      else .error .notTaken
  | .wakeup chan => .ok (none, st.wakeup1 chan)

def run (st : Kernel) : List Event → Except Stop Kernel
  | [] => .ok st
  | e :: es => do
      let (_, st) ← st.step e
      st.run es

end Kernel

/-- A slot of the table that was never used. -/
def Proc.zero : Proc :=
  { state := .unused, pid := 0, parent := none, chan := none, killed := false
    ofile := fun _ => none }

/-- The kernel after `userinit`. -/
def boot : Kernel :=
  { proc := Function.update (fun _ => Proc.zero) initproc
      { Proc.zero with state := .runnable, pid := 1 }
    nextpid := 2
    file := fun _ => { type := .none, ref := 0, readable := false, writable := false, pipe := 0 }
    pages := [] }

end SchoolStuff.Xv6.Procs
