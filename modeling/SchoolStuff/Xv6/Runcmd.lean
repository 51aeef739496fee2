import Mathlib.Logic.Function.Basic
import Mathlib.Logic.Relation
import SchoolStuff.Xv6.Dirs
import SchoolStuff.Xv6.Sh

/-!
# Xv6 — the shell runs a command (`sh.c`)

`runcmd` is the tree of the system calls that it makes: what comes behind a call
depends on what it returns. A place in the command line is the way to it from
its root, the last step first, and each `exec`, `fork` and `pipe` says for which
place it is made.

The processes of a command run in any order. The programs that they become make
any calls of their own.
-/

namespace SchoolStuff.Xv6.Sh

open CText (ascii)
open Dirs (NOFILE)

abbrev Text := List UInt8

/-- A step down from a command to one of its parts. -/
inductive Side where
  | sub
  | left
  | right
  deriving DecidableEq

abbrev Place := List Side

/-! ## The program -/

inductive Call where
  | print (fd : Int) (text : Text)
  | close (fd : Int)
  | openFile (file : Text) (mode : UInt32)
  | dup (fd : Int)
  /-- The place of the pipeline, if one makes the pipe. -/
  | pipe (a : Option Place)
  | wait

/-- What a call returns, and the two descriptors that `pipe` stores. -/
structure Ret where
  val : Int
  p0 : Int
  p1 : Int

/-- What a process of the shell has still to do. -/
inductive Prog where
  | exit
  | exec (a : Place) (argv : List Text) (failed : Prog)
  | fork (a : Place) (next : Int → Prog)
  | call (c : Call) (next : Ret → Prog)

/-- `panic`. -/
def panic (s : Text) : Prog := .call (.print 2 (s ++ ascii "\n")) fun _ => .exit

/-- `fork1`. -/
def fork1 (a : Place) (next : Int → Prog) : Prog :=
  .fork a fun pid => if pid = -1 then panic (ascii "fork") else next pid

/-- `runcmd`, of the command at a place. -/
def runcmd : Cmd Text → Place → Prog
  | .exec [], _ => .exit
  | .exec (arg :: args), a =>
      .exec a (arg :: args)
        (.call (.print 2 (ascii "exec " ++ arg ++ ascii " failed\n")) fun _ => .exit)
  | .redir cmd file mode fd, a =>
      .call (.close fd) fun _ =>
      .call (.openFile file mode) fun r =>
        if r.val < 0 then
          .call (.print 2 (ascii "open " ++ file ++ ascii " failed\n")) fun _ => .exit
        else runcmd cmd (.sub :: a)
  | .list left right, a =>
      fork1 (.left :: a) fun pid =>
        if pid = 0 then runcmd left (.left :: a)
        else .call .wait fun _ => runcmd right (.right :: a)
  | .pipe left right, a =>
      .call (.pipe (some a)) fun p =>
        if p.val < 0 then panic (ascii "pipe")
        else fork1 (.left :: a) fun pid =>
          if pid = 0 then
            .call (.close 1) fun _ =>
            .call (.dup p.p1) fun _ =>
            .call (.close p.p0) fun _ =>
            .call (.close p.p1) fun _ => runcmd left (.left :: a)
          else fork1 (.right :: a) fun pid =>
            if pid = 0 then
              .call (.close 0) fun _ =>
              .call (.dup p.p0) fun _ =>
              .call (.close p.p0) fun _ =>
              .call (.close p.p1) fun _ => runcmd right (.right :: a)
            else
              .call (.close p.p0) fun _ =>
              .call (.close p.p1) fun _ =>
              .call .wait fun _ => .call .wait fun _ => .exit
  | .back cmd, a =>
      fork1 (.sub :: a) fun pid => if pid = 0 then runcmd cmd (.sub :: a) else .exit

/-! ## The processes -/

/-- What a file descriptor stands for. -/
inductive Obj where
  | file (name : Text) (mode : UInt32)
  | pipe (k : Nat) (writable : Bool)
  deriving DecidableEq

/-- The descriptors of a process. Those below 0 and from `NOFILE` on are never open. -/
abbrev Fds := Int → Option Obj

/-- `fdalloc`: the first descriptor that is free. -/
def Fds.alloc (fds : Fds) : Option Int :=
  ((List.range NOFILE).find? fun fd : Nat => (fds (Int.ofNat fd)).isNone).map Int.ofNat

def Fds.set (fds : Fds) (fd : Int) (x : Option Obj) : Fds := Function.update fds fd x

inductive Code where
  /-- The shell. -/
  | sh (prog : Prog)
  /-- The program that is the `n`th in the list of those started. -/
  | program (n : Nat)
  /-- A process that this program has forked, or one that such a process has. -/
  | descendant (n : Nat)
  | zombie

structure Proc (ι : Type) where
  /-- None where the parent is outside. -/
  parent : Option ι
  /-- The place of the command that the process was forked for. -/
  place : Place
  fds : Fds
  code : Code

/-- A program that has been started. -/
structure Start where
  place : Place
  argv : List Text
  fds : Fds

structure World (ι : Type) where
  proc : ι → Option (Proc ι)
  /-- The pipes from this one on are still to be made. -/
  pipes : Nat
  /-- The pipes that pipelines have made, with their places. -/
  pipelines : List (Nat × Place)
  starts : List Start
  /-- A process of the shell was killed, or could not fork. -/
  lost : Bool

/-- A process whose parent exits. -/
def Proc.abandon {ι : Type} [DecidableEq ι] (p : ι) (child : Proc ι) : Proc ι :=
  if child.parent = some p then { child with parent := none } else child

namespace World

variable {ι : Type} [DecidableEq ι]

def set (w : World ι) (p : ι) (pr : Option (Proc ι)) : World ι :=
  { w with proc := Function.update w.proc p pr }

@[simp] theorem set_self (w : World ι) (p : ι) (pr : Option (Proc ι)) :
    (w.set p pr).proc p = pr := Function.update_self _ _ _

theorem set_ne (w : World ι) {p q : ι} (pr : Option (Proc ι)) (hq : q ≠ p) :
    (w.set p pr).proc q = w.proc q := Function.update_of_ne hq _ _

/-- A process exits, and its children are given away. -/
def exit (w : World ι) (p : ι) (pr : Proc ι) : World ι :=
  { w with proc := fun q =>
      if q = p then some { pr.abandon p with fds := fun _ => none, code := .zombie }
      else (w.proc q).map (Proc.abandon p) }

/-- A child of a process has all that the process has. -/
def fork (w : World ι) (p : ι) (pr : Proc ι) (q : ι) (place : Place) (code code' : Code) :
    World ι :=
  (w.set p (some { pr with code := code })).set q
    (some { pr with parent := some p, place := place, code := code' })

end World

variable {ι : Type} [DecidableEq ι]

/-- What a call of a process does to its descriptors, and to the processes. -/
inductive Does (w : World ι) (p : ι) (pr : Proc ι) : Call → Ret → Proc ι → World ι → Prop where
  | print {fd text r} : Does w p pr (.print fd text) r pr w
  | close {fd r} :
      Does w p pr (.close fd) r { pr with fds := pr.fds.set fd none } w
  | openFile {file mode fd r} (hfd : pr.fds.alloc = some fd) (hr : r.val = fd) :
      Does w p pr (.openFile file mode) r
        { pr with fds := pr.fds.set fd (some (.file file mode)) } w
  | openFails {file mode r} (hr : r.val = -1) : Does w p pr (.openFile file mode) r pr w
  | dup {old fd o r} (hold : pr.fds old = some o) (hfd : pr.fds.alloc = some fd) :
      Does w p pr (.dup old) r { pr with fds := pr.fds.set fd (some o) } w
  | dupFails {old r} (hno : pr.fds old = none ∨ pr.fds.alloc = none) :
      Does w p pr (.dup old) r pr w
  | pipe {a r k} (hk : w.pipes ≤ k) (hr : r.val = 0) (hp0 : pr.fds.alloc = some r.p0)
      (hp1 : (pr.fds.set r.p0 (some (.pipe k false))).alloc = some r.p1) :
      Does w p pr (.pipe a) r
        { pr with fds :=
            (pr.fds.set r.p0 (some (.pipe k false))).set r.p1 (some (.pipe k true)) }
        { w with pipes := k + 1, pipelines := w.pipelines ++ a.toList.map fun a => (k, a) }
  | pipeFails {a r} (hr : r.val = -1) : Does w p pr (.pipe a) r pr w
  | wait {q child r} (hq : w.proc q = some child) (hparent : child.parent = some p)
      (hzombie : child.code = .zombie) : Does w p pr .wait r pr (w.set q none)
  | waitFails {r} (hnone : ∀ q child, w.proc q = some child → child.parent ≠ some p) :
      Does w p pr .wait r pr w

/-- One step of the processes of a command. -/
inductive Step (w : World ι) : World ι → Prop where
  | exit {p pr} (hp : w.proc p = some pr) (hcode : pr.code = .sh .exit) : Step w (w.exit p pr)
  | exec {p pr a argv failed} (hp : w.proc p = some pr)
      (hcode : pr.code = .sh (.exec a argv failed)) :
      Step w { w.set p (some { pr with code := .program w.starts.length }) with
        starts := w.starts ++ [⟨a, argv, pr.fds⟩] }
  | execFails {p pr a argv failed} (hp : w.proc p = some pr)
      (hcode : pr.code = .sh (.exec a argv failed)) :
      Step w (w.set p (some { pr with code := .sh failed }))
  | fork {p pr a next q pid} (hp : w.proc p = some pr) (hcode : pr.code = .sh (.fork a next))
      (hq : w.proc q = none) (hpid : (0 : Int) < pid) :
      Step w (w.fork p pr q a (.sh (next pid)) (.sh (next 0)))
  | forkFails {p pr a next} (hp : w.proc p = some pr) (hcode : pr.code = .sh (.fork a next)) :
      Step w { w.set p (some { pr with code := .sh (next (-1)) }) with lost := true }
  | call {p pr c next r pr' w'} (hp : w.proc p = some pr) (hcode : pr.code = .sh (.call c next))
      (hdo : Does w p pr c r pr' w') :
      Step w (w'.set p (some { pr' with code := .sh (next r) }))
  /-- A program, or one of its descendants, makes a call. -/
  | userCall {p pr n c r pr' w'} (hp : w.proc p = some pr)
      (hcode : pr.code = .program n ∨ pr.code = .descendant n) (hc : ∀ a, c ≠ .pipe (some a))
      (hdo : Does w p pr c r pr' w') : Step w (w'.set p (some pr'))
  | userFork {p pr n q} (hp : w.proc p = some pr)
      (hcode : pr.code = .program n ∨ pr.code = .descendant n) (hq : w.proc q = none) :
      Step w (w.fork p pr q pr.place pr.code (.descendant n))
  | userExit {p pr n} (hp : w.proc p = some pr)
      (hcode : pr.code = .program n ∨ pr.code = .descendant n) : Step w (w.exit p pr)
  /-- A process of the shell is killed. -/
  | killed {p pr prog} (hp : w.proc p = some pr) (hcode : pr.code = .sh prog) :
      Step w { w.exit p pr with lost := true }
  /-- The parent outside waits. -/
  | reaped {p pr} (hp : w.proc p = some pr) (hparent : pr.parent = none)
      (hzombie : pr.code = .zombie) : Step w (w.set p none)

/-- The shell has forked a process for a command, with the descriptors `io`. -/
def World.start (c : Cmd Text) (io : Fds) (pipes : Nat) (p : ι) : World ι :=
  { proc := Function.update (fun _ => none) p
      (some { parent := none, place := [], fds := io, code := .sh (runcmd c []) })
    pipes := pipes, pipelines := [], starts := [], lost := false }

/-- The states that the processes of a command can come to. -/
abbrev Reaches (c : Cmd Text) (io : Fds) (pipes : Nat) (p : ι) (w : World ι) : Prop :=
  Relation.ReflTransGen Step (World.start c io pipes p) w

end SchoolStuff.Xv6.Sh
