import Mathlib.Data.Option.Basic
import SchoolStuff.Lib.Regions
import SchoolStuff.Xv6.Runcmd

/-!
# Xv6 — where a process of the shell is in its command

What the command line says about a place is the command there and where its
descriptors come from (`locate`). A process of the shell is at a place, at some
call of `runcmd`, with the descriptors of that call, parts of the command that it
has still to hand over, and children to wait for (`Stage`). Each call leads to
the next stage.
-/

namespace SchoolStuff.Xv6.Sh

open CText (ascii)
open Dirs (NOFILE)
open Regions (Under)

/-! ## The command line -/

/-- Where a descriptor comes from. -/
inductive Source where
  | inherited (fd : Int)
  | file (name : Text) (mode : UInt32)
  /-- An end of the pipe of the pipeline at a place. -/
  | pipeEnd (a : Place) (writable : Bool)
  deriving DecidableEq

abbrev Sources := Int → Option Source

/-- Standard input, output and error, as the shell has them. -/
def standard : Sources := fun fd => if 0 ≤ fd ∧ fd < 3 then some (.inherited fd) else none

def Cmd.part {α : Type} : Cmd α → Side → Option (Cmd α)
  | .redir cmd _ _ _, .sub => some cmd
  | .back cmd, .sub => some cmd
  | .pipe left _, .left => some left
  | .pipe _ right, .right => some right
  | .list left _, .left => some left
  | .list _ right, .right => some right
  | _, _ => none

/-- What a command at a place changes for one of its parts. -/
def wire (a : Place) : Cmd Text → Side → Sources → Sources
  | .redir _ file mode fd, .sub, src => Function.update src fd (some (.file file mode))
  | .pipe _ _, .left, src => Function.update src 1 (some (.pipeEnd a true))
  | .pipe _ _, .right, src => Function.update src 0 (some (.pipeEnd a false))
  | _, _, src => src

/-- The command at a place, with its descriptors. -/
def locate (c : Cmd Text) : Place → Option (Cmd Text × Sources)
  | [] => some (c, standard)
  | s :: a => (locate c a).bind fun x => (x.1.part s).map fun cmd => (cmd, wire a x.1 s x.2)

/-- Only standard descriptors are redirected. -/
def Cmd.Standard {α : Type} : Cmd α → Prop
  | .exec _ => True
  | .redir cmd _ _ fd => (0 ≤ fd ∧ fd < 3) ∧ cmd.Standard
  | .pipe left right => left.Standard ∧ right.Standard
  | .list left right => left.Standard ∧ right.Standard
  | .back cmd => cmd.Standard

variable {c : Cmd Text} {a b : Place} {cmd l r : Cmd Text} {src : Sources}

theorem locate_cons {s : Side} (h : locate c a = some (cmd, src)) {part : Cmd Text}
    (hpart : cmd.part s = some part) : locate c (s :: a) = some (part, wire a cmd s src) := by
  rw [locate, h, Option.bind_some, hpart, Option.map_some]

/-- A part that is there is one of a command. -/
theorem locate_up {s : Side} (h : locate c (s :: a) = some (cmd, src)) :
    ∃ whole src', locate c a = some (whole, src') ∧ whole.part s = some cmd
      ∧ src = wire a whole s src' := by
  obtain ⟨⟨whole, src'⟩, hat, hmap⟩ := Option.bind_eq_some_iff.1 h
  obtain ⟨part, hpart, heq⟩ := Option.map_eq_some_iff.1 hmap
  cases heq
  exact ⟨whole, src', hat, hpart, rfl⟩

theorem standard_part (h : cmd.Standard) {s : Side} (hpart : cmd.part s = some r) :
    r.Standard := by
  cases cmd <;> cases s <;> simp only [Cmd.part, Option.some.injEq, reduceCtorEq] at hpart <;>
    subst hpart <;> simp only [Cmd.Standard] at h
  · exact h.2
  · exact h.1
  · exact h.2
  · exact h.1
  · exact h.2
  · exact h

/-- The descriptors are the three standard ones. -/
def Three (src : Sources) : Prop := ∀ fd, (src fd).isSome ↔ 0 ≤ fd ∧ fd < 3

theorem Three.update (h : Three src) {fd : Int} (hfd : 0 ≤ fd ∧ fd < 3) (x : Source) :
    Three (Function.update src fd (some x)) := by
  intro fd'
  by_cases heq : fd' = fd
  · rw [heq, Function.update_self]
    exact iff_of_true rfl hfd
  · rw [Function.update_of_ne heq]
    exact h fd'

theorem three_wire (h : Three src) (hstd : cmd.Standard) (s : Side) : Three (wire a cmd s src) := by
  cases cmd <;> cases s <;>
    first
    | exact h
    | exact h.update hstd.1 _
    | exact h.update ⟨by decide, by decide⟩ _

/-- Every command of a line has the three standard descriptors. -/
theorem locate_three (hstd : c.Standard) (h : locate c a = some (cmd, src)) :
    cmd.Standard ∧ Three src := by
  induction a generalizing cmd src with
  | nil =>
      cases h
      refine ⟨hstd, fun fd => ?_⟩
      unfold standard
      split
      · exact iff_of_true rfl ‹_›
      · exact iff_of_false (by decide) ‹_›
  | cons s a ih =>
      obtain ⟨whole, src', hat, hpart, rfl⟩ := locate_up h
      obtain ⟨hstd', hthree⟩ := ih hat
      exact ⟨standard_part hstd' hpart, three_wire hthree hstd' s⟩

/-- A pipe end comes from a pipeline above, from the side of it that the place is on. -/
theorem side_of_pipeEnd (h : locate c b = some (cmd, src)) {fd : Int} {writable : Bool}
    (hfd : src fd = some (.pipeEnd a writable)) :
    (if writable then Side.left else .right) :: a <:+ b
      ∧ ∃ l r src', locate c a = some (.pipe l r, src') := by
  induction b generalizing cmd src with
  | nil =>
      cases h
      unfold standard at hfd
      split at hfd <;> cases hfd
  | cons s b ih =>
      obtain ⟨whole, src', hat, hpart, rfl⟩ := locate_up h
      have hold : src' fd = some (.pipeEnd a writable) →
          (if writable then Side.left else .right) :: a <:+ s :: b
            ∧ ∃ l r src', locate c a = some (.pipe l r, src') := by
        intro hold
        obtain ⟨hside, hpipe⟩ := ih hat hold
        exact ⟨hside.trans (List.suffix_cons s b), hpipe⟩
      have hset : ∀ {fd' : Int} {x : Source}, Function.update src' fd' (some x) fd
          = some (.pipeEnd a writable) → x = .pipeEnd a writable
            ∨ src' fd = some (.pipeEnd a writable) := by
        intro fd' x hx
        by_cases heq : fd = fd'
        · rw [heq, Function.update_self] at hx
          exact .inl (Option.some.inj hx)
        · rw [Function.update_of_ne heq] at hx
          exact .inr hx
      cases whole <;> cases s <;> simp only [Cmd.part, reduceCtorEq] at hpart <;>
        try exact hold hfd
      · exact (hset hfd).elim (fun heq => nomatch heq) hold
      · rcases hset hfd with heq | hfd
        · cases heq
          exact ⟨List.suffix_rfl, _, _, _, hat⟩
        · exact hold hfd
      · rcases hset hfd with heq | hfd
        · cases heq
          exact ⟨List.suffix_rfl, _, _, _, hat⟩
        · exact hold hfd

/-! ## Descriptors -/

/-- The descriptors that `pipe` adds to the standard ones. -/
def piped (src : Sources) (a : Place) : Sources :=
  Function.update (Function.update src 3 (some (.pipeEnd a false))) 4 (some (.pipeEnd a true))

/-- What a descriptor stands for comes from there. -/
def Means (io : Fds) (made : List (Nat × Place)) (o : Obj) : Source → Prop
  | .inherited fd => io fd = some o
  | .file name mode => o = .file name mode
  | .pipeEnd a writable => ∃ k, (k, a) ∈ made ∧ o = .pipe k writable

/-- Each descriptor is open if it should be, and comes from where it should. -/
def Matches (io : Fds) (made : List (Nat × Place)) (fds : Fds) (src : Sources) : Prop :=
  ∀ fd, Option.Rel (Means io made) (fds fd) (src fd)

variable {io fds : Fds} {made made' : List (Nat × Place)}

theorem Means.mono {o : Obj} {x : Source} (h : Means io made o x) (hsub : made ⊆ made') :
    Means io made' o x := by
  cases x with
  | inherited fd => exact h
  | file name mode => exact h
  | pipeEnd a writable =>
      obtain ⟨k, hk, ho⟩ := h
      exact ⟨k, hsub hk, ho⟩

theorem Matches.mono (h : Matches io made fds src) (hsub : made ⊆ made') :
    Matches io made' fds src := by
  intro fd
  have hfd := h fd
  generalize fds fd = o at hfd ⊢
  generalize src fd = x at hfd ⊢
  cases hfd with
  | some hmeans => exact .some (hmeans.mono hsub)
  | none => exact .none

theorem Matches.set (h : Matches io made fds src) (fd : Int) {o : Option Obj}
    {x : Option Source} (hx : Option.Rel (Means io made) o x) :
    Matches io made (fds.set fd o) (Function.update src fd x) := by
  intro fd'
  unfold Fds.set
  by_cases heq : fd' = fd
  · rw [heq, Function.update_self, Function.update_self]
    exact hx
  · rw [Function.update_of_ne heq, Function.update_of_ne heq]
    exact h fd'

theorem Matches.none_iff (h : Matches io made fds src) (fd : Int) :
    fds fd = none ↔ src fd = none := by
  have hfd := h fd
  generalize fds fd = o at hfd ⊢
  generalize src fd = x at hfd ⊢
  cases hfd with
  | some _ => exact iff_of_false nofun nofun
  | none => exact iff_of_true rfl rfl

/-- The lowest descriptor that is free is allocated. -/
theorem alloc_eq {n : Nat} (hn : n < NOFILE) (hfree : fds (Int.ofNat n) = none)
    (hused : ∀ m < n, fds (Int.ofNat m) ≠ none) : fds.alloc = some (Int.ofNat n) := by
  unfold Fds.alloc
  have hfind :
      (List.range NOFILE).find? (fun fd : Nat => (fds (Int.ofNat fd)).isNone) = some n := by
    rw [List.find?_range_eq_some]
    refine ⟨by rw [hfree]; rfl, List.mem_range.2 hn, fun m hm => ?_⟩
    rw [Bool.not_eq_true', Option.isNone_eq_false_iff, Option.isSome_iff_ne_none]
    exact hused m hm
  rw [hfind]
  rfl

/-! ## Stages -/

/-- `REDIR`, behind `close`. -/
def opening (cmd : Cmd Text) (file : Text) (mode : UInt32) (a : Place) : Prog :=
  .call (.openFile file mode) fun r =>
    if r.val < 0 then
      .call (.print 2 (ascii "open " ++ file ++ ascii " failed\n")) fun _ => .exit
    else runcmd cmd (.sub :: a)

/-- `PIPE`, where it forks for the right side. -/
def forkRight (r : Cmd Text) (a : Place) (p : Ret) : Prog :=
  fork1 (.right :: a) fun pid =>
    if pid = 0 then
      .call (.close 0) fun _ =>
      .call (.dup p.p0) fun _ =>
      .call (.close p.p0) fun _ =>
      .call (.close p.p1) fun _ => runcmd r (.right :: a)
    else
      .call (.close p.p0) fun _ =>
      .call (.close p.p1) fun _ =>
      .call .wait fun _ => .call .wait fun _ => .exit

/-- `PIPE`, where it forks for the left side. -/
def forkLeft (l r : Cmd Text) (a : Place) (p : Ret) : Prog :=
  fork1 (.left :: a) fun pid =>
    if pid = 0 then
      .call (.close 1) fun _ =>
      .call (.dup p.p1) fun _ =>
      .call (.close p.p0) fun _ =>
      .call (.close p.p1) fun _ => runcmd l (.left :: a)
    else forkRight r a p

/-- All that is left is to exit, perhaps with a message. -/
inductive Ending : Prog → Prop where
  | exit : Ending .exit
  | print (fd : Int) (text : Text) : Ending (.call (.print fd text) fun _ => .exit)

theorem ending_panic (s : Text) : Ending (panic s) := .print _ _

/-- A process at a place, with its descriptors, the parts that it has still to hand over
and the number of its children; and whether it has more to do than to exit. -/
inductive Stage (c : Cmd Text) (io : Fds) (made : List (Nat × Place)) :
    Place → Prog → Fds → List Place → Nat → Bool → Prop where
  | run {a : Place} {cmd : Cmd Text} {src : Sources} {fds : Fds}
      (hat : locate c a = some (cmd, src)) (hfds : Matches io made fds src) :
      Stage c io made a (runcmd cmd a) fds [a] 0 true
  | opening {a : Place} {cmd : Cmd Text} {file mode fd} {src : Sources} {fds : Fds}
      (hat : locate c a = some (.redir cmd file mode fd, src))
      (hfds : Matches io made fds (Function.update src fd none)) :
      Stage c io made a (opening cmd file mode a) fds [.sub :: a] 0 true
  | listWait {a : Place} {l r : Cmd Text} {src : Sources} {fds : Fds}
      (hat : locate c a = some (.list l r, src)) (hfds : Matches io made fds src) :
      Stage c io made a (.call .wait fun _ => runcmd r (.right :: a)) fds [.right :: a] 1 true
  | forkLeft {a : Place} {l r : Cmd Text} {src : Sources} {fds : Fds} {p : Ret}
      (hat : locate c a = some (.pipe l r, src)) (hfds : Matches io made fds (piped src a))
      (hp0 : p.p0 = 3) (hp1 : p.p1 = 4) :
      Stage c io made a (forkLeft l r a p) fds [.left :: a, .right :: a] 0 true
  | forkRight {a : Place} {l r : Cmd Text} {src : Sources} {fds : Fds} {p : Ret}
      (hat : locate c a = some (.pipe l r, src)) (hfds : Matches io made fds (piped src a))
      (hp0 : p.p0 = 3) (hp1 : p.p1 = 4) :
      Stage c io made a (forkRight r a p) fds [.right :: a] 1 true
  | waitTwo {a : Place} {l r : Cmd Text} {src : Sources} {fds : Fds}
      (hat : locate c a = some (.pipe l r, src)) (hfds : Matches io made fds src) :
      Stage c io made a (.call .wait fun _ => .call .wait fun _ => .exit) fds [] 2 true
  | waitOne {a : Place} {l r : Cmd Text} {src : Sources} {fds : Fds}
      (hat : locate c a = some (.pipe l r, src)) (hfds : Matches io made fds src) :
      Stage c io made a (.call .wait fun _ => .exit) fds [] 1 true
  | close {a : Place} {fd next} {fds : Fds} {os n live}
      (h : Stage c io made a next (fds.set fd none) os n live) :
      Stage c io made a (.call (.close fd) fun _ => next) fds os n live
  | dup {a : Place} {old fd o next} {fds : Fds} {os n live} (hold : fds old = some o)
      (hfd : fds.alloc = some fd) (h : Stage c io made a next (fds.set fd (some o)) os n live) :
      Stage c io made a (.call (.dup old) fun _ => next) fds os n live
  | ending {a : Place} {prog} {fds : Fds} {n} (h : Ending prog) :
      Stage c io made a prog fds [] n false

/-- From a place to one that the same process comes to. -/
inductive Down (c : Cmd Text) : Place → Place → Prop where
  | refl {a : Place} : Down c a a
  | sub {a b : Place} {cmd : Cmd Text} {file mode fd} {src : Sources} (h : Down c a b)
      (hat : locate c b = some (.redir cmd file mode fd, src)) : Down c a (.sub :: b)
  | right {a b : Place} {l r : Cmd Text} {src : Sources} (h : Down c a b)
      (hat : locate c b = some (.list l r, src)) :
      Down c a (.right :: b)

variable {prog : Prog} {os : List Place} {n : Nat} {live : Bool}

theorem Down.suffix (h : Down c a b) : a <:+ b := by
  induction h with
  | refl => exact List.suffix_rfl
  | sub _ _ ih => exact ih.trans (List.suffix_cons _ _)
  | right _ _ ih => exact ih.trans (List.suffix_cons _ _)

theorem Down.trans {d : Place} (h : Down c a b) (h' : Down c b d) : Down c a d := by
  induction h' with
  | refl => exact h
  | sub _ hat ih => exact .sub ih hat
  | right _ hat ih => exact .right ih hat

/-- A place where there is more to do is one of the command line. -/
theorem Stage.located (h : Stage c io made a prog fds os n live) (hlive : live = true) :
    (locate c a).isSome := by
  induction h with
  | ending _ => cases hlive
  | close _ ih => exact ih hlive
  | dup _ _ _ ih => exact ih hlive
  | _ hat => exact Option.isSome_iff_exists.2 ⟨_, hat⟩

theorem Stage.mono (h : Stage c io made a prog fds os n live) (hsub : made ⊆ made') :
    Stage c io made' a prog fds os n live := by
  induction h with
  | run hat hfds => exact .run hat (hfds.mono hsub)
  | opening hat hfds => exact .opening hat (hfds.mono hsub)
  | listWait hat hfds => exact .listWait hat (hfds.mono hsub)
  | forkLeft hat hfds hp0 hp1 => exact .forkLeft hat (hfds.mono hsub) hp0 hp1
  | forkRight hat hfds hp0 hp1 => exact .forkRight hat (hfds.mono hsub) hp0 hp1
  | waitTwo hat hfds => exact .waitTwo hat (hfds.mono hsub)
  | waitOne hat hfds => exact .waitOne hat (hfds.mono hsub)
  | close _ ih => exact .close ih
  | dup hold hfd _ ih => exact .dup hold hfd ih
  | ending h => exact .ending h

/-! ### What a pipeline leaves -/

theorem Three.none (h : Three src) {fd : Int} (hfd : 3 ≤ fd) : src fd = none := by
  rw [← Option.not_isSome_iff_eq_none, h fd]
  omega

/-- When both ends are closed, the descriptors are those of before. -/
theorem unpiped (hthree : Three src) (a : Place) :
    Function.update (Function.update (piped src a) 3 none) 4 none = src := by
  funext fd
  by_cases h4 : fd = 4
  · rw [h4, Function.update_self, hthree.none (by decide)]
  rw [Function.update_of_ne h4]
  by_cases h3 : fd = 3
  · rw [h3, Function.update_self, hthree.none (by decide)]
  rw [Function.update_of_ne h3, piped, Function.update_of_ne h4, Function.update_of_ne h3]

theorem piped_low {fd : Int} (hfd : fd < 3) : piped src a fd = src fd := by
  rw [piped, Function.update_of_ne (by omega), Function.update_of_ne (by omega)]

/-- What is closed below 3 is allocated next. -/
theorem alloc_closed {src' : Sources} (hthree : Three src) (hlow : ∀ fd < 3, src' fd = src fd)
    {fd : Int} (hfd : 0 ≤ fd ∧ fd < 3)
    (hfds : Matches io made fds (Function.update src' fd none)) : fds.alloc = some fd := by
  obtain ⟨n, rfl⟩ := Int.eq_ofNat_of_zero_le hfd.1
  refine alloc_eq (lt_trans (Int.ofNat_lt.1 hfd.2) (by decide)) ?_ fun m hm => ?_
  · rw [Int.ofNat_eq_natCast, hfds.none_iff, Function.update_self]
  · rw [Int.ofNat_eq_natCast, Ne, hfds.none_iff, Function.update_of_ne (by omega),
      hlow _ (by omega), ← Option.not_isSome_iff_eq_none, hthree]
    omega

/-- A side of a pipeline puts its end of the pipe in place of a standard descriptor. -/
theorem side_stage {s : Side} {fd old : Int} {x : Source}
    (hat : locate c (s :: a) = some (cmd, Function.update src fd (some x)))
    (hthree : Three src) (hfds : Matches io made fds (piped src a))
    (hfd : 0 ≤ fd ∧ fd < 3) (hold : 3 ≤ old) (hx : piped src a old = some x) :
    Stage c io made (s :: a) (.call (.close fd) fun _ => .call (.dup old) fun _ =>
      .call (.close 3) fun _ => .call (.close 4) fun _ => runcmd cmd (s :: a)) fds [s :: a] 0
      true := by
  have hrel := hfds old
  rw [hx] at hrel
  generalize hfo : fds old = fo at hrel
  cases hrel with
  | @some o _ hmeans =>
      have hclosed := hfds.set fd .none
      have hsame : (fds.set fd none) old = some o := by
        unfold Fds.set
        rw [Function.update_of_ne (by omega), hfo]
      have halloc := alloc_closed hthree (fun _ => piped_low) hfd hclosed
      refine .close (.dup hsame halloc (.close (.close (.run hat ?_))))
      have hend := ((hclosed.set fd (.some hmeans)).set 3 .none).set 4 .none
      rw [Function.update_idem, Function.update_comm (show fd ≠ 3 by omega),
        Function.update_comm (show fd ≠ 4 by omega), unpiped hthree] at hend
      exact hend

/-! ### What the calls lead to -/

/-- Where `runcmd` begins with a call. -/
theorem runcmd_call {cl : Call} {next : Ret → Prog} (h : Prog.call cl next = runcmd cmd a) :
    (∃ part file mode fd, cmd = .redir part file mode fd ∧ cl = .close fd
        ∧ next = fun _ => opening part file mode a)
      ∨ ∃ l r, cmd = .pipe l r ∧ cl = .pipe (some a)
        ∧ next = fun p => if p.val < 0 then panic (ascii "pipe") else forkLeft l r a p := by
  cases cmd with
  | exec argv => cases argv <;> cases h
  | redir part file mode fd =>
      cases h
      exact .inl ⟨part, file, mode, fd, rfl, rfl, rfl⟩
  | pipe l r =>
      cases h
      exact .inr ⟨l, r, rfl, rfl, rfl⟩
  | list l r => cases h
  | back part => cases h

/-- The next stage, at the same place or at one further down. -/
def Goes (c : Cmd Text) (io : Fds) (made : List (Nat × Place)) (a : Place) (prog : Prog)
    (fds : Fds) (os : List Place) (n : Nat) (live : Bool) : Prop :=
  ∃ a' os' live', Down c a a' ∧ Stage c io made a' prog fds os' n live'
    ∧ (∀ x, Under os' x → Under os x) ∧ (live = true → 0 < n → a' = a ∧ live' = true)

theorem Stage.goes (h : Stage c io made a prog fds os n live) :
    Goes c io made a prog fds os n live :=
  ⟨a, os, live, .refl, h, fun _ hx => hx, fun hlive _ => ⟨rfl, hlive⟩⟩

theorem Ending.goes (h : Ending prog) (hn : live = true → n = 0) :
    Goes c io made a prog fds os n live := by
  refine ⟨a, [], false, .refl, .ending h, fun x hx => absurd hx Regions.not_under_nil, ?_⟩
  intro hlive hpos
  exact absurd (hn hlive) (by omega)

theorem Stage.print {fd : Int} {text : Text} {next : Ret → Prog}
    (h : Stage c io made a (.call (.print fd text) next) fds os n live) (r : Ret) :
    Goes c io made a (next r) fds os n live := by
  generalize hprog : Prog.call (.print fd text) next = prog at h
  cases h with
  | run hat hfds =>
      obtain ⟨_, _, _, _, _, h, _⟩ | ⟨_, _, _, h, _⟩ := runcmd_call hprog <;> cases h
  | ending hend =>
      cases hend <;> cases hprog
      exact Ending.exit.goes nofun
  | _ => cases hprog

theorem Stage.closes {fd : Int} {next : Ret → Prog}
    (h : Stage c io made a (.call (.close fd) next) fds os n live) (r : Ret) :
    Goes c io made a (next r) (fds.set fd none) os n live := by
  generalize hprog : Prog.call (.close fd) next = prog at h
  cases h with
  | run hat hfds =>
      obtain ⟨_, _, _, _, rfl, h, rfl⟩ | ⟨_, _, _, h, _⟩ := runcmd_call hprog <;> cases h
      refine ⟨a, _, true, .refl, .opening hat (hfds.set fd .none), fun x hx => ?_,
        fun _ _ => ⟨rfl, rfl⟩⟩
      rw [Regions.under_singleton] at hx ⊢
      exact Regions.below_of_below hx
  | close h =>
      cases hprog
      exact h.goes
  | ending hend => cases hend <;> cases hprog
  | _ => cases hprog

theorem Stage.openFails {file : Text} {mode : UInt32} {next : Ret → Prog}
    (h : Stage c io made a (.call (.openFile file mode) next) fds os n live) {r : Ret}
    (hr : r.val = -1) : Goes c io made a (next r) fds os n live := by
  generalize hprog : Prog.call (.openFile file mode) next = prog at h
  cases h with
  | run hat hfds =>
      obtain ⟨_, _, _, _, _, h, _⟩ | ⟨_, _, _, h, _⟩ := runcmd_call hprog <;> cases h
  | opening hat hfds =>
      cases hprog
      simp only
      rw [if_pos (by rw [hr]; decide)]
      exact (Ending.print _ _).goes fun _ => rfl
  | ending hend => cases hend <;> cases hprog
  | _ => cases hprog

theorem Stage.opens (hstd : c.Standard) {file : Text} {mode : UInt32} {next : Ret → Prog}
    (h : Stage c io made a (.call (.openFile file mode) next) fds os n live) {r : Ret} {fd : Int}
    (hfd : fds.alloc = some fd) (hr : r.val = fd) :
    Goes c io made a (next r) (fds.set fd (some (.file file mode))) os n live := by
  generalize hprog : Prog.call (.openFile file mode) next = prog at h
  cases h with
  | run hat hfds =>
      obtain ⟨_, _, _, _, _, h, _⟩ | ⟨_, _, _, h, _⟩ := runcmd_call hprog <;> cases h
  | opening hat hfds =>
      cases hprog
      simp only
      obtain ⟨⟨hrange, _⟩, hthree⟩ := locate_three hstd hat
      have halloc := alloc_closed hthree (fun _ _ => rfl) hrange hfds
      rw [halloc] at hfd
      cases hfd
      rw [if_neg (by omega)]
      refine ⟨_, _, true, .sub .refl hat, .run (locate_cons hat rfl) ?_, fun x hx => hx,
        fun _ hpos => absurd hpos (Nat.lt_irrefl 0)⟩
      have hset := hfds.set fd
        (.some (show Means io made (.file file mode) (.file file mode) from rfl))
      rwa [Function.update_idem] at hset
  | ending hend => cases hend <;> cases hprog
  | _ => cases hprog

theorem Stage.dups {old fd : Int} {o : Obj} {next : Ret → Prog}
    (h : Stage c io made a (.call (.dup old) next) fds os n live) (hold : fds old = some o)
    (hfd : fds.alloc = some fd) (r : Ret) :
    Goes c io made a (next r) (fds.set fd (some o)) os n live := by
  generalize hprog : Prog.call (.dup old) next = prog at h
  cases h with
  | run hat hfds =>
      obtain ⟨_, _, _, _, _, h, _⟩ | ⟨_, _, _, h, _⟩ := runcmd_call hprog <;> cases h
  | dup hold' hfd' h =>
      cases hprog
      rw [hold] at hold'
      rw [hfd] at hfd'
      cases hold'
      cases hfd'
      exact h.goes
  | ending hend => cases hend <;> cases hprog
  | _ => cases hprog

/-- `dup` has a file and a free descriptor. -/
theorem Stage.dup_ok {old : Int} {next : Ret → Prog}
    (h : Stage c io made a (.call (.dup old) next) fds os n live) :
    ¬(fds old = none ∨ fds.alloc = none) := by
  generalize hprog : Prog.call (.dup old) next = prog at h
  cases h with
  | run hat hfds =>
      obtain ⟨_, _, _, _, _, h, _⟩ | ⟨_, _, _, h, _⟩ := runcmd_call hprog <;> cases h
  | dup hold hfd h =>
      cases hprog
      rw [hold, hfd]
      exact fun hno => hno.elim nofun nofun
  | ending hend => cases hend <;> cases hprog
  | _ => cases hprog

/-- A call of `wait` has a child to wait for. -/
theorem Stage.waits {next : Ret → Prog}
    (h : Stage c io made a (.call .wait next) fds os n live) (r : Ret) :
    ∃ n', n = n' + 1 ∧ Goes c io made a (next r) fds os n' live := by
  generalize hprog : Prog.call .wait next = prog at h
  cases h with
  | run hat hfds =>
      obtain ⟨_, _, _, _, _, h, _⟩ | ⟨_, _, _, h, _⟩ := runcmd_call hprog <;> cases h
  | listWait hat hfds =>
      cases hprog
      exact ⟨0, rfl, _, _, true, .right .refl hat, .run (locate_cons hat rfl) hfds,
        fun x hx => hx, fun _ hpos => absurd hpos (Nat.lt_irrefl 0)⟩
  | waitTwo hat hfds =>
      cases hprog
      exact ⟨1, rfl, (Stage.waitOne hat hfds).goes⟩
  | waitOne hat hfds =>
      cases hprog
      exact ⟨0, rfl, Ending.exit.goes fun _ => rfl⟩
  | ending hend => cases hend <;> cases hprog
  | _ => cases hprog

theorem Stage.pipeFails {b : Option Place} {next : Ret → Prog}
    (h : Stage c io made a (.call (.pipe b) next) fds os n live) {r : Ret} (hr : r.val = -1) :
    Goes c io made a (next r) fds os n live := by
  generalize hprog : Prog.call (.pipe b) next = prog at h
  cases h with
  | run hat hfds =>
      obtain ⟨_, _, _, _, _, h, _⟩ | ⟨_, _, rfl, h, rfl⟩ := runcmd_call hprog <;> cases h
      simp only
      rw [if_pos (by rw [hr]; decide)]
      exact (ending_panic _).goes fun _ => rfl
  | ending hend => cases hend <;> cases hprog
  | _ => cases hprog

/-- A pipeline makes its pipe, and has both sides still to hand over, but no longer
itself. -/
theorem Stage.pipes (hstd : c.Standard) {b : Option Place} {next : Ret → Prog}
    (h : Stage c io made a (.call (.pipe b) next) fds os n live) {r : Ret} {k : Nat}
    (hr : r.val = 0) (hp0 : fds.alloc = some r.p0)
    (hp1 : (fds.set r.p0 (some (.pipe k false))).alloc = some r.p1) :
    b = some a ∧ os = [a] ∧ n = 0 ∧ Stage c io (made ++ [(k, a)]) a (next r)
      ((fds.set r.p0 (some (.pipe k false))).set r.p1 (some (.pipe k true)))
      [.left :: a, .right :: a] 0 true := by
  generalize hprog : Prog.call (.pipe b) next = prog at h
  cases h with
  | @run _ src _ hat hfds =>
      obtain ⟨_, _, _, _, _, h, _⟩ | ⟨_, _, rfl, h, rfl⟩ := runcmd_call hprog <;> cases h
      obtain ⟨_, hthree⟩ := locate_three hstd hat
      have h3 : fds.alloc = some 3 := by
        refine alloc_eq (n := 3) (by decide) ?_ fun m hm => ?_
        · exact (hfds.none_iff 3).2 (hthree.none (by decide))
        · rw [Ne, hfds.none_iff, ← Option.not_isSome_iff_eq_none, hthree]
          simp only [Int.ofNat_eq_natCast]
          omega
      rw [h3] at hp0
      have hr0 : r.p0 = 3 := (Option.some.inj hp0).symm
      have hmem : (k, a) ∈ made ++ [(k, a)] := List.mem_append_right _ (List.mem_singleton_self _)
      have hone := (hfds.mono (List.subset_append_left made [(k, a)])).set 3
        (.some (show Means io _ (.pipe k false) (.pipeEnd a false) from ⟨k, hmem, rfl⟩))
      have h4 : (fds.set 3 (some (.pipe k false))).alloc = some 4 := by
        refine alloc_eq (n := 4) (by decide) ?_ fun m hm => ?_
        · rw [hone.none_iff]
          exact hthree.none (by decide)
        · rw [Ne, hone.none_iff]
          by_cases hm3 : m = 3
          · rw [hm3]
            exact nofun
          · rw [Function.update_of_ne (by simp only [Int.ofNat_eq_natCast]; omega),
              ← Option.not_isSome_iff_eq_none, hthree]
            simp only [Int.ofNat_eq_natCast]
            omega
      rw [hr0] at hp1 ⊢
      rw [h4] at hp1
      have hr1 : r.p1 = 4 := (Option.some.inj hp1).symm
      rw [hr1]
      have htwo := hone.set 4
        (.some (show Means io _ (.pipe k true) (.pipeEnd a true) from ⟨k, hmem, rfl⟩))
      refine ⟨rfl, rfl, rfl, ?_⟩
      simp only
      rw [if_neg (by omega)]
      exact .forkLeft hat htwo hr0 hr1
  | ending hend => cases hend <;> cases hprog
  | _ => cases hprog

/-- Where `runcmd` begins with `fork`. -/
theorem runcmd_fork {next : Int → Prog} (h : Prog.fork b next = runcmd cmd a) :
    (∃ l r, cmd = .list l r ∧ Prog.fork b next = fork1 (.left :: a) fun pid =>
        if pid = 0 then runcmd l (.left :: a)
        else .call .wait fun _ => runcmd r (.right :: a))
      ∨ ∃ part, cmd = .back part ∧ Prog.fork b next = fork1 (.sub :: a) fun pid =>
        if pid = 0 then runcmd part (.sub :: a) else .exit := by
  cases cmd with
  | exec argv => cases argv <;> cases h
  | redir part file mode fd => cases h
  | pipe l r => cases h
  | list l r => exact .inl ⟨l, r, rfl, h⟩
  | back part => exact .inr ⟨part, rfl, h⟩

/-- A process forks for a part of its command: the child has the part to do, and it the
rest, and one child more. -/
structure Forks (c : Cmd Text) (io : Fds) (made : List (Nat × Place)) (a b : Place)
    (next : Int → Prog) (fds : Fds) (os os₁ os₂ : List Place) (n : Nat) (live : Bool) :
    Prop where
  parent : ∀ pid, 0 < pid → Stage c io made a (next pid) fds os₁ (n + 1) live
  child : Stage c io made b (next 0) fds os₂ 0 true
  fails : Ending (next (-1))
  sub : ∀ x, Under os₁ x → Under os x
  sub' : ∀ x, Under os₂ x → Under os x
  apart : ∀ x, Under os₁ x → ¬Under os₂ x

theorem Stage.forks (hstd : c.Standard) {next : Int → Prog}
    (h : Stage c io made a (.fork b next) fds os n live) :
    ∃ os₁ os₂ s live', b = s :: a ∧ Forks c io made a b next fds os os₁ os₂ n live'
      ∧ (live' = true ∨ s = .sub ∧ n = 0 ∧ ∃ part src, locate c a = some (.back part, src)) := by
  generalize hprog : Prog.fork b next = prog at h
  cases h with
  | run hat hfds =>
      obtain ⟨l, r, rfl, hnext⟩ | ⟨part, rfl, hnext⟩ := runcmd_fork hprog <;> cases hnext
      · refine ⟨[.right :: a], [.left :: a], .left, true, rfl, ⟨fun pid hpid => ?_, ?_,
          ending_panic _, fun x hx => ?_, fun x hx => ?_, fun x hx hx' => ?_⟩, .inl rfl⟩
        · simp only
          rw [if_neg (by omega), if_neg (by omega)]
          exact .listWait hat hfds
        · exact .run (locate_cons hat rfl) hfds
        · rw [Regions.under_singleton] at hx ⊢
          exact Regions.below_of_below hx
        · rw [Regions.under_singleton] at hx ⊢
          exact Regions.below_of_below hx
        · rw [Regions.under_singleton] at hx hx'
          cases Regions.side_unique hx hx'
      · refine ⟨[], [.sub :: a], .sub, false, rfl, ⟨fun pid hpid => ?_, ?_,
          ending_panic _, fun x hx => ?_, fun x hx => ?_, fun x hx => ?_⟩,
          .inr ⟨rfl, rfl, part, _, hat⟩⟩
        · simp only
          rw [if_neg (by omega), if_neg (by omega)]
          exact .ending .exit
        · exact .run (locate_cons hat rfl) hfds
        · exact absurd hx Regions.not_under_nil
        · rw [Regions.under_singleton] at hx ⊢
          exact Regions.below_of_below hx
        · exact absurd hx Regions.not_under_nil
  | @forkLeft l r src _ p hat hfds hp0 hp1 =>
      obtain ⟨v, p0, p1⟩ := p
      cases hp0
      cases hp1
      cases hprog
      obtain ⟨_, hthree⟩ := locate_three hstd hat
      refine ⟨[.right :: a], [.left :: a], .left, true, rfl, ⟨fun pid hpid => ?_, ?_,
        ending_panic _, fun x hx => ?_, fun x hx => ?_, fun x hx hx' => ?_⟩, .inl rfl⟩
      · simp only
        rw [if_neg (by omega), if_neg (by omega)]
        exact .forkRight hat hfds rfl rfl
      · exact side_stage (locate_cons hat rfl) hthree hfds ⟨by decide, by decide⟩
          (show (3 : Int) ≤ 4 by decide) rfl
      · rw [Regions.under_singleton] at hx
        exact Regions.under_pair.2 (.inr hx)
      · rw [Regions.under_singleton] at hx
        exact Regions.under_pair.2 (.inl hx)
      · rw [Regions.under_singleton] at hx hx'
        cases Regions.side_unique hx hx'
  | @forkRight l r src _ p hat hfds hp0 hp1 =>
      obtain ⟨v, p0, p1⟩ := p
      cases hp0
      cases hp1
      cases hprog
      obtain ⟨_, hthree⟩ := locate_three hstd hat
      refine ⟨[], [.right :: a], .right, true, rfl, ⟨fun pid hpid => ?_, ?_,
        ending_panic _, fun x hx => ?_, fun x hx => hx, fun x hx => ?_⟩, .inl rfl⟩
      · simp only
        rw [if_neg (by omega), if_neg (by omega)]
        have hend := (hfds.set 3 .none).set 4 .none
        rw [unpiped hthree] at hend
        exact .close (.close (.waitTwo hat hend))
      · exact side_stage (locate_cons hat rfl) hthree hfds ⟨by decide, by decide⟩
          (le_refl (3 : Int)) rfl
      · exact absurd hx Regions.not_under_nil
      · exact absurd hx Regions.not_under_nil
  | ending hend => cases hend <;> cases hprog
  | _ => cases hprog

/-- A program is started where the command line has it, with the descriptors of the place. -/
theorem Stage.execs {argv : List Text} {failed : Prog}
    (h : Stage c io made a (.exec b argv failed) fds os n live) :
    b = a ∧ os = [a] ∧ n = 0 ∧ Ending failed
      ∧ ∃ src, locate c a = some (.exec argv, src) ∧ Matches io made fds src := by
  generalize hprog : Prog.exec b argv failed = prog at h
  cases h with
  | @run cmd src _ hat hfds =>
      cases cmd with
      | exec args =>
          cases args with
          | nil => cases hprog
          | cons arg args =>
              cases hprog
              exact ⟨rfl, rfl, rfl, .print _ _, src, hat, hfds⟩
      | _ => cases hprog
  | ending hend => cases hend <;> cases hprog
  | _ => cases hprog

/-- A process exits when it has no children, or does not wait for them. -/
theorem Stage.exits (h : Stage c io made a .exit fds os n live) : live = true → n = 0 := by
  generalize hprog : Prog.exit = prog at h
  cases h with
  | run _ _ => exact fun _ => rfl
  | ending _ => exact nofun
  | _ => cases hprog

end SchoolStuff.Xv6.Sh
