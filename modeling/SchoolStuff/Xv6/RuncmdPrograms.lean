import Mathlib.Data.List.Nodup
import SchoolStuff.Lib.Ends
import SchoolStuff.Xv6.RuncmdRuns

/-!
# Xv6 — the programs of a command

What can be read off the invariant of `RuncmdRuns` at any time: which programs have
been started, who has the ends of a pipe, and what is still there of the commands in
front of a `;`.
-/

namespace SchoolStuff.Xv6.Sh

open CText (ascii)
open Regions (Under)
open World

variable {ι : Type} {c cmd l r : Cmd Text} {io fds : Fds} {made : List (Nat × Place)}
  {a b d : Place} {src : Sources} {prog : Prog} {os : List Place} {n : Nat} {live : Bool}

/-! ## What the parser builds -/

theorem standard_addArg {α : Type} {cmd : Cmd α} (h : cmd.Standard) (word : α) :
    (cmd.addArg word).Standard := by
  induction cmd with
  | exec argv => exact trivial
  | redir cmd file mode fd ih => exact ⟨h.1, ih h.2⟩
  | pipe left right _ _ => exact h
  | list left right _ _ => exact h
  | back cmd _ => exact h

theorem standard_redircmd {α : Type} {cmd : Cmd α} (h : cmd.Standard) (tok : UInt8) (file : α) :
    (redircmd tok cmd file).Standard := by
  unfold redircmd
  split
  · exact ⟨⟨by decide, by decide⟩, h⟩
  · split
    · exact ⟨⟨by decide, by decide⟩, h⟩
    · exact h

theorem standard_map {α β : Type} {cmd : Cmd α} (h : cmd.Standard) (read : α → β) :
    (cmd.map read).Standard := by
  induction cmd with
  | exec argv => exact trivial
  | redir cmd file mode fd ih => exact ⟨h.1, ih h.2⟩
  | pipe left right ihl ihr => exact ⟨ihl h.1, ihr h.2⟩
  | list left right ihl ihr => exact ⟨ihl h.1, ihr h.2⟩
  | back cmd ih => exact ih h

/-- A function of the parser that returns has built a command of standard redirections. -/
abbrev Builds (x : Except Stop (Cmd Ptr × Nat)) : Prop :=
  Ends (fun _ => True) x fun y => y.1.Standard

variable (text : List UInt8)

theorem builds_parseredirs (fuel : Nat) {cmd : Cmd Ptr} (h : cmd.Standard) (s : Nat) :
    Builds (parseredirs text fuel cmd s) := by
  induction fuel generalizing cmd s with
  | zero => exact trivial
  | succ fuel ih =>
      simp only [parseredirs]
      split
      · split
        · exact trivial
        · exact ih (standard_redircmd h _ _) _
      · exact h

theorem builds_parseargs (fuel : Nat) {ret : Cmd Ptr} (h : ret.Standard) (argc s : Nat) :
    Builds (parseargs text fuel ret argc s) := by
  induction fuel generalizing ret argc s with
  | zero => exact trivial
  | succ fuel ih =>
      simp only [parseargs]
      split
      · exact h
      split
      · exact h
      split
      · exact trivial
      split
      · exact trivial
      · exact (builds_parseredirs text fuel (standard_addArg h _) _).bind fun y hy => ih hy _ _

theorem builds_parseback (fuel : Nat) {cmd : Cmd Ptr} (h : cmd.Standard) (s : Nat) :
    Builds (parseback text fuel cmd s) := by
  induction fuel generalizing cmd s with
  | zero => exact trivial
  | succ fuel ih =>
      simp only [parseback]
      split
      · have hback : (Cmd.back cmd).Standard := h
        exact ih hback _
      · exact h

/-- The functions of the parser call each other with less fuel. -/
theorem builds_parse (fuel : Nat) : ∀ s,
    Builds (parseline text fuel s) ∧ Builds (parsepipe text fuel s)
      ∧ Builds (parseexec text fuel s) ∧ Builds (parseblock text fuel s) := by
  induction fuel with
  | zero =>
      intro s
      unfold parseline parsepipe parseexec parseblock
      exact ⟨trivial, trivial, trivial, trivial⟩
  | succ fuel ih =>
      intro s
      refine ⟨?_, ?_, ?_, ?_⟩
      · unfold parseline
        refine (ih s).2.1.bind fun y hy => (builds_parseback text fuel hy y.2).bind fun z hz => ?_
        simp only
        split
        · exact (ih _).1.bind fun right hright => ⟨hz, hright⟩
        · exact hz
      · unfold parsepipe
        refine (ih s).2.2.1.bind fun y hy => ?_
        simp only
        split
        · exact (ih _).2.1.bind fun right hright => ⟨hy, hright⟩
        · exact hy
      · unfold parseexec
        split
        split
        · exact (ih _).2.2.2
        · have hexec : (Cmd.exec [] : Cmd Ptr).Standard := trivial
          exact (builds_parseredirs text fuel hexec _).bind fun y hy =>
            builds_parseargs text fuel hy _ _
      · unfold parseblock
        split
        split
        · exact trivial
        refine (ih _).1.bind fun y hy => ?_
        simp only
        split
        · exact trivial
        · exact builds_parseredirs text fuel hy _

/-- `parsecmd` redirects standard input and output only, whatever the words are. -/
theorem parsecmd_standard {fuel : Nat} {cmd : Cmd Ptr} {mem : List UInt8}
    (h : parsecmd fuel text = .ok (cmd, mem)) (read : Ptr → Text) :
    (cmd.map read).Standard := by
  refine standard_map ?_ read
  unfold parsecmd at h
  cases hline : parseline text fuel 0 with
  | error e =>
      rw [hline] at h
      cases h
  | ok y =>
      rw [hline] at h
      change (if _ then _ else _) = _ at h
      split at h
      · cases h
      · cases h
        exact (builds_parse text fuel 0).1.of_ok hline

/-! ## What has been started -/

variable [DecidableEq ι] {first : Nat} {w : World ι} {g : ι → Spot} {p q : ι} {pr : Proc ι}

/-- **Programs get the files that the command line says**, in whatever order the processes
run: each program that has been started is that of its place, with a descriptor for each
one of that place and no other, and no place is started twice. Each pipeline makes one
pipe, and no two make the same one. -/
theorem programs_wired (hstd : c.Standard) (hio : io.Standard) (hrun : Reaches c io first p w) :
    (∀ s ∈ w.starts, ∃ src, locate c s.place = some (.exec s.argv, src)
        ∧ Matches io w.pipelines s.fds src)
      ∧ (w.starts.map Start.place).Nodup ∧ (w.pipelines.map Prod.fst).Nodup
      ∧ (w.pipelines.map Prod.snd).Nodup := by
  obtain ⟨g, hruns⟩ := runs_reach hstd hio hrun
  exact ⟨hruns.account.started, hruns.account.starts.nodup, hruns.account.keys,
    hruns.account.pipelines.nodup⟩

/-- The console on the three standard descriptors. -/
def console : Fds := fun fd => if 0 ≤ fd ∧ fd < 3 then some (.file (ascii "console") 2) else none

theorem console_standard : console.Standard := by
  intro fd
  unfold console
  split
  · exact iff_of_true rfl ‹_›
  · exact iff_of_false (by decide) ‹_›

theorem console_old (fd : Int) (k : Nat) (writable : Bool)
    (h : console fd = some (.pipe k writable)) : k < 0 := by
  unfold console at h
  split at h <;> cases h

/-- `ls | wc`. -/
def lsWc : Cmd Text := .pipe (.exec [ascii "ls"]) (.exec [ascii "wc"])

/-- The left side of a pipeline is started. -/
theorem lsWc_run : ∃ (w : World Bool) (pr : Proc Bool), Reaches lsWc console 0 true w
    ∧ w.pipelines = [(0, [])] ∧ w.proc false = some pr ∧ pr.code = .program 0
    ∧ pr.fds 1 = some (.pipe 0 true) :=
  ⟨_, _, .tail (.tail (.tail (.tail (.tail (.tail (.tail .refl
    (.call (p := true) rfl rfl (.pipe (k := 0) (r := ⟨0, 3, 4⟩) (Nat.le_refl 0) rfl rfl rfl)))
    (.fork (p := true) (q := false) rfl rfl rfl (show (0 : Int) < 1 by decide)))
    (.call (p := false) rfl rfl (.close (r := ⟨0, 0, 0⟩))))
    (.call (p := false) rfl rfl (.dup (r := ⟨1, 0, 0⟩) rfl rfl)))
    (.call (p := false) rfl rfl (.close (r := ⟨0, 0, 0⟩))))
    (.call (p := false) rfl rfl (.close (r := ⟨0, 0, 0⟩))))
    (.exec (p := false) rfl rfl), rfl, rfl, rfl, rfl⟩

theorem programs_wired_pipeline : ∃ w : World Bool, w.pipelines = [(0, [])]
    ∧ (∀ s ∈ w.starts, ∃ src, locate lsWc s.place = some (.exec s.argv, src)
        ∧ Matches console w.pipelines s.fds src)
      ∧ (w.starts.map Start.place).Nodup ∧ (w.pipelines.map Prod.fst).Nodup
      ∧ (w.pipelines.map Prod.snd).Nodup :=
  have ⟨w, _, hrun, hmade, _⟩ := lsWc_run
  ⟨w, hmade, programs_wired ⟨trivial, trivial⟩ console_standard hrun⟩

/-! ## Who has the ends of a pipe -/

omit [DecidableEq ι] in
/-- An end of a pipe that a program was started with is that of its side of the pipeline. -/
theorem Account.side (h : Account c io first w g)
    (hold : ∀ fd k writable, io fd = some (.pipe k writable) → k < first) {s : Start}
    (hs : s ∈ w.starts) {k : Nat} (hmade : (k, a) ∈ w.pipelines) {fd : Int} {writable : Bool}
    (hfd : s.fds fd = some (.pipe k writable)) :
    (if writable then Side.left else .right) :: a <:+ s.place := by
  obtain ⟨src, hat, hmatch⟩ := h.started s hs
  have hrel := hmatch fd
  rw [hfd] at hrel
  generalize hsrc : src fd = x at hrel
  cases hrel with
  | @some _ x hmeans =>
      cases x with
      | inherited fd' =>
          have hlt := hold fd' k writable hmeans
          exact absurd (h.range _ hmade).1 (Nat.not_le.2 hlt)
      | file name mode => cases hmeans
      | pipeEnd a' writable' =>
          obtain ⟨k', hmade', heq⟩ := hmeans
          cases heq
          have hpair := List.inj_on_of_nodup_map h.keys hmade hmade' rfl
          cases hpair
          exact (side_of_pipeEnd hat hsrc).1

/-- **The ends of a pipe stay on their sides**: when a program, or a process that it has
forked, has the end of a pipeline's pipe that is written, then it is of a program on the
left of the pipeline; and of one on the right when it has the end that is read. So the
readers find the end of the file when what is on the left has ended. -/
theorem pipe_ends (hstd : c.Standard) (hio : io.Standard)
    (hold : ∀ fd k writable, io fd = some (.pipe k writable) → k < first)
    (hrun : Reaches c io first p w) {k : Nat} (hmade : (k, a) ∈ w.pipelines)
    (hq : w.proc q = some pr) (hcode : pr.code = .program n ∨ pr.code = .descendant n)
    {fd : Int} {writable : Bool} (hfd : pr.fds fd = some (.pipe k writable)) :
    ∃ s, w.starts[n]? = some s
      ∧ (if writable then Side.left else .right) :: a <:+ s.place := by
  obtain ⟨g, hruns⟩ := runs_reach hstd hio hrun
  obtain ⟨s, hs, _, hfds⟩ := (hruns.fine q pr hq).user n hcode
  refine ⟨s, hs, ?_⟩
  rcases hfds fd _ hfd with ⟨fd', hfd'⟩ | hforeign
  · exact hruns.account.side hold (List.mem_of_getElem? hs) hmade hfd'
  · exact absurd hmade ((hforeign k writable rfl).2 a)

theorem pipe_ends_left : ∃ (w : World Bool) (s : Start), w.starts[0]? = some s
    ∧ [.left] <:+ s.place :=
  have ⟨w, _, hrun, hmade, hq, hcode, hfd⟩ := lsWc_run
  have ⟨s, hs, hside⟩ := pipe_ends (c := lsWc) (a := []) ⟨trivial, trivial⟩ console_standard
    console_old hrun (by rw [hmade]; exact List.mem_singleton_self _) hq (.inl hcode) hfd
  ⟨w, s, hs, hside⟩

/-! ## One command after another -/

/-- There is a command in the background between two places. -/
def Background (c : Cmd Text) (a b : Place) : Prop :=
  ∃ d part src, locate c d = some (.back part, src) ∧ a <:+ d ∧ .sub :: d <:+ b

/-- A process does not go into the left side of a `;` by itself. -/
theorem Down.left (h : Down c a b) (hleft : .left :: d <:+ b) : .left :: d <:+ a := by
  induction h with
  | refl => exact hleft
  | sub _ _ ih =>
      rcases List.suffix_cons_iff.1 hleft with heq | hleft
      · cases heq
      · exact ih hleft
  | right _ _ ih =>
      rcases List.suffix_cons_iff.1 hleft with heq | hleft
      · cases heq
      · exact ih hleft

omit [DecidableEq ι] in
/-- From a process on the left side of a `;` its parents lead to one that waits there. -/
theorem Runs.above (h : Runs c io first w g) (hlost : w.lost = false)
    (hq : w.proc q = some pr) (hactive : pr.Active) (hleft : .left :: b <:+ pr.place)
    (hfront : ¬Background c (.left :: b) pr.place) :
    ∃ r parent prog, w.proc r = some parent ∧ parent.code = .sh prog ∧ (g r).node = b
      ∧ (g r).live = true ∧ ∃ x, w.parent x = some r := by
  generalize hlen : pr.place.length = m
  induction m using Nat.strong_induction_on generalizing q pr with
  | _ m ih =>
      obtain hnil | ⟨s, a, hplace, ⟨rfl, part, src, hat⟩ |
          ⟨r, parent, prog, hr, hw, hcode, hnode, hlive⟩⟩ :=
        (h.fine q pr hq).linked hlost hactive
      · rw [hnil] at hleft
        exact absurd (List.suffix_nil.1 hleft) (List.cons_ne_nil _ _)
      · rw [hplace] at hleft hfront
        rcases List.suffix_cons_iff.1 hleft with heq | hleft
        · cases heq
        · exact absurd ⟨a, part, src, hat, hleft, List.suffix_rfl⟩ hfront
      · rw [hplace] at hleft hfront hlen
        rcases List.suffix_cons_iff.1 hleft with heq | hleft
        · cases heq
          exact ⟨r, parent, prog, hw, hcode, hnode, hlive, q, (parent_of hq).trans hr⟩
        · obtain ⟨hdown, _⟩ := (h.fine r parent hw).shell prog hcode
          rw [hnode] at hdown
          have hsuffix := hdown.suffix
          have hlt : parent.place.length < m := by
            have hle := hsuffix.length_le
            rw [← hlen, List.length_cons]
            omega
          refine ih _ hlt hw (.inl ⟨prog, hcode⟩) (hdown.left hleft) (fun hback => ?_) rfl
          obtain ⟨d, part, src, hat, hle, hd⟩ := hback
          exact hfront ⟨d, part, src, hat, hle, hd.trans (hsuffix.trans (List.suffix_cons s a))⟩

/-- While it has a child, a process at a `;` has the right side still to do. -/
theorem Stage.right_left (h : Stage c io made a prog fds os n live)
    (hat : locate c a = some (.list l r, src)) (hlive : live = true) (hn : 0 < n) :
    os = [.right :: a] := by
  induction h with
  | run _ _ => cases hn
  | opening _ _ => cases hn
  | listWait _ _ => rfl
  | forkLeft _ _ _ _ => cases hn
  | forkRight _ _ _ _ => rfl
  | waitTwo hat' _ =>
      rw [hat'] at hat
      cases hat
  | waitOne hat' _ =>
      rw [hat'] at hat
      cases hat
  | close _ ih => exact ih hlive hn
  | dup _ _ _ ih => exact ih hlive hn
  | ending _ => cases hlive

/-- **What is behind a `;` waits for what is in front of it**: as long as no process of the
shell is killed or fails to fork, when a program behind it has been started, then the
programs in front of it have ended, and so has the shell there, but for what was put in
the background. -/
theorem behind_waits (hstd : c.Standard) (hio : io.Standard) (hrun : Reaches c io first p w)
    (hlost : w.lost = false) (hat : locate c b = some (.list l r, src)) {s : Start}
    (hs : s ∈ w.starts) (hright : .right :: b <:+ s.place) (hq : w.proc q = some pr)
    (hactive : pr.Active) (hleft : .left :: b <:+ pr.place) :
    Background c (.left :: b) pr.place := by
  obtain ⟨g, hruns⟩ := runs_reach hstd hio hrun
  by_contra hfront
  obtain ⟨t, parent, prog, hw, hcode, hnode, hlive, x, hx⟩ :=
    hruns.above hlost hq hactive hleft hfront
  obtain ⟨_, hstage, hkids⟩ := (hruns.fine t parent hw).shell prog hcode
  rw [hnode] at hstage
  have hos := hstage.right_left hat hlive (hkids.pos hx)
  have hunder : Under (g t).os s.place := by
    rw [hos, Regions.under_singleton]
    exact hright
  exact hruns.account.starts.left (List.mem_map_of_mem hs) hunder

/-- `sleep & ; ls`. -/
def sleepLs : Cmd Text := .list (.back (.exec [ascii "sleep"])) (.exec [ascii "ls"])

/-- The right side of a `;` is started, and what is in the background is still there. -/
theorem sleepLs_run : ∃ (w : World Nat) (pr : Proc Nat) (s : Start),
    Reaches sleepLs console 0 0 w ∧ w.lost = false ∧ s ∈ w.starts ∧ s.place = [.right]
      ∧ w.proc 2 = some pr ∧ pr.Active ∧ pr.place = [.sub, .left] :=
  ⟨_, _, _, .tail (.tail (.tail (.tail (.tail .refl
    (.fork (p := 0) (q := 1) rfl rfl rfl (show (0 : Int) < 1 by decide)))
    (.fork (p := 1) (q := 2) rfl rfl rfl (show (0 : Int) < 2 by decide)))
    (.exit (p := 1) rfl rfl))
    (.call (p := 0) rfl rfl (.wait (q := 1) (r := ⟨1, 0, 0⟩) rfl rfl rfl)))
    (.exec (p := 0) rfl rfl),
    rfl, List.mem_singleton_self _, rfl, rfl, .inl ⟨_, rfl⟩, rfl⟩

theorem behind_waits_background : ∃ (w : World Nat) (pr : Proc Nat), w.proc 2 = some pr
    ∧ pr.place = [.sub, .left] ∧ Background sleepLs [.left] pr.place :=
  have ⟨w, pr, _, hrun, hlost, hs, hright, hq, hactive, hplace⟩ := sleepLs_run
  ⟨w, pr, hq, hplace, behind_waits (b := []) ⟨trivial, trivial⟩ console_standard hrun hlost rfl hs
    (by rw [hright]) hq hactive (by rw [hplace]; exact List.suffix_cons _ _)⟩

end SchoolStuff.Xv6.Sh
