import Mathlib.Data.Fintype.Basic
import SchoolStuff.Lib.Ends
import SchoolStuff.Xv6.Procs

/-!
# Families — parents, children and `wait` (`proc.c`)

Most calls leave parents and children alone: they change files, or wake and stop
processes (`Stirs`). `fork` puts a child into a free slot, `exit` hands the
children over to `initproc`, and `wait` frees the slot of a child that has exited.
-/

namespace SchoolStuff.Xv6.Procs

open Dirs (NOFILE NFILE)

/-- In use, and not a zombie. -/
def ProcState.Live (s : ProcState) : Prop := s ≠ .unused ∧ s ≠ .zombie

instance (s : ProcState) : Decidable s.Live := by unfold ProcState.Live; infer_instance

/-- What the family of a process is told by. -/
def Proc.kin (pr : Proc) : ProcState × Int × Option (Fin NPROC) × Option Chan :=
  (pr.state, pr.pid, pr.parent, pr.chan)

namespace Kernel

/-- A process sleeps in `wait`. -/
def Waiting (st : Kernel) (p : Fin NPROC) : Prop :=
  (st.proc p).state = .sleeping ∧ (st.proc p).chan = some (.proc p)

/-- Families stay: processes only wake, run and sleep, on other than a process. The pid
of a free slot is nothing. -/
structure Stirs (st st' : Kernel) : Prop where
  nextpid : st.nextpid ≤ st'.nextpid
  pid : ∀ q, (st.proc q).state ≠ .unused → (st'.proc q).pid = (st.proc q).pid
  parent : ∀ q, (st'.proc q).parent = (st.proc q).parent
  state : ∀ q, (st'.proc q).state = (st.proc q).state ∧ (st'.proc q).chan = (st.proc q).chan
    ∨ (st.proc q).state.Live ∧ (st'.proc q).state.Live ∧ ¬st'.Waiting q

variable {st st' st'' : Kernel} {p q r : Fin NPROC} {f : Fin NFILE}

theorem Stirs.free_iff (h : Stirs st st') (q : Fin NPROC) :
    (st'.proc q).state = .unused ↔ (st.proc q).state = .unused := by
  obtain ⟨hs, _⟩ | ⟨hl, hl', _⟩ := h.state q
  · rw [hs]
  · exact iff_of_false hl'.1 hl.1

theorem Stirs.zombie_iff (h : Stirs st st') (q : Fin NPROC) :
    (st'.proc q).state = .zombie ↔ (st.proc q).state = .zombie := by
  obtain ⟨hs, _⟩ | ⟨hl, hl', _⟩ := h.state q
  · rw [hs]
  · exact iff_of_false hl'.2 hl.2

theorem Stirs.waiting (h : Stirs st st') (hw : st'.Waiting q) : st.Waiting q := by
  obtain ⟨hs, hc⟩ | ⟨_, _, hno⟩ := h.state q
  · exact ⟨hs.symm.trans hw.1, hc.symm.trans hw.2⟩
  · exact absurd hw hno

/-- Nothing has changed but files. -/
theorem Stirs.of_kin (h : ∀ q, (st'.proc q).kin = (st.proc q).kin)
    (hnext : st'.nextpid = st.nextpid) : Stirs st st' := by
  have hkin : ∀ q, (st'.proc q).state = (st.proc q).state ∧ (st'.proc q).pid = (st.proc q).pid
      ∧ (st'.proc q).parent = (st.proc q).parent ∧ (st'.proc q).chan = (st.proc q).chan := by
    intro q
    simpa only [Proc.kin, Prod.mk.injEq] using h q
  exact ⟨hnext.ge, fun q _ => (hkin q).2.1, fun q => (hkin q).2.2.1,
    fun q => Or.inl ⟨(hkin q).1, (hkin q).2.2.2⟩⟩

theorem Stirs.refl (st : Kernel) : Stirs st st := .of_kin (fun _ => rfl) rfl

theorem Stirs.trans (h : Stirs st st') (h' : Stirs st' st'') : Stirs st st'' := by
  refine ⟨h.nextpid.trans h'.nextpid, fun q hq => ?_, fun q => (h'.parent q).trans (h.parent q),
    fun q => ?_⟩
  · exact (h'.pid q (mt (h.free_iff q).1 hq)).trans (h.pid q hq)
  · obtain ⟨hs', hc'⟩ | ⟨hl', hl'', hno⟩ := h'.state q
    · obtain ⟨hs, hc⟩ | ⟨hl, hl', hno⟩ := h.state q
      · exact Or.inl ⟨hs'.trans hs, hc'.trans hc⟩
      · refine Or.inr ⟨hl, hs' ▸ hl', fun hw => hno ?_⟩
        exact ⟨hs'.symm.trans hw.1, hc'.symm.trans hw.2⟩
    · exact Or.inr ⟨⟨mt (h.free_iff q).2 hl'.1, mt (h.zombie_iff q).2 hl'.2⟩, hl'', hno⟩

/-- One process wakes, runs or sleeps. -/
theorem Stirs.set {pr : Proc} (hpid : pr.pid = (st.proc p).pid)
    (hparent : pr.parent = (st.proc p).parent) (hlive : (st.proc p).state.Live)
    (hlive' : pr.state.Live) (hno : ¬(pr.state = .sleeping ∧ pr.chan = some (.proc p))) :
    Stirs st (st.setProc p pr) := by
  refine ⟨le_refl _, fun q _ => ?_, fun q => ?_, fun q => ?_⟩
  · by_cases hq : q = p
    · rw [hq, setProc_self]
      exact hpid
    · rw [setProc_ne _ _ hq]
  · by_cases hq : q = p
    · rw [hq, setProc_self]
      exact hparent
    · rw [setProc_ne _ _ hq]
  · by_cases hq : q = p
    · rw [hq, setProc_self]
      refine Or.inr ⟨hlive, hlive', ?_⟩
      unfold Waiting
      rw [setProc_self]
      exact hno
    · rw [setProc_ne _ _ hq]
      exact Or.inl ⟨rfl, rfl⟩

/-- One process has other files. -/
theorem Stirs.set_kin {pr : Proc} (h : pr.kin = (st.proc p).kin) : Stirs st (st.setProc p pr) := by
  refine .of_kin (fun q => ?_) rfl
  by_cases hq : q = p
  · rw [hq, setProc_self]
    exact h
  · rw [setProc_ne _ _ hq]

theorem stirs_setFd (st : Kernel) (p : Fin NPROC) (fd : Fin NOFILE) (x : Option (Fin NFILE)) :
    Stirs st (st.setFd p fd x) := Stirs.set_kin rfl

theorem stirs_wakeup1 (st : Kernel) (chan : Chan) : Stirs st (st.wakeup1 chan) := by
  have hwake : ∀ pr : Proc, pr.wake chan = pr
      ∨ pr.state = .sleeping ∧ pr.wake chan = { pr with state := .runnable } := by
    intro pr
    unfold Proc.wake
    split
    · rename_i h
      exact Or.inr ⟨h.1, rfl⟩
    · exact Or.inl rfl
  refine ⟨le_refl _, fun q _ => ?_, fun q => ?_, fun q => ?_⟩
  · show ((st.proc q).wake chan).pid = _
    rcases hwake (st.proc q) with h | ⟨_, h⟩ <;> rw [h]
  · show ((st.proc q).wake chan).parent = _
    rcases hwake (st.proc q) with h | ⟨_, h⟩ <;> rw [h]
  · unfold Waiting
    show ((st.proc q).wake chan).state = _ ∧ ((st.proc q).wake chan).chan = _
      ∨ _ ∧ ((st.proc q).wake chan).state.Live
        ∧ ¬(((st.proc q).wake chan).state = _ ∧ ((st.proc q).wake chan).chan = _)
    obtain h | ⟨hs, h⟩ := hwake (st.proc q)
    · rw [h]
      exact Or.inl ⟨rfl, rfl⟩
    · rw [h, hs]
      exact Or.inr ⟨⟨nofun, nofun⟩, ⟨nofun, nofun⟩, fun hw => nomatch hw.1⟩

/-! ### Files -/

theorem stirs_filealloc {x : Fin NFILE × Kernel} (h : st.filealloc = some x) :
    Stirs st x.2 := by
  obtain ⟨f, _, rfl⟩ := Option.map_eq_some_iff.1 h
  exact .of_kin (fun _ => rfl) rfl

theorem stirs_fdalloc {x : Fin NOFILE × Kernel} (h : st.fdalloc p f = some x) :
    Stirs st x.2 := by
  obtain ⟨fd, _, rfl⟩ := Option.map_eq_some_iff.1 h
  exact stirs_setFd st p fd _

/-- `filedup` changes a file only. -/
theorem proc_filedup (st : Kernel) (f : Fin NFILE) :
    Ends (fun _ => True) (st.filedup f) fun st' =>
      st'.proc = st.proc ∧ st'.nextpid = st.nextpid := by
  unfold filedup
  split
  · trivial
  · exact ⟨rfl, rfl⟩

theorem stirs_pipeclose (st : Kernel) (k : Nat) (writable : Bool) :
    Ends (fun _ => True) (st.pipeclose k writable) (Stirs st) := by
  unfold pipeclose
  split
  · trivial
  · have hwake := stirs_wakeup1 st (.pipe k (if writable then .nread else .nwrite))
    exact ⟨hwake.nextpid, hwake.pid, hwake.parent, hwake.state⟩

theorem stirs_fileclose (st : Kernel) (f : Fin NFILE) :
    Ends (fun _ => True) (st.fileclose f) (Stirs st) := by
  unfold fileclose
  simp only
  split
  · trivial
  split
  · exact Stirs.of_kin (fun _ => rfl) rfl
  cases (st.file f).type with
  | none => exact Stirs.of_kin (fun _ => rfl) rfl
  | inode => exact Stirs.of_kin (fun _ => rfl) rfl
  | pipe =>
      have hfile : Stirs st (st.setFile f { st.file f with ref := 0, type := .none }) :=
        .of_kin (fun _ => rfl) rfl
      exact (stirs_pipeclose _ _ _).mono fun st' h => hfile.trans h

/-- Two files are closed, and a call returns. -/
theorem stirs_fileclose_two (st : Kernel) (f g : Fin NFILE) {α : Type} (a : α) :
    Ends (fun _ => True) (do
      let st ← st.fileclose f
      let st ← st.fileclose g
      .ok (a, st) : Except Stop (α × Kernel)) fun x => Stirs st x.2 := by
  apply (stirs_fileclose st f).bind
  intro st₁ h₁
  apply (stirs_fileclose st₁ g).bind
  exact fun st₂ h₂ => h₁.trans h₂

theorem stirs_pipealloc (st : Kernel) (page : Option (Fin PIPESIZE → UInt8)) :
    Ends (fun _ => True) (st.pipealloc page) fun x => Stirs st x.2 := by
  unfold pipealloc
  cases h₀ : st.filealloc with
  | none => exact Stirs.refl st
  | some x₀ =>
      obtain ⟨f0, st₀⟩ := x₀
      have hst₀ : Stirs st st₀ := stirs_filealloc h₀
      simp only
      cases h₁ : st₀.filealloc with
      | none =>
          apply (stirs_fileclose st₀ f0).bind
          exact fun st' h' => hst₀.trans h'
      | some x₁ =>
          obtain ⟨f1, st₁⟩ := x₁
          have hst₁ : Stirs st st₁ := hst₀.trans (stirs_filealloc h₁)
          cases page with
          | none => exact (stirs_fileclose_two st₁ f0 f1 _).mono fun x hx => hst₁.trans hx
          | some data => exact hst₁.trans (.of_kin (fun _ => rfl) rfl)

theorem stirs_sysDup (st : Kernel) (p : Fin NPROC) (fd : Int) :
    Ends (fun _ => True) (st.sysDup p fd) fun x => Stirs st x.2 := by
  unfold sysDup
  cases argfd (st.proc p) fd with
  | none => exact Stirs.refl st
  | some x =>
      simp only
      cases h : st.fdalloc p x.2 with
      | none => exact Stirs.refl st
      | some y =>
          apply (proc_filedup y.2 x.2).bind
          rintro st' ⟨hproc, hnext⟩
          exact (stirs_fdalloc h).trans (.of_kin (fun q => by rw [hproc]) hnext)

theorem stirs_sysClose (st : Kernel) (p : Fin NPROC) (fd : Int) :
    Ends (fun _ => True) (st.sysClose p fd) fun x => Stirs st x.2 := by
  unfold sysClose
  cases argfd (st.proc p) fd with
  | none => exact Stirs.refl st
  | some x =>
      apply (stirs_fileclose (st.setFd p x.1 none) x.2).bind
      exact fun st' h' => (stirs_setFd st p x.1 none).trans h'

theorem stirs_sysOpen (st : Kernel) (p : Fin NPROC) (ip : Bool) (omode : UInt32) :
    Ends (fun _ => True) (st.sysOpen p ip omode) fun x => Stirs st x.2 := by
  unfold sysOpen
  split
  · exact Stirs.refl st
  cases h : st.filealloc with
  | none => exact Stirs.refl st
  | some x =>
      obtain ⟨f, st₁⟩ := x
      have hst₁ : Stirs st st₁ := stirs_filealloc h
      simp only
      cases hfd : st₁.fdalloc p f with
      | none =>
          apply (stirs_fileclose st₁ f).bind
          exact fun st' h' => hst₁.trans h'
      | some y => exact (hst₁.trans (stirs_fdalloc hfd)).trans (.of_kin (fun _ => rfl) rfl)

theorem stirs_sysPipe (st : Kernel) (p : Fin NPROC) (page : Option (Fin PIPESIZE → UInt8)) :
    Ends (fun _ => True) (st.sysPipe p page) fun x => Stirs st x.2 := by
  apply (stirs_pipealloc st page).bind
  rintro ⟨files, st₁⟩ (hst₁ : Stirs st st₁)
  cases files with
  | none => exact hst₁
  | some files =>
      obtain ⟨rf, wf⟩ := files
      simp only
      cases h₀ : st₁.fdalloc p rf with
      | none => exact (stirs_fileclose_two st₁ rf wf _).mono fun x hx => hst₁.trans hx
      | some x₀ =>
          obtain ⟨fd0, st₂⟩ := x₀
          have hst₂ : Stirs st st₂ := hst₁.trans (stirs_fdalloc h₀)
          simp only
          cases h₁ : st₂.fdalloc p wf with
          | none =>
              exact (stirs_fileclose_two (st₂.setFd p fd0 none) rf wf _).mono fun x hx =>
                (hst₂.trans (stirs_setFd st₂ p fd0 none)).trans hx
          | some x₁ => exact hst₂.trans (stirs_fdalloc h₁)

/-! ### `fork` -/

/-- `fork` has put a child of `p` into slot `np`. -/
structure Forked (st st' : Kernel) (p np : Fin NPROC) : Prop where
  free : (st.proc np).state = .unused
  state : (st'.proc np).state = .runnable
  pid : (st'.proc np).pid = st.nextpid
  parent : (st'.proc np).parent = some p
  other : ∀ q, q ≠ np → (st'.proc q).kin = (st.proc q).kin
  nextpid : st'.nextpid = st.nextpid + 1

/-- A slot is taken and given back. -/
theorem stirs_taken {np : Fin NPROC} (hfree : (st.proc np).state = .unused)
    (hself : (st'.proc np).state = .unused ∧ (st'.proc np).parent = (st.proc np).parent
      ∧ (st'.proc np).chan = (st.proc np).chan)
    (hother : ∀ q, q ≠ np → (st'.proc q).kin = (st.proc q).kin)
    (hnext : st'.nextpid = st.nextpid + 1) : Stirs st st' := by
  have hkin : ∀ q, q ≠ np → (st'.proc q).state = (st.proc q).state
      ∧ (st'.proc q).pid = (st.proc q).pid ∧ (st'.proc q).parent = (st.proc q).parent
      ∧ (st'.proc q).chan = (st.proc q).chan := by
    intro q hq
    simpa only [Proc.kin, Prod.mk.injEq] using hother q hq
  refine ⟨by omega, fun q hq => (hkin q ?_).2.1, fun q => ?_, fun q => Or.inl ?_⟩
  · rintro rfl
    exact hq hfree
  · by_cases hq : q = np
    · rw [hq]
      exact hself.2.1
    · exact (hkin q hq).2.2.1
  · by_cases hq : q = np
    · rw [hq]
      exact ⟨hself.1.trans hfree.symm, hself.2.2⟩
    · exact ⟨(hkin q hq).1, (hkin q hq).2.2.2⟩

theorem kin_dupFds (st : Kernel) (p np : Fin NPROC) (fds : List (Fin NOFILE)) :
    Ends (fun _ => True) (fds.foldlM (dupFd p np) st) fun st' =>
      (∀ q, (st'.proc q).kin = (st.proc q).kin) ∧ st'.nextpid = st.nextpid := by
  refine Ends.foldlM (fun (_ : List (Fin NOFILE)) (st' : Kernel) =>
    (∀ q, (st'.proc q).kin = (st.proc q).kin) ∧ st'.nextpid = st.nextpid) ?_ ⟨fun _ => rfl, rfl⟩
  rintro fd rest st₁ ⟨hkin, hnext⟩
  unfold dupFd
  cases (st₁.proc p).ofile fd with
  | none => exact ⟨hkin, hnext⟩
  | some f =>
      apply (proc_filedup st₁ f).bind
      rintro st₂ ⟨hproc, hnext₂⟩
      refine ⟨fun q => Eq.trans ?_ (hkin q), hnext₂.trans hnext⟩
      rw [← hproc]
      by_cases hq : q = np
      · rw [hq, setFd, setProc_self]
        rfl
      · rw [setFd, setProc_ne _ _ hq]

/-- **`fork`** makes a child, or changes no family. -/
theorem fork_cases (st : Kernel) (p : Fin NPROC) (kstack pgdir : Bool) :
    Ends (fun _ => True) (st.fork p kstack pgdir) fun x =>
      Stirs st x.2 ∨ ∃ np, Forked st x.2 p np := by
  unfold fork allocproc
  cases hfind : (List.finRange NPROC).find? fun q => (st.proc q).state = .unused with
  | none => exact Or.inl (Stirs.refl st)
  | some np =>
      have hfree : (st.proc np).state = .unused := by
        have := List.find?_some hfind
        simpa using this
      simp only
      split
      · trivial
      generalize hst₁ : ({ st.setProc np { st.proc np with
        state := .embryo, pid := st.nextpid } with nextpid := st.nextpid + 1 } : Kernel) = st₁
      have hnext : st₁.nextpid = st.nextpid + 1 := by rw [← hst₁]
      have hself : (st₁.proc np).pid = st.nextpid ∧ (st₁.proc np).parent = (st.proc np).parent
          ∧ (st₁.proc np).chan = (st.proc np).chan := by
        rw [← hst₁]
        simp only [setProc_self, and_self]
      have hother : ∀ q, q ≠ np → (st₁.proc q).kin = (st.proc q).kin := by
        intro q hq
        rw [← hst₁]
        exact congrArg Proc.kin (setProc_ne st _ hq)
      -- without memory the slot is given back
      have hback : Stirs st (st₁.setState np .unused) := by
        refine stirs_taken hfree ?_ (fun q hq => ?_) hnext
        · rw [setState, setProc_self]
          exact ⟨rfl, hself.2.1, hself.2.2⟩
        · rw [setState, setProc_ne _ _ hq]
          exact hother q hq
      cases kstack with
      | false => exact Or.inl hback
      | true =>
          cases pgdir with
          | false => exact Or.inl hback
          | true =>
              apply (kin_dupFds (st₁.setProc np { st₁.proc np with parent := some p }) p np
                (List.finRange NOFILE)).bind
              rintro st₃ ⟨hkin, hnext₃⟩
              have hnp := hkin np
              rw [setProc_self] at hnp
              simp only [Proc.kin, Prod.mk.injEq] at hnp
              refine Or.inr ⟨np, hfree, ?_, ?_, ?_, fun q hq => ?_, hnext₃.trans hnext⟩
              · rw [setState, setProc_self]
              · rw [setState, setProc_self]
                exact hnp.2.1.trans hself.1
              · rw [setState, setProc_self]
                exact hnp.2.2.1
              · rw [setState, setProc_ne _ _ hq, hkin q, setProc_ne _ _ hq]
                exact hother q hq

/-! ### `exit` and `wait` -/

/-- Nothing has changed but that processes are awake. -/
structure Wakes (st st' : Kernel) : Prop where
  nextpid : st'.nextpid = st.nextpid
  pid : ∀ q, (st'.proc q).pid = (st.proc q).pid
  state : ∀ q, (st'.proc q).state = (st.proc q).state ∧ (st'.proc q).chan = (st.proc q).chan
    ∨ (st.proc q).state.Live ∧ (st'.proc q).state.Live ∧ ¬st'.Waiting q

/-- `exit` of process `p`. -/
structure Exited (st st' : Kernel) (p : Fin NPROC) : Prop where
  nextpid : st'.nextpid = st.nextpid
  pid : ∀ q, (st'.proc q).pid = (st.proc q).pid
  parent : ∀ q, (st'.proc q).parent
    = if (st.proc q).parent = some p then some initproc else (st.proc q).parent
  self : (st'.proc p).state = .zombie
  state : ∀ q, q ≠ p → (st'.proc q).state = (st.proc q).state
      ∧ (st'.proc q).chan = (st.proc q).chan
    ∨ (st.proc q).state.Live ∧ (st'.proc q).state.Live ∧ ¬st'.Waiting q
  wakes : ∀ r, (st.proc p).parent = some r → ¬st'.Waiting r
  init : (∃ q, (st.proc q).parent = some p ∧ (st.proc q).state = .zombie) →
    ¬st'.Waiting initproc

theorem closeFds_stirs (st : Kernel) (p : Fin NPROC) (fds : List (Fin NOFILE)) :
    Ends (fun _ => True) (fds.foldlM (closeFd p) st) (Stirs st) := by
  refine Ends.foldlM (fun (_ : List (Fin NOFILE)) (st' : Kernel) => Stirs st st') ?_ (Stirs.refl st)
  intro fd rest st₁ h₁
  unfold closeFd
  cases (st₁.proc p).ofile fd with
  | none => exact h₁
  | some f =>
      apply (stirs_fileclose st₁ f).bind
      exact fun st₂ h₂ => (h₁.trans h₂).trans (stirs_setFd st₂ p fd none)

/-- Nobody sleeps on a channel that is woken. -/
theorem not_waiting_wakeup1 (st : Kernel) (r : Fin NPROC) :
    ¬(st.wakeup1 (.proc r)).Waiting r := by
  rintro ⟨hs, hc⟩
  have hwake : (st.proc r).wake (.proc r) = (st.wakeup1 (.proc r)).proc r := rfl
  rw [← hwake] at hs hc
  unfold Proc.wake at hs hc
  split at hs
  · cases hs
  · rename_i hno
    rw [if_neg hno] at hc
    exact hno ⟨hs, hc⟩

theorem Wakes.waiting (h : Wakes st st') (hw : st'.Waiting q) : st.Waiting q := by
  obtain ⟨hs, hc⟩ | ⟨_, _, hno⟩ := h.state q
  · exact ⟨hs.symm.trans hw.1, hc.symm.trans hw.2⟩
  · exact absurd hw hno

theorem Wakes.zombie_iff (h : Wakes st st') (q : Fin NPROC) :
    (st'.proc q).state = .zombie ↔ (st.proc q).state = .zombie := by
  obtain ⟨hs, _⟩ | ⟨hl, hl', _⟩ := h.state q
  · rw [hs]
  · exact iff_of_false hl'.2 hl.2

theorem Wakes.refl (st : Kernel) : Wakes st st := ⟨rfl, fun _ => rfl, fun _ => Or.inl ⟨rfl, rfl⟩⟩

theorem Wakes.trans (h : Wakes st st') (h' : Wakes st' st'') : Wakes st st'' := by
  refine ⟨h'.nextpid.trans h.nextpid, fun q => (h'.pid q).trans (h.pid q), fun q => ?_⟩
  obtain ⟨hs', hc'⟩ | ⟨hl', hl'', hno⟩ := h'.state q
  · obtain ⟨hs, hc⟩ | ⟨hl, hl', hno⟩ := h.state q
    · exact Or.inl ⟨hs'.trans hs, hc'.trans hc⟩
    · refine Or.inr ⟨hl, hs' ▸ hl', fun hw => hno ?_⟩
      exact ⟨hs'.symm.trans hw.1, hc'.symm.trans hw.2⟩
  · obtain ⟨hs, _⟩ | ⟨hl, _⟩ := h.state q
    · exact Or.inr ⟨hs ▸ hl', hl'', hno⟩
    · exact Or.inr ⟨hl, hl'', hno⟩

/-- `wakeup1` changes no parent and no pid. -/
theorem wakes_wakeup1 (st : Kernel) (chan : Chan) :
    Wakes st (st.wakeup1 chan) ∧ ∀ q, ((st.wakeup1 chan).proc q).parent = (st.proc q).parent := by
  have hstirs := stirs_wakeup1 st chan
  refine ⟨⟨rfl, fun q => ?_, hstirs.state⟩, hstirs.parent⟩
  show ((st.proc q).wake chan).pid = _
  unfold Proc.wake
  split <;> rfl

/-- Another parent. -/
theorem wakes_setParent (st : Kernel) (q : Fin NPROC) (parent : Option (Fin NPROC)) :
    Wakes st (st.setProc q { st.proc q with parent := parent }) := by
  refine ⟨rfl, fun r => ?_, fun r => Or.inl ?_⟩
  · by_cases hr : r = q
    · rw [hr, setProc_self]
    · rw [setProc_ne _ _ hr]
  · by_cases hr : r = q
    · rw [hr, setProc_self]
      exact ⟨rfl, rfl⟩
    · rw [setProc_ne _ _ hr]
      exact ⟨rfl, rfl⟩

/-- What the loop over the children has done for the processes `qs`. -/
structure Abandoned (st st' : Kernel) (p : Fin NPROC) (qs : List (Fin NPROC)) : Prop where
  wakes : Wakes st st'
  parent : ∀ q, (st'.proc q).parent
    = if q ∈ qs ∧ (st.proc q).parent = some p then some initproc else (st.proc q).parent
  init : (∃ q ∈ qs, (st.proc q).parent = some p ∧ (st.proc q).state = .zombie) →
    ¬st'.Waiting initproc

/-- A turn of the loop. -/
theorem abandoned_abandon (st : Kernel) (p q : Fin NPROC) :
    Abandoned st (abandon p st q) p [q] := by
  unfold abandon
  split
  · rename_i hparent
    have hset := wakes_setParent st q (some initproc)
    have hparents : ∀ r, ((st.setProc q { st.proc q with parent := some initproc }).proc r).parent
        = if r ∈ [q] ∧ (st.proc r).parent = some p then some initproc
          else (st.proc r).parent := by
      intro r
      by_cases hr : r = q
      · rw [hr, setProc_self, if_pos ⟨List.mem_cons_self, hparent⟩]
      · rw [setProc_ne _ _ hr, if_neg fun h => hr (List.mem_singleton.1 h.1)]
    simp only [setProc_self]
    split
    · obtain ⟨hwakes, hsame⟩ := wakes_wakeup1
        (st.setProc q { st.proc q with parent := some initproc }) (.proc initproc)
      exact ⟨hset.trans hwakes, fun r => (hsame r).trans (hparents r),
        fun _ => not_waiting_wakeup1 _ _⟩
    · rename_i hzombie
      refine ⟨hset, hparents, ?_⟩
      rintro ⟨r, hr, _, hz⟩
      rw [List.mem_singleton.1 hr] at hz
      exact absurd hz hzombie
  · rename_i hparent
    refine ⟨Wakes.refl st, fun r => ?_, ?_⟩
    · rw [if_neg]
      rintro ⟨hr, hrp⟩
      rw [List.mem_singleton.1 hr] at hrp
      exact hparent hrp
    · rintro ⟨r, hr, hrp, _⟩
      rw [List.mem_singleton.1 hr] at hrp
      exact absurd hrp hparent

theorem Abandoned.append {qs qs' : List (Fin NPROC)} (hp : p ≠ initproc)
    (h : Abandoned st st' p qs) (h' : Abandoned st' st'' p qs') :
    Abandoned st st'' p (qs ++ qs') := by
  refine ⟨h.wakes.trans h'.wakes, fun q => ?_, ?_⟩
  · have hinit : some initproc ≠ some p := fun heq => hp (Option.some.inj heq).symm
    rw [h'.parent, h.parent]
    by_cases hq : (st.proc q).parent = some p
    · by_cases hmem : q ∈ qs
      · rw [if_pos (⟨hmem, hq⟩ : q ∈ qs ∧ _), if_neg fun h => hinit h.2,
          if_pos ⟨List.mem_append_left _ hmem, hq⟩]
      · rw [if_neg fun h : q ∈ qs ∧ _ => hmem h.1]
        by_cases hmem' : q ∈ qs'
        · rw [if_pos ⟨hmem', hq⟩, if_pos ⟨List.mem_append_right _ hmem', hq⟩]
        · rw [if_neg fun h => hmem' h.1, if_neg]
          exact fun h => (List.mem_append.1 h.1).elim hmem hmem'
    · rw [if_neg fun h : q ∈ qs ∧ _ => hq h.2, if_neg fun h => hq h.2, if_neg fun h => hq h.2]
  · rintro ⟨q, hmem, hq, hz⟩ hwaiting
    by_cases hmem₁ : q ∈ qs
    · exact h.init ⟨q, hmem₁, hq, hz⟩ (h'.wakes.waiting hwaiting)
    · refine h'.init ⟨q, (List.mem_append.1 hmem).resolve_left hmem₁, ?_,
        (h.wakes.zombie_iff q).2 hz⟩ hwaiting
      rw [h.parent, if_neg fun h => hmem₁ h.1]
      exact hq

theorem abandoned_foldl (st : Kernel) (hp : p ≠ initproc) (qs : List (Fin NPROC)) :
    Abandoned st (qs.foldl (abandon p) st) p qs := by
  induction qs generalizing st with
  | nil =>
      refine ⟨Wakes.refl st, fun q => ?_, ?_⟩
      · rw [if_neg fun h => nomatch h.1]
        rfl
      · rintro ⟨q, hq, _⟩
        cases hq
  | cons q qs ih => exact (abandoned_abandon st p q).append hp (ih (abandon p st q))

/-- **`exit`**, once the files are closed. -/
theorem exit_cases (st : Kernel) (p : Fin NPROC) :
    Ends (fun _ => True) (st.exit p) fun st' =>
      p ≠ initproc ∧ ∃ st₁, Stirs st st₁ ∧ Exited st₁ st' p := by
  unfold exit
  split
  · trivial
  rename_i hp
  apply (closeFds_stirs st p (List.finRange NOFILE)).bind
  intro st₁ h₁
  refine ⟨hp, st₁, h₁, ?_⟩
  -- the parent is woken before the children are handed over
  have hparent : Wakes st₁ (st₁.wakeParent p)
      ∧ (∀ q, ((st₁.wakeParent p).proc q).parent = (st₁.proc q).parent)
      ∧ ∀ r, (st₁.proc p).parent = some r → ¬(st₁.wakeParent p).Waiting r := by
    unfold wakeParent
    cases hr : (st₁.proc p).parent with
    | none => exact ⟨Wakes.refl st₁, fun _ => rfl, fun _ h => nomatch h⟩
    | some parent =>
        obtain ⟨hwakes, hsame⟩ := wakes_wakeup1 st₁ (.proc parent)
        refine ⟨hwakes, hsame, fun r h => ?_⟩
        cases h
        exact not_waiting_wakeup1 _ _
  obtain ⟨hwakes, hsame, hwoken⟩ := hparent
  have habandoned := abandoned_foldl (st₁.wakeParent p) hp (List.finRange NPROC)
  generalize (List.finRange NPROC).foldl (abandon p) (st₁.wakeParent p) = st₂ at habandoned ⊢
  have hall := hwakes.trans habandoned.wakes
  -- the state of `p` itself comes last
  have hwaiting : ∀ r, (st₂.setState p .zombie).Waiting r → st₂.Waiting r := by
    intro r hw
    by_cases hr : r = p
    · have hstate := hw.1
      rw [hr, setState, setProc_self] at hstate
      cases hstate
    · unfold Waiting at hw
      rwa [setState, setProc_ne _ _ hr] at hw
  have hself : ((st₂.setState p .zombie).proc p).state = .zombie := by rw [setState, setProc_self]
  have hkept : ∀ q, ((st₂.setState p .zombie).proc q).pid = (st₂.proc q).pid
      ∧ ((st₂.setState p .zombie).proc q).parent = (st₂.proc q).parent := by
    intro q
    by_cases hq : q = p
    · rw [hq, setState, setProc_self]
      exact ⟨rfl, rfl⟩
    · rw [setState, setProc_ne _ _ hq]
      exact ⟨rfl, rfl⟩
  refine ⟨hall.nextpid, fun q => (hkept q).1.trans (hall.pid q), fun q => ?_, hself,
    fun q hq => ?_, fun r hr hw => hwoken r hr (habandoned.wakes.waiting (hwaiting r hw)), ?_⟩
  · rw [(hkept q).2, habandoned.parent, hsame]
    simp only [List.mem_finRange, true_and]
  · have hne : (st₂.setState p .zombie).proc q = st₂.proc q := by rw [setState, setProc_ne _ _ hq]
    rw [hne]
    exact (hall.state q).imp_right fun ⟨hl, hl', hno⟩ => ⟨hl, hl', fun hw => hno (hwaiting q hw)⟩
  · rintro ⟨q, hq, hz⟩ hw
    refine habandoned.init ⟨q, List.mem_finRange q, ?_, (hwakes.zombie_iff q).2 hz⟩
      (hwaiting _ hw)
    rw [hsame]
    exact hq

/-- `wait` of process `p` has freed slot `q`. -/
structure Reaped (st st' : Kernel) (p q : Fin NPROC) : Prop where
  child : (st.proc q).parent = some p
  zombie : (st.proc q).state = .zombie
  free : (st'.proc q).state = .unused
  parent : (st'.proc q).parent = none
  other : ∀ r, r ≠ q → st'.proc r = st.proc r
  nextpid : st'.nextpid = st.nextpid

/-- **`wait`** frees a child that has exited, returns -1, or sleeps. -/
theorem wait_cases (st : Kernel) (p : Fin NPROC) :
    (∃ q, (st.wait p).1 = some (st.proc q).pid ∧ Reaped st (st.wait p).2 p q)
      ∨ st.wait p = (some (-1), st)
      ∨ (∀ q, (st.proc q).parent = some p → (st.proc q).state ≠ .zombie)
        ∧ (∃ q, (st.proc q).parent = some p)
        ∧ st.wait p = (none, st.setProc p
          { st.proc p with state := .sleeping, chan := some (.proc p) }) := by
  unfold wait
  cases hfind : (List.finRange NPROC).find? fun q =>
      (st.proc q).parent = some p ∧ (st.proc q).state = .zombie with
  | some q =>
      have hq := List.find?_some hfind
      simp only [decide_eq_true_eq] at hq
      refine Or.inl ⟨q, rfl, hq.1, hq.2, ?_, ?_, fun r hr => setProc_ne _ _ hr, rfl⟩
      · rw [setProc_self]
      · rw [setProc_self]
  | none =>
      have hnone : ∀ q, (st.proc q).parent = some p → (st.proc q).state ≠ .zombie := by
        intro q hq hz
        have hno := List.find?_eq_none.1 hfind q (List.mem_finRange q)
        simp only [decide_eq_true_eq] at hno
        exact hno ⟨hq, hz⟩
      simp only
      split
      · exact Or.inr (Or.inl rfl)
      · rename_i hkids
        simp only [not_or, Bool.not_eq_false, Bool.not_eq_true, List.any_eq_true,
          decide_eq_true_eq] at hkids
        obtain ⟨⟨q, _, hq⟩, _⟩ := hkids
        exact Or.inr (Or.inr ⟨hnone, ⟨q, hq⟩, rfl⟩)

end Kernel

end SchoolStuff.Xv6.Procs
