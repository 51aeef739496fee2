import SchoolStuff.Xv6.Procs
import SchoolStuff.Lib.Ends

/-!
# Xv6 — pids and `killed`

Of a process `kill` takes the pid and the flag `killed`, and whether its slot is
in use: that is a `Table`. A step takes a slot with the next pid, reaps one, or
kills one (`Table.Step`). Pids stay unique, also those that failed forks leave
in free slots (`Table.Pids`). A free slot has no flag `killed`, unless `kill`
has named the pid of a free slot: it finds such a slot as well. That is 0, or
the pid of a failed fork, and the next process in the slot is killed from its
start (`kill_law_iff`).
-/

namespace SchoolStuff.Xv6.Procs

open Dirs (NOFILE NFILE)

/-- What `kill` sees of a slot. -/
structure Slot where
  free : Bool
  pid : Int
  killed : Bool
  deriving DecidableEq

/-- What `kill` sees of the process table. -/
structure Table where
  slot : Fin NPROC → Slot
  nextpid : Int

namespace Table

def set (t : Table) (q : Fin NPROC) (s : Slot) : Table :=
  { t with slot := Function.update t.slot q s }

/-- Slot `q` is taken with the next pid; it stays free if memory runs out. -/
def take (t : Table) (q : Fin NPROC) (free : Bool) : Table :=
  { t.set q ⟨free, t.nextpid, (t.slot q).killed⟩ with nextpid := t.nextpid + 1 }

/-- What a step does to the table, if `kill` names no free slot. -/
inductive Step (t : Table) : Table → Prop where
  | same : Step t t
  | take (q : Fin NPROC) (free : Bool) (hfree : (t.slot q).free = true) :
      Step t (t.take q free)
  | reap (q : Fin NPROC) : Step t (t.set q ⟨true, 0, false⟩)
  | kill (q : Fin NPROC) (hfree : (t.slot q).free = false) :
      Step t (t.set q { t.slot q with killed := true })

/-- Pids are unique, those of processes are positive, and no free slot is
killed. -/
structure Ok (t : Table) : Prop where
  next : 0 < t.nextpid
  nonneg : ∀ q, 0 ≤ (t.slot q).pid
  lt : ∀ q, (t.slot q).pid < t.nextpid
  pos : ∀ q, (t.slot q).free = false → 0 < (t.slot q).pid
  inj : ∀ q r, (t.slot q).pid = (t.slot r).pid → (t.slot q).pid ≠ 0 → q = r
  clean : ∀ q, (t.slot q).free = true → (t.slot q).killed = false

variable {t t' : Table}

@[simp] theorem set_slot (t : Table) (q : Fin NPROC) (s : Slot) :
    (t.set q s).slot = Function.update t.slot q s := rfl

/-- What holds of the new contents of one slot and of all the others. -/
theorem forall_update {P : Slot → Prop} {q : Fin NPROC} {s : Slot} (hs : P s)
    (h : ∀ r, P (t.slot r)) (r : Fin NPROC) : P (Function.update t.slot q s r) := by
  by_cases hrq : r = q
  · rw [hrq, Function.update_self]
    exact hs
  · rw [Function.update_of_ne hrq]
    exact h r

/-- A slot gets a pid that is 0, or its old one, or the next one. -/
theorem Ok.set (h : Ok t) {q : Fin NPROC} {s : Slot} {next : Int}
    (hnext : t.nextpid ≤ next) (hlt : s.pid < next) (hnonneg : 0 ≤ s.pid)
    (hpos : s.free = false → 0 < s.pid) (hclean : s.free = true → s.killed = false)
    (hfresh : s.pid = 0 ∨ s.pid = (t.slot q).pid ∨ t.nextpid ≤ s.pid) :
    Ok { t.set q s with nextpid := next } := by
  have hother : ∀ r, r ≠ q → s.pid = (t.slot r).pid → s.pid = 0 := by
    intro r hr heq
    rcases hfresh with hzero | hold | hnew
    · exact hzero
    · by_contra hne
      exact hr (h.inj r q (heq.symm.trans hold) (heq ▸ hne))
    · have := h.lt r
      omega
  refine ⟨Int.lt_of_lt_of_le h.next hnext,
    forall_update (P := fun s => 0 ≤ s.pid) hnonneg h.nonneg,
    forall_update (P := fun s => s.pid < next) hlt fun r =>
      Int.lt_of_lt_of_le (h.lt r) hnext,
    forall_update (P := fun s => s.free = false → 0 < s.pid) hpos h.pos,
    fun r r' heq hne => ?_,
    forall_update (P := fun s => s.free = true → s.killed = false) hclean h.clean⟩
  simp only [set_slot] at heq hne
  by_cases hrq : r = q
  · by_cases hrq' : r' = q
    · rw [hrq, hrq']
    · rw [hrq, Function.update_self, Function.update_of_ne hrq'] at heq
      rw [hrq, Function.update_self] at hne
      exact absurd (hother r' hrq' heq) hne
  · rw [Function.update_of_ne hrq] at heq hne
    by_cases hrq' : r' = q
    · rw [hrq', Function.update_self] at heq
      exact absurd (hother r hrq heq.symm) (heq ▸ hne)
    · rw [Function.update_of_ne hrq'] at heq
      exact h.inj r r' heq hne

/-- **Step lemma** for the table. -/
theorem Ok.step (h : Ok t) (hs : Step t t') : Ok t' := by
  cases hs with
  | same => exact h
  | take q free hfree =>
      have hnext : t.nextpid < t.nextpid + 1 := Int.lt_succ _
      exact h.set (Int.le_of_lt hnext) hnext (Int.le_of_lt h.next) (fun _ => h.next)
        (fun _ => h.clean q hfree) (Or.inr (Or.inr (Int.le_refl _)))
  | reap q =>
      exact h.set (Int.le_refl _) h.next (Int.le_refl 0) (fun hfree => by cases hfree)
        (fun _ => rfl) (Or.inl rfl)
  | kill q hfree =>
      refine h.set (Int.le_refl _) (h.lt q) (h.nonneg q) (h.pos q) (fun htrue => ?_)
        (Or.inr (Or.inl rfl))
      rw [hfree] at htrue
      cases htrue

end Table

/-! ## The steps of the kernel -/

def Proc.slot (pr : Proc) : Slot := ⟨pr.state = .unused, pr.pid, pr.killed⟩

namespace Kernel

def table (st : Kernel) : Table := ⟨fun q => (st.proc q).slot, st.nextpid⟩

/-- `x` ends in a value of `P`, or stops. -/
abbrev Partly {α : Type} (x : Except Stop α) (P : α → Prop) : Prop :=
  Ends (fun _ => True) x P

variable {st st' : Kernel} {p q : Fin NPROC} {f : Fin NFILE}

theorem table_setProc (st : Kernel) (p : Fin NPROC) (pr : Proc) :
    (st.setProc p pr).table = st.table.set p pr.slot := by
  unfold table Table.set
  congr 1
  funext q
  by_cases hqp : q = p
  · rw [hqp, setProc_self, Function.update_self]
  · rw [setProc_ne _ _ hqp, Function.update_of_ne hqp]

theorem table_setProc_same {pr : Proc} (h : pr.slot = (st.proc p).slot) :
    (st.setProc p pr).table = st.table := by
  rw [table_setProc, h]
  unfold Table.set
  congr 1
  exact Function.update_eq_self p _

theorem table_setFd (st : Kernel) (p : Fin NPROC) (fd : Fin NOFILE)
    (x : Option (Fin NFILE)) : (st.setFd p fd x).table = st.table :=
  table_setProc_same rfl

theorem slot_wake (chan : Chan) (pr : Proc) : (pr.wake chan).slot = pr.slot := by
  unfold Proc.wake
  split
  · rename_i h
    simp only [Proc.slot, h.1]
    rfl
  · rfl

theorem table_wakeup1 (st : Kernel) (chan : Chan) : (st.wakeup1 chan).table = st.table := by
  unfold table
  congr 1
  funext q
  exact slot_wake chan (st.proc q)

/-! ### Files -/

theorem table_filealloc {r : Fin NFILE × Kernel} (h : st.filealloc = some r) :
    r.2.table = st.table := by
  obtain ⟨f, _, rfl⟩ := Option.map_eq_some_iff.1 h
  rfl

theorem table_fdalloc {r : Fin NOFILE × Kernel} (h : st.fdalloc p f = some r) :
    r.2.table = st.table := by
  obtain ⟨fd, _, rfl⟩ := Option.map_eq_some_iff.1 h
  exact table_setFd st p fd _

theorem table_filedup (st : Kernel) (f : Fin NFILE) :
    Partly (st.filedup f) fun st' => st'.table = st.table := by
  unfold filedup
  split
  · trivial
  · rfl

theorem table_pipeclose (st : Kernel) (k : Nat) (writable : Bool) :
    Partly (st.pipeclose k writable) fun st' => st'.table = st.table := by
  unfold pipeclose
  split
  · trivial
  · exact table_wakeup1 st _

theorem table_fileclose (st : Kernel) (f : Fin NFILE) :
    Partly (st.fileclose f) fun st' => st'.table = st.table := by
  unfold fileclose
  simp only
  split
  · trivial
  split
  · rfl
  cases (st.file f).type with
  | none => rfl
  | inode => rfl
  | pipe => exact table_pipeclose _ _ _

/-- Two files are closed, and a call returns. -/
theorem table_fileclose_two (st : Kernel) (f g : Fin NFILE) {α : Type} (a : α) :
    Partly (do
      let st ← st.fileclose f
      let st ← st.fileclose g
      .ok (a, st)) fun r => r.2.table = st.table := by
  apply (table_fileclose st f).bind
  intro st₁ h₁
  apply (table_fileclose st₁ g).bind
  exact fun st₂ h₂ => h₂.trans h₁

theorem table_pipealloc (st : Kernel) (page : Option (Fin PIPESIZE → UInt8)) :
    Partly (st.pipealloc page) fun r => r.2.table = st.table := by
  unfold pipealloc
  cases h₀ : st.filealloc with
  | none => rfl
  | some r₀ =>
      obtain ⟨f0, st₀⟩ := r₀
      have ht₀ : st₀.table = st.table := table_filealloc h₀
      simp only
      cases h₁ : st₀.filealloc with
      | none =>
          apply (table_fileclose st₀ f0).bind
          exact fun st' h' => h'.trans ht₀
      | some r₁ =>
          obtain ⟨f1, st₁⟩ := r₁
          have ht₁ : st₁.table = st₀.table := table_filealloc h₁
          cases page with
          | none => exact (table_fileclose_two st₁ f0 f1 _).mono fun r hr =>
              hr.trans (ht₁.trans ht₀)
          | some data => exact ht₁.trans ht₀

theorem table_sysDup (st : Kernel) (p : Fin NPROC) (fd : Int) :
    Partly (st.sysDup p fd) fun r => r.2.table = st.table := by
  unfold sysDup
  cases argfd (st.proc p) fd with
  | none => rfl
  | some x =>
      simp only
      cases h : st.fdalloc p x.2 with
      | none => rfl
      | some r =>
          apply (table_filedup r.2 x.2).bind
          exact fun st' h' => h'.trans (table_fdalloc h)

theorem table_sysClose (st : Kernel) (p : Fin NPROC) (fd : Int) :
    Partly (st.sysClose p fd) fun r => r.2.table = st.table := by
  unfold sysClose
  cases argfd (st.proc p) fd with
  | none => rfl
  | some x =>
      apply (table_fileclose (st.setFd p x.1 none) x.2).bind
      exact fun st' h' => h'.trans (table_setFd st p x.1 none)

theorem table_sysOpen (st : Kernel) (p : Fin NPROC) (ip : Bool) (omode : UInt32) :
    Partly (st.sysOpen p ip omode) fun r => r.2.table = st.table := by
  unfold sysOpen
  split
  · rfl
  cases h : st.filealloc with
  | none => rfl
  | some r =>
      obtain ⟨f, st₁⟩ := r
      have ht₁ : st₁.table = st.table := table_filealloc h
      simp only
      cases hfd : st₁.fdalloc p f with
      | none =>
          apply (table_fileclose st₁ f).bind
          exact fun st' h' => h'.trans ht₁
      | some r => exact (table_fdalloc hfd).trans ht₁

theorem table_sysPipe (st : Kernel) (p : Fin NPROC)
    (page : Option (Fin PIPESIZE → UInt8)) :
    Partly (st.sysPipe p page) fun r => r.2.table = st.table := by
  apply (table_pipealloc st page).bind
  rintro ⟨files, st₁⟩ (ht₁ : st₁.table = st.table)
  cases files with
  | none => exact ht₁
  | some files =>
      obtain ⟨rf, wf⟩ := files
      simp only
      cases h₀ : st₁.fdalloc p rf with
      | none => exact (table_fileclose_two st₁ rf wf _).mono fun r hr => hr.trans ht₁
      | some r₀ =>
          obtain ⟨fd0, st₂⟩ := r₀
          have ht₂ : st₂.table = st₁.table := table_fdalloc h₀
          simp only
          cases h₁ : st₂.fdalloc p wf with
          | none =>
              exact (table_fileclose_two (st₂.setFd p fd0 none) rf wf _).mono fun r hr =>
                hr.trans ((table_setFd st₂ p fd0 none).trans (ht₂.trans ht₁))
          | some r₁ => exact (table_fdalloc h₁).trans (ht₂.trans ht₁)

/-! ### Processes -/

theorem slot_free_iff : (st.table.slot q).free = true ↔ (st.proc q).state = .unused :=
  decide_eq_true_iff

/-- The slot of process `np`, which has been taken, is given another state. -/
theorem table_setState_take {t : Table} {np : Fin NPROC}
    (h : st.table = t.take np false) (state : ProcState) :
    (st.setState np state).table = t.take np (state = .unused) := by
  have hslot : (st.proc np).slot = ⟨false, t.nextpid, (t.slot np).killed⟩ := by
    have := congrFun (congrArg Table.slot h) np
    rwa [Table.take, Table.set_slot, Function.update_self] at this
  have hpid : (st.proc np).pid = t.nextpid := congrArg Slot.pid hslot
  have hkilled : (st.proc np).killed = (t.slot np).killed := congrArg Slot.killed hslot
  rw [setState, table_setProc, h]
  unfold Table.take Table.set
  simp only [Proc.slot, hpid, hkilled, Function.update_idem]

/-- `allocproc` takes a free slot, and returns it if there is a page for it. -/
theorem table_allocproc (st : Kernel) (kstack : Bool) :
    Partly (st.allocproc kstack) fun r =>
      (r.1 = none ∧ (r.2.table = st.table
        ∨ ∃ np, (st.table.slot np).free = true ∧ r.2.table = st.table.take np true))
      ∨ ∃ np, r.1 = some np ∧ (st.table.slot np).free = true
        ∧ r.2.table = st.table.take np false := by
  unfold allocproc
  cases hfind : (List.finRange NPROC).find? fun q => (st.proc q).state = .unused with
  | none => exact Or.inl ⟨rfl, Or.inl rfl⟩
  | some np =>
      have hfree : (st.table.slot np).free = true :=
        List.find?_some (p := fun q => decide ((st.proc q).state = .unused)) hfind
      simp only
      split
      · trivial
      generalize hst₁ : ({ st.setProc np { st.proc np with
        state := .embryo, pid := st.nextpid } with nextpid := st.nextpid + 1 } : Kernel) = st₁
      have ht₁ : st₁.table = st.table.take np false := by
        rw [← hst₁]
        exact congrArg (fun t : Table => { t with nextpid := st.nextpid + 1 })
          (table_setProc st np _)
      split
      · exact Or.inr ⟨np, rfl, hfree, ht₁⟩
      · exact Or.inl ⟨rfl, Or.inr ⟨np, hfree, table_setState_take ht₁ .unused⟩⟩

theorem table_dupFds (st : Kernel) (p np : Fin NPROC) (fds : List (Fin NOFILE)) :
    Partly (fds.foldlM (dupFd p np) st) fun st' => st'.table = st.table := by
  refine Ends.foldlM (fun (_ : List (Fin NOFILE)) (st' : Kernel) =>
    st'.table = st.table) ?_ rfl
  intro fd rest st₁ h₁
  unfold dupFd
  cases (st₁.proc p).ofile fd with
  | none => exact h₁
  | some f =>
      apply (table_filedup st₁ f).bind
      exact fun st₂ h₂ => (table_setFd st₂ np fd _).trans (h₂.trans h₁)

/-- **`fork`** takes a slot with the next pid, and returns the pid or fails. -/
theorem table_fork (st : Kernel) (p : Fin NPROC) (kstack pgdir : Bool) :
    Partly (st.fork p kstack pgdir) fun r =>
      (r.1 = -1 ∧ (r.2.table = st.table
        ∨ ∃ np, (st.table.slot np).free = true ∧ r.2.table = st.table.take np true))
      ∨ ∃ np, r.1 = st.nextpid ∧ (st.table.slot np).free = true
        ∧ (r.2.proc np).state = .runnable ∧ r.2.table = st.table.take np false := by
  apply (table_allocproc st kstack).bind
  rintro ⟨np, st₁⟩ (⟨rfl, h⟩ | ⟨np, rfl, hfree, ht₁⟩)
  · exact Or.inl ⟨rfl, h⟩
  simp only
  split
  · have ht₂ : (st₁.setProc np { st₁.proc np with parent := some p }).table
        = st.table.take np false := by
      rw [table_setProc_same]
      · exact ht₁
      · rfl
    apply (table_dupFds _ p np (List.finRange NOFILE)).bind
    intro st₃ h₃
    have ht₃ := h₃.trans ht₂
    have hslot := congrFun (congrArg Table.slot ht₃) np
    rw [Table.take, Table.set_slot, Function.update_self] at hslot
    refine Or.inr ⟨np, congrArg Slot.pid hslot, hfree, ?_, table_setState_take ht₃ .runnable⟩
    rw [setState, setProc_self]
  · exact Or.inl ⟨rfl, Or.inr ⟨np, hfree, table_setState_take ht₁ .unused⟩⟩

theorem table_closeFds (st : Kernel) (p : Fin NPROC) (fds : List (Fin NOFILE)) :
    Partly (fds.foldlM (closeFd p) st) fun st' => st'.table = st.table := by
  refine Ends.foldlM (fun (_ : List (Fin NOFILE)) (st' : Kernel) =>
    st'.table = st.table) ?_ rfl
  intro fd rest st₁ h₁
  unfold closeFd
  cases (st₁.proc p).ofile fd with
  | none => exact h₁
  | some f =>
      apply (table_fileclose st₁ f).bind
      exact fun st₂ h₂ => (table_setFd st₂ p fd _).trans (h₂.trans h₁)

theorem table_abandon (p : Fin NPROC) (st : Kernel) (q : Fin NPROC) :
    (abandon p st q).table = st.table := by
  have hparent : (st.setProc q { st.proc q with parent := some initproc }).table
      = st.table := table_setProc_same rfl
  unfold abandon
  split
  · simp only
    split
    · rw [table_wakeup1, hparent]
    · exact hparent
  · rfl

theorem table_abandons (p : Fin NPROC) (st : Kernel) (qs : List (Fin NPROC)) :
    (qs.foldl (abandon p) st).table = st.table := by
  induction qs generalizing st with
  | nil => rfl
  | cons q qs ih => rw [List.foldl_cons, ih, table_abandon]

/-- A process in use stays in use. -/
theorem table_setState (h : (st.proc p).state ≠ .unused) {state : ProcState}
    (hstate : state ≠ .unused) : (st.setState p state).table = st.table := by
  apply table_setProc_same
  simp only [Proc.slot, decide_eq_false hstate, decide_eq_false h]

theorem table_exit (h : (st.proc p).state ≠ .unused) :
    Partly (st.exit p) fun st' => st'.table = st.table := by
  unfold exit
  split
  · trivial
  apply (table_closeFds st p (List.finRange NOFILE)).bind
  intro st₁ h₁
  have hparent : (st₁.wakeParent p).table = st.table := by
    unfold wakeParent
    cases (st₁.proc p).parent with
    | none => exact h₁
    | some parent => exact (table_wakeup1 st₁ _).trans h₁
  have hall := (table_abandons p (st₁.wakeParent p) (List.finRange NPROC)).trans hparent
  refine Eq.trans (table_setState ?_ (by decide)) hall
  rw [Ne, ← slot_free_iff, hall, slot_free_iff]
  exact h

/-- **`wait`** reaps a slot, or changes nothing. -/
theorem table_wait (h : (st.proc p).state ≠ .unused) :
    st.table.Step (st.wait p).2.table := by
  unfold wait
  split
  · rw [table_setProc]
    exact .reap _
  · simp only
    split
    · exact .same
    · rw [table_setProc_same]
      · exact .same
      · simp only [Proc.slot, decide_eq_false h]
        rfl

/-- **`kill`** finds a slot by its pid, in use or not, and changes only that
slot. -/
theorem kill_spec (st : Kernel) (pid : Int) :
    ((st.kill pid).1 = -1 ∧ (st.kill pid).2 = st ∧ ∀ q, (st.proc q).pid ≠ pid)
      ∨ ∃ q pr, (st.proc q).pid = pid ∧ st.kill pid = (0, st.setProc q pr)
        ∧ pr.slot = { (st.proc q).slot with killed := true } := by
  unfold kill
  cases hfind : (List.finRange NPROC).find? fun q => (st.proc q).pid = pid with
  | none =>
      refine Or.inl ⟨rfl, rfl, fun q => ?_⟩
      have := List.find?_eq_none.1 hfind q (List.mem_finRange q)
      simpa using this
  | some q =>
      have hpid : (st.proc q).pid = pid := by
        have := List.find?_some hfind
        simpa using this
      refine Or.inr ⟨q, _, hpid, rfl, ?_⟩
      simp only [Proc.slot]
      split
      · rename_i hsleeping
        rw [hsleeping]
        rfl
      · rfl

/-! ## The law -/

/-- `kill` has changed one slot, that of an allocated process with the pid. -/
def KillsProcess (st : Kernel) (pid : Int) (st' : Kernel) : Prop :=
  ∃ q, (st.proc q).state ≠ .unused ∧ (st.proc q).pid = pid
    ∧ st' = st.setProc q (st'.proc q)

/-- `fork` has returned the pid of a process that is new and not killed. -/
def StartsChild (st : Kernel) (pid : Int) (st' : Kernel) : Prop :=
  ∃ q, (st.proc q).state = .unused ∧ (st'.proc q).state = .runnable
    ∧ (st'.proc q).pid = pid ∧ (st'.proc q).killed = false

/-- **The law of a step**: `kill` returns 0 only if it kills a process, and a
process that `fork` returns is not killed. -/
def Law (st : Kernel) : Event → Option Int → Kernel → Prop
  | .call _ (.kill pid), r, st' => r = some 0 → st.KillsProcess pid st'
  | .call _ (.fork _ _), r, st' =>
      ∀ pid, r = some pid → pid ≠ -1 → st.StartsChild pid st'
  | _, _, _ => True

/-- A step of `kill` does not name the pid of a free slot. -/
def NamesNoFree (st : Kernel) : Event → Prop
  | .call _ (.kill pid) => ∀ q, (st.proc q).state = .unused → (st.proc q).pid ≠ pid
  | _ => True

/-- All steps of a run obey the law. -/
def LawfulRun (st : Kernel) : List Event → Prop
  | [] => True
  | e :: es => ∀ r st', st.step e = .ok (r, st') → st.Law e r st' ∧ st'.LawfulRun es

/-- No `kill` of a run names the pid of a slot that is free then. -/
def NamesNoFreeRun (st : Kernel) : List Event → Prop
  | [] => True
  | e :: es => ∀ r st', st.step e = .ok (r, st') → st.NamesNoFree e ∧ st'.NamesNoFreeRun es

instance (st : Kernel) (e : Event) : Decidable (st.NamesNoFree e) := by
  unfold NamesNoFree
  split <;> infer_instance

/-- The run is computed to look at its steps. -/
instance decidableNamesNoFreeRun (st : Kernel) (es : List Event) :
    Decidable (st.NamesNoFreeRun es) :=
  match es with
  | [] => isTrue trivial
  | e :: es =>
      match hstep : st.step e with
      | .error _ => isTrue fun r st' hok => by rw [hstep] at hok; cases hok
      | .ok (r, st') =>
          have := decidableNamesNoFreeRun st' es
          decidable_of_iff (st.NamesNoFree e ∧ st'.NamesNoFreeRun es) (by
            constructor
            · intro h r₁ st₁ hok
              rw [hstep] at hok
              cases hok
              exact h
            · intro h
              exact h r st' hstep)

theorem law_fork (h : st.table.Ok) (p : Fin NPROC) (kstack pgdir : Bool) :
    Partly (st.fork p kstack pgdir) fun r =>
      (r.1 ≠ -1 → st.StartsChild r.1 r.2) ∧ st.table.Step r.2.table := by
  apply (table_fork st p kstack pgdir).mono
  rintro ⟨r, st'⟩ (⟨rfl, hsame | ⟨np, hfree, htake⟩⟩ | ⟨np, rfl, hfree, hrunnable, htake⟩)
  · refine ⟨absurd rfl, ?_⟩
    rw [hsame]
    exact .same
  · refine ⟨absurd rfl, ?_⟩
    rw [htake]
    exact .take np true hfree
  · have hslot := congrFun (congrArg Table.slot htake) np
    rw [Table.take, Table.set_slot, Function.update_self, h.clean np hfree] at hslot
    refine ⟨fun _ => ⟨np, slot_free_iff.1 hfree, hrunnable, congrArg Slot.pid hslot,
      congrArg Slot.killed hslot⟩, ?_⟩
    rw [htake]
    exact .take np false hfree

/-- `kill` obeys the law if and only if it names no free slot. -/
theorem law_kill (h : st.table.Ok) (pid : Int) :
    ((st.kill pid).1 = 0 → st.KillsProcess pid (st.kill pid).2)
      ↔ ∀ q, (st.proc q).state = .unused → (st.proc q).pid ≠ pid := by
  rcases kill_spec st pid with ⟨hnone, _, hmiss⟩ | ⟨q, pr, hpid, hkill, _⟩
  · refine iff_of_true (fun hzero => ?_) fun q _ => hmiss q
    rw [hnone] at hzero
    cases hzero
  rw [hkill]
  constructor
  · intro hlaw r hfree heq
    obtain ⟨r', hused, hpid', _⟩ := hlaw rfl
    have hused' : (st.table.slot r').free = false := decide_eq_false hused
    have hpos : 0 < (st.proc r').pid := h.pos r' hused'
    -- a pid that is not 0 is in one slot only
    have hsame := h.inj r r' (heq.trans hpid'.symm) (by
      change (st.proc r).pid ≠ 0
      omega)
    rw [hsame] at hfree
    exact hused hfree
  · intro hfree _
    refine ⟨q, fun hunused => hfree q hunused hpid, hpid, ?_⟩
    rw [setProc_self]

theorem ok_kill (h : st.table.Ok) {pid : Int}
    (hnames : ∀ q, (st.proc q).state = .unused → (st.proc q).pid ≠ pid) :
    (st.kill pid).2.table.Ok := by
  rcases kill_spec st pid with ⟨_, hsame, _⟩ | ⟨q, pr, hpid, heq, hslot⟩
  · rw [hsame]
    exact h
  · rw [heq, table_setProc, hslot]
    exact h.step (.kill q (decide_eq_false fun hunused => hnames q hunused hpid))

/-- The other calls leave the table alone, or reap a slot of it. -/
theorem table_syscall (hused : (st.proc p).state ≠ .unused) (c : Call)
    (hfork : ∀ kstack pgdir, c ≠ .fork kstack pgdir) (hkill : ∀ pid, c ≠ .kill pid) :
    Partly (st.syscall p c) fun r => st.table.Step r.2.table := by
  have hsame : ∀ {t : Table}, t = st.table → st.table.Step t := by
    rintro t rfl
    exact .same
  cases c with
  | fork kstack pgdir => exact absurd rfl (hfork kstack pgdir)
  | kill pid => exact absurd rfl (hkill pid)
  | exit => exact Ends.map ((table_exit hused).mono fun _ => hsame)
  | wait => exact table_wait hused
  | openInode ip omode => exact Ends.map ((table_sysOpen st p ip omode).mono fun _ => hsame)
  | dup fd => exact Ends.map ((table_sysDup st p fd).mono fun _ => hsame)
  | pipe page => exact Ends.map ((table_sysPipe st p page).mono fun _ => hsame)
  | close fd => exact Ends.map ((table_sysClose st p fd).mono fun _ => hsame)
  | yield => exact hsame (table_setState hused (by decide))
  | sleep chan =>
      apply hsame
      apply table_setProc_same
      simp only [Proc.slot, decide_eq_false hused]
      rfl

/-- **Step lemma**: a step obeys the law if and only if it names no free slot,
and then the table stays well formed. -/
theorem law_step (h : st.table.Ok) (e : Event) :
    Partly (st.step e) fun r =>
      (st.Law e r.1 r.2 ↔ st.NamesNoFree e) ∧ (st.NamesNoFree e → r.2.table.Ok) := by
  cases e with
  | scheduler p =>
      unfold step
      simp only
      split
      · rename_i hrunnable
        refine ⟨Iff.rfl, fun _ => ?_⟩
        change (st.setProc p _).table.Ok
        rw [table_setProc_same]
        · exact h
        · simp only [Proc.slot, hrunnable]
          rfl
      · trivial
  | wakeup chan =>
      refine ⟨Iff.rfl, fun _ => ?_⟩
      rw [table_wakeup1]
      exact h
  | call p c =>
      -- `fork` and `kill` are those that the law is about
      unfold step
      simp only
      split
      · rename_i hrunning
        have hused : (st.proc p).state ≠ .unused := by
          rw [hrunning]
          decide
        by_cases hfork : ∃ kstack pgdir, c = .fork kstack pgdir
        · obtain ⟨kstack, pgdir, rfl⟩ := hfork
          apply Ends.map
          apply (law_fork h p kstack pgdir).mono
          rintro r ⟨hchild, hstep⟩
          refine ⟨iff_of_true (fun pid hpid hne => ?_) trivial, fun _ => h.step hstep⟩
          cases hpid
          exact hchild hne
        by_cases hkill : ∃ pid, c = .kill pid
        · obtain ⟨pid, rfl⟩ := hkill
          refine ⟨?_, fun hnames => ok_kill h hnames⟩
          rw [NamesNoFree, ← law_kill h pid]
          exact imp_congr_left Option.some_inj
        · rw [not_exists] at hkill
          have hfork' : ∀ kstack pgdir, c ≠ .fork kstack pgdir :=
            fun kstack pgdir heq => hfork ⟨kstack, pgdir, heq⟩
          apply (table_syscall hused c hfork' hkill).mono
          intro r hstep
          refine ⟨iff_of_true ?_ ?_, fun _ => h.step hstep⟩
          · cases c <;> first | trivial | exact absurd rfl (hkill _) | exact absurd rfl (hfork' _ _)
          · cases c <;> first | trivial | exact absurd rfl (hkill _)
      · trivial

theorem lawful_iff (h : st.table.Ok) (es : List Event) :
    st.LawfulRun es ↔ st.NamesNoFreeRun es := by
  induction es generalizing st with
  | nil => exact Iff.rfl
  | cons e es ih =>
      have hstep := law_step h e
      apply forall_congr'
      intro r
      apply forall_congr'
      intro st'
      apply imp_congr_right
      intro hok
      rw [hok] at hstep
      obtain ⟨hlaw, hnext⟩ := hstep
      simp only at hlaw hnext
      rw [hlaw]
      exact and_congr_right fun hnames => ih (hnext hnames)

end Kernel

theorem boot_ok : boot.table.Ok := by
  refine ⟨by decide, ?_, ?_, ?_, ?_, ?_⟩ <;> decide +kernel

/-- **The kill law.** A run of the kernel before `nextpid` overflows obeys the
law in all its steps, if and only if none of its calls of `kill` names the pid
of a slot that is free. -/
theorem kill_law_iff (es : List Event) :
    boot.LawfulRun es ↔ boot.NamesNoFreeRun es :=
  Kernel.lawful_iff boot_ok es

/-- The first process forks without memory for a page table, kills the pid of
the process that it did not get, and forks again. -/
def killStale : List Event :=
  [.scheduler 0, .call 0 (.fork true false), .call 0 (.kill 2), .call 0 (.fork true true)]

/-- `kill(2)` returns 0 though no process has that pid, and the child starts
killed. -/
theorem stale_pid_killed :
    ¬boot.LawfulRun killStale ∧ ∃ st, boot.run killStale = .ok st
      ∧ (st.proc 1).state = .runnable ∧ (st.proc 1).pid = 3 ∧ (st.proc 1).killed = true := by
  refine ⟨?_, Ends.exists_of_check (by decide +kernel)⟩
  rw [Kernel.lawful_iff boot_ok]
  decide +kernel

end SchoolStuff.Xv6.Procs
