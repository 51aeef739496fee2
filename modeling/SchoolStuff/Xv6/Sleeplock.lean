import SchoolStuff.Xv6.SleepWakeup

/-!
# Sleeplock — locks that processes sleep on (`sleeplock.c`)

A sleep-lock is data under a spinlock. `acquiresleep` sleeps on the address of the
lock and looks again when it is woken; `releasesleep` wakes all that sleep there.
The processes take the steps of `SleepWakeup`, in any order.
-/

namespace SchoolStuff.Xv6

open Monitor (Exit Sections Status)
open SleepWakeup

/-- `struct sleeplock`, and who is out of `acquiresleep` and not yet in `releasesleep`
to its end. -/
structure Sleeplock (ι : Type) where
  locked : Bool
  pid : Nat
  has : ι → Bool

namespace Sleeplock

inductive Call where
  | acquiresleep
  | releasesleep
  deriving DecidableEq

variable {ι : Type} [DecidableEq ι]

/-- `initsleeplock`. -/
def initsleeplock : Sleeplock ι := ⟨false, 0, fun _ => false⟩

/-- `acquiresleep`, up to where it sleeps or returns. -/
def acquiresleep (pid : ι → Nat) (t : ι) (lk : Sleeplock ι) : Exit Unit Call (Sleeplock ι) :=
  if lk.locked then ⟨lk, [], some ((), .acquiresleep)⟩
  else ⟨⟨true, pid t, Function.update lk.has t true⟩, [], none⟩

def releasesleep (t : ι) (lk : Sleeplock ι) : Exit Unit Call (Sleeplock ι) :=
  ⟨⟨false, 0, Function.update lk.has t false⟩, [()], none⟩

/-- What `holdingsleep` returns. It does not look whose the lock is. -/
def holdingsleep (lk : Sleeplock ι) : Bool := lk.locked

/-- A process takes the lock that it has not, and releases the lock that it has. -/
def sections (pid : ι → Nat) : Sections ι Unit Call (Sleeplock ι) where
  body t call lk x :=
    match call with
    | .acquiresleep => x = acquiresleep pid t lk
    | .releasesleep => x = releasesleep t lk
  may t call lk :=
    match call with
    | .acquiresleep => lk.has t = false
    | .releasesleep => lk.has t = true

/-- The lock says who has it. -/
structure Inv (pid : ι → Nat) (lk : Sleeplock ι) : Prop where
  one : ∀ t u, lk.has t = true → lk.has u = true → t = u
  locked : lk.locked = true ↔ ∃ t, lk.has t = true
  pid : ∀ t, lk.has t = true → lk.pid = pid t
  free : lk.locked = false → lk.pid = 0

/-- What a process that is in a call has. -/
def Has (lk : Sleeplock ι) (t : ι) : Status Unit Call → Prop
  | .idle => True
  | .ready .acquiresleep => lk.has t = false
  | .ready .releasesleep => lk.has t = true
  | .asleep _ call => call = .acquiresleep ∧ lk.has t = false

variable {pid : ι → Nat} {lk : Sleeplock ι} {t : ι}

omit [DecidableEq ι] in
theorem inv_init : Inv pid initsleeplock :=
  ⟨fun _ _ h => (nomatch h), ⟨fun h => (nomatch h), fun ⟨_, h⟩ => nomatch h⟩,
    fun _ h => (nomatch h), fun _ => rfl⟩

omit [DecidableEq ι] in
theorem Inv.nobody (h : Inv pid lk) (hfree : lk.locked = false) (u : ι) : lk.has u = false :=
  Bool.eq_false_iff.2 fun hu => nomatch hfree.symm.trans (h.locked.2 ⟨u, hu⟩)

theorem Inv.acquiresleep (h : Inv pid lk) : Inv pid (acquiresleep pid t lk).shared := by
  unfold Sleeplock.acquiresleep
  split
  · exact h
  · rename_i hfree
    have hnobody := h.nobody (Bool.eq_false_iff.2 hfree)
    have hself : ∀ u, Function.update lk.has t true u = true → u = t := by
      intro u hu
      by_contra hne
      rw [Function.update_of_ne hne, hnobody u] at hu
      cases hu
    refine ⟨fun u v hu hv => (hself u hu).trans (hself v hv).symm,
      ⟨fun _ => ⟨t, Function.update_self ..⟩, fun _ => rfl⟩, fun u hu => ?_, fun h => (nomatch h)⟩
    rw [hself u hu]

theorem Inv.releasesleep (h : Inv pid lk) (ht : lk.has t = true) :
    Inv pid (releasesleep t lk).shared ∧ ∀ u, (releasesleep t lk).shared.has u = false := by
  have hnobody : ∀ u, Function.update lk.has t false u = false := by
    intro u
    by_cases hu : u = t
    · rw [hu, Function.update_self]
    · rw [Function.update_of_ne hu]
      exact Bool.eq_false_iff.2 fun hhas => hu (h.one u t hhas ht)
  refine ⟨⟨fun u _ hu => ?_, ⟨fun h => (nomatch h), fun ⟨u, hu⟩ => ?_⟩, fun u hu => ?_,
    fun _ => rfl⟩, hnobody⟩
  · exact nomatch (hnobody u).symm.trans hu
  · exact nomatch (hnobody u).symm.trans hu
  · exact nomatch (hnobody u).symm.trans hu

omit [DecidableEq ι] in
/-- What a section does to the others: what each of them has stays. -/
theorem Has.other {lk lk' : Sleeplock ι} {u : ι} {st : Status Unit Call} {wake : List Unit}
    (h : Has lk u st) (hu : lk'.has u = lk.has u) : Has lk' u (st.wake wake) := by
  cases st with
  | idle => trivial
  | ready call =>
      cases call with
      | acquiresleep => exact hu.trans h
      | releasesleep => exact hu.trans h
  | asleep c call =>
      obtain ⟨rfl, hhas⟩ := h
      by_cases hc : c ∈ wake
      · simp only [Status.wake, if_pos hc]
        exact hu.trans hhas
      · simp only [Status.wake, if_neg hc]
        exact ⟨rfl, hu.trans hhas⟩

variable {s : Monitor.State ι Unit Call (Sleeplock ι)}

/-- **Run lemma** of the monitor. -/
theorem inv_reach (h : s.Reach (sections pid) initsleeplock) :
    Inv pid s.shared ∧ ∀ t, Has s.shared t (s.status t) := by
  refine h.threads (I := Inv pid) (P := Has) inv_init (fun _ => trivial) ?_ ?_ ?_
  · intro lk t call _ _ hmay
    cases call with
    | acquiresleep => exact hmay
    | releasesleep => exact hmay
  · rintro lk t _ _ _ ⟨rfl, hhas⟩
    exact hhas
  · intro lk t call x hinv hhas hbody
    cases call with
    | acquiresleep =>
        cases hbody
        refine ⟨hinv.acquiresleep, ?_, fun u st hu hst => ?_⟩
        · unfold acquiresleep
          split
          · exact ⟨rfl, hhas⟩
          · trivial
        · refine hst.other ?_
          unfold acquiresleep
          split
          · rfl
          · exact Function.update_of_ne hu ..
    | releasesleep =>
        cases hbody
        exact ⟨(hinv.releasesleep hhas).1, trivial, fun u st hu hst =>
          hst.other (Function.update_of_ne hu ..)⟩

/-- In a run of the processes. -/
theorem inv_run {s : State ι Unit Call (Sleeplock ι)} {es : List (SleepWakeup.Event ι Call)}
    (hrun : (State.init initsleeplock).Run (sections pid) es s) :
    Inv pid s.shared ∧ ∀ t, Has s.shared t (s.abs.status t) :=
  inv_reach hrun.inv.2

/-- A process that sleeps has the lock before it. -/
theorem locked_of_asleep (h : s.Reach (sections pid) initsleeplock) {call : Call}
    (ht : s.status t = .asleep () call) : s.shared.locked = true := by
  refine h.waits (I := fun _ => True) (P := fun lk => lk.locked = true) trivial
    (fun _ _ _ _ _ _ => trivial) ?_ ?_ ht
  · intro lk t call x _ _ hbody hnext
    cases call with
    | acquiresleep =>
        cases hbody
        unfold acquiresleep at hnext ⊢
        split at hnext
        · rename_i hlocked
          rw [if_pos hlocked]
          exact hlocked
        · cases hnext
    | releasesleep =>
        cases hbody
        cases hnext
  · intro lk t call x _ hbody hlocked hwake
    cases call with
    | acquiresleep =>
        cases hbody
        unfold acquiresleep
        rw [if_pos hlocked]
        exact hlocked
    | releasesleep =>
        cases hbody
        exact absurd List.mem_cons_self hwake

/-- **A sleep-lock excludes**: whatever the processes do with the locks below it, at
most one of them has the lock; it is then marked as locked, with the `pid` of that one;
and `holdingsleep` says whether there is one. -/
theorem sleeplock_excludes {s : State ι Unit Call (Sleeplock ι)}
    {es : List (SleepWakeup.Event ι Call)}
    (hrun : (State.init initsleeplock).Run (sections pid) es s) :
    (∀ t u, s.shared.has t = true → s.shared.has u = true → t = u)
      ∧ (holdingsleep s.shared = true ↔ ∃ t, s.shared.has t = true)
      ∧ (∀ t, s.shared.has t = true → s.shared.pid = pid t)
      ∧ (holdingsleep s.shared = false → s.shared.pid = 0) :=
  have h := (inv_run hrun).1
  ⟨h.one, h.locked, h.pid, h.free⟩

/-- One process takes the lock, and another one sleeps. -/
def oneTakes : List (SleepWakeup.Event Bool Call) :=
  [.call true .acquiresleep, .acquire true, .release true, .call false .acquiresleep,
    .acquire false, .sleep false]

theorem oneTakes_run : ∃ s : State Bool Unit Call (Sleeplock Bool),
    (State.init initsleeplock).Run (sections fun t => bif t then 3 else 4) oneTakes s
      ∧ s.shared.has true = true ∧ s.pc false = .leaving () .acquiresleep :=
  ⟨_, .cons ⟨rfl, rfl, rfl⟩ (.cons ⟨_, _, rfl, rfl, rfl, rfl⟩ (.cons ⟨rfl, rfl⟩
    (.cons ⟨rfl, rfl, rfl⟩ (.cons ⟨_, _, rfl, rfl, rfl, rfl⟩
      (.cons ⟨_, _, rfl, rfl, rfl⟩ .nil))))), rfl, rfl⟩

theorem sleeplock_excludes_two :
    ∃ s : State Bool Unit Call (Sleeplock Bool), s.shared.has true = true
      ∧ (∀ t u, s.shared.has t = true → s.shared.has u = true → t = u)
      ∧ (holdingsleep s.shared = true ↔ ∃ t, s.shared.has t = true)
      ∧ (∀ t, s.shared.has t = true → s.shared.pid = bif t then 3 else 4)
      ∧ (holdingsleep s.shared = false → s.shared.pid = 0) :=
  have ⟨s, hrun, hhas, _⟩ := oneTakes_run
  ⟨s, hhas, sleeplock_excludes hrun⟩

/-- **No wakeup is lost**: a process sleeps in `acquiresleep` only while the lock is
taken, or a `wakeup` is on the way; and when the lock is free each process that is in
`acquiresleep` can be the next to get it, with no other section in between. -/
theorem sleeplock_wakes {s : State ι Unit Call (Sleeplock ι)}
    {es : List (SleepWakeup.Event ι Call)}
    (hrun : (State.init initsleeplock).Run (sections pid) es s) {t : ι}
    (hcall : (s.pc t).call = some .acquiresleep) :
    (s.pc t = .sleeping () .acquiresleep → () ∈ s.pending ∨ s.shared.locked = true)
      ∧ (s.shared.locked = false → ∃ es' s', s.Run (sections pid) es' s'
        ∧ es'.filterMap SleepWakeup.Event.monitor = [.run t] ∧ s'.shared.has t = true) := by
  have hreach := hrun.inv.2
  refine ⟨fun ht => (State.asleep_of_sleeping ht).imp_right (locked_of_asleep hreach),
    fun hfree => ?_⟩
  have hready : s.abs.status t = .ready .acquiresleep := by
    obtain hready | ⟨⟨⟩, hasleep⟩ := Pc.status_call hcall s.pending
    · exact hready
    · exact nomatch hfree.symm.trans (locked_of_asleep hreach hasleep)
  obtain ⟨es', s', hrun', hes', habs⟩ := hrun.inv.1.realise (M := sections pid)
    (e := .run t) ⟨_, _, hready, rfl, rfl⟩
  refine ⟨es', s', hrun', hes', ?_⟩
  rw [show s'.shared = s'.abs.shared from rfl, habs]
  show (acquiresleep pid t s.shared).shared.has t = true
  rw [acquiresleep, if_neg (by rw [hfree]; exact Bool.noConfusion)]
  exact Function.update_self ..

theorem sleeplock_wakes_two :
    ∃ s : State Bool Unit Call (Sleeplock Bool), (s.pc false).call = some .acquiresleep
      ∧ (s.pc false = .sleeping () .acquiresleep → () ∈ s.pending ∨ s.shared.locked = true)
      ∧ (s.shared.locked = false →
        ∃ es' s', s.Run (sections fun t => bif t then 3 else 4) es' s'
          ∧ es'.filterMap SleepWakeup.Event.monitor = [.run false] ∧ s'.shared.has false = true) :=
  have ⟨s, hrun, _, hpc⟩ := oneTakes_run
  have hcall : (s.pc false).call = some .acquiresleep := by rw [hpc]; rfl
  ⟨s, hcall, sleeplock_wakes hrun hcall⟩

end Sleeplock

end SchoolStuff.Xv6
