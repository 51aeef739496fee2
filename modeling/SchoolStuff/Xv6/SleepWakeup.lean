import SchoolStuff.Lib.Monitor

/-!
# SleepWakeup — `sleep` and `wakeup` with their locks (`proc.c`)

Processes run sections that hold a spinlock `lk`. In a section a process may call
`wakeup` and, at its end, `sleep`. Both take `ptable.lock`, which the scheduler
holds as well while it switches. A step here goes from one operation on a lock
to the next: `sleep` gives `lk` up before the process is SLEEPING, and others
run in between. With all that, the processes do what the sections of a monitor
do one at a time, and no lock is held forever.
-/

namespace SchoolStuff.Xv6.SleepWakeup

open Monitor (Sections Status)

/-- Where a process is. -/
inductive Pc (χ ρ : Type) where
  | idle
  /-- about to `acquire(lk)` -/
  | want (r : ρ)
  /-- holds `lk`, and has these `wakeup`s and then `sleep` or `release(lk)` to do -/
  | holds (wake : List χ) (next : Option (χ × ρ))
  /-- in `sleep`: holds `ptable.lock`, has released `lk` and is not yet SLEEPING -/
  | leaving (c : χ) (r : ρ)
  /-- SLEEPING on a channel -/
  | sleeping (c : χ) (r : ρ)
  /-- RUNNABLE, in `sched` -/
  | runnable (r : ρ)
  /-- back from `sched`, holds `ptable.lock` -/
  | back (r : ρ)
  deriving DecidableEq

/-- Who holds `ptable.lock`. -/
inductive Owner (ι : Type) where
  | scheduler
  | proc (t : ι)
  deriving DecidableEq

structure State (ι χ ρ σ : Type) where
  shared : σ
  lk : Option ι
  ptable : Option (Owner ι)
  pc : ι → Pc χ ρ

inductive Event (ι ρ : Type) where
  | call (t : ι) (r : ρ)
  /-- `acquire(lk)`, and the section -/
  | acquire (t : ι)
  | wakeup (t : ι)
  | release (t : ι)
  /-- `sleep`: `acquire(&ptable.lock)` and `release(lk)` -/
  | sleep (t : ι)
  /-- `p->state = SLEEPING` and `sched()` -/
  | sched (t : ι)
  /-- the scheduler's `acquire(&ptable.lock)` -/
  | lock
  /-- the scheduler switches to a process -/
  | pick (t : ι)
  /-- the scheduler's `release(&ptable.lock)` -/
  | unlock
  /-- the end of `sleep` or `yield`: `release(&ptable.lock)` -/
  | resume (t : ι)
  | yield (t : ι)
  | kill (t : ι)

/-- The step of the monitor that a step is, if it is one. -/
def Event.monitor {ι ρ : Type} : Event ι ρ → Option (Monitor.Event ι ρ)
  | .call t r => some (.call t r)
  | .acquire t => some (.run t)
  | .kill t => some (.kick t)
  | _ => none

variable {ι χ ρ σ : Type} [DecidableEq ι] [DecidableEq χ]

/-- `wakeup1`. -/
def Pc.wakeup1 (c : χ) : Pc χ ρ → Pc χ ρ
  | .sleeping c' r => if c' = c then .runnable r else .sleeping c' r
  | pc => pc

/-- The process holds `lk`. -/
def Pc.hasLk : Pc χ ρ → Bool
  | .holds _ _ => true
  | _ => false

/-- The process holds `ptable.lock`. -/
def Pc.hasPtable : Pc χ ρ → Bool
  | .leaving _ _ => true
  | .back _ => true
  | _ => false

theorem Pc.wakeup1_hasLk (c : χ) (pc : Pc χ ρ) : (pc.wakeup1 c).hasLk = pc.hasLk := by
  cases pc with
  | sleeping c' r =>
      simp only [wakeup1]
      split <;> rfl
  | _ => rfl

theorem Pc.wakeup1_hasPtable (c : χ) (pc : Pc χ ρ) :
    (pc.wakeup1 c).hasPtable = pc.hasPtable := by
  cases pc with
  | sleeping c' r =>
      simp only [wakeup1]
      split <;> rfl
  | _ => rfl

namespace State

def setPc (s : State ι χ ρ σ) (t : ι) (pc : Pc χ ρ) : State ι χ ρ σ :=
  { s with pc := Function.update s.pc t pc }

/-- One step. -/
def Step (M : Sections ι χ ρ σ) (s : State ι χ ρ σ) : Event ι ρ → State ι χ ρ σ → Prop
  | .call t r, s' => s.pc t = .idle ∧ M.may t r s.shared ∧ s' = s.setPc t (.want r)
  | .acquire t, s' => ∃ r x, s.pc t = .want r ∧ s.lk = none ∧ M.body t r s.shared x
      ∧ s' = { s.setPc t (.holds x.wake x.next) with shared := x.shared, lk := some t }
  | .wakeup t, s' => ∃ c cs next, s.pc t = .holds (c :: cs) next ∧ s.ptable = none
      ∧ s' = { s with pc := fun u => (s.pc u).wakeup1 c }.setPc t (.holds cs next)
  | .release t, s' => s.pc t = .holds [] none ∧ s' = { s.setPc t .idle with lk := none }
  | .sleep t, s' => ∃ c r, s.pc t = .holds [] (some (c, r)) ∧ s.ptable = none
      ∧ s' = { s.setPc t (.leaving c r) with lk := none, ptable := some (.proc t) }
  | .sched t, s' => ∃ c r, s.pc t = .leaving c r
      ∧ s' = { s.setPc t (.sleeping c r) with ptable := some .scheduler }
  | .lock, s' => s.ptable = none ∧ s' = { s with ptable := some .scheduler }
  | .pick t, s' => ∃ r, s.ptable = some .scheduler ∧ s.pc t = .runnable r
      ∧ s' = { s.setPc t (.back r) with ptable := some (.proc t) }
  | .unlock, s' => s.ptable = some .scheduler ∧ s' = { s with ptable := none }
  | .resume t, s' => ∃ r, s.pc t = .back r ∧ s' = { s.setPc t (.want r) with ptable := none }
  | .yield t, s' => ∃ r, s.pc t = .want r ∧ s.ptable = none
      ∧ s' = { s.setPc t (.runnable r) with ptable := some .scheduler }
  | .kill t, s' => ∃ c r, s.pc t = .sleeping c r ∧ s.ptable = none
      ∧ s' = s.setPc t (.runnable r)

/-- Nobody is in a call, and no lock is held. -/
def init (shared : σ) : State ι χ ρ σ := ⟨shared, none, none, fun _ => .idle⟩

/-- A run. -/
inductive Run (M : Sections ι χ ρ σ) :
    State ι χ ρ σ → List (Event ι ρ) → State ι χ ρ σ → Prop
  | nil {s : State ι χ ρ σ} : Run M s [] s
  | cons {s s₁ s' : State ι χ ρ σ} {e : Event ι ρ} {es : List (Event ι ρ)} :
      s.Step M e s₁ → Run M s₁ es s' → Run M s (e :: es) s'

/-! ## The monitor -/

/-- The channels that the section in progress has still to wake. -/
def pending (s : State ι χ ρ σ) : List χ :=
  match s.lk with
  | none => []
  | some t =>
      match s.pc t with
      | .holds wake _ => wake
      | _ => []

end State

/-- The thread of the monitor that a process is. One that is SLEEPING is awake there
if a `wakeup` is still to come for it. -/
def Pc.status (pending : List χ) : Pc χ ρ → Status χ ρ
  | .idle => .idle
  | .holds _ none => .idle
  | .holds _ (some (c, r)) => .asleep c r
  | .want r => .ready r
  | .runnable r => .ready r
  | .back r => .ready r
  | .leaving c r => if c ∈ pending then .ready r else .asleep c r
  | .sleeping c r => if c ∈ pending then .ready r else .asleep c r

namespace State

/-- The state of the monitor. -/
def abs (s : State ι χ ρ σ) : Monitor.State ι χ ρ σ :=
  ⟨s.shared, fun t => (s.pc t).status s.pending⟩

/-- A lock is held by who is at a place where it is. -/
structure Inv (s : State ι χ ρ σ) : Prop where
  lk : ∀ t, s.lk = some t ↔ (s.pc t).hasLk = true
  ptable : ∀ t, s.ptable = some (.proc t) ↔ (s.pc t).hasPtable = true

variable {M : Sections ι χ ρ σ} {s s' : State ι χ ρ σ} {t u : ι} {pc : Pc χ ρ}

omit [DecidableEq χ] in
theorem setPc_self : (s.setPc t pc).pc t = pc := Function.update_self ..

omit [DecidableEq ι] [DecidableEq χ] in
theorem inv_init (shared : σ) : (init shared : State ι χ ρ σ).Inv :=
  ⟨fun _ => ⟨fun h => (nomatch h), fun h => (nomatch h)⟩,
    fun _ => ⟨fun h => (nomatch h), fun h => (nomatch h)⟩⟩

omit [DecidableEq ι] [DecidableEq χ] in
theorem pending_none (hlk : s.lk = none) : s.pending = [] := by
  rw [pending, hlk]

omit [DecidableEq ι] [DecidableEq χ] in
theorem pending_holds {wake : List χ} {next : Option (χ × ρ)} (hlk : s.lk = some t)
    (hpc : s.pc t = .holds wake next) : s.pending = wake := by
  simp only [pending, hlk, hpc]

/-- One process moves, and with it the locks that it takes and gives up. -/
def moved (s : State ι χ ρ σ) (t : ι) (pc : Pc χ ρ) (d : σ) (lk : Option ι)
    (ptable : Option (Owner ι)) : State ι χ ρ σ :=
  ⟨d, lk, ptable, Function.update s.pc t pc⟩

variable {d : σ} {lk : Option ι} {ptable : Option (Owner ι)}

omit [DecidableEq χ] in
theorem Inv.moved (h : s.Inv) (hlk : lk = some t ↔ pc.hasLk = true)
    (hlk' : ∀ u, u ≠ t → (lk = some u ↔ s.lk = some u))
    (hptable : ptable = some (.proc t) ↔ pc.hasPtable = true)
    (hptable' : ∀ u, u ≠ t → (ptable = some (.proc u) ↔ s.ptable = some (.proc u))) :
    (s.moved t pc d lk ptable).Inv := by
  refine ⟨fun u => ?_, fun u => ?_⟩
  · by_cases hu : u = t
    · rw [hu]
      simp only [State.moved, Function.update_self]
      exact hlk
    · simp only [State.moved, Function.update_of_ne hu]
      exact (hlk' u hu).trans (h.lk u)
  · by_cases hu : u = t
    · rw [hu]
      simp only [State.moved, Function.update_self]
      exact hptable
    · simp only [State.moved, Function.update_of_ne hu]
      exact (hptable' u hu).trans (h.ptable u)

omit [DecidableEq χ] in
theorem pending_moved (hlk : lk = s.lk) (ht : s.lk ≠ some t) :
    (s.moved t pc d lk ptable).pending = s.pending := by
  unfold pending moved
  rw [hlk]
  cases hs : s.lk with
  | none => rfl
  | some u =>
      have hu : u ≠ t := fun heq => ht (heq ▸ hs)
      simp only [Function.update_of_ne hu]

/-- A process moves: so does its thread in the monitor. -/
theorem abs_moved (hpending : (s.moved t pc d lk ptable).pending = s.pending) :
    (s.moved t pc d lk ptable).abs = { s.abs.set t (pc.status s.pending) with shared := d } := by
  unfold abs
  rw [hpending]
  simp only [moved, Monitor.State.set, Monitor.State.mk.injEq, true_and]
  funext u
  by_cases hu : u = t
  · rw [hu, Function.update_self, Function.update_self]
  · rw [Function.update_of_ne hu, Function.update_of_ne hu]

/-- A process moves, and its thread does not. -/
theorem abs_moved_same (hpending : (s.moved t pc s.shared lk ptable).pending = s.pending)
    (hstatus : pc.status s.pending = (s.pc t).status s.pending) :
    (s.moved t pc s.shared lk ptable).abs = s.abs := by
  rw [abs_moved hpending, hstatus]
  show Monitor.State.mk _ (Function.update s.abs.status t _) = _
  rw [show (s.pc t).status s.pending = s.abs.status t from rfl, Function.update_eq_self]
  rfl

/-- **A section is one step of the monitor.** -/
theorem abs_acquire (h : s.Inv) {x : Monitor.Exit χ ρ σ} (hlk : s.lk = none) :
    (s.moved t (.holds x.wake x.next) x.shared (some t) s.ptable).abs = s.abs.after t x := by
  have hnew : (s.moved t (.holds x.wake x.next) x.shared (some t) s.ptable).pending = x.wake :=
    pending_holds (t := t) rfl (Function.update_self ..)
  unfold abs Monitor.State.after
  rw [hnew, pending_none hlk]
  simp only [moved, Monitor.State.mk.injEq, true_and]
  funext u
  by_cases hu : u = t
  · rw [hu, Function.update_self, Function.update_self]
    unfold Monitor.Exit.status
    cases x.next with
    | none => rfl
    | some cr => rfl
  · rw [Function.update_of_ne hu, Function.update_of_ne hu]
    cases hpc : s.pc u with
    | holds wake next =>
        have hheld := (h.lk u).2 (by rw [hpc]; rfl)
        rw [hlk] at hheld
        cases hheld
    | leaving c r => simp only [Pc.status, List.not_mem_nil, if_false, Status.wake]
    | sleeping c r => simp only [Pc.status, List.not_mem_nil, if_false, Status.wake]
    | idle => rfl
    | want r => rfl
    | runnable r => rfl
    | back r => rfl

/-- **A `wakeup` is no step of the monitor**: it has been there in the section. Nobody
is on the way to sleep, for `ptable.lock` is free. -/
theorem abs_wakeup (h : s.Inv) {c : χ} {cs : List χ} {next : Option (χ × ρ)}
    (hpc : s.pc t = .holds (c :: cs) next) (hptable : s.ptable = none) :
    ({ s with pc := fun u => (s.pc u).wakeup1 c }.setPc t (.holds cs next)).abs = s.abs := by
  have hlk := (h.lk t).2 (by rw [hpc]; rfl)
  have hnew : ({ s with pc := fun u => (s.pc u).wakeup1 c }.setPc t (.holds cs next)).pending
      = cs := pending_holds (t := t) hlk (Function.update_self ..)
  unfold abs
  rw [hnew, pending_holds hlk hpc]
  simp only [setPc, Monitor.State.mk.injEq, true_and]
  funext u
  by_cases hu : u = t
  · rw [hu, Function.update_self, hpc]
    cases next with
    | none => rfl
    | some cr => rfl
  · rw [Function.update_of_ne hu]
    cases hpcu : s.pc u with
    | leaving c' r =>
        have hheld := (h.ptable u).2 (by rw [hpcu]; rfl)
        rw [hptable] at hheld
        cases hheld
    | sleeping c' r =>
        simp only [Pc.wakeup1]
        by_cases hc : c' = c
        · rw [if_pos hc, hc]
          simp only [Pc.status, List.mem_cons, true_or, if_true]
        · rw [if_neg hc]
          simp only [Pc.status, List.mem_cons, hc, false_or]
    | holds wake next' =>
        cases next' with
        | none => rfl
        | some cr => rfl
    | idle => rfl
    | want r => rfl
    | runnable r => rfl
    | back r => rfl

theorem inv_wakeup (h : s.Inv) {c : χ} {cs : List χ} {next : Option (χ × ρ)}
    (hpc : s.pc t = .holds (c :: cs) next) (hptable : s.ptable = none) :
    ({ s with pc := fun u => (s.pc u).wakeup1 c }.setPc t (.holds cs next)).Inv := by
  have hlk := (h.lk t).2 (by rw [hpc]; rfl)
  have hwoken : Inv { s with pc := fun u => (s.pc u).wakeup1 c } :=
    ⟨fun u => (h.lk u).trans (by rw [Pc.wakeup1_hasLk]),
      fun u => (h.ptable u).trans (by rw [Pc.wakeup1_hasPtable])⟩
  refine hwoken.moved (iff_of_true hlk rfl) (fun _ _ => Iff.rfl) (iff_of_false ?_ Bool.noConfusion)
    fun _ _ => Iff.rfl
  intro heq
  exact nomatch hptable.symm.trans heq

omit [DecidableEq ι] [DecidableEq χ] in
theorem Inv.lk_ne (h : s.Inv) (hpc : (s.pc t).hasLk = false) : s.lk ≠ some t := fun heq =>
  nomatch hpc.symm.trans ((h.lk t).1 heq)

omit [DecidableEq ι] [DecidableEq χ] in
theorem Inv.ptable_ne (h : s.Inv) (hpc : (s.pc t).hasPtable = false) :
    s.ptable ≠ some (.proc t) := fun heq =>
  nomatch hpc.symm.trans ((h.ptable t).1 heq)

omit [DecidableEq ι] [DecidableEq χ] in
/-- The only holder. -/
theorem Inv.lk_other (h : s.Inv) (hpc : (s.pc t).hasLk = true) (hu : u ≠ t) :
    s.lk ≠ some u := fun heq =>
  hu (Option.some.inj (heq.symm.trans ((h.lk t).2 hpc)))

omit [DecidableEq ι] [DecidableEq χ] in
theorem Inv.ptable_other (h : s.Inv) (hpc : (s.pc t).hasPtable = true) (hu : u ≠ t) :
    s.ptable ≠ some (.proc u) := fun heq =>
  hu (Owner.proc.inj (Option.some.inj (heq.symm.trans ((h.ptable t).2 hpc))))

/-- A process without `lk` moves between places where it needs no lock, or takes or
gives up `ptable.lock`. -/
theorem Inv.move (h : s.Inv) (pc : Pc χ ρ) (ptable : Option (Owner ι))
    (hlk : (s.pc t).hasLk = false) (hpc : pc.hasLk = false)
    (hptable : ptable = some (.proc t) ↔ pc.hasPtable = true)
    (hptable' : ∀ u, u ≠ t → (ptable = some (.proc u) ↔ s.ptable = some (.proc u))) :
    (s.moved t pc s.shared s.lk ptable).Inv
      ∧ (s.moved t pc s.shared s.lk ptable).abs = s.abs.set t (pc.status s.pending) := by
  have hne := h.lk_ne hlk
  exact ⟨h.moved (iff_of_false hne (by rw [hpc]; exact Bool.noConfusion)) (fun _ _ => Iff.rfl)
    hptable hptable', abs_moved (pending_moved rfl hne)⟩

omit [DecidableEq ι] in
/-- Nobody holds `ptable.lock`, or the scheduler does, before and after. -/
theorem ptable_iff {x y : Option (Owner ι)} (hx : ∀ u, x ≠ some (.proc u))
    (hy : ∀ u, y ≠ some (.proc u)) (u : ι) : x = some (.proc u) ↔ y = some (.proc u) :=
  iff_of_false (hx u) (hy u)

theorem abs_set_self (hstatus : pc.status s.pending = (s.pc t).status s.pending) :
    s.abs.set t (pc.status s.pending) = s.abs := by
  rw [hstatus]
  show Monitor.State.mk _ (Function.update s.abs.status t (s.abs.status t)) = _
  rw [Function.update_eq_self]

/-- A step is its step of the monitor, or none: it has none, or the process that is
killed has been woken before. -/
def Refines (M : Sections ι χ ρ σ) (s : State ι χ ρ σ) (e : Event ι ρ) (s' : State ι χ ρ σ) :
    Prop :=
  s'.abs = s.abs ∧ (e.monitor = none ∨ s.pending ≠ [])
    ∨ ∃ e', e.monitor = some e' ∧ s.abs.Step M e' s'.abs

/-- **Refinement, step lemma.** -/
theorem Inv.step (h : s.Inv) {e : Event ι ρ} (hstep : s.Step M e s') :
    s'.Inv ∧ Refines M s e s' := by
  have hno : ∀ {x : Option (Owner ι)}, x = none → ∀ u, x ≠ some (.proc u) := fun hx u heq =>
    nomatch hx.symm.trans heq
  have hsched : ∀ {x : Option (Owner ι)}, x = some .scheduler → ∀ u, x ≠ some (.proc u) :=
    fun hx u heq => nomatch Option.some.inj (hx.symm.trans heq)
  cases e with
  | call t r =>
      obtain ⟨hpc, hmay, rfl⟩ := hstep
      obtain ⟨hinv, habs⟩ := h.move (t := t) (.want r) s.ptable
        (by rw [hpc]; rfl) rfl (iff_of_false (h.ptable_ne (by rw [hpc]; rfl)) Bool.noConfusion)
        fun _ _ => Iff.rfl
      refine ⟨hinv, Or.inr ⟨.call t r, rfl, ?_, hmay, habs⟩⟩
      show (s.pc t).status s.pending = _
      rw [hpc]
      rfl
  | acquire t =>
      obtain ⟨r, x, hpc, hlk, hbody, rfl⟩ := hstep
      refine ⟨h.moved (iff_of_true rfl rfl) (fun u hu => ?_)
        (iff_of_false (h.ptable_ne (by rw [hpc]; rfl)) Bool.noConfusion) fun _ _ => Iff.rfl,
        Or.inr ⟨.run t, rfl, r, x, ?_, hbody, abs_acquire h hlk⟩⟩
      · rw [hlk]
        exact iff_of_false (fun heq => hu (Option.some.inj heq).symm) (fun heq => nomatch heq)
      · show (s.pc t).status s.pending = _
        rw [hpc]
        rfl
  | wakeup t =>
      obtain ⟨c, cs, next, hpc, hptable, rfl⟩ := hstep
      exact ⟨inv_wakeup h hpc hptable, Or.inl ⟨abs_wakeup h hpc hptable, Or.inl rfl⟩⟩
  | release t =>
      obtain ⟨hpc, rfl⟩ := hstep
      have hheld : (s.pc t).hasLk = true := by rw [hpc]; rfl
      have hpending : (s.moved t .idle s.shared none s.ptable).pending = s.pending := by
        rw [pending_holds ((h.lk t).2 hheld) hpc]
        rfl
      refine ⟨h.moved (iff_of_false (fun heq => nomatch heq) Bool.noConfusion)
        (fun u hu => iff_of_false (fun heq => nomatch heq) (h.lk_other hheld hu))
        (iff_of_false (h.ptable_ne (by rw [hpc]; rfl)) Bool.noConfusion) fun _ _ => Iff.rfl,
        Or.inl ⟨abs_moved_same hpending ?_, Or.inl rfl⟩⟩
      rw [hpc]
      rfl
  | sleep t =>
      obtain ⟨c, r, hpc, hptable, rfl⟩ := hstep
      have hheld : (s.pc t).hasLk = true := by rw [hpc]; rfl
      have hlk := (h.lk t).2 hheld
      have hpending : (s.moved t (.leaving c r) s.shared none (some (.proc t))).pending
          = s.pending := by
        rw [pending_holds hlk hpc]
        rfl
      refine ⟨h.moved (iff_of_false (fun heq => nomatch heq) Bool.noConfusion)
        (fun u hu => iff_of_false (fun heq => nomatch heq) (h.lk_other hheld hu))
        (iff_of_true rfl rfl) (fun u hu => iff_of_false ?_ (hno hptable u)),
        Or.inl ⟨abs_moved_same hpending ?_, Or.inl rfl⟩⟩
      · exact fun heq => hu (Owner.proc.inj (Option.some.inj heq)).symm
      · rw [hpc, pending_holds hlk hpc]
        rfl
  | sched t =>
      obtain ⟨c, r, hpc, rfl⟩ := hstep
      have hheld : (s.pc t).hasPtable = true := by rw [hpc]; rfl
      obtain ⟨hinv, habs⟩ := h.move (t := t) (.sleeping c r) (some .scheduler)
        (by rw [hpc]; rfl) rfl (iff_of_false (hsched rfl t) Bool.noConfusion)
        fun u hu => iff_of_false (hsched rfl u) (h.ptable_other hheld hu)
      refine ⟨hinv, Or.inl ⟨habs.trans (abs_set_self ?_), Or.inl rfl⟩⟩
      rw [hpc]
      rfl
  | lock =>
      obtain ⟨hptable, rfl⟩ := hstep
      exact ⟨⟨h.lk, fun u => (ptable_iff (hsched rfl) (hno hptable) u).trans (h.ptable u)⟩,
        Or.inl ⟨rfl, Or.inl rfl⟩⟩
  | pick t =>
      obtain ⟨r, hptable, hpc, rfl⟩ := hstep
      obtain ⟨hinv, habs⟩ := h.move (t := t) (.back r) (some (.proc t))
        (by rw [hpc]; rfl) rfl (iff_of_true rfl rfl) fun u hu => iff_of_false
          (fun heq => hu (Owner.proc.inj (Option.some.inj heq)).symm) (hsched hptable u)
      refine ⟨hinv, Or.inl ⟨habs.trans (abs_set_self ?_), Or.inl rfl⟩⟩
      rw [hpc]
      rfl
  | unlock =>
      obtain ⟨hptable, rfl⟩ := hstep
      exact ⟨⟨h.lk, fun u => (ptable_iff (hno rfl) (hsched hptable) u).trans (h.ptable u)⟩,
        Or.inl ⟨rfl, Or.inl rfl⟩⟩
  | resume t =>
      obtain ⟨r, hpc, rfl⟩ := hstep
      have hheld : (s.pc t).hasPtable = true := by rw [hpc]; rfl
      obtain ⟨hinv, habs⟩ := h.move (t := t) (.want r) none
        (by rw [hpc]; rfl) rfl (iff_of_false (hno rfl t) Bool.noConfusion)
        fun u hu => iff_of_false (hno rfl u) (h.ptable_other hheld hu)
      refine ⟨hinv, Or.inl ⟨habs.trans (abs_set_self ?_), Or.inl rfl⟩⟩
      rw [hpc]
      rfl
  | yield t =>
      obtain ⟨r, hpc, hptable, rfl⟩ := hstep
      obtain ⟨hinv, habs⟩ := h.move (t := t) (.runnable r) (some .scheduler)
        (by rw [hpc]; rfl) rfl (iff_of_false (hsched rfl t) Bool.noConfusion)
        fun u _ => iff_of_false (hsched rfl u) (hno hptable u)
      refine ⟨hinv, Or.inl ⟨habs.trans (abs_set_self ?_), Or.inl rfl⟩⟩
      rw [hpc]
      rfl
  | kill t =>
      obtain ⟨c, r, hpc, hptable, rfl⟩ := hstep
      obtain ⟨hinv, habs⟩ := h.move (t := t) (.runnable r) s.ptable
        (by rw [hpc]; rfl) rfl (iff_of_false (hno hptable t) Bool.noConfusion)
        fun _ _ => Iff.rfl
      have hstatus : s.abs.status t = if c ∈ s.pending then .ready r else .asleep c r := by
        show (s.pc t).status s.pending = _
        rw [hpc]
        rfl
      by_cases hc : c ∈ s.pending
      · refine ⟨hinv, Or.inl ⟨habs.trans (abs_set_self ?_), Or.inr (List.ne_nil_of_mem hc)⟩⟩
        show _ = s.abs.status t
        rw [hstatus, if_pos hc]
        rfl
      · rw [if_neg hc] at hstatus
        exact ⟨hinv, Or.inr ⟨.kick t, rfl, c, r, hstatus, habs⟩⟩

theorem Run.append {s₁ : State ι χ ρ σ} {es es' : List (Event ι ρ)} (h : Run M s es s₁)
    (h' : Run M s₁ es' s') : Run M s (es ++ es') s' := by
  induction h with
  | nil => exact h'
  | cons hstep _ ih => exact .cons hstep (ih h')

/-- **Refinement, run lemma.** -/
theorem Inv.run {d : σ} {es : List (Event ι ρ)} (h : s.Inv) (hreach : Monitor.State.Reach M d s.abs)
    (hrun : Run M s es s') : s'.Inv ∧ Monitor.State.Reach M d s'.abs := by
  induction hrun with
  | nil => exact ⟨h, hreach⟩
  | cons hstep _ ih =>
      obtain ⟨hinv, ⟨habs, _⟩ | ⟨e', _, hstep'⟩⟩ := h.step hstep
      · exact ih hinv (habs ▸ hreach)
      · exact ih hinv (hreach.step hstep')

/-! ## No lock is held forever -/

/-- A run without steps of the monitor. -/
def Quiet (M : Sections ι χ ρ σ) (s s' : State ι χ ρ σ) : Prop :=
  ∃ es, Run M s es s' ∧ es.filterMap Event.monitor = []

theorem Quiet.refl (s : State ι χ ρ σ) : Quiet M s s := ⟨[], .nil, rfl⟩

theorem Quiet.trans {s₁ : State ι χ ρ σ} (h : Quiet M s s₁) (h' : Quiet M s₁ s') :
    Quiet M s s' := by
  obtain ⟨es, hrun, hes⟩ := h
  obtain ⟨es', hrun', hes'⟩ := h'
  exact ⟨es ++ es', hrun.append hrun', by rw [List.filterMap_append, hes, hes']; rfl⟩

theorem Quiet.single {e : Event ι ρ} (hstep : s.Step M e s') (he : e.monitor = none) :
    Quiet M s s' :=
  ⟨[e], .cons hstep .nil, by rw [List.filterMap_cons_none he]; rfl⟩

theorem Inv.quiet (h : s.Inv) (hq : Quiet M s s') : s'.Inv ∧ s'.abs = s.abs := by
  obtain ⟨es, hrun, hes⟩ := hq
  induction hrun with
  | nil => exact ⟨h, rfl⟩
  | @cons s s₁ s' e es hstep _ ih =>
      have he : e.monitor = none := by
        cases he : e.monitor with
        | none => rfl
        | some e' =>
            rw [List.filterMap_cons_some he] at hes
            cases hes
      rw [List.filterMap_cons_none he] at hes
      obtain ⟨hinv, ⟨habs, _⟩ | ⟨e', he', _⟩⟩ := h.step hstep
      · obtain ⟨hinv', habs'⟩ := ih hinv hes
        exact ⟨hinv', habs'.trans habs⟩
      · exact nomatch he.symm.trans he'

/-- `ptable.lock` becomes free, and the section in progress stays as it is. -/
theorem Inv.free_ptable (h : s.Inv) : ∃ s', Quiet M s s' ∧ s'.ptable = none ∧ s'.lk = s.lk
    ∧ ∀ t, (s.pc t).hasLk = true → s'.pc t = s.pc t := by
  cases hptable : s.ptable with
  | none => exact ⟨s, .refl s, hptable, rfl, fun _ _ => rfl⟩
  | some o =>
      cases o with
      | scheduler =>
          exact ⟨_, .single (e := .unlock) ⟨hptable, rfl⟩ rfl, rfl, rfl, fun _ _ => rfl⟩
      | proc t =>
          have hheld := (h.ptable t).1 hptable
          have hother : ∀ u pc, (s.pc u).hasLk = true → Function.update s.pc t pc u = s.pc u := by
            intro u pc hu
            refine Function.update_of_ne (fun heq => ?_) _ _
            rw [heq] at hu
            cases hpc : s.pc t with
            | holds wake next =>
                rw [hpc] at hheld
                cases hheld
            | _ =>
                rw [hpc] at hu
                cases hu
          cases hpc : s.pc t with
          | leaving c r =>
              have hsched : s.Step M (.sched t) _ := ⟨c, r, hpc, rfl⟩
              exact ⟨_, (Quiet.single hsched rfl).trans
                (.single (e := .unlock) ⟨rfl, rfl⟩ rfl), rfl, rfl, fun u hu => hother u _ hu⟩
          | back r =>
              exact ⟨_, .single (e := .resume t) ⟨r, hpc, rfl⟩ rfl, rfl, rfl,
                fun u hu => hother u _ hu⟩
          | _ =>
              rw [hpc] at hheld
              cases hheld

/-- The section in progress comes to its end. -/
theorem free_lk {wake : List χ} {next : Option (χ × ρ)} (hpc : s.pc t = .holds wake next)
    (hptable : s.ptable = none) : ∃ s', Quiet M s s' ∧ s'.lk = none ∧ s'.ptable = none := by
  induction wake generalizing s with
  | nil =>
      cases next with
      | none => exact ⟨_, .single (e := .release t) ⟨hpc, rfl⟩ rfl, rfl, hptable⟩
      | some cr =>
          obtain ⟨c, r⟩ := cr
          have hsleep : s.Step M (.sleep t) _ := ⟨c, r, hpc, hptable, rfl⟩
          have hsched : Step M
              { s.setPc t (.leaving c r) with lk := none, ptable := some (.proc t) } (.sched t) _ :=
            ⟨c, r, setPc_self, rfl⟩
          exact ⟨_, ((Quiet.single hsleep rfl).trans (.single hsched rfl)).trans
            (.single (e := .unlock) ⟨rfl, rfl⟩ rfl), rfl, rfl⟩
  | cons c cs ih =>
      have hwakeup : s.Step M (.wakeup t) _ := ⟨c, cs, next, hpc, hptable, rfl⟩
      obtain ⟨s', hq, hfree⟩ := ih
        (s := { s with pc := fun u => (s.pc u).wakeup1 c }.setPc t (.holds cs next)) setPc_self
        hptable
      exact ⟨s', (Quiet.single hwakeup rfl).trans hq, hfree⟩

/-- **No deadlock**: both locks can become free. -/
theorem Inv.free (h : s.Inv) : ∃ s', Quiet M s s' ∧ s'.lk = none ∧ s'.ptable = none := by
  obtain ⟨s₁, hq, hptable, hlk, hholds⟩ := h.free_ptable (M := M)
  cases hs : s.lk with
  | none => exact ⟨s₁, hq, hlk.trans hs, hptable⟩
  | some t =>
      have hheld := (h.lk t).1 hs
      have heq := hholds t hheld
      cases hpc : s.pc t with
      | holds wake next =>
          obtain ⟨s', hq', hfree⟩ := free_lk (M := M) (heq.trans hpc) hptable
          exact ⟨s', hq.trans hq', hfree⟩
      | _ =>
          rw [hpc] at hheld
          cases hheld

/-- With both locks free a process that is awake in the monitor can come to `lk`. -/
theorem Inv.wants (h : s.Inv) (hlk : s.lk = none) (hptable : s.ptable = none) {r : ρ}
    (hready : s.abs.status t = .ready r) :
    ∃ s', Quiet M s s' ∧ s'.pc t = .want r ∧ s'.lk = none := by
  have hstatus : (s.pc t).status [] = .ready r := by
    rw [← pending_none hlk]
    exact hready
  cases hpc : s.pc t with
  | want r' =>
      rw [hpc] at hstatus
      cases hstatus
      exact ⟨s, .refl s, hpc, hlk⟩
  | runnable r' =>
      rw [hpc] at hstatus
      cases hstatus
      have hlock : s.Step M .lock _ := ⟨hptable, rfl⟩
      have hpick : Step M { s with ptable := some .scheduler } (.pick t) _ := ⟨r, rfl, hpc, rfl⟩
      have hresume : Step M { s.setPc t (.back r) with ptable := some (.proc t) } (.resume t) _ :=
        ⟨r, setPc_self, rfl⟩
      exact ⟨_, ((Quiet.single hlock rfl).trans (.single hpick rfl)).trans (.single hresume rfl),
        setPc_self, hlk⟩
  | back r' =>
      have hheld := (h.ptable t).2 (by rw [hpc]; rfl)
      rw [hptable] at hheld
      cases hheld
  | holds wake next =>
      have hheld := (h.lk t).2 (by rw [hpc]; rfl)
      rw [hlk] at hheld
      cases hheld
  | idle =>
      rw [hpc] at hstatus
      cases hstatus
  | leaving c r' =>
      rw [hpc] at hstatus
      cases hstatus
  | sleeping c r' =>
      rw [hpc] at hstatus
      cases hstatus

/-- **Each step of the monitor can be made.** -/
theorem Inv.realise (h : s.Inv) {e : Monitor.Event ι ρ} {k : Monitor.State ι χ ρ σ}
    (hstep : s.abs.Step M e k) :
    ∃ es s', Run M s es s' ∧ es.filterMap Event.monitor = [e] ∧ s'.abs = k := by
  obtain ⟨s₁, hq, hlk, hptable⟩ := h.free (M := M)
  obtain ⟨hinv, habs⟩ := h.quiet hq
  rw [← habs] at hstep
  -- it is enough to make the step after a few others that are none
  have hvisible : ∀ (s₂ s' : State ι χ ρ σ) (e' : Event ι ρ), Quiet M s₁ s₂ →
      e'.monitor = some e → s₂.Step M e' s' →
      ∃ es, Run M s es s' ∧ es.filterMap Event.monitor = [e] := by
    intro s₂ s' e' hq' he' hstep'
    obtain ⟨es, hrun, hes⟩ := hq.trans hq'
    refine ⟨es ++ [e'], hrun.append (.cons hstep' .nil), ?_⟩
    rw [List.filterMap_append, hes, List.filterMap_cons_some he']
    rfl
  cases e with
  | call t r =>
      obtain ⟨hidle, hmay, rfl⟩ := hstep
      have hpc : s₁.pc t = .idle := by
        have hstatus : (s₁.pc t).status [] = .idle := pending_none hlk ▸ hidle
        cases hpc : s₁.pc t with
        | idle => rfl
        | holds wake next =>
            have hheld := (hinv.lk t).2 (by rw [hpc]; rfl)
            rw [hlk] at hheld
            cases hheld
        | _ =>
            rw [hpc] at hstatus
            cases hstatus
      have hcall : s₁.Step M (.call t r) _ := ⟨hpc, hmay, rfl⟩
      obtain ⟨es, hrun, hes⟩ := hvisible s₁ _ (.call t r) (.refl s₁) rfl hcall
      refine ⟨es, _, hrun, hes, ?_⟩
      obtain ⟨_, ⟨_, hor⟩ | ⟨e', he', hstep'⟩⟩ := hinv.step hcall
      · exact absurd (pending_none hlk) (hor.resolve_left fun heq => nomatch heq)
      · cases he'
        exact hstep'.2.2
  | run t =>
      obtain ⟨r, x, hready, hbody, rfl⟩ := hstep
      obtain ⟨s₂, hq', hpc, hlk'⟩ := hinv.wants (M := M) hlk hptable hready
      obtain ⟨hinv₂, habs₂⟩ := hinv.quiet hq'
      have hbody' : M.body t r s₂.shared x := by
        rwa [show s₂.shared = s₁.shared from congrArg Monitor.State.shared habs₂]
      obtain ⟨es, hrun, hes⟩ := hvisible s₂ _ (.acquire t) hq' rfl ⟨r, x, hpc, hlk', hbody', rfl⟩
      exact ⟨es, _, hrun, hes, (abs_acquire hinv₂ hlk').trans (by rw [habs₂])⟩
  | kick t =>
      obtain ⟨c, r, hasleep, rfl⟩ := hstep
      have hpc : s₁.pc t = .sleeping c r := by
        have hstatus : (s₁.pc t).status [] = .asleep c r := pending_none hlk ▸ hasleep
        cases hpc : s₁.pc t with
        | sleeping c' r' =>
            rw [hpc] at hstatus
            cases hstatus
            rfl
        | leaving c' r' =>
            have hheld := (hinv.ptable t).2 (by rw [hpc]; rfl)
            rw [hptable] at hheld
            cases hheld
        | holds wake next =>
            have hheld := (hinv.lk t).2 (by rw [hpc]; rfl)
            rw [hlk] at hheld
            cases hheld
        | _ =>
            rw [hpc] at hstatus
            cases hstatus
      have hkill : s₁.Step M (.kill t) _ := ⟨c, r, hpc, hptable, rfl⟩
      obtain ⟨es, hrun, hes⟩ := hvisible s₁ _ (.kill t) (.refl s₁) rfl hkill
      refine ⟨es, _, hrun, hes, ?_⟩
      obtain ⟨_, ⟨_, hor⟩ | ⟨e', he', hstep'⟩⟩ := hinv.step hkill
      · exact absurd (pending_none hlk) (hor.resolve_left fun heq => nomatch heq)
      · cases he'
        obtain ⟨c', r', hasleep', hset⟩ := hstep'
        cases hasleep.symm.trans hasleep'
        exact hset

end State

/-- The call that a process is in, if it has not run its last section. -/
def Pc.call : Pc χ ρ → Option ρ
  | .idle => none
  | .holds _ none => none
  | .holds _ (some (_, r)) => some r
  | .want r => some r
  | .leaving _ r => some r
  | .sleeping _ r => some r
  | .runnable r => some r
  | .back r => some r

omit [DecidableEq ι] [DecidableEq χ] in
/-- In a call its thread is awake or asleep. -/
theorem Pc.status_call [DecidableEq χ] {pc : Pc χ ρ} {r : ρ} (hcall : pc.call = some r)
    (pending : List χ) :
    pc.status pending = .ready r ∨ ∃ c, pc.status pending = .asleep c r := by
  cases pc with
  | idle => cases hcall
  | holds wake next =>
      cases next with
      | none => cases hcall
      | some cr =>
          cases hcall
          exact Or.inr ⟨_, rfl⟩
  | want r' =>
      cases hcall
      exact Or.inl rfl
  | runnable r' =>
      cases hcall
      exact Or.inl rfl
  | back r' =>
      cases hcall
      exact Or.inl rfl
  | leaving c r' =>
      cases hcall
      by_cases hc : c ∈ pending
      · exact Or.inl (if_pos hc)
      · exact Or.inr ⟨c, if_neg hc⟩
  | sleeping c r' =>
      cases hcall
      by_cases hc : c ∈ pending
      · exact Or.inl (if_pos hc)
      · exact Or.inr ⟨c, if_neg hc⟩

namespace State

variable {M : Sections ι χ ρ σ} {s : State ι χ ρ σ} {es : List (Event ι ρ)} {d : σ}

theorem Run.inv (hrun : (init d).Run M es s) : s.Inv ∧ Monitor.State.Reach M d s.abs :=
  (inv_init d).run .init hrun

omit [DecidableEq ι] in
/-- A process that sleeps does so in the monitor, or a `wakeup` is still to come. -/
theorem asleep_of_sleeping {t : ι} {c : χ} {r : ρ} (ht : s.pc t = .sleeping c r) :
    c ∈ s.pending ∨ s.abs.status t = .asleep c r := by
  by_cases hc : c ∈ s.pending
  · exact Or.inl hc
  · refine Or.inr ?_
    show (s.pc t).status s.pending = _
    rw [ht]
    exact if_neg hc

end State

/-- **`sleep` and `wakeup` are those of a monitor**: whatever the processes do with
the two locks, and wherever the scheduler switches, the data and the threads are at
each moment as some run of the monitor leaves them, and each step that the monitor can
make from there can be made here too, with no other section in between. -/
theorem sleep_wakeup_monitor {M : Sections ι χ ρ σ} {d : σ} {es : List (Event ι ρ)}
    {s : State ι χ ρ σ} (hrun : (State.init d).Run M es s) :
    Monitor.State.Reach M d s.abs
      ∧ ∀ e k, s.abs.Step M e k →
        ∃ es' s', s.Run M es' s' ∧ es'.filterMap Event.monitor = [e] ∧ s'.abs = k :=
  ⟨hrun.inv.2, fun _ _ hstep => hrun.inv.1.realise hstep⟩

/-- One process goes to sleep while another one wants `lk`. -/
theorem sleep_wakeup_monitor_two :
    ∃ (M : Sections Bool Unit Unit Unit) (s : State Bool Unit Unit Unit),
      s.pc true = .leaving () () ∧ s.lk = none ∧ Monitor.State.Reach M () s.abs
        ∧ ∀ e k, s.abs.Step M e k →
          ∃ es' s', s.Run M es' s' ∧ es'.filterMap Event.monitor = [e] ∧ s'.abs = k := by
  -- sections of which nothing is known
  let M : Sections Bool Unit Unit Unit := ⟨fun _ _ _ _ => True, fun _ _ _ => True⟩
  have hcall : (State.init ()).Step M (.call true ()) _ := ⟨rfl, trivial, rfl⟩
  have hcall' : State.Step M ((State.init ()).setPc true (.want ())) (.call false ()) _ :=
    ⟨rfl, trivial, rfl⟩
  have hacquire : State.Step M (((State.init ()).setPc true (.want ())).setPc false (.want ()))
    (.acquire true) _ := ⟨(), ⟨(), [], some ((), ())⟩, rfl, rfl, trivial, rfl⟩
  have hrun := State.Run.cons hcall (.cons hcall' (.cons hacquire
    (.cons (e := .sleep true) ⟨(), (), rfl, rfl, rfl⟩ .nil)))
  exact ⟨M, _, rfl, rfl, sleep_wakeup_monitor hrun⟩

end SchoolStuff.Xv6.SleepWakeup
