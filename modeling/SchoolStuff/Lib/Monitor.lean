import Mathlib.Tactic.Common
import Mathlib.Logic.Function.Basic

/-!
# Monitor — sections on shared data, with channels to sleep on

Threads run sections on shared data, one at a time. A section can wake the
threads that sleep on some channels, and it ends by returning or by going to
sleep. What `body` allows a section to do is all that is known of it. `Reach`
are the states of the runs. Who sleeps on a channel has what it waits for still
before it, if each section that changes this wakes the channel (`Reach.waits`).
-/

namespace SchoolStuff.Monitor

/-- What a section has done: the new data, the channels that it has woken, and
where it sleeps and goes on, unless it has returned. -/
structure Exit (χ ρ σ : Type*) where
  shared : σ
  wake : List χ
  next : Option (χ × ρ)

/-- What sections can do, and which calls a thread may make. -/
structure Sections (ι χ ρ σ : Type*) where
  body : ι → ρ → σ → Exit χ ρ σ → Prop
  may : ι → ρ → σ → Prop

/-- A thread: in no call, about to run a section, or asleep. -/
inductive Status (χ ρ : Type*) where
  | idle
  | ready (r : ρ)
  | asleep (c : χ) (r : ρ)

structure State (ι χ ρ σ : Type*) where
  shared : σ
  status : ι → Status χ ρ

/-- A call, a section, or a thread that is woken for no reason of the monitor. -/
inductive Event (ι ρ : Type*) where
  | call (t : ι) (r : ρ)
  | run (t : ι)
  | kick (t : ι)

variable {ι χ ρ σ : Type*}

def Status.wake [DecidableEq χ] (cs : List χ) : Status χ ρ → Status χ ρ
  | .asleep c r => if c ∈ cs then .ready r else .asleep c r
  | st => st

/-- Where a thread is behind its section. -/
def Exit.status (x : Exit χ ρ σ) : Status χ ρ :=
  match x.next with
  | none => .idle
  | some (c, r) => .asleep c r

namespace State

variable [DecidableEq ι] [DecidableEq χ]

def set (s : State ι χ ρ σ) (t : ι) (st : Status χ ρ) : State ι χ ρ σ :=
  { s with status := Function.update s.status t st }

/-- Behind a section of `t`. -/
def after (s : State ι χ ρ σ) (t : ι) (x : Exit χ ρ σ) : State ι χ ρ σ where
  shared := x.shared
  status := Function.update (fun u => (s.status u).wake x.wake) t x.status

omit [DecidableEq χ] in
theorem set_self (s : State ι χ ρ σ) (t : ι) (st : Status χ ρ) : (s.set t st).status t = st :=
  Function.update_self ..

omit [DecidableEq χ] in
theorem set_other (s : State ι χ ρ σ) {t u : ι} (st : Status χ ρ) (hu : u ≠ t) :
    (s.set t st).status u = s.status u :=
  Function.update_of_ne hu ..

theorem after_self (s : State ι χ ρ σ) (t : ι) (x : Exit χ ρ σ) :
    (s.after t x).status t = x.status := by
  simp only [after, Function.update_self]

theorem after_other (s : State ι χ ρ σ) {t u : ι} (x : Exit χ ρ σ) (hu : u ≠ t) :
    (s.after t x).status u = (s.status u).wake x.wake := by
  simp only [after, Function.update_of_ne hu]

def Step (M : Sections ι χ ρ σ) (s : State ι χ ρ σ) : Event ι ρ → State ι χ ρ σ → Prop
  | .call t r, s' => s.status t = .idle ∧ M.may t r s.shared ∧ s' = s.set t (.ready r)
  | .run t, s' => ∃ r x, s.status t = .ready r ∧ M.body t r s.shared x ∧ s' = s.after t x
  | .kick t, s' => ∃ c r, s.status t = .asleep c r ∧ s' = s.set t (.ready r)

/-- Nobody is in a call. -/
def init (shared : σ) : State ι χ ρ σ := ⟨shared, fun _ => .idle⟩

/-- The states of the runs from `shared` on. -/
inductive Reach (M : Sections ι χ ρ σ) (shared : σ) : State ι χ ρ σ → Prop
  | init : Reach M shared (init shared)
  | step {s s' : State ι χ ρ σ} {e : Event ι ρ} : Reach M shared s → s.Step M e s' →
      Reach M shared s'

variable {M : Sections ι χ ρ σ} {shared : σ} {s s' : State ι χ ρ σ}

/-- What each step keeps is true of every reachable state. -/
theorem Reach.invariant {I : State ι χ ρ σ → Prop} (h : Reach M shared s)
    (hinit : I (State.init shared)) (hstep : ∀ s e s', I s → s.Step M e s' → I s') : I s := by
  induction h with
  | init => exact hinit
  | step _ he ih => exact hstep _ _ _ ih he

/-- An invariant `I` of the data and `P` of each thread: what a call has to bring
with it, what a section does to its own thread and what it does to others. -/
theorem Reach.threads {I : σ → Prop} {P : σ → ι → Status χ ρ → Prop} (h : Reach M shared s)
    (hinit : I shared) (hidle : ∀ t, P shared t .idle)
    (hcall : ∀ d t r, I d → P d t .idle → M.may t r d → P d t (.ready r))
    (hkick : ∀ d t c r, I d → P d t (.asleep c r) → P d t (.ready r))
    (hrun : ∀ d t r x, I d → P d t (.ready r) → M.body t r d x → I x.shared
      ∧ P x.shared t x.status ∧ ∀ u st, u ≠ t → P d u st → P x.shared u (st.wake x.wake)) :
    I s.shared ∧ ∀ t, P s.shared t (s.status t) := by
  refine h.invariant (I := fun s => I s.shared ∧ ∀ t, P s.shared t (s.status t))
    ⟨hinit, hidle⟩ fun s e s' hs hstep => ?_
  obtain ⟨hI, hP⟩ := hs
  have hset : ∀ t st, P s.shared t st → ∀ u, P s.shared u ((s.set t st).status u) := by
    intro t st hst u
    by_cases hu : u = t
    · rw [hu, set_self]
      exact hst
    · rw [set_other s st hu]
      exact hP u
  cases e with
  | call t r =>
      obtain ⟨hst, hmay, rfl⟩ := hstep
      exact ⟨hI, hset t _ (hcall _ t r hI (hst ▸ hP t) hmay)⟩
  | kick t =>
      obtain ⟨c, r, hst, rfl⟩ := hstep
      exact ⟨hI, hset t _ (hkick _ t c r hI (hst ▸ hP t))⟩
  | run t =>
      obtain ⟨r, x, hst, hbody, rfl⟩ := hstep
      obtain ⟨hI', hself, hother⟩ := hrun _ t r x hI (hst ▸ hP t) hbody
      refine ⟨hI', fun u => ?_⟩
      by_cases hu : u = t
      · rw [hu, after_self]
        exact hself
      · rw [after_other s x hu]
        exact hother u _ hu (hP u)

/-- **No wakeup is lost**: if sections only sleep on `c` where `P` is so, and a
section that makes it false wakes `c`, then `P` is so while a thread sleeps there. -/
theorem Reach.waits {I P : σ → Prop} {c : χ} (h : Reach M shared s) (hinit : I shared)
    (hI : ∀ d t r x, I d → M.body t r d x → I x.shared)
    (hsleep : ∀ d t r x r', I d → M.body t r d x → x.next = some (c, r') → P x.shared)
    (hwake : ∀ d t r x, I d → M.body t r d x → P d → c ∉ x.wake → P x.shared)
    {t : ι} {r : ρ} (ht : s.status t = .asleep c r) : P s.shared := by
  have hall := h.threads (I := I) (P := fun d _ st => ∀ r, st = .asleep c r → P d) hinit
    (fun _ _ heq => nomatch heq) (fun _ _ _ _ _ _ _ heq => nomatch heq)
    (fun _ _ _ _ _ _ _ heq => nomatch heq)
    (fun d t r x hd _ hbody => ⟨hI d t r x hd hbody, fun r' heq => ?_, fun u st _ hst r' heq => ?_⟩)
  · exact hall.2 t r ht
  · unfold Exit.status at heq
    split at heq
    · cases heq
    · rename_i hnext
      cases heq
      exact hsleep d t r x r' hd hbody hnext
  · cases st with
    | idle => cases heq
    | ready r => cases heq
    | asleep c' r'' =>
        simp only [Status.wake] at heq
        split at heq
        · cases heq
        · rename_i hnot
          cases heq
          exact hwake d t r x hd hbody (hst r' rfl) hnot

end State

end SchoolStuff.Monitor
