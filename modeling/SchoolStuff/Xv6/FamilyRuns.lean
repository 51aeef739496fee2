import Mathlib.Algebra.Order.Ring.Int
import Mathlib.Data.Finset.Basic
import SchoolStuff.Xv6.Families

/-!
# FamilyRuns — the tree of the processes, and who is waited for

In every run each process but `initproc` has a parent that lives and is older, so
the processes are a tree. Each process that exits stays a zombie until `wait`
returns its pid, which happens once; and nobody sleeps in `wait` beside a zombie
child.
-/

namespace SchoolStuff.Xv6.Procs

/-- Only `wait` sleeps on a process. -/
def Event.SleepsApart : Event → Prop
  | .call _ (.sleep (.proc _)) => False
  | _ => True

namespace Kernel

/-- What holds between any two steps. -/
structure Tree (st : Kernel) : Prop where
  first : 1 < st.nextpid
  init : (st.proc initproc).state.Live ∧ (st.proc initproc).parent = none
    ∧ (st.proc initproc).pid = 1
  free : ∀ q, (st.proc q).state = .unused → (st.proc q).parent = none
  parent : ∀ q, (st.proc q).state ≠ .unused → q ≠ initproc →
    ∃ r, (st.proc q).parent = some r ∧ (st.proc r).state.Live ∧ (st.proc r).pid < (st.proc q).pid
  range : ∀ q, (st.proc q).state ≠ .unused → 1 ≤ (st.proc q).pid ∧ (st.proc q).pid < st.nextpid
  uniq : ∀ q r, (st.proc q).state ≠ .unused → (st.proc r).state ≠ .unused →
    (st.proc q).pid = (st.proc r).pid → q = r
  waits : ∀ p, st.Waiting p → (∃ q, (st.proc q).parent = some p)
    ∧ ∀ q, (st.proc q).parent = some p → (st.proc q).state ≠ .zombie

variable {st st' : Kernel} {p q r : Fin NPROC}

/-- The tree stays when each process keeps its place, and no one goes to sleep in `wait`
that should not. -/
theorem Tree.kept (h : Tree st) (hnext : st.nextpid ≤ st'.nextpid)
    (hpid : ∀ q, (st.proc q).state ≠ .unused → (st'.proc q).pid = (st.proc q).pid)
    (hparent : ∀ q, (st'.proc q).parent = (st.proc q).parent)
    (hfree : ∀ q, (st'.proc q).state = .unused ↔ (st.proc q).state = .unused)
    (hzombie : ∀ q, (st'.proc q).state = .zombie ↔ (st.proc q).state = .zombie)
    (hwaits : ∀ p, st'.Waiting p → (∃ q, (st.proc q).parent = some p)
      ∧ ∀ q, (st.proc q).parent = some p → (st.proc q).state ≠ .zombie) : Tree st' := by
  have hused : ∀ q, (st'.proc q).state ≠ .unused → (st.proc q).state ≠ .unused :=
    fun q => mt (hfree q).2
  have hlive : ∀ q, (st.proc q).state.Live → (st'.proc q).state.Live := fun q hq =>
    ⟨mt (hfree q).1 hq.1, mt (hzombie q).1 hq.2⟩
  have hpid' : ∀ q, (st'.proc q).state ≠ .unused → (st'.proc q).pid = (st.proc q).pid :=
    fun q hq => hpid q (hused q hq)
  have hinit := h.init
  refine ⟨lt_of_lt_of_le h.first hnext, ⟨hlive _ hinit.1, ?_, ?_⟩, fun q hq => ?_,
    fun q hq hne => ?_, fun q hq => ?_, fun q r hq hr heq => ?_, fun p hp => ?_⟩
  · exact (hparent _).trans hinit.2.1
  · exact (hpid _ hinit.1.1).trans hinit.2.2
  · exact (hparent q).trans (h.free q ((hfree q).1 hq))
  · obtain ⟨r, hr, hl, hlt⟩ := h.parent q (hused q hq) hne
    refine ⟨r, (hparent q).trans hr, hlive r hl, ?_⟩
    rw [hpid' q hq, hpid r hl.1]
    exact hlt
  · obtain ⟨hone, hlt⟩ := h.range q (hused q hq)
    rw [hpid' q hq]
    exact ⟨hone, lt_of_lt_of_le hlt hnext⟩
  · rw [hpid' q hq, hpid' r hr] at heq
    exact h.uniq q r (hused q hq) (hused r hr) heq
  · obtain ⟨⟨q, hq⟩, hno⟩ := hwaits p hp
    refine ⟨⟨q, (hparent q).trans hq⟩, fun q hq hz => ?_⟩
    exact hno q ((hparent q).symm.trans hq) ((hzombie q).1 hz)

theorem Stirs.live (h : Stirs st st') (hq : (st.proc q).state.Live) : (st'.proc q).state.Live :=
  ⟨mt (h.free_iff q).1 hq.1, mt (h.zombie_iff q).1 hq.2⟩

theorem Tree.stirs (h : Tree st) (hs : Stirs st st') : Tree st' :=
  h.kept hs.nextpid hs.pid hs.parent hs.free_iff hs.zombie_iff fun p hp => h.waits p (hs.waiting hp)

/-- What a slot is that `fork` has not taken. -/
theorem Forked.kin {np : Fin NPROC} (h : Forked st st' p np) (hq : q ≠ np) :
    (st'.proc q).state = (st.proc q).state ∧ (st'.proc q).pid = (st.proc q).pid
      ∧ (st'.proc q).parent = (st.proc q).parent ∧ (st'.proc q).chan = (st.proc q).chan := by
  simpa only [Proc.kin, Prod.mk.injEq] using h.other q hq

theorem Tree.forked (h : Tree st) {np : Fin NPROC} (hp : (st.proc p).state.Live)
    (hf : Forked st st' p np) : Tree st' := by
  have hne : ∀ q, (st.proc q).state.Live → q ≠ np := by
    rintro q hq rfl
    exact hq.1 hf.free
  have hlive : ∀ q, (st.proc q).state.Live → (st'.proc q).state.Live := fun q hq => by
    rw [(hf.kin (hne q hq)).1]
    exact hq
  have hinit := h.init
  have hinp := hf.kin (hne initproc hinit.1)
  have hused : ∀ q, q ≠ np → (st'.proc q).state ≠ .unused → (st.proc q).state ≠ .unused :=
    fun q hq hs => (hf.kin hq).1 ▸ hs
  have hbelow : ∀ q, q ≠ np → (st'.proc q).state ≠ .unused →
      1 ≤ (st'.proc q).pid ∧ (st'.proc q).pid < st.nextpid := fun q hq hs => by
    rw [(hf.kin hq).2.1]
    exact h.range q (hused q hq hs)
  have hnext := hf.nextpid
  have hfirst := h.first
  refine ⟨by omega, ⟨hlive _ hinit.1, hinp.2.2.1.trans hinit.2.1, hinp.2.1.trans hinit.2.2⟩,
    fun q hq => ?_, fun q hq hqi => ?_, fun q hq => ?_, fun q r hq hr heq => ?_, fun r hr => ?_⟩
  · have hqnp : q ≠ np := by
      rintro rfl
      rw [hf.state] at hq
      cases hq
    rw [(hf.kin hqnp).2.2.1]
    exact h.free q ((hf.kin hqnp).1 ▸ hq)
  · by_cases hqnp : q = np
    · rw [hqnp]
      refine ⟨p, hf.parent, hlive p hp, ?_⟩
      rw [hf.pid, (hf.kin (hne p hp)).2.1]
      exact (h.range p hp.1).2
    · obtain ⟨r, hr, hrl, hlt⟩ := h.parent q (hused q hqnp hq) hqi
      refine ⟨r, (hf.kin hqnp).2.2.1.trans hr, hlive r hrl, ?_⟩
      rw [(hf.kin hqnp).2.1, (hf.kin (hne r hrl)).2.1]
      exact hlt
  · by_cases hqnp : q = np
    · rw [hqnp, hf.pid]
      omega
    · have := hbelow q hqnp hq
      omega
  · by_cases hqnp : q = np
    · by_cases hrnp : r = np
      · rw [hqnp, hrnp]
      · have := hbelow r hrnp hr
        rw [hqnp, hf.pid] at heq
        omega
    · by_cases hrnp : r = np
      · have := hbelow q hqnp hq
        rw [hrnp, hf.pid] at heq
        omega
      · rw [(hf.kin hqnp).2.1, (hf.kin hrnp).2.1] at heq
        exact h.uniq q r (hused q hqnp hq) (hused r hrnp hr) heq
  · have hrnp : r ≠ np := by
      rintro rfl
      have hstate := hr.1
      rw [hf.state] at hstate
      cases hstate
    have hwaiting : st.Waiting r :=
      ⟨(hf.kin hrnp).1.symm.trans hr.1, (hf.kin hrnp).2.2.2.symm.trans hr.2⟩
    obtain ⟨⟨q, hq⟩, hno⟩ := h.waits r hwaiting
    have hqnp : q ≠ np := by
      rintro rfl
      rw [h.free q hf.free] at hq
      cases hq
    refine ⟨⟨q, (hf.kin hqnp).2.2.1.trans hq⟩, fun q hq hz => ?_⟩
    by_cases hqnp : q = np
    · rw [hqnp, hf.state] at hz
      cases hz
    · exact hno q ((hf.kin hqnp).2.2.1.symm.trans hq) ((hf.kin hqnp).1.symm.trans hz)

theorem Exited.used (h : Exited st st' p) (hp : (st.proc p).state.Live) (q : Fin NPROC) :
    (st'.proc q).state = .unused ↔ (st.proc q).state = .unused := by
  by_cases hq : q = p
  · rw [hq, h.self]
    exact iff_of_false (fun heq => nomatch heq) hp.1
  · obtain ⟨hs, _⟩ | ⟨hl, hl', _⟩ := h.state q hq
    · rw [hs]
    · exact iff_of_false hl'.1 hl.1

theorem Exited.zombie (h : Exited st st' p) (hq : q ≠ p) :
    (st'.proc q).state = .zombie ↔ (st.proc q).state = .zombie := by
  obtain ⟨hs, _⟩ | ⟨hl, hl', _⟩ := h.state q hq
  · rw [hs]
  · exact iff_of_false hl'.2 hl.2

theorem Tree.exited (h : Tree st) (hp : (st.proc p).state.Live) (hpi : p ≠ initproc)
    (he : Exited st st' p) : Tree st' := by
  have hused : ∀ q, (st'.proc q).state ≠ .unused → (st.proc q).state ≠ .unused :=
    fun q => mt (he.used hp q).2
  have hlive : ∀ q, q ≠ p → (st.proc q).state.Live → (st'.proc q).state.Live :=
    fun q hq hl => ⟨mt (he.used hp q).1 hl.1, mt (he.zombie hq).1 hl.2⟩
  have hinit := h.init
  -- the parent of `p` is older, so it is another process
  have hself : (st.proc p).parent ≠ some p := by
    obtain ⟨r, hr, _, hlt⟩ := h.parent p hp.1 hpi
    rw [hr]
    intro heq
    rw [Option.some.inj heq] at hlt
    exact lt_irrefl _ hlt
  refine ⟨he.nextpid ▸ h.first, ⟨hlive _ hpi.symm hinit.1, ?_, (he.pid _).trans hinit.2.2⟩,
    fun q hq => ?_, fun q hq hqi => ?_, fun q hq => ?_, fun q r hq hr heq => ?_, fun r hr => ?_⟩
  · rw [he.parent, hinit.2.1, if_neg fun heq => nomatch heq]
  · rw [he.parent, h.free q ((he.used hp q).1 hq), if_neg fun heq => nomatch heq]
  · obtain ⟨r, hr, hrl, hlt⟩ := h.parent q (hused q hq) hqi
    rw [he.parent, he.pid]
    by_cases hrp : r = p
    · rw [if_pos (hrp ▸ hr)]
      refine ⟨initproc, rfl, hlive _ hpi.symm hinit.1, ?_⟩
      rw [he.pid, hinit.2.2]
      refine lt_of_le_of_ne (h.range q (hused q hq)).1 fun heq => hqi ?_
      exact h.uniq q initproc (hused q hq) hinit.1.1 (heq.symm.trans hinit.2.2.symm)
    · rw [if_neg fun heq => hrp (Option.some.inj (hr.symm.trans heq))]
      refine ⟨r, hr, hlive r hrp hrl, ?_⟩
      rw [he.pid]
      exact hlt
  · rw [he.pid, he.nextpid]
    exact h.range q (hused q hq)
  · rw [he.pid, he.pid] at heq
    exact h.uniq q r (hused q hq) (hused r hr) heq
  · have hrp : r ≠ p := by
      rintro rfl
      have hstate := hr.1
      rw [he.self] at hstate
      cases hstate
    have hpr : (st.proc p).parent ≠ some r := fun heq => he.wakes r heq hr
    have hwaiting : st.Waiting r := by
      obtain ⟨hs, hc⟩ | ⟨_, _, hno⟩ := he.state r hrp
      · exact ⟨hs.symm.trans hr.1, hc.symm.trans hr.2⟩
      · exact absurd hr hno
    obtain ⟨⟨q, hq⟩, hno⟩ := h.waits r hwaiting
    refine ⟨⟨q, ?_⟩, fun q hq hz => ?_⟩
    · rw [he.parent, hq, if_neg fun heq => hrp (Option.some.inj heq)]
    · by_cases hqp : q = p
      · rw [he.parent, hqp, if_neg hself] at hq
        exact hpr hq
      · rw [he.zombie hqp] at hz
        rw [he.parent] at hq
        by_cases hchild : (st.proc q).parent = some p
        · rw [if_pos hchild] at hq
          exact he.init ⟨q, hchild, hz⟩ (Option.some.inj hq ▸ hr)
        · rw [if_neg hchild] at hq
          exact hno q hq hz

theorem Tree.reaped (h : Tree st) (hr : Reaped st st' p q) : Tree st' := by
  have hinit := h.init
  have hqi : initproc ≠ q := by
    rintro rfl
    exact hinit.1.2 hr.zombie
  have hne : ∀ r, (st.proc r).state.Live → r ≠ q := by
    rintro r hl rfl
    exact hl.2 hr.zombie
  have hused : ∀ r, (st'.proc r).state ≠ .unused → r ≠ q := by
    rintro r hs rfl
    exact hs hr.free
  have hold : ∀ r, (st'.proc r).state ≠ .unused → (st.proc r).state ≠ .unused := fun r hs =>
    hr.other r (hused r hs) ▸ hs
  refine ⟨hr.nextpid ▸ h.first, ?_, fun r hs => ?_, fun r hs hri => ?_, fun r hs => ?_,
    fun r u hs hs' heq => ?_, fun u hu => ?_⟩
  · rw [hr.other _ hqi]
    exact hinit
  · by_cases hrq : r = q
    · rw [hrq]
      exact hr.parent
    · rw [hr.other r hrq] at hs ⊢
      exact h.free r hs
  · obtain ⟨u, hu, hul, hlt⟩ := h.parent r (hold r hs) hri
    refine ⟨u, ?_, ?_, ?_⟩
    · rw [hr.other r (hused r hs)]
      exact hu
    · rw [hr.other u (hne u hul)]
      exact hul
    · rw [hr.other u (hne u hul), hr.other r (hused r hs)]
      exact hlt
  · rw [hr.other r (hused r hs), hr.nextpid]
    exact h.range r (hold r hs)
  · rw [hr.other r (hused r hs), hr.other u (hused u hs')] at heq
    exact h.uniq r u (hold r hs) (hold u hs') heq
  · have huq : u ≠ q := by
      rintro rfl
      have hstate := hu.1
      rw [hr.free] at hstate
      cases hstate
    have hwaiting : st.Waiting u := by
      unfold Waiting at hu
      rwa [hr.other u huq] at hu
    obtain ⟨⟨c, hc⟩, hno⟩ := h.waits u hwaiting
    have hcq : c ≠ q := by
      rintro rfl
      exact hno c hc hr.zombie
    refine ⟨⟨c, by rw [hr.other c hcq]; exact hc⟩, fun c hc hz => ?_⟩
    have hcq : c ≠ q := by
      rintro rfl
      rw [hr.free] at hz
      cases hz
    rw [hr.other c hcq] at hc hz
    exact hno c hc hz

/-- A process goes to sleep in `wait`. -/
theorem Tree.sleeps (h : Tree st) (hp : (st.proc p).state.Live)
    (hno : ∀ q, (st.proc q).parent = some p → (st.proc q).state ≠ .zombie)
    (hkid : ∃ q, (st.proc q).parent = some p) :
    Tree (st.setProc p { st.proc p with state := .sleeping, chan := some (.proc p) }) := by
  have hsame : ∀ q, q ≠ p → (st.setProc p
      { st.proc p with state := .sleeping, chan := some (.proc p) }).proc q = st.proc q :=
    fun q hq => setProc_ne _ _ hq
  refine h.kept (le_refl _) (fun q _ => ?_) (fun q => ?_) (fun q => ?_) (fun q => ?_) fun q hq => ?_
  · by_cases hqp : q = p
    · rw [hqp, setProc_self]
    · rw [hsame q hqp]
  · by_cases hqp : q = p
    · rw [hqp, setProc_self]
    · rw [hsame q hqp]
  · by_cases hqp : q = p
    · rw [hqp, setProc_self]
      exact iff_of_false (fun heq => nomatch heq) hp.1
    · rw [hsame q hqp]
  · by_cases hqp : q = p
    · rw [hqp, setProc_self]
      exact iff_of_false (fun heq => nomatch heq) hp.2
    · rw [hsame q hqp]
  · by_cases hqp : q = p
    · rw [hqp]
      exact ⟨hkid, hno⟩
    · unfold Waiting at hq
      rw [hsame q hqp] at hq
      exact h.waits q hq

/-! ## Who has exited, and who has been waited for -/

def zombies (st : Kernel) : Finset (Fin NPROC) :=
  Finset.univ.filter fun q => (st.proc q).state = .zombie

/-- The pids of the zombies. -/
def zombiePids (st : Kernel) : Multiset Int := st.zombies.val.map fun q => (st.proc q).pid

/-- The pid of a process that exits in a step. -/
def exitsOf (st : Kernel) : Event → List Int
  | .call p .exit => [(st.proc p).pid]
  | _ => []

/-- The pid that `wait` returns in a step. -/
def reapsOf (v : Option Int) : Event → List Int
  | .call _ .wait => v.toList.filter (· ≠ -1)
  | _ => []

/-- The pids of the processes that exit in a run. -/
def exits (st : Kernel) : List Event → List Int
  | [] => []
  | e :: es =>
      match st.step e with
      | .ok (_, st') => st.exitsOf e ++ st'.exits es
      | .error _ => []

/-- The pids that calls of `wait` return in a run. -/
def reaps (st : Kernel) : List Event → List Int
  | [] => []
  | e :: es =>
      match st.step e with
      | .ok (v, st') => reapsOf v e ++ st'.reaps es
      | .error _ => []

theorem mem_zombies : q ∈ st.zombies ↔ (st.proc q).state = .zombie := by
  simp only [zombies, Finset.mem_filter, Finset.mem_univ, true_and]

/-- The same processes are zombies, under the same pids. -/
theorem zombiePids_same (hzombie : ∀ q, (st'.proc q).state = .zombie ↔ (st.proc q).state = .zombie)
    (hpid : ∀ q, (st.proc q).state = .zombie → (st'.proc q).pid = (st.proc q).pid) :
    st'.zombiePids = st.zombiePids := by
  have hset : st'.zombies = st.zombies := by
    ext q
    rw [mem_zombies, mem_zombies, hzombie]
  rw [zombiePids, hset]
  exact Multiset.map_congr rfl fun q hq => hpid q (mem_zombies.1 hq)

/-- One more process is a zombie. -/
theorem zombiePids_cons (hp : (st.proc p).state ≠ .zombie)
    (hzombie : ∀ q, (st'.proc q).state = .zombie ↔ q = p ∨ (st.proc q).state = .zombie)
    (hpid : ∀ q, (st'.proc q).pid = (st.proc q).pid) :
    st'.zombiePids = (st.proc p).pid ::ₘ st.zombiePids := by
  have hmem : p ∉ st.zombies := fun h => hp (mem_zombies.1 h)
  have hset : st'.zombies = insert p st.zombies := by
    ext q
    rw [mem_zombies, Finset.mem_insert, mem_zombies, hzombie]
  rw [zombiePids, hset, Finset.insert_val_of_notMem hmem, Multiset.map_cons, hpid]
  exact congrArg _ (Multiset.map_congr rfl fun q _ => hpid q)

/-- What holds after a run in which the processes `ex` have exited and `re` have been
waited for. -/
structure History (st : Kernel) (ex re : List Int) : Prop where
  tree : Tree st
  account : (ex : Multiset Int) = (re : Multiset Int) + st.zombiePids
  below : ∀ x ∈ ex, x < st.nextpid
  alive : ∀ q, (st.proc q).state.Live → (st.proc q).pid ∉ ex
  nodup : ex.Nodup

variable {ex re : List Int}

theorem History.stirs (h : History st ex re) (hs : Stirs st st') : History st' ex re := by
  have hpids : st'.zombiePids = st.zombiePids := zombiePids_same hs.zombie_iff fun q hq =>
    hs.pid q (by rw [hq]; exact fun heq => nomatch heq)
  refine ⟨h.tree.stirs hs, hpids ▸ h.account, fun x hx => lt_of_lt_of_le (h.below x hx) hs.nextpid,
    fun q hq => ?_, h.nodup⟩
  have hused := mt (hs.free_iff q).2 hq.1
  rw [hs.pid q hused]
  exact h.alive q ⟨hused, mt (hs.zombie_iff q).2 hq.2⟩

theorem History.forked (h : History st ex re) {np : Fin NPROC} (hp : (st.proc p).state.Live)
    (hf : Forked st st' p np) : History st' ex re := by
  have hzombie : ∀ q, (st'.proc q).state = .zombie ↔ (st.proc q).state = .zombie := by
    intro q
    by_cases hq : q = np
    · rw [hq, hf.state, hf.free]
      exact iff_of_false (fun heq => nomatch heq) (fun heq => nomatch heq)
    · rw [(hf.kin hq).1]
  have hpids : st'.zombiePids = st.zombiePids := by
    refine zombiePids_same hzombie fun q hz => (hf.kin ?_).2.1
    rintro rfl
    rw [hf.free] at hz
    cases hz
  refine ⟨h.tree.forked hp hf, hpids ▸ h.account, fun x hx => ?_, fun q hq => ?_, h.nodup⟩
  · have := h.below x hx
    rw [hf.nextpid]
    omega
  · by_cases hqnp : q = np
    · rw [hqnp, hf.pid]
      exact fun hmem => lt_irrefl _ (h.below _ hmem)
    · rw [(hf.kin hqnp).2.1]
      exact h.alive q ((hf.kin hqnp).1 ▸ hq)

theorem History.exited (h : History st ex re) (hp : (st.proc p).state.Live)
    (hpi : p ≠ initproc) (he : Exited st st' p) :
    History st' (ex ++ [(st.proc p).pid]) re := by
  have hpids : st'.zombiePids = (st.proc p).pid ::ₘ st.zombiePids := by
    refine zombiePids_cons hp.2 (fun q => ?_) he.pid
    by_cases hq : q = p
    · rw [hq]
      exact iff_of_true he.self (Or.inl rfl)
    · rw [he.zombie hq, or_iff_right hq]
  refine ⟨h.tree.exited hp hpi he, ?_, fun x hx => ?_, fun q hq hmem => ?_, ?_⟩
  · rw [hpids, ← Multiset.coe_add, h.account, Multiset.add_cons, Multiset.coe_singleton,
      Multiset.add_comm _ {_}, Multiset.singleton_add]
  · rw [he.nextpid]
    rcases List.mem_append.1 hx with hx | hx
    · exact h.below x hx
    · rw [List.mem_singleton.1 hx]
      exact (h.tree.range p hp.1).2
  · have hqp : q ≠ p := by
      rintro rfl
      exact hq.2 he.self
    have hql : (st.proc q).state.Live :=
      ⟨mt (he.used hp q).2 hq.1, mt (he.zombie hqp).2 hq.2⟩
    rw [he.pid] at hmem
    rcases List.mem_append.1 hmem with hmem | hmem
    · exact h.alive q hql hmem
    · exact hqp (h.tree.uniq q p hql.1 hp.1 (List.mem_singleton.1 hmem))
  · refine List.nodup_append.2 ⟨h.nodup, List.nodup_singleton _, fun x hx y hy heq => ?_⟩
    rw [heq, List.mem_singleton.1 hy] at hx
    exact h.alive p hp hx

theorem History.reaped (h : History st ex re) (hr : Reaped st st' p q) :
    History st' ex (re ++ [(st.proc q).pid]) := by
  have hpids : st.zombiePids = (st.proc q).pid ::ₘ st'.zombiePids := by
    have hmem : q ∈ st.zombies := mem_zombies.2 hr.zombie
    have hset : st'.zombies = st.zombies.erase q := by
      ext r
      rw [mem_zombies, Finset.mem_erase, mem_zombies]
      by_cases hrq : r = q
      · rw [hrq, hr.free]
        exact iff_of_false (fun heq => nomatch heq) fun h => h.1 rfl
      · rw [hr.other r hrq]
        exact (and_iff_right hrq).symm
    rw [zombiePids, zombiePids, hset, ← Finset.insert_erase hmem,
      Finset.insert_val_of_notMem (Finset.notMem_erase q _), Multiset.map_cons,
      Finset.erase_insert_eq_erase, Finset.erase_idem]
    refine congrArg _ (Multiset.map_congr rfl fun r hmem => ?_)
    rw [hr.other r (Finset.ne_of_mem_erase (Finset.mem_def.2 hmem))]
  refine ⟨h.tree.reaped hr, ?_, hr.nextpid ▸ h.below, fun r hl => ?_, h.nodup⟩
  · rw [h.account, hpids, ← Multiset.coe_add, Multiset.coe_singleton, Multiset.add_assoc,
      Multiset.singleton_add]
  · have hrq : r ≠ q := by
      rintro rfl
      exact hl.1 hr.free
    rw [hr.other r hrq] at hl ⊢
    exact h.alive r hl

/-- `kill` wakes the process if it sleeps, whatever the slot that has the pid. -/
theorem stirs_kill (st : Kernel) (pid : Int) : Stirs st (st.kill pid).2 := by
  unfold kill
  split
  · exact Stirs.refl st
  · rename_i q _
    by_cases hs : (st.proc q).state = .sleeping
    · refine Stirs.set rfl rfl ?_ ?_ fun hw => ?_
      · rw [hs]
        exact ⟨nofun, nofun⟩
      · simp only [if_pos hs]
        exact ⟨nofun, nofun⟩
      · simp only [if_pos hs] at hw
        exact nomatch hw.1
    · exact Stirs.set_kin (by simp only [Proc.kin, if_neg hs])

theorem running_live (hp : (st.proc p).state = .running) : (st.proc p).state.Live := by
  rw [hp]
  exact ⟨nofun, nofun⟩

theorem History.wait (h : History st ex re) (hp : (st.proc p).state = .running) :
    History (st.wait p).2 ex (re ++ reapsOf (st.wait p).1 (.call p .wait)) := by
  obtain ⟨q, hv, hr⟩ | hret | ⟨hno, hkid, hret⟩ := wait_cases st p
  · have hpid : (st.proc q).pid ≠ -1 := by
      have hused : (st.proc q).state ≠ .unused := by
        rw [hr.zombie]
        exact nofun
      have := (h.tree.range q hused).1
      omega
    have hreaps : reapsOf (st.wait p).1 (.call p .wait) = [(st.proc q).pid] := by
      rw [hv]
      simp only [reapsOf, Option.toList_some, List.filter_cons, List.filter_nil, ne_eq, hpid,
        not_false_eq_true, decide_true, if_true]
    rw [hreaps]
    exact h.reaped hr
  · rw [hret]
    simp only [reapsOf, Option.toList_some, List.filter_cons, List.filter_nil, ne_eq,
      not_true_eq_false, decide_false, Bool.false_eq_true, if_false, List.append_nil]
    exact h
  · have hlive := running_live hp
    rw [hret]
    simp only [reapsOf, Option.toList_none, List.filter_nil, List.append_nil]
    have hpids : (st.setProc p { st.proc p with
        state := .sleeping, chan := some (.proc p) }).zombiePids = st.zombiePids := by
      refine zombiePids_same (fun q => ?_) fun q _ => ?_
      · by_cases hq : q = p
        · rw [hq, setProc_self]
          exact iff_of_false (fun heq => nomatch heq) hlive.2
        · rw [setProc_ne _ _ hq]
      · by_cases hq : q = p
        · rw [hq, setProc_self]
        · rw [setProc_ne _ _ hq]
    refine ⟨h.tree.sleeps hlive hno hkid, hpids ▸ h.account, h.below, fun q hq => ?_, h.nodup⟩
    by_cases hqp : q = p
    · rw [hqp, setProc_self]
      exact h.alive p hlive
    · rw [setProc_ne _ _ hqp] at hq ⊢
      exact h.alive q hq

/-- **Step lemma.** -/
theorem History.step (h : History st ex re) {e : Event} (he : e.SleepsApart) :
    Ends (fun _ => True) (st.step e) fun x =>
      History x.2 (ex ++ st.exitsOf e) (re ++ reapsOf x.1 e) := by
  have hstirs : ∀ st', Stirs st st' → History st' (ex ++ []) (re ++ []) := by
    intro st' hs
    rw [List.append_nil, List.append_nil]
    exact h.stirs hs
  cases e with
  | scheduler p =>
      unfold Kernel.step
      simp only
      split
      · rename_i hp
        refine hstirs _ (Stirs.set rfl rfl ?_ ⟨nofun, nofun⟩ fun hw => nomatch hw.1)
        rw [hp]
        exact ⟨nofun, nofun⟩
      · trivial
  | wakeup chan => exact hstirs _ (stirs_wakeup1 st chan)
  | call p c =>
      unfold Kernel.step
      simp only
      split
      swap
      · trivial
      rename_i hp
      have hlive := running_live hp
      cases c with
      | fork kstack pgdir =>
          refine Ends.map ((fork_cases st p kstack pgdir).mono fun x hx => ?_)
          obtain hs | ⟨np, hf⟩ := hx
          · exact hstirs _ hs
          · rw [show reapsOf (some x.1) (.call p (.fork kstack pgdir)) = [] from rfl,
              show st.exitsOf (.call p (.fork kstack pgdir)) = [] from rfl, List.append_nil,
              List.append_nil]
            exact h.forked hlive hf
      | exit =>
          refine Ends.map ((exit_cases st p).mono fun st' hx => ?_)
          obtain ⟨hpi, st₁, hs, hexited⟩ := hx
          rw [show reapsOf none (.call p .exit) = [] from rfl,
            show st.exitsOf (.call p .exit) = [(st.proc p).pid] from rfl, List.append_nil,
            ← hs.pid p hlive.1]
          exact (h.stirs hs).exited (hs.live hlive) hpi hexited
      | wait =>
          rw [show st.exitsOf (.call p .wait) = [] from rfl, List.append_nil]
          exact h.wait hp
      | kill pid =>
          refine hstirs _ ?_
          exact stirs_kill st pid
      | openInode ip omode => exact Ends.map ((stirs_sysOpen st p ip omode).mono fun x => hstirs _)
      | dup fd => exact Ends.map ((stirs_sysDup st p fd).mono fun x => hstirs _)
      | pipe page => exact Ends.map ((stirs_sysPipe st p page).mono fun x => hstirs _)
      | close fd => exact Ends.map ((stirs_sysClose st p fd).mono fun x => hstirs _)
      | yield =>
          exact hstirs _ (Stirs.set rfl rfl hlive ⟨nofun, nofun⟩ fun hw => nomatch hw.1)
      | sleep chan =>
          refine hstirs _ (Stirs.set rfl rfl hlive ⟨nofun, nofun⟩ fun hw => ?_)
          rw [Option.some.inj hw.2] at he
          exact he

/-- **Run lemma.** -/
theorem History.run {es : List Event} (h : History st ex re) (hes : ∀ e ∈ es, e.SleepsApart)
    (hrun : st.run es = .ok st') : History st' (ex ++ st.exits es) (re ++ st.reaps es) := by
  induction es generalizing st ex re with
  | nil =>
      cases hrun
      rw [exits, reaps, List.append_nil, List.append_nil]
      exact h
  | cons e es ih =>
      have hstep := h.step (hes e List.mem_cons_self)
      cases hok : st.step e with
      | error stop =>
          rw [run, hok] at hrun
          cases hrun
      | ok x =>
          rw [hok] at hstep
          rw [run, hok] at hrun
          have hnext := ih hstep (fun e he => hes e (List.mem_cons_of_mem _ he)) hrun
          rw [List.append_assoc, List.append_assoc] at hnext
          simp only [exits, reaps, hok]
          exact hnext

theorem history_boot : History boot [] [] := by
  have hstate : ∀ q, q ≠ initproc → boot.proc q = Proc.zero := by
    intro q hq
    show Function.update (fun _ => Proc.zero) initproc _ q = _
    rw [Function.update_of_ne hq]
  have hused : ∀ q, (boot.proc q).state ≠ .unused → q = initproc := by
    intro q hq
    by_contra hne
    rw [hstate q hne] at hq
    exact hq rfl
  have hparent : ∀ q, (boot.proc q).parent = none := by
    intro q
    by_cases hq : q = initproc
    · rw [hq]
      rfl
    · rw [hstate q hq]
      rfl
  have hzombies : boot.zombiePids = 0 := by
    have hnone : boot.zombies = ∅ := by
      refine Finset.eq_empty_of_forall_notMem fun q hq => ?_
      rw [mem_zombies] at hq
      have hq' := hused q (by rw [hq]; exact nofun)
      rw [hq'] at hq
      cases hq
    rw [zombiePids, hnone]
    rfl
  refine ⟨⟨by decide, ⟨by decide, rfl, rfl⟩, fun q _ => hparent q, fun q hq hne => ?_,
    fun q hq => ?_, fun q r hq hr _ => ?_, fun p hp => ?_⟩, ?_, fun x hx => (nomatch hx),
    fun q _ => List.not_mem_nil, List.nodup_nil⟩
  · exact absurd (hused q hq) hne
  · rw [hused q hq]
    decide
  · rw [hused q hq, hused r hr]
  · have hp' := hused p (by rw [hp.1]; exact nofun)
    have hstate := hp.1
    rw [hp'] at hstate
    cases hstate
  · rw [hzombies]
    rfl

end Kernel

variable {es : List Event} {st : Kernel}

/-- **The processes are a tree**: after every run, each process but `initproc` has a
parent that lives and has a smaller pid, a free slot has none, and a process that sleeps
in `wait` has children, none of which is a zombie. -/
theorem process_tree (hes : ∀ e ∈ es, e.SleepsApart) (hrun : boot.run es = .ok st) :
    (∀ q, (st.proc q).state ≠ .unused → q ≠ initproc → ∃ r, (st.proc q).parent = some r
        ∧ (st.proc r).state.Live ∧ (st.proc r).pid < (st.proc q).pid)
      ∧ (∀ q, (st.proc q).state = .unused → (st.proc q).parent = none)
      ∧ ∀ p, st.Waiting p → (∃ q, (st.proc q).parent = some p)
        ∧ ∀ q, (st.proc q).parent = some p → (st.proc q).state ≠ .zombie :=
  have h := (Kernel.history_boot.run hes hrun).tree
  ⟨h.parent, h.free, h.waits⟩

/-- **Each exit is waited for once**: the pids of the processes that have exited in a run
are different, and they are those that calls of `wait` have returned and those of the
zombies that are left. -/
theorem exits_waited_for (hes : ∀ e ∈ es, e.SleepsApart) (hrun : boot.run es = .ok st) :
    (boot.exits es).Nodup
      ∧ (boot.exits es : Multiset Int) = (boot.reaps es : Multiset Int) + st.zombiePids := by
  have h := Kernel.history_boot.run hes hrun
  exact ⟨h.nodup, h.account⟩

/-- A process forks twice; one child exits and is waited for, the other one exits. -/
def twoChildren : List Event :=
  [.scheduler 0, .call 0 (.fork true true), .call 0 (.fork true true), .scheduler 1,
    .call 1 .exit, .call 0 .wait, .scheduler 2, .call 2 .exit]

theorem twoChildren_run : ∃ st, boot.run twoChildren = .ok st ∧ (st.proc 2).state = .zombie :=
  Ends.exists_of_check (by decide +kernel)

theorem twoChildren_apart : ∀ e ∈ twoChildren, e.SleepsApart := by
  intro e he
  simp only [twoChildren, List.mem_cons, List.not_mem_nil, or_false] at he
  rcases he with rfl | rfl | rfl | rfl | rfl | rfl | rfl | rfl <;> trivial

theorem process_tree_two :
    ∃ st, boot.run twoChildren = .ok st ∧ (st.proc 2).state = .zombie
      ∧ (∀ q, (st.proc q).state ≠ .unused → q ≠ initproc → ∃ r, (st.proc q).parent = some r
        ∧ (st.proc r).state.Live ∧ (st.proc r).pid < (st.proc q).pid)
      ∧ (∀ q, (st.proc q).state = .unused → (st.proc q).parent = none)
      ∧ ∀ p, st.Waiting p → (∃ q, (st.proc q).parent = some p)
        ∧ ∀ q, (st.proc q).parent = some p → (st.proc q).state ≠ .zombie :=
  have ⟨st, hrun, hz⟩ := twoChildren_run
  ⟨st, hrun, hz, process_tree twoChildren_apart hrun⟩

theorem exits_waited_for_two :
    ∃ st : Kernel, boot.exits twoChildren = [2, 3] ∧ (boot.exits twoChildren).Nodup
      ∧ (boot.exits twoChildren : Multiset Int)
        = (boot.reaps twoChildren : Multiset Int) + st.zombiePids :=
  have ⟨st, hrun, _⟩ := twoChildren_run
  ⟨st, by decide +kernel, exits_waited_for twoChildren_apart hrun⟩

end SchoolStuff.Xv6.Procs
