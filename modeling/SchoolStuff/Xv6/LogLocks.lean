import SchoolStuff.Xv6.Log
import SchoolStuff.Xv6.SleepWakeup

/-!
# LogLocks — operations that share a log (`log.c`)

Processes call `begin_op`, `log_write` and `end_op` with the steps of
`SleepWakeup`, in any order. `log_write` makes its tests before it takes `log.lock`:
its call is a step in which it looks at the log, whoever has the lock, and others
can log blocks before its section comes. `log_sleepers` says how many. The last one
out commits for all. It does so without `log.lock`, as one step here:
`log_commits_alone` says that meanwhile nobody else changes the log or a buffer.
-/

namespace SchoolStuff.Xv6.LogLocks

open Monitor (Exit Sections Status)
open SleepWakeup (Pc State)

/-- What a process is about to do under `log.lock`. -/
inductive Goal where
  | beginOp
  /-- `log_write`, behind its tests -/
  | append (b : UInt32) (data : Block)
  | endOp
  /-- the commit in `end_op`, and what comes behind it -/
  | commit

/-- The machine, who is between `begin_op` and `end_op`, and who commits. -/
structure Data (ι : Type) where
  m : Machine
  ops : List ι
  committer : Option ι

variable {ι : Type} [DecidableEq ι]

/-- One section; none where the kernel panics, or writes past the end of `lh.block`. -/
def turn (t : ι) : Goal → Data ι → Option (Exit Unit Goal (Data ι))
  | .beginOp, d =>
      match d.m.log.beginOp with
      | none => some ⟨d, [], some ((), .beginOp)⟩
      | some log => some ⟨{ d with m := { d.m with log := log }, ops := t :: d.ops }, [], none⟩
  | .append b data, d => (d.m.append b data).map fun m => ⟨{ d with m := m }, [], none⟩
  | .endOp, d =>
      d.m.log.endOp.map fun (doCommit, log) =>
        ⟨{ m := { d.m with log := log }
           ops := d.ops.erase t
           committer := if doCommit then some t else d.committer },
          if doCommit then [] else [()], none⟩
  | .commit, d => some ⟨{ d with m := d.m.commitOp, committer := none }, [()], none⟩

/-- A process that is in an operation writes, if the tests of `log_write` let it, or ends
it, and one that has to commit does so. -/
def sections (ι : Type) [DecidableEq ι] : Sections ι Unit Goal (Data ι) where
  body t goal d x := turn t goal d = some x
  may t goal d :=
    match goal with
    | .beginOp => t ∉ d.ops ∧ d.committer ≠ some t
    | .append _ _ => t ∈ d.ops ∧ d.m.log.check = some ()
    | .endOp => t ∈ d.ops
    | .commit => d.committer = some t

/-- The kernel has started. -/
def boot (log : LogArea) (disk : Disk) : Data ι := ⟨Machine.boot log disk, [], none⟩

/-- What holds whenever `log.lock` is free. -/
structure Inv (d : Data ι) : Prop where
  nodup : d.ops.Nodup
  outstanding : d.m.log.outstanding = d.ops.length
  few : d.ops.length * MAXOPBLOCKS ≤ LOGSIZE
  committing : d.m.log.committing = d.committer.isSome
  alone : d.m.log.committing = true → d.ops = []
  clean : d.ops = [] → d.m.log.committing = false → d.m.log.lh = []

/-- Where a process can be. -/
def Where (d : Data ι) (t : ι) : Status Unit Goal → Prop
  | .idle => True
  | .ready .beginOp => t ∉ d.ops ∧ d.committer ≠ some t
  | .ready (.append _ _) => t ∈ d.ops
  | .ready .endOp => t ∈ d.ops
  | .ready .commit => d.committer = some t
  | .asleep _ goal => goal = .beginOp ∧ t ∉ d.ops ∧ d.committer ≠ some t

variable {d d' : Data ι} {t u : ι}

omit [DecidableEq ι] in
theorem inv_boot (log : LogArea) (disk : Disk) : Inv (boot log disk : Data ι) :=
  ⟨List.nodup_nil, rfl, Nat.zero_le _, rfl, fun h => (nomatch h), fun _ _ => rfl⟩

omit [DecidableEq ι] in
/-- What a section leaves of another process. -/
theorem Where.other {st : Status Unit Goal} {wake : List Unit} (h : Where d u st)
    (hops : u ∈ d'.ops ↔ u ∈ d.ops) (hcommitter : d'.committer = some u ↔ d.committer = some u) :
    Where d' u (st.wake wake) := by
  cases st with
  | idle => trivial
  | ready goal =>
      cases goal with
      | beginOp => exact ⟨fun hu => h.1 (hops.1 hu), fun hu => h.2 (hcommitter.1 hu)⟩
      | append b data => exact hops.2 h
      | endOp => exact hops.2 h
      | commit => exact hcommitter.2 h
  | asleep c goal =>
      obtain ⟨rfl, hu, hne⟩ := h
      by_cases hc : c ∈ wake
      · simp only [Status.wake, if_pos hc]
        exact ⟨fun hu' => hu (hops.1 hu'), fun hu' => hne (hcommitter.1 hu')⟩
      · simp only [Status.wake, if_neg hc]
        exact ⟨rfl, fun hu' => hu (hops.1 hu'), fun hu' => hne (hcommitter.1 hu')⟩

/-- What a section does: it keeps what holds, of the process and of all others. -/
structure Keeps (d : Data ι) (t : ι) (x : Exit Unit Goal (Data ι)) : Prop where
  inv : Inv x.shared
  self : Where x.shared t x.status
  other : ∀ u st, u ≠ t → Where d u st → Where x.shared u (st.wake x.wake)

omit [DecidableEq ι] in
theorem Inv.not_committing (h : Inv d) (ht : t ∈ d.ops) : d.m.log.committing = false :=
  Bool.eq_false_iff.2 fun hcommitting => by
    rw [h.alone hcommitting] at ht
    cases ht

theorem Inv.beginOp (h : Inv d) (ht : t ∉ d.ops) (hne : d.committer ≠ some t) :
    ∃ x, turn t .beginOp d = some x ∧ Keeps d t x := by
  cases hlog : d.m.log.beginOp with
  | none =>
      exact ⟨⟨d, [], some ((), .beginOp)⟩, by simp only [turn, hlog], h, ⟨rfl, ht, hne⟩,
        fun u st _ hst => hst.other Iff.rfl Iff.rfl⟩
  | some log =>
      obtain ⟨hcommitting, hroom, rfl⟩ := Log.beginOp_cases hlog
      refine ⟨⟨{ d with
          m := { d.m with log := { d.m.log with outstanding := d.m.log.outstanding + 1 } }
          ops := t :: d.ops }, [], none⟩, by simp only [turn, hlog],
        ⟨List.nodup_cons.2 ⟨ht, h.nodup⟩, ?_, ?_, h.committing, ?_, ?_⟩, trivial,
        fun u st hu hst => hst.other ?_ Iff.rfl⟩
      · simp only [h.outstanding, List.length_cons]
        omega
      · rw [h.outstanding] at hroom
        simp only [List.length_cons, MAXOPBLOCKS, LOGSIZE] at hroom ⊢
        omega
      · exact fun heq => nomatch hcommitting.symm.trans heq
      · exact fun heq => nomatch heq
      · exact List.mem_cons.trans (or_iff_right hu)

theorem Inv.append (h : Inv d) (ht : t ∈ d.ops) {b : UInt32} {data : Block}
    {x : Exit Unit Goal (Data ι)} (hx : turn t (.append b data) d = some x) : Keeps d t x := by
  obtain ⟨m, hm, rfl⟩ := Option.map_eq_some_iff.1 hx
  obtain ⟨log, hlog, rfl⟩ := Machine.append_cases hm
  have hsame : log.outstanding = d.m.log.outstanding ∧ log.committing = d.m.log.committing := by
    obtain rfl | ⟨_, _, rfl⟩ := Log.append_cases hlog
    · exact ⟨rfl, rfl⟩
    · exact ⟨rfl, rfl⟩
  refine ⟨⟨h.nodup, hsame.1.trans h.outstanding, h.few, hsame.2.trans h.committing,
    fun hcommitting => h.alone (hsame.2.symm.trans hcommitting), fun hops => ?_⟩, trivial,
    fun u st _ hst => hst.other Iff.rfl Iff.rfl⟩
  have hnil : d.ops = [] := hops
  rw [hnil] at ht
  cases ht

theorem Inv.endOp (h : Inv d) (ht : t ∈ d.ops) :
    ∃ x, turn t .endOp d = some x ∧ Keeps d t x := by
  have hcommitting := h.not_committing ht
  have hnobody : d.committer = none := by
    have hsome := h.committing.symm.trans hcommitting
    cases hc : d.committer with
    | none => rfl
    | some u =>
        rw [hc] at hsome
        cases hsome
  have hlength : (d.ops.erase t).length = d.ops.length - 1 := List.length_erase_of_mem ht
  have hpos : 0 < d.ops.length := List.length_pos_of_mem ht
  have hother : ∀ u, u ≠ t → (u ∈ d.ops.erase t ↔ u ∈ d.ops) := fun u hu =>
    List.mem_erase_of_ne hu
  have hfew : (d.ops.erase t).length * MAXOPBLOCKS ≤ LOGSIZE :=
    (Nat.mul_le_mul_right _ (List.length_erase_le ..)).trans h.few
  by_cases hlast : d.m.log.outstanding - 1 = 0
  · refine ⟨⟨{
        m := { d.m with log := { d.m.log with
          outstanding := d.m.log.outstanding - 1, committing := true } }
        ops := d.ops.erase t, committer := some t }, [], none⟩, ?_, ?_⟩
    · simp [turn, Log.endOp, hcommitting, hlast]
    · have hnil : d.ops.erase t = [] := by
        rw [← List.length_eq_zero_iff, hlength]
        have := h.outstanding
        omega
      refine ⟨⟨h.nodup.erase t, ?_, hfew, rfl, fun _ => hnil, fun _ heq => Bool.noConfusion heq⟩,
        trivial, fun u st hu hst => hst.other (hother u hu) ?_⟩
      · simp only [hlength, h.outstanding]
        omega
      · rw [hnobody]
        exact iff_of_false (fun heq => hu (Option.some.inj heq).symm)
          fun heq => Option.some_ne_none u heq.symm
  · refine ⟨⟨{
        m := { d.m with log := { d.m.log with outstanding := d.m.log.outstanding - 1 } }
        ops := d.ops.erase t, committer := d.committer }, [()], none⟩, ?_, ?_⟩
    · simp [turn, Log.endOp, hcommitting, hlast]
    · have hmore : d.ops.erase t ≠ [] := by
        intro hnil
        rw [← List.length_eq_zero_iff, hlength] at hnil
        have := h.outstanding
        omega
      refine ⟨⟨h.nodup.erase t, ?_, hfew, h.committing, fun heq => ?_,
        fun hnil => absurd hnil hmore⟩, trivial, fun u st hu hst => hst.other (hother u hu) Iff.rfl⟩
      · simp only [hlength, h.outstanding]
        omega
      · exact Bool.noConfusion (hcommitting.symm.trans heq)

theorem Inv.commit (h : Inv d) (ht : d.committer = some t) :
    ∃ x, turn t .commit d = some x ∧ Keeps d t x := by
  have hcommitting : d.m.log.committing = true := by rw [h.committing, ht]; rfl
  have hlog : d.m.commitOp.log = { d.m.log with lh := [], committing := false } := by
    rw [Machine.commitOp, Machine.commit_log]
  refine ⟨⟨{ d with m := d.m.commitOp, committer := none }, [()], none⟩, rfl,
    ⟨h.nodup, ?_, h.few, ?_, fun heq => ?_, fun _ _ => ?_⟩, trivial,
    fun u st hu hst => hst.other Iff.rfl ?_⟩
  · simp only [hlog]
    exact h.outstanding
  · simp only [hlog]
    rfl
  · simp only [hlog] at heq
    cases heq
  · simp only [hlog]
  · rw [ht]
    exact iff_of_false (fun heq => nomatch heq) (fun heq => hu (Option.some.inj heq).symm)

/-- **Step lemma.** -/
theorem Inv.keeps (h : Inv d) {goal : Goal} {x : Exit Unit Goal (Data ι)}
    (ht : Where d t (.ready goal)) (hx : turn t goal d = some x) : Keeps d t x := by
  cases goal with
  | beginOp =>
      obtain ⟨y, hy, hkeeps⟩ := h.beginOp ht.1 ht.2
      exact Option.some.inj (hx.symm.trans hy) ▸ hkeeps
  | append b data => exact h.append ht hx
  | endOp =>
      obtain ⟨y, hy, hkeeps⟩ := h.endOp ht
      exact Option.some.inj (hx.symm.trans hy) ▸ hkeeps
  | commit =>
      obtain ⟨y, hy, hkeeps⟩ := h.commit ht
      exact Option.some.inj (hx.symm.trans hy) ▸ hkeeps

omit [DecidableEq ι] in
/-- The only test that `log_write` can fail is "too big a transaction". -/
theorem Inv.check (h : Inv d) (ht : t ∈ d.ops) :
    d.m.log.check = some () ∨ d.m.log.TooBig := by
  have hpos : 0 < d.ops.length := List.length_pos_of_mem ht
  have hout : ¬d.m.log.outstanding < 1 := by
    rw [h.outstanding]
    omega
  by_cases hbig : d.m.log.TooBig
  · exact Or.inr hbig
  · exact Or.inl (by rw [Log.check, if_neg hbig, if_neg hout])

/-- All that can go wrong under the lock is that `lh.block` is full. -/
theorem Inv.panic (h : Inv d) {goal : Goal} (ht : Where d t (.ready goal)) :
    (turn t goal d).isSome ∨ ∃ b data, goal = .append b data ∧ LOGSIZE ≤ d.m.log.lh.length := by
  cases goal with
  | beginOp =>
      obtain ⟨x, hx, _⟩ := h.beginOp ht.1 ht.2
      exact Or.inl (Option.isSome_iff_exists.2 ⟨x, hx⟩)
  | append b data =>
      by_cases hroom : d.m.log.lh.length < LOGSIZE
      · have hsome : (d.m.log.append b).isSome := by
          unfold Log.append
          rw [if_pos hroom]
          split <;> rfl
        obtain ⟨log, hlog⟩ := Option.isSome_iff_exists.1 hsome
        refine Or.inl ?_
        simp [turn, Machine.append, hlog]
      · exact Or.inr ⟨b, data, rfl, Nat.le_of_not_lt hroom⟩
  | endOp =>
      obtain ⟨x, hx, _⟩ := h.endOp ht
      exact Or.inl (Option.isSome_iff_exists.2 ⟨x, hx⟩)
  | commit =>
      obtain ⟨x, hx, _⟩ := h.commit ht
      exact Or.inl (Option.isSome_iff_exists.2 ⟨x, hx⟩)

/-- Nobody changes the log or a buffer while another process commits. -/
theorem Inv.others (h : Inv d) (hcommitting : d.m.log.committing = true) {goal : Goal}
    (hu : Where d u (.ready goal)) (hne : d.committer ≠ some u) {x : Exit Unit Goal (Data ι)}
    (hx : turn u goal d = some x) : x.shared.m = d.m := by
  have hops := h.alone hcommitting
  cases goal with
  | beginOp =>
      have hsleeps : d.m.log.beginOp = none := by rw [Log.beginOp, if_pos hcommitting]
      simp only [turn, hsleeps, Option.some.injEq] at hx
      rw [← hx]
  | append b data => exact absurd (show u ∈ d.ops from hu) (by rw [hops]; exact List.not_mem_nil)
  | endOp => exact absurd (show u ∈ d.ops from hu) (by rw [hops]; exact List.not_mem_nil)
  | commit => exact absurd hu hne

/-! ## Who sleeps -/

/-- What `begin_op` sleeps on. -/
def Waits (d : Data ι) : Prop :=
  d.m.log.committing = true
    ∨ d.m.log.lh.length + (d.m.log.outstanding + 1) * MAXOPBLOCKS > LOGSIZE

omit [DecidableEq ι] in
theorem waits_iff : Waits d ↔ d.m.log.beginOp = none := by
  unfold Waits Log.beginOp
  by_cases hcommitting : d.m.log.committing = true
  · rw [if_pos hcommitting]
    exact iff_of_true (Or.inl hcommitting) rfl
  · rw [if_neg hcommitting, or_iff_right hcommitting]
    split
    · rename_i hroom
      exact iff_of_true hroom rfl
    · rename_i hroom
      exact iff_of_false hroom (fun heq => nomatch heq)

/-- A section that sleeps has found it so, and one that does not wake leaves it so. -/
theorem waits_turn {goal : Goal} {x : Exit Unit Goal (Data ι)} (hx : turn t goal d = some x) :
    (∀ goal', x.next = some ((), goal') → Waits x.shared)
      ∧ (Waits d → () ∉ x.wake → Waits x.shared) := by
  cases goal with
  | beginOp =>
      cases hlog : d.m.log.beginOp with
      | none =>
          simp only [turn, hlog, Option.some.injEq] at hx
          cases hx
          exact ⟨fun _ _ => waits_iff.2 hlog, fun h _ => h⟩
      | some log =>
          simp only [turn, hlog, Option.some.injEq] at hx
          cases hx
          exact ⟨fun _ heq => (nomatch heq), fun h => nomatch (waits_iff.1 h).symm.trans hlog⟩
  | append b data =>
      obtain ⟨m, hm, rfl⟩ := Option.map_eq_some_iff.1 hx
      obtain ⟨log, hlog, rfl⟩ := Machine.append_cases hm
      refine ⟨fun _ heq => (nomatch heq), fun h _ => ?_⟩
      obtain rfl | ⟨_, _, rfl⟩ := Log.append_cases hlog
      · exact h
      · refine h.imp_right fun hroom => ?_
        simp only [List.length_append, List.length_singleton]
        omega
  | endOp =>
      obtain ⟨⟨doCommit, log⟩, hlog, rfl⟩ := Option.map_eq_some_iff.1 hx
      obtain ⟨_, _, rfl⟩ := Log.endOp_cases hlog
      cases doCommit with
      | true => exact ⟨fun _ heq => (nomatch heq), fun _ _ => Or.inl rfl⟩
      | false => exact ⟨fun _ heq => (nomatch heq), fun _ hwake => absurd List.mem_cons_self hwake⟩
  | commit =>
      cases hx
      exact ⟨fun _ heq => (nomatch heq), fun _ hwake => absurd List.mem_cons_self hwake⟩

/-! ## Blocks that slip in -/

/-- The process is behind the tests of `log_write`, and has not logged its block. -/
def appends : Status Unit Goal → Bool
  | .ready (.append _ _) => true
  | _ => false

/-- How many processes are there. -/
def between (s : Monitor.State ι Unit Goal (Data ι)) : Nat :=
  s.shared.ops.countP fun t => appends (s.status t)

omit [DecidableEq ι] in
theorem Where.appends_wake {st : Status Unit Goal} (h : Where d u st) (wake : List Unit) :
    appends (st.wake wake) = appends st := by
  cases st with
  | asleep c goal =>
      obtain ⟨rfl, _⟩ := h
      simp only [Status.wake]
      split <;> rfl
  | _ => rfl

omit [DecidableEq ι] in
/-- Behind its section a process is not there any more. -/
theorem appends_exit (x : Exit Unit Goal (Data ι)) : appends x.status = false := by
  unfold Exit.status
  split <;> rfl

section slips

variable {m : Monitor.State ι Unit Goal (Data ι)}

theorem countP_after (hwhere : ∀ u, Where m.shared u (m.status u))
    (x : Exit Unit Goal (Data ι)) (l : List ι) :
    (l.countP fun u => appends ((m.after t x).status u))
      ≤ l.countP fun u => appends (m.status u) := by
  refine List.countP_mono_left fun u _ hu => ?_
  by_cases htu : u = t
  · rw [htu, Monitor.State.after_self, appends_exit] at hu
    cases hu
  · rwa [Monitor.State.after_other m x htu, (hwhere u).appends_wake] at hu

/-- One that logs its block is there no more. -/
theorem between_append (hwhere : ∀ u, Where m.shared u (m.status u))
    (ht : t ∈ m.shared.ops) (hready : appends (m.status t) = true)
    {x : Exit Unit Goal (Data ι)} (hops : x.shared.ops = m.shared.ops) :
    between (m.after t x) + 1 ≤ between m := by
  have hperm := List.perm_cons_erase ht
  have hself : ¬appends ((m.after t x).status t) = true := by
    rw [Monitor.State.after_self, appends_exit]
    decide
  have hrest := countP_after (t := t) hwhere x (m.shared.ops.erase t)
  have hnew : between (m.after t x)
      = m.shared.ops.countP fun u => appends ((m.after t x).status u) := by
    rw [between, ← hops]
    rfl
  have hcons : (t :: m.shared.ops.erase t).countP (fun u => appends (m.status u))
      = (m.shared.ops.erase t).countP (fun u => appends (m.status u)) + 1 :=
    List.countP_cons_of_pos hready
  rw [hnew, between, hperm.countP_eq, hperm.countP_eq, hcons]
  refine Nat.succ_le_succ (le_trans (le_of_eq ?_) hrest)
  exact List.countP_cons_of_neg hself

/-- **Step lemma**: what the tests have let through, and what they will not stop any more. -/
theorem slips_turn (hinv : Inv m.shared) (hwhere : ∀ u, Where m.shared u (m.status u))
    {goal : Goal} (ht : m.status t = .ready goal) {x : Exit Unit Goal (Data ι)}
    (hx : turn t goal m.shared = some x)
    (h : m.shared.m.log.lh.length + between m ≤ m.shared.m.log.size + 1) :
    x.shared.m.log.lh.length + between (m.after t x) ≤ x.shared.m.log.size + 1 := by
  have hmono := countP_after (t := t) hwhere x
  have hgoal := ht ▸ hwhere t
  cases goal with
  | beginOp =>
      cases hlog : m.shared.m.log.beginOp with
      | none =>
          simp only [turn, hlog, Option.some.injEq] at hx
          cases hx
          exact (Nat.add_le_add_left (hmono _) _).trans h
      | some log =>
          obtain ⟨_, _, rfl⟩ := Log.beginOp_cases hlog
          simp only [turn, hlog, Option.some.injEq] at hx
          cases hx
          refine (Nat.add_le_add_left ?_ _).trans h
          rw [between]
          refine le_trans (le_of_eq (List.countP_cons_of_neg ?_)) (hmono m.shared.ops)
          rw [Monitor.State.after_self, appends_exit]
          decide
  | append b data =>
      obtain ⟨hops, hsize, hlh⟩ : x.shared.ops = m.shared.ops
          ∧ x.shared.m.log.size = m.shared.m.log.size
          ∧ x.shared.m.log.lh.length ≤ m.shared.m.log.lh.length + 1 := by
        obtain ⟨m', hm, rfl⟩ := Option.map_eq_some_iff.1 hx
        obtain ⟨log, hlog, rfl⟩ := Machine.append_cases hm
        obtain rfl | ⟨_, _, rfl⟩ := Log.append_cases hlog
        · exact ⟨rfl, rfl, Nat.le_succ _⟩
        · exact ⟨rfl, rfl, by rw [List.length_append]; rfl⟩
      have hless := between_append hwhere hgoal (by rw [ht]; rfl) hops
      omega
  | endOp =>
      obtain ⟨⟨doCommit, log⟩, hlog, rfl⟩ := Option.map_eq_some_iff.1 hx
      obtain ⟨_, _, rfl⟩ := Log.endOp_cases hlog
      refine (Nat.add_le_add_left ?_ _).trans h
      exact (hmono _).trans (List.erase_sublist.countP_le)
  | commit =>
      have hcommitting : m.shared.m.log.committing = true := by
        rw [hinv.committing, show m.shared.committer = some t from hgoal]
        rfl
      have hops := hinv.alone hcommitting
      cases hx
      have hnil : between (m.after t ⟨{ m.shared with
          m := m.shared.m.commitOp, committer := none }, [()], none⟩) = 0 := by
        show List.countP _ m.shared.ops = 0
        rw [hops]
        rfl
      have hlh : m.shared.m.commitOp.log.lh = [] := by
        rw [Machine.commitOp, Machine.commit_log]
      rw [hnil, hlh]
      exact Nat.zero_le _

end slips

/-! ## Runs -/

variable {area : LogArea} {disk : Disk} {es : List (SleepWakeup.Event ι Goal)}
  {s : State ι Unit Goal (Data ι)} {m : Monitor.State ι Unit Goal (Data ι)}

theorem inv_reach (h : Monitor.State.Reach (sections ι) (boot area disk) m) :
    Inv m.shared ∧ ∀ t, Where m.shared t (m.status t) := by
  refine h.threads (I := Inv) (P := Where) (inv_boot area disk) (fun _ => trivial) ?_ ?_ ?_
  · intro d t goal _ _ hmay
    cases goal with
    | beginOp => exact hmay
    | append b data => exact hmay.1
    | endOp => exact hmay
    | commit => exact hmay
  · rintro d t c _ _ ⟨rfl, hops, hne⟩
    exact ⟨hops, hne⟩
  · intro d t goal x hinv hwhere hbody
    have hkeeps := hinv.keeps hwhere hbody
    exact ⟨hkeeps.inv, hkeeps.self, hkeeps.other⟩

/-- **Run lemma**: with those that are let through already there are at most two blocks
too many, for only three operations run at a time. -/
theorem slips_reach (h : Monitor.State.Reach (sections ι) (boot area disk) m) :
    m.shared.m.log.lh.length + between m ≤ m.shared.m.log.size + 1 := by
  induction h with
  | init => exact Nat.zero_le _
  | @step m m' e hreach hstep ih =>
      obtain ⟨hinv, hwhere⟩ := inv_reach hreach
      have hset : ∀ t goal, appends (.ready goal) = false →
          between (m.set t (.ready goal)) ≤ between m := by
        intro t goal hgoal
        refine List.countP_mono_left fun u _ hu => ?_
        by_cases htu : u = t
        · rw [htu, Monitor.State.set_self, hgoal] at hu
          cases hu
        · rwa [Monitor.State.set_other m _ htu] at hu
      cases e with
      | call t goal =>
          obtain ⟨_, hmay, rfl⟩ := hstep
          cases goal with
          | append b data =>
              -- it has passed the tests
              obtain ⟨hbig, _⟩ := Log.check_cases hmay.2
              have hcount : between (m.set t (.ready (.append b data))) ≤ m.shared.ops.length :=
                List.countP_le_length
              have hfew := hinv.few
              simp only [Log.TooBig, MAXOPBLOCKS, LOGSIZE] at hbig hfew
              show m.shared.m.log.lh.length + _ ≤ m.shared.m.log.size + 1
              omega
          | _ => exact (Nat.add_le_add_left (hset t _ rfl) _).trans ih
      | kick t =>
          obtain ⟨c, goal, hasleep, rfl⟩ := hstep
          obtain ⟨rfl, _⟩ := hasleep ▸ hwhere t
          exact (Nat.add_le_add_left (hset t _ rfl) _).trans ih
      | run t =>
          obtain ⟨goal, x, hready, hbody, rfl⟩ := hstep
          exact slips_turn hinv hwhere hready hbody ih

theorem inv_run (hrun : (State.init (boot area disk)).Run (sections ι) es s) :
    Inv s.shared ∧ ∀ t, Where s.shared t (s.abs.status t) :=
  inv_reach hrun.inv.2

theorem where_want {goal : Goal} (hrun : (State.init (boot area disk)).Run (sections ι) es s)
    (ht : s.pc t = .want goal) : Where s.shared t (.ready goal) := by
  have hgoal := (inv_run hrun).2 t
  rwa [show s.abs.status t = .ready goal by show (s.pc t).status _ = _; rw [ht]; rfl] at hgoal

/-- **Who sleeps in `begin_op`**: after every run, a process sleeps there only while one
commits, or while an operation is running and the log might not have room for one more,
or when a `wakeup` is on the way to it. In an operation the tests of `log_write` let a
process through or panic with "too big a transaction"; with those that have passed them
at the same entry the log gets at most two blocks more than they allow; and all that can
go wrong under the lock is that one of these finds `lh.block` full. -/
theorem log_sleepers (hrun : (State.init (boot area disk)).Run (sections ι) es s) {t : ι}
    {goal : Goal} :
    (s.pc t = .sleeping () goal → () ∈ s.pending ∨ s.shared.m.log.committing = true
        ∨ s.shared.ops ≠ [] ∧ s.shared.m.log.lh.length
          + (s.shared.m.log.outstanding + 1) * MAXOPBLOCKS > LOGSIZE)
      ∧ (t ∈ s.shared.ops → s.shared.m.log.check = some () ∨ s.shared.m.log.TooBig)
      ∧ s.shared.m.log.lh.length ≤ s.shared.m.log.size + 1
      ∧ (s.pc t = .want goal → (turn t goal s.shared).isSome
        ∨ ∃ b data, goal = .append b data ∧ LOGSIZE ≤ s.shared.m.log.lh.length) := by
  have h := (inv_run hrun).1
  refine ⟨fun ht => ?_, h.check, (Nat.le_add_right ..).trans (slips_reach hrun.inv.2),
    fun ht => h.panic (where_want hrun ht)⟩
  refine (State.asleep_of_sleeping ht).imp_right fun hasleep => ?_
  have hwaits : Waits s.shared := by
    refine hrun.inv.2.waits (I := fun _ => True) trivial (fun _ _ _ _ _ _ => trivial) ?_ ?_ hasleep
    · intro d t goal x goal' _ hx hnext
      exact (waits_turn hx).1 goal' hnext
    · intro d t goal x _ hx hd hwake
      exact (waits_turn hx).2 hd hwake
  by_cases hcommitting : s.shared.m.log.committing = true
  · exact Or.inl hcommitting
  · have hroom := hwaits.resolve_left hcommitting
    refine Or.inr ⟨fun hops => ?_, hroom⟩
    have hlh := h.clean hops (Bool.eq_false_iff.2 hcommitting)
    rw [h.outstanding, hops, hlh] at hroom
    simp only [List.length_nil] at hroom
    exact absurd hroom (by decide)

/-- Two processes are in operations, and pass the tests of `log_write` at the last free
entry; both log their blocks. Another one sleeps in `begin_op`: the log has no room. -/
def lastEntry : List (SleepWakeup.Event Nat Goal) :=
  [.call 0 .beginOp, .acquire 0, .release 0, .call 1 .beginOp, .acquire 1, .release 1,
    .call 0 (.append 40 fun _ => 1), .call 1 (.append 41 fun _ => 2),
    .acquire 0, .release 0, .acquire 1, .release 1,
    .call 3 .beginOp, .acquire 3, .sleep 3, .sched 3]

theorem lastEntry_run : ∃ s : State Nat Unit Goal (Data Nat),
    (State.init (boot ⟨2, 2⟩ fun _ _ => 0)).Run (sections Nat) lastEntry s
      ∧ s.pc 3 = .sleeping () .beginOp ∧ s.shared.m.log.lh = [40, 41] :=
  ⟨_, .cons ⟨rfl, ⟨List.not_mem_nil, (fun h => nomatch h)⟩, rfl⟩ (.cons ⟨_, _, rfl, rfl, rfl, rfl⟩
    (.cons ⟨rfl, rfl⟩ (.cons ⟨rfl, ⟨by decide, (fun h => nomatch h)⟩, rfl⟩
      (.cons ⟨_, _, rfl, rfl, rfl, rfl⟩ (.cons ⟨rfl, rfl⟩
        (.cons ⟨rfl, ⟨by decide, rfl⟩, rfl⟩ (.cons ⟨rfl, ⟨by decide, rfl⟩, rfl⟩
          (.cons ⟨_, _, rfl, rfl, rfl, rfl⟩ (.cons ⟨rfl, rfl⟩
            (.cons ⟨_, _, rfl, rfl, rfl, rfl⟩ (.cons ⟨rfl, rfl⟩
              (.cons ⟨rfl, ⟨by decide, (fun h => nomatch h)⟩, rfl⟩
                (.cons ⟨_, _, rfl, rfl, rfl, rfl⟩ (.cons ⟨_, _, rfl, rfl, rfl⟩
                  (.cons ⟨_, _, rfl, rfl⟩ .nil))))))))))))))), rfl, rfl⟩

theorem log_sleepers_two :
    ∃ s : State Nat Unit Goal (Data Nat), s.pc 3 = .sleeping () .beginOp
      ∧ s.shared.m.log.lh = [40, 41]
      ∧ ∀ t goal, (s.pc t = .sleeping () goal → () ∈ s.pending ∨ s.shared.m.log.committing = true
          ∨ s.shared.ops ≠ [] ∧ s.shared.m.log.lh.length
            + (s.shared.m.log.outstanding + 1) * MAXOPBLOCKS > LOGSIZE)
        ∧ (t ∈ s.shared.ops → s.shared.m.log.check = some () ∨ s.shared.m.log.TooBig)
        ∧ s.shared.m.log.lh.length ≤ s.shared.m.log.size + 1
        ∧ (s.pc t = .want goal → (turn t goal s.shared).isSome
          ∨ ∃ b data, goal = .append b data ∧ LOGSIZE ≤ s.shared.m.log.lh.length) :=
  have ⟨s, hrun, hpc, hlh⟩ := lastEntry_run
  ⟨s, hpc, hlh, fun _ _ => log_sleepers hrun⟩

end SchoolStuff.Xv6.LogLocks
