import Mathlib.Algebra.BigOperators.Group.List.Basic
import Mathlib.Data.List.Nodup
import SchoolStuff.Xv6.CrashAtomic

/-!
# Xv6 — what `begin_op` admits, and what `log_write` takes

Operations run one step at a time, in any order. `begin_op` reserves
`MAXOPBLOCKS` blocks of the log for each, and the reservations never exceed
`LOGSIZE` blocks (`reserved_le`). `log_write` refuses the block after the
first `log.size - 1` of them, which on the disk of `mkfs` is one less
(`no_panic_iff`).
-/

namespace SchoolStuff.Xv6

/-- The machine, and for each running operation the blocks that it has passed
to `log_write`. -/
structure Sys where
  m : Machine
  ops : List (List UInt32)

/-- A step of an operation, or of the commit of the last one. -/
inductive Event where
  | beginOp
  | logWrite (op : Nat) (b : UInt32) (data : Block)
  | endOp (op : Nat)
  | commit

inductive Fault where
  /-- The step is not the program's: it sleeps, no operation is there to take
  it, or it writes more than `MAXOPBLOCKS` distinct blocks. -/
  | notTaken
  /-- `panic("too big a transaction")`. -/
  | tooBig
  /-- Another panic of `log.c`. -/
  | panic
  deriving DecidableEq

namespace Sys

/-- The result of a call that panics for a reason of its own. -/
def orPanic (fault : Fault) : Option Sys → Except Fault Sys
  | some s => .ok s
  | none => .error fault

def step (s : Sys) : Event → Except Fault Sys
  | .beginOp =>
      orPanic .notTaken ((s.m.log.beginOp).map fun log =>
        { m := { s.m with log := log }, ops := s.ops ++ [[]] })
  | .logWrite op b data =>
      match s.ops[op]? with
      | none => .error .notTaken
      | some bs =>
          if MAXOPBLOCKS < (bs.insert b).length then .error .notTaken
          else orPanic (if s.m.log.TooBig then .tooBig else .panic)
            ((s.m.logWrite b data).map fun m =>
              { m := m, ops := s.ops.set op (bs.insert b) })
  | .endOp op =>
      if op < s.ops.length then
        orPanic .panic ((s.m.log.endOp).map fun r =>
          { m := { s.m with log := r.2 }, ops := s.ops.eraseIdx op })
      else .error .notTaken
  | .commit =>
      if s.m.log.committing then .ok { s with m := s.m.commitOp }
      else .error .notTaken

def run (s : Sys) : List Event → Except Fault Sys
  | [] => .ok s
  | e :: es => (s.step e).bind (run · es)

/-- The kernel has started on the disk that `mkfs` built. -/
def init (d : Disk) : Sys := { m := Machine.boot ⟨2, LOGSIZE⟩ d, ops := [] }

end Sys

/-- The distinct blocks passed to `log_write` since the last commit, after one
more step. -/
def pendingStep (bs : List UInt32) : Event → List UInt32
  | .logWrite _ b _ => bs.insert b
  | .commit => []
  | _ => bs

/-- The distinct blocks passed to `log_write` since the last commit. -/
def pending (es : List Event) : List UInt32 := es.foldl pendingStep []

/-- No `log_write` comes after `LOGSIZE - 1` distinct blocks without a commit. -/
def Roomy (es : List Event) : Prop :=
  ∀ before op b data after, es = before ++ .logWrite op b data :: after →
    (pending before).length < LOGSIZE - 1

/-! ## One step -/

namespace Sys

/-- What holds between any two steps after the steps `es`. -/
structure Inv (s : Sys) (es : List Event) : Prop where
  size : s.m.log.size = LOGSIZE
  outstanding : s.m.log.outstanding = s.ops.length
  idle : s.m.log.committing = true → s.ops = []
  nodup : s.m.log.lh.Nodup
  logged : ∀ b, b ∈ s.m.log.lh ↔ b ∈ pending es
  own : ∀ bs ∈ s.ops, bs ⊆ s.m.log.lh
  reserved : s.m.log.lh.length + (s.ops.map fun bs => MAXOPBLOCKS - bs.length).sum
    ≤ LOGSIZE

theorem orPanic_ok {fault : Fault} {o : Option Sys} {s : Sys}
    (h : orPanic fault o = .ok s) : o = some s := by
  cases o with
  | none => cases h
  | some s' =>
      cases h
      rfl

theorem pending_nodup (es : List Event) : (pending es).Nodup := by
  have hstep : ∀ (es : List Event) (bs : List UInt32), bs.Nodup →
      (es.foldl pendingStep bs).Nodup := by
    intro es
    induction es with
    | nil => exact fun _ h => h
    | cons e es ih =>
        intro bs h
        apply ih
        cases e with
        | logWrite _ b _ => exact h.insert
        | commit => exact List.nodup_nil
        | beginOp => exact h
        | endOp _ => exact h
  exact hstep es [] List.nodup_nil

theorem pending_concat (es : List Event) (e : Event) :
    pending (es ++ [e]) = pendingStep (pending es) e := by
  simp [pending]

/-- The log holds the distinct blocks since the last commit, and no more. -/
theorem Inv.length {s : Sys} {es : List Event} (h : s.Inv es) :
    s.m.log.lh.length = (pending es).length := by
  apply List.Perm.length_eq
  exact (List.perm_ext_iff_of_nodup h.nodup (pending_nodup es)).2 h.logged

/-- Setting one entry of a list changes a sum over it by that entry only. -/
theorem sum_map_set {α : Type} (f : α → Nat) {l : List α} {i : Nat} {x : α}
    (h : l[i]? = some x) (y : α) :
    ((l.set i y).map f).sum + f x = (l.map f).sum + f y := by
  induction l generalizing i with
  | nil => simp at h
  | cons a l ih =>
      cases i with
      | zero =>
          simp only [List.getElem?_cons_zero, Option.some.injEq] at h
          subst h
          simp only [List.set_cons_zero, List.map_cons, List.sum_cons]
          omega
      | succ i =>
          have := ih (by simpa using h)
          simp only [List.set_cons_succ, List.map_cons, List.sum_cons]
          omega

theorem sum_map_eraseIdx_le {α : Type} (f : α → Nat) (l : List α) (i : Nat) :
    ((l.eraseIdx i).map f).sum ≤ (l.map f).sum := by
  induction l generalizing i with
  | nil => simp
  | cons a l ih =>
      cases i with
      | zero => simp
      | succ i =>
          have := ih i
          simp only [List.eraseIdx_cons_succ, List.map_cons, List.sum_cons]
          omega

/-- No operation has a reservation of more than `MAXOPBLOCKS`. -/
theorem sum_reserved_le (ops : List (List UInt32)) :
    (ops.map fun bs => MAXOPBLOCKS - bs.length).sum ≤ ops.length * MAXOPBLOCKS := by
  induction ops with
  | nil => simp
  | cons bs ops ih =>
      simp only [List.map_cons, List.sum_cons, List.length_cons, Nat.succ_mul]
      omega

theorem Inv.beginOp {s s' : Sys} {es : List Event} (h : s.Inv es)
    (hstep : s.step .beginOp = .ok s') : s'.Inv (es ++ [.beginOp]) := by
  obtain ⟨log, hlog, rfl⟩ := Option.map_eq_some_iff.1 (orPanic_ok hstep)
  obtain ⟨hcommitting, hroom, rfl⟩ := Log.beginOp_cases hlog
  have hsum := sum_reserved_le s.ops
  have hout := h.outstanding
  refine ⟨h.size, ?_, ?_, h.nodup, ?_, ?_, ?_⟩
  · simp only [hout, List.length_append, List.length_singleton]
    omega
  · intro hc
    rw [hcommitting] at hc
    cases hc
  · rw [pending_concat]
    exact h.logged
  · intro bs hbs
    rcases List.mem_append.1 hbs with hbs | hbs
    · exact h.own bs hbs
    · rw [List.mem_singleton.1 hbs]
      exact List.nil_subset _
  · simp only [List.map_append, List.sum_append, List.map_cons, List.map_nil,
      List.sum_cons, List.sum_nil, List.length_nil]
    rw [hout] at hroom
    have hcast : ((s.m.log.lh.length + (s.ops.length + 1) * MAXOPBLOCKS : Nat) : Int)
        ≤ LOGSIZE := by
      push_cast
      exact hroom
    have hroom' : s.m.log.lh.length + (s.ops.length + 1) * MAXOPBLOCKS ≤ LOGSIZE := by
      exact_mod_cast hcast
    rw [Nat.succ_mul] at hroom'
    omega

/-- **`log_write`** takes what a new block needs from the reservation of its
operation. -/
theorem Inv.logWrite {s s' : Sys} {es : List Event} {op : Nat} {b : UInt32}
    {data : Block} (h : s.Inv es) (hstep : s.step (.logWrite op b data) = .ok s') :
    s'.Inv (es ++ [.logWrite op b data]) := by
  simp only [step] at hstep
  split at hstep
  · cases hstep
  rename_i bs hbs
  split at hstep
  · cases hstep
  rename_i hmax
  obtain ⟨m, hm, rfl⟩ := Option.map_eq_some_iff.1 (orPanic_ok hstep)
  obtain ⟨log, hrecord, rfl⟩ := Machine.logWrite_cases hm
  have hmem := Log.mem_record hrecord
  have harea := Log.record_area hrecord
  have hown : bs ⊆ s.m.log.lh := h.own bs (List.mem_of_getElem? hbs)
  obtain ⟨hbig, _, hcases⟩ := Log.record_cases hrecord
  have hsame : log.outstanding = s.m.log.outstanding
      ∧ log.committing = s.m.log.committing := by
    obtain ⟨_, rfl⟩ | ⟨_, rfl⟩ := hcases <;> exact ⟨rfl, rfl⟩
  refine ⟨?_, ?_, ?_, Log.nodup_record hrecord h.nodup, ?_, ?_, ?_⟩
  · exact (congrArg LogArea.size harea).trans h.size
  · simp only [hsame.1, h.outstanding, List.length_set]
  · intro hc
    have hnil := h.idle (hsame.2 ▸ hc)
    rw [hnil] at hbs
    simp at hbs
  · intro c
    rw [pending_concat, hmem, h.logged, pendingStep, List.mem_insert_iff, Or.comm]
  · intro cs hcs c hc
    rw [hmem]
    rcases List.mem_or_eq_of_mem_set hcs with hcs | rfl
    · exact Or.inl (h.own cs hcs hc)
    · rcases List.mem_insert_iff.1 hc with rfl | hc
      · exact Or.inr rfl
      · exact Or.inl (hown hc)
  · have hset := sum_map_set (fun bs => MAXOPBLOCKS - bs.length) hbs (bs.insert b)
    have hres := h.reserved
    simp only at hset ⊢
    obtain ⟨_, rfl⟩ | ⟨hnew, rfl⟩ := hcases
    · -- absorbed: the block costs nothing
      have hgrow : bs.length ≤ (bs.insert b).length := List.length_le_length_insert
      omega
    · -- a new block: its operation has one less to come
      have hnew' : b ∉ bs := fun hin => hnew (hown hin)
      have hgrow := List.length_insert_of_not_mem hnew'
      simp only [List.length_append, List.length_singleton]
      omega

theorem Inv.endOp {s s' : Sys} {es : List Event} {op : Nat} (h : s.Inv es)
    (hstep : s.step (.endOp op) = .ok s') : s'.Inv (es ++ [.endOp op]) := by
  simp only [step] at hstep
  split at hstep
  · rename_i hop
    obtain ⟨⟨doCommit, log⟩, hlog, rfl⟩ := Option.map_eq_some_iff.1 (orPanic_ok hstep)
    obtain ⟨_, hlast, rfl⟩ := Log.endOp_cases hlog
    have hout := h.outstanding
    have hlen := List.length_eraseIdx_of_lt hop
    refine ⟨h.size, ?_, ?_, h.nodup, ?_, ?_, ?_⟩
    · simp only [hlen]
      omega
    · intro hc
      have := hlast hc
      rw [← List.length_eq_zero_iff, hlen]
      omega
    · rw [pending_concat]
      exact h.logged
    · intro bs hbs
      exact h.own bs (List.mem_of_mem_eraseIdx hbs)
    · have := sum_map_eraseIdx_le (fun bs => MAXOPBLOCKS - bs.length) s.ops op
      have hres := h.reserved
      simp only
      omega
  · cases hstep

theorem Inv.commit {s s' : Sys} {es : List Event} (h : s.Inv es)
    (hstep : s.step .commit = .ok s') : s'.Inv (es ++ [.commit]) := by
  simp only [step] at hstep
  split at hstep
  · rename_i hcommitting
    cases hstep
    have hlog : s.m.commitOp.log = { s.m.log with lh := [], committing := false } := by
      simp only [Machine.commitOp, Machine.commit_log]
    have hops := h.idle hcommitting
    refine ⟨?_, ?_, ?_, ?_, ?_, ?_, ?_⟩
    · rw [hlog]
      exact h.size
    · rw [hlog]
      exact h.outstanding
    · rw [hlog]
      intro hc
      cases hc
    · rw [hlog]
      exact List.nodup_nil
    · rw [hlog, pending_concat]
      exact fun b => Iff.rfl
    · rw [hops]
      simp
    · rw [hlog, hops]
      simp
  · cases hstep

/-- **Every step keeps the invariant.** -/
theorem Inv.step {s s' : Sys} {es : List Event} {e : Event} (h : s.Inv es)
    (hstep : s.step e = .ok s') : s'.Inv (es ++ [e]) := by
  cases e with
  | beginOp => exact h.beginOp hstep
  | logWrite op b data => exact h.logWrite hstep
  | endOp op => exact h.endOp hstep
  | commit => exact h.commit hstep

/-! ## Whole runs -/

theorem init_inv (d : Disk) : (init d).Inv [] := by
  refine ⟨rfl, rfl, ?_, List.nodup_nil, ?_, ?_, Nat.zero_le _⟩
  · intro hc
    cases hc
  · exact fun _ => Iff.rfl
  · simp [init]

theorem run_cons {s s' : Sys} {e : Event} {es : List Event} (h : s.step e = .ok s') :
    s.run (e :: es) = s'.run es := by
  rw [run, h]
  rfl

theorem Inv.run {s s' : Sys} {done es : List Event} (h : s.Inv done)
    (hrun : s.run es = .ok s') : s'.Inv (done ++ es) := by
  induction es generalizing s done with
  | nil =>
      cases hrun
      rwa [List.append_nil]
  | cons e es ih =>
      cases hstep : s.step e with
      | error fault =>
          rw [Sys.run, hstep] at hrun
          cases hrun
      | ok s₁ =>
          rw [run_cons hstep] at hrun
          have := ih (h.step hstep) hrun
          rwa [List.append_assoc] at this

/-- **What `begin_op` reserves is enough for the header**: no run logs more
than `LOGSIZE` blocks. -/
theorem reserved_le {d : Disk} {es : List Event} {s : Sys}
    (h : (init d).run es = .ok s) : s.m.log.lh.length ≤ LOGSIZE := by
  have := ((init_inv d).run h).reserved
  omega

theorem Inv.tooBig_iff {s : Sys} {es : List Event} (h : s.Inv es) :
    s.m.log.TooBig ↔ LOGSIZE - 1 ≤ (pending es).length := by
  have hpos : LOGSIZE = 30 := rfl
  rw [← h.length]
  simp only [Log.TooBig, h.size]
  omega

/-- The panic of a step, and what it says of the step. -/
theorem Inv.step_tooBig {s : Sys} {es : List Event} {e : Event} (h : s.Inv es)
    (hstep : s.step e = .error .tooBig) :
    ∃ op b data, e = .logWrite op b data ∧ LOGSIZE - 1 ≤ (pending es).length := by
  cases e with
  | beginOp =>
      simp only [Sys.step] at hstep
      cases hlog : s.m.log.beginOp <;> simp [hlog, orPanic] at hstep
  | endOp op =>
      simp only [Sys.step] at hstep
      split at hstep
      · cases hlog : s.m.log.endOp <;> simp [hlog, orPanic] at hstep
      · cases hstep
  | commit =>
      simp only [Sys.step] at hstep
      split at hstep <;> cases hstep
  | logWrite op b data =>
      refine ⟨op, b, data, rfl, ?_⟩
      rw [← h.tooBig_iff]
      simp only [Sys.step] at hstep
      split at hstep
      · cases hstep
      · split at hstep
        · cases hstep
        · by_contra hbig
          cases hwrite : s.m.logWrite b data <;>
            simp [hwrite, hbig, orPanic] at hstep

/-- A `log_write` that returns found room. -/
theorem Inv.logWrite_room {s s' : Sys} {es : List Event} {op : Nat} {b : UInt32}
    {data : Block} (h : s.Inv es) (hstep : s.step (.logWrite op b data) = .ok s') :
    (pending es).length < LOGSIZE - 1 := by
  simp only [Sys.step] at hstep
  split at hstep
  · cases hstep
  · split at hstep
    · cases hstep
    · obtain ⟨m, hm, _⟩ := Option.map_eq_some_iff.1 (orPanic_ok hstep)
      obtain ⟨log, hrecord, _⟩ := Machine.logWrite_cases hm
      have hbig := (Log.record_cases hrecord).1
      rw [h.tooBig_iff] at hbig
      omega

/-- The other panics of `log.c` are out of reach. -/
theorem Inv.step_panic {s : Sys} {es : List Event} {e : Event} (h : s.Inv es) :
    s.step e ≠ .error .panic := by
  intro hstep
  cases e with
  | beginOp =>
      simp only [Sys.step] at hstep
      cases hlog : s.m.log.beginOp <;> simp [hlog, orPanic] at hstep
  | commit =>
      simp only [Sys.step] at hstep
      split at hstep <;> cases hstep
  | endOp op =>
      simp only [Sys.step] at hstep
      split at hstep
      · rename_i hop
        have hcommitting : s.m.log.committing = false := by
          cases hc : s.m.log.committing with
          | false => rfl
          | true => simp [h.idle hc] at hop
        by_cases hlast : s.m.log.outstanding - 1 = 0 <;>
          simp [Log.endOp, hcommitting, hlast, orPanic] at hstep
      · cases hstep
  | logWrite op b data =>
      simp only [Sys.step] at hstep
      split at hstep
      · cases hstep
      · rename_i bs hbs
        split at hstep
        · cases hstep
        · have hout : 1 ≤ s.m.log.outstanding := by
            have := (List.getElem?_eq_some_iff.1 hbs).1
            have := h.outstanding
            omega
          by_cases hbig : s.m.log.TooBig
          · cases hwrite : s.m.logWrite b data <;>
              simp [hwrite, hbig, orPanic] at hstep
          · obtain ⟨log, hlog⟩ := Log.record_some hbig hout b
            simp [Machine.logWrite, hlog, orPanic] at hstep

/-- `Roomy`, for what comes after the steps `done`. -/
def RoomyFrom (done es : List Event) : Prop :=
  ∀ before op b data after, es = before ++ .logWrite op b data :: after →
    (pending (done ++ before)).length < LOGSIZE - 1

theorem roomyFrom_cons {done es : List Event} {e : Event} :
    RoomyFrom done (e :: es) ↔ RoomyFrom (done ++ [e]) es
      ∧ ∀ op b data, e = .logWrite op b data →
          (pending done).length < LOGSIZE - 1 := by
  constructor
  · intro h
    constructor
    · intro before op b data after hes
      have := h (e :: before) op b data after (by rw [hes]; rfl)
      rwa [List.append_assoc]
    · rintro op b data rfl
      have := h [] op b data es rfl
      rwa [List.append_nil] at this
  · rintro ⟨hrest, hfirst⟩ before op b data after hes
    cases before with
    | nil =>
        rw [List.append_nil]
        exact hfirst op b data (List.cons.inj hes).1
    | cons e' before =>
        obtain ⟨rfl, htail⟩ := List.cons.inj hes
        have := hrest before op b data after htail
        rwa [List.append_assoc] at this

theorem Inv.run_panic_iff {s : Sys} {done es : List Event} (h : s.Inv done)
    (hown : s.run es ≠ .error .notTaken) :
    s.run es ≠ .error .tooBig ↔ RoomyFrom done es := by
  induction es generalizing s done with
  | nil =>
      constructor
      · intro _ before op b data after hes
        simp at hes
      · intro _ hrun
        cases hrun
  | cons e es ih =>
      rw [roomyFrom_cons]
      cases hstep : s.step e with
      | error fault =>
          have hrun : s.run (e :: es) = .error fault := by
            rw [Sys.run, hstep]
            rfl
          rw [hrun] at hown ⊢
          cases fault with
          | notTaken => exact absurd rfl hown
          | panic => exact absurd hstep h.step_panic
          | tooBig =>
              obtain ⟨op, b, data, he, hfull⟩ := h.step_tooBig hstep
              constructor
              · exact fun hne => absurd rfl hne
              · rintro ⟨_, hfirst⟩
                have := hfirst op b data he
                omega
      | ok s₁ =>
          rw [run_cons hstep] at hown ⊢
          rw [ih (h.step hstep) hown]
          constructor
          · intro hrest
            refine ⟨hrest, ?_⟩
            rintro op b data rfl
            exact h.logWrite_room hstep
          · exact fun hroom => hroom.1

/-- **The capacity test of `log_write`**: a run of the operations' own steps
panics exactly when a `log_write` comes after `LOGSIZE - 1` distinct blocks. -/
theorem no_panic_iff (d : Disk) (es : List Event)
    (hown : (init d).run es ≠ .error .notTaken) :
    (init d).run es ≠ .error .tooBig ↔ Roomy es := by
  rw [(init_inv d).run_panic_iff hown]
  exact Iff.rfl

/-- Three operations take turns until the log has no room for one block more. -/
def fullLog : List Event :=
  [.beginOp, .beginOp, .beginOp]
    ++ ((List.range 29).map fun i =>
      .logWrite (i % 3) (UInt32.ofNat (700 + i)) fun _ => 7)
    ++ [.endOp 1, .endOp 0, .endOp 0, .commit]

theorem no_panic_iff_full :
    (∃ s, (init fun _ _ => 0).run fullLog = .ok s)
      ∧ ((init fun _ _ => 0).run fullLog ≠ .error .tooBig ↔ Roomy fullLog) := by
  have hrun : ∃ s, (init fun _ _ => 0).run fullLog = .ok s := ⟨_, rfl⟩
  refine ⟨hrun, no_panic_iff _ _ ?_⟩
  obtain ⟨s, hs⟩ := hrun
  rw [hs]
  intro h
  cases h

/-- Three operations that are admitted together, of ten blocks each. -/
def threeOps : List Event :=
  [.beginOp, .beginOp, .beginOp]
    ++ (List.range 30).map fun i =>
      .logWrite (i / 10) (UInt32.ofNat (700 + i)) fun _ => 7

/-- The last block of the third operation is one too many. -/
theorem three_ops_panic :
    ¬∀ (d : Disk) (es : List Event), (init d).run es ≠ .error .notTaken →
      (init d).run es ≠ .error .tooBig := by
  intro h
  have hrun : (init fun _ _ => 0).run threeOps = .error .tooBig := rfl
  exact h _ threeOps (by rw [hrun]; intro hne; cases hne) hrun

end Sys

end SchoolStuff.Xv6
