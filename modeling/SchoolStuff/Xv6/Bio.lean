import Mathlib.Tactic.DeriveFintype
import SchoolStuff.Lib.Circular
import SchoolStuff.Lib.Ends
import SchoolStuff.Lib.Links

/-!
# Xv6 — the buffer cache (`bio.c`)

Processes get and release buffers. What `bget` and `brelse` do under
`bcache.lock` is one step, and so is each change of a sleep lock: a process
that has found its buffer waits in `acquiresleep`, and one that has given up
its lock has yet to count itself out in `brelse`. The flags of a buffer are
changed for the process that holds it, by `log_write`, `bwrite` and `iderw`.
The data are left out. `refcnt` does not overflow: a process waits for one
buffer at a time.
-/

namespace SchoolStuff.Xv6.Bio

abbrev NBUF : Nat := 30

def B_DIRTY : UInt32 := 0x4

/-- A `struct buf` of the cache. The head is one as well. -/
inductive Node where
  | head
  | buf (i : Fin NBUF)
  deriving DecidableEq, Fintype

/-- `struct buf`, with the process that holds its lock. -/
structure Buf (ι : Type) where
  flags : UInt32
  dev : UInt32
  blockno : UInt32
  lock : Option ι
  refcnt : Nat

/-- Where a process is. -/
inductive Call where
  | idle
  /-- In `acquiresleep`, at the end of `bget`. -/
  | bget (b : Node)
  /-- In `brelse`, after `releasesleep`. -/
  | brelse (b : Node)
  deriving DecidableEq

/-- The cache, and the processes. -/
structure Bcache (ι : Type) where
  buf : Node → Buf ι
  links : Dlist Node
  call : ι → Call

/-- Why there is no step. -/
inductive Stop where
  /-- `panic("bget: no buffers")`. -/
  | noBuffers
  /-- A search does not come back to the head. -/
  | lost
  /-- The process is not where it makes this step. -/
  | notTaken
  deriving DecidableEq

inductive Event (ι : Type) where
  | bget (p : ι) (dev blockno : UInt32)
  | acquiresleep (p : ι)
  | setFlags (p : ι) (b : Node) (flags : UInt32)
  | releasesleep (p : ι) (b : Node)
  | brelse (p : ι)

namespace Buf

variable {ι : Type}

/-- The block that a buffer is for. -/
def label (b : Buf ι) : UInt32 × UInt32 := (b.dev, b.blockno)

theorem dev_eq {a b : Buf ι} (h : a.label = b.label) : a.dev = b.dev := congrArg Prod.fst h

/-- A buffer that `bget` does not recycle. -/
def InUse (b : Buf ι) : Prop := ¬(b.refcnt = 0 ∧ b.flags &&& B_DIRTY = 0)

instance (b : Buf ι) : Decidable b.InUse := by unfold InUse; infer_instance

end Buf

namespace Bcache

variable {ι : Type} [DecidableEq ι]

def setBuf (st : Bcache ι) (b : Node) (x : Buf ι) : Bcache ι :=
  { st with buf := Function.update st.buf b x }

def setCall (st : Bcache ι) (p : ι) (call : Call) : Bcache ι :=
  { st with call := Function.update st.call p call }

@[simp] theorem setCall_setBuf_buf (st : Bcache ι) (b : Node) (x : Buf ι) (p : ι) (c : Call) :
    ((st.setBuf b x).setCall p c).buf = Function.update st.buf b x := rfl

/-- The part of `bget` under `bcache.lock`. -/
def bget (st : Bcache ι) (p : ι) (dev blockno : UInt32) : Except Stop (Bcache ι) :=
  match Dlist.walk st.links.next .head
      (fun b => (st.buf b).dev = dev ∧ (st.buf b).blockno = blockno) (NBUF + 1)
      (st.links.next .head) with
  | none => .error .lost
  | some (some b) =>
      let st := st.setBuf b { st.buf b with refcnt := (st.buf b).refcnt + 1 }
      .ok (st.setCall p (.bget b))
  | some none =>
      match Dlist.walk st.links.prev .head
          (fun b => (st.buf b).refcnt = 0 ∧ (st.buf b).flags &&& B_DIRTY = 0) (NBUF + 1)
          (st.links.prev .head) with
      | none => .error .lost
      | some (some b) =>
          let st := st.setBuf b { st.buf b with
            dev := dev, blockno := blockno, flags := 0, refcnt := 1 }
          .ok (st.setCall p (.bget b))
      | some none => .error .noBuffers

/-- The part of `brelse` under `bcache.lock`. -/
def brelse (st : Bcache ι) (b : Node) : Bcache ι :=
  let st := st.setBuf b { st.buf b with refcnt := (st.buf b).refcnt - 1 }
  if (st.buf b).refcnt = 0 then
    { st with links := (st.links.unlink b).pushFront .head b }
  else st

def step (st : Bcache ι) : Event ι → Except Stop (Bcache ι)
  | .bget p dev blockno =>
      match st.call p with
      | .idle => st.bget p dev blockno
      | _ => .error .notTaken
  | .acquiresleep p =>
      match st.call p with
      | .bget b =>
          if (st.buf b).lock = none then
            .ok ((st.setBuf b { st.buf b with lock := some p }).setCall p .idle)
          else .error .notTaken
      | _ => .error .notTaken
  | .setFlags p b flags =>
      if (st.buf b).lock = some p then .ok (st.setBuf b { st.buf b with flags := flags })
      else .error .notTaken
  | .releasesleep p b =>
      match st.call p with
      | .idle =>
          if (st.buf b).lock = some p then
            .ok ((st.setBuf b { st.buf b with lock := none }).setCall p (.brelse b))
          else .error .notTaken
      | _ => .error .notTaken
  | .brelse p =>
      match st.call p with
      | .brelse b => .ok ((st.brelse b).setCall p .idle)
      | _ => .error .notTaken

def run (st : Bcache ι) : List (Event ι) → Except Stop (Bcache ι)
  | [] => .ok st
  | e :: es => do
      let st ← st.step e
      st.run es

end Bcache

/-- The links that `binit` makes, whatever they were. -/
def binit (d : Dlist Node) : Dlist Node :=
  (List.finRange NBUF).foldl (fun d i => d.pushFront .head (.buf i)) (d.alone .head)

/-- A buffer before it is used. -/
def Buf.zero {ι : Type} : Buf ι :=
  { flags := 0, dev := 0, blockno := 0, lock := none, refcnt := 0 }

/-- The cache after `binit`. -/
def boot {ι : Type} (d : Dlist Node) : Bcache ι :=
  { buf := fun _ => Buf.zero, links := binit d, call := fun _ => .idle }

/-! ## The invariant -/

/-- The buffer that a process counts for without its lock. -/
def Call.refs : Call → List Node
  | .idle => []
  | .bget b => [b]
  | .brelse b => [b]

/-- 1 for a buffer whose lock is held. -/
def Buf.held {ι : Type} (b : Buf ι) : Nat := b.lock.toList.length

namespace Bcache

variable {ι : Type} [Fintype ι]

structure Inv (st : Bcache ι) : Prop where
  circle : ∃ l, (∀ b, b ≠ .head → b ∈ l) ∧ st.links.Circle .head l
  head : st.buf .head = Buf.zero
  unique : ∀ a b, 1 ≤ (st.buf a).dev → (st.buf a).label = (st.buf b).label → a = b
  refcnt : ∀ b, (st.buf b).refcnt = (st.buf b).held + named (fun p => (st.call p).refs) b

variable {st st' : Bcache ι} {p : ι} {b : Node} {x : Buf ι} {c : Call}

/-- A node that is counted is not the head. -/
theorem Inv.ne_head (h : st.Inv) (hb : 0 < (st.buf b).refcnt) : b ≠ .head := by
  rintro rfl
  rw [h.head] at hb
  exact Nat.lt_irrefl 0 hb

theorem Inv.refcnt_pos (h : st.Inv) (hb : b ∈ (st.call p).refs) : 0 < (st.buf b).refcnt := by
  rw [h.refcnt b]
  exact Nat.add_pos_right _ (named_pos.2 ⟨p, hb⟩)

theorem Inv.ne_head_of_lock (h : st.Inv) (hb : (st.buf b).lock = some p) : b ≠ .head := by
  apply h.ne_head
  rw [h.refcnt b, Buf.held, hb]
  exact Nat.add_pos_left Nat.one_pos _

variable [DecidableEq ι]

/-- One buffer changes, and where one process is. The label stays, or is of no
other buffer, and the count is right again. -/
theorem Inv.change (h : st.Inv) (hb : b ≠ .head)
    (hlabel : x.label = (st.buf b).label ∨ ∀ a, 1 ≤ x.dev → (st.buf a).label ≠ x.label)
    (hrefs : ∀ a, a ≠ b → c.refs.count a = (st.call p).refs.count a)
    (hcount : x.refcnt + (st.buf b).held + (st.call p).refs.count b
      = (st.buf b).refcnt + x.held + c.refs.count b) :
    ((st.setBuf b x).setCall p c).Inv := by
  refine ⟨h.circle, ?_, fun a a' hdev heq => ?_, fun a => ?_⟩
  · rw [setCall_setBuf_buf, Function.update_of_ne (Ne.symm hb)]
    exact h.head
  · rw [setCall_setBuf_buf] at hdev heq
    have hnew : ∀ a, a ≠ b → 1 ≤ x.dev → (st.buf a).label = x.label → a = b := by
      intro a _ hdev heq
      rcases hlabel with hsame | hfresh
      · rw [hsame] at heq
        have hdev' : 1 ≤ (st.buf a).dev := by
          rw [Buf.dev_eq heq, ← Buf.dev_eq hsame]
          exact hdev
        exact h.unique a b hdev' heq
      · exact absurd heq (hfresh a hdev)
    by_cases hab : a = b
    · by_cases hab' : a' = b
      · rw [hab, hab']
      · rw [hab, Function.update_self] at hdev heq
        rw [Function.update_of_ne hab'] at heq
        rw [hab, hnew a' hab' hdev heq.symm]
    · rw [Function.update_of_ne hab] at hdev heq
      by_cases hab' : a' = b
      · rw [hab', Function.update_self] at heq
        rw [Buf.dev_eq heq] at hdev
        rw [hab', hnew a hab hdev heq]
      · rw [Function.update_of_ne hab'] at heq
        exact h.unique a a' hdev heq
  · have hoff := named_update Call.refs st.call p c a
    have hold := h.refcnt a
    rw [setCall_setBuf_buf]
    change _ = _ + named (fun q => (Function.update st.call p c q).refs) a
    by_cases hab : a = b
    · subst hab
      rw [Function.update_self]
      omega
    · rw [Function.update_of_ne hab, hold]
      have := hrefs a hab
      omega

omit [DecidableEq ι] in
theorem count_singleton_ne {a b : Node} (hab : a ≠ b) : [b].count a = 0 :=
  List.count_eq_zero_of_not_mem fun hmem => hab (List.mem_singleton.1 hmem)

/-- The label of a buffer in use is kept. -/
def Keeps (st st' : Bcache ι) : Prop :=
  ∀ b, (st.buf b).InUse → (st'.buf b).label = (st.buf b).label

omit [Fintype ι] in
theorem keeps_change (hlabel : x.label = (st.buf b).label ∨ ¬(st.buf b).InUse) :
    st.Keeps ((st.setBuf b x).setCall p c) := by
  intro a huse
  rw [setCall_setBuf_buf]
  by_cases hab : a = b
  · rw [hab] at huse
    rw [hab, Function.update_self]
    exact hlabel.resolve_right fun hnot => hnot huse
  · rw [Function.update_of_ne hab]

/-- How a step may fail: not taken, or there is no buffer to recycle. -/
def MayStop (st : Bcache ι) : Stop → Prop
  | .notTaken => True
  | .noBuffers => ∀ b, b ≠ .head → (st.buf b).InUse
  | .lost => False

theorem bget_spec (h : st.Inv) (hidle : st.call p = .idle) (dev blockno : UInt32) :
    Ends st.MayStop (st.bget p dev blockno) fun st' => st'.Inv ∧ st.Keeps st' := by
  obtain ⟨l, hall, hcircle⟩ := h.circle
  have hlength : l.length < NBUF + 1 := hcircle.nodup.length_le_card
  have hmem : ∀ {b}, b ∈ l → b ≠ .head := by
    rintro b hb rfl
    exact (List.nodup_cons.1 hcircle.nodup).1 hb
  have hnone : ∀ {a b : Node}, a ≠ b →
      (Call.bget b).refs.count a = (st.call p).refs.count a := by
    intro a b hab
    rw [hidle]
    exact count_singleton_ne hab
  unfold bget
  rw [hcircle.walk_next _ hlength]
  cases hfind : l.find? fun b => (st.buf b).dev = dev ∧ (st.buf b).blockno = blockno with
  | some b =>
      have hb := hmem (List.mem_of_find?_eq_some hfind)
      refine ⟨h.change hb (Or.inl rfl) (fun a hab => hnone hab) ?_, keeps_change (Or.inl rfl)⟩
      rw [hidle]
      change (st.buf b).refcnt + 1 + (st.buf b).held + 0
        = (st.buf b).refcnt + (st.buf b).held + [b].count b
      rw [List.count_singleton_self]
      omega
  | none =>
      simp only
      rw [hcircle.walk_prev _ hlength]
      cases hfree : l.reverse.find? fun b =>
          (st.buf b).refcnt = 0 ∧ (st.buf b).flags &&& B_DIRTY = 0 with
      | none =>
          intro b hb hfree'
          have := List.find?_eq_none.1 hfree b (List.mem_reverse.2 (hall b hb))
          exact this (decide_eq_true hfree')
      | some b =>
          have hb := hmem (List.mem_reverse.1 (List.mem_of_find?_eq_some hfree))
          have hfree' : (st.buf b).refcnt = 0 ∧ (st.buf b).flags &&& B_DIRTY = 0 := by
            have := List.find?_some hfree
            simpa using this
          refine ⟨h.change hb (Or.inr fun a hdev heq => ?_) (fun a hab => hnone hab) ?_,
            keeps_change (Or.inr fun huse => huse hfree')⟩
          · -- the first search has seen all labels but that of the head
            have hlabel : (st.buf a).dev = dev ∧ (st.buf a).blockno = blockno :=
              Prod.mk.inj heq
            by_cases ha : a = .head
            · rw [ha, h.head] at hlabel
              change 1 ≤ dev at hdev
              rw [← hlabel.1] at hdev
              exact absurd hdev (show ¬(1 : UInt32) ≤ 0 by decide)
            · have := List.find?_eq_none.1 hfind a (hall a ha)
              exact this (decide_eq_true hlabel)
          · rw [hidle]
            change 1 + (st.buf b).held + 0 = (st.buf b).refcnt + (st.buf b).held + [b].count b
            rw [List.count_singleton_self, hfree'.1]
            omega

omit [Fintype ι] in
theorem setCall_self (st : Bcache ι) (p : ι) : st.setCall p (st.call p) = st := by
  unfold setCall
  rw [Function.update_eq_self]

omit [DecidableEq ι] in
theorem Inv.links (h : st.Inv) {d : Dlist Node} {l : List Node}
    (hall : ∀ b, b ≠ .head → b ∈ l) (hd : d.Circle .head l) :
    ({ st with links := d } : Bcache ι).Inv :=
  ⟨⟨l, hall, hd⟩, h.head, h.unique, h.refcnt⟩

theorem brelse_spec (h : st.Inv) (hcall : st.call p = .brelse b) :
    ((st.brelse b).setCall p .idle).Inv ∧ st.Keeps ((st.brelse b).setCall p .idle) := by
  have hpos : 0 < (st.buf b).refcnt := by
    apply h.refcnt_pos (p := p)
    rw [hcall]
    exact List.mem_singleton_self b
  have hb := h.ne_head hpos
  have hinv : ((st.setBuf b { st.buf b with refcnt := (st.buf b).refcnt - 1 }).setCall p
      .idle).Inv := by
    refine h.change hb (Or.inl rfl) (fun a hab => ?_) ?_
    · rw [hcall]
      exact (count_singleton_ne hab).symm
    · rw [hcall]
      change (st.buf b).refcnt - 1 + (st.buf b).held + [b].count b
        = (st.buf b).refcnt + (st.buf b).held + 0
      rw [List.count_singleton_self]
      omega
  have hkeeps : st.Keeps ((st.setBuf b { st.buf b with
      refcnt := (st.buf b).refcnt - 1 }).setCall p .idle) := keeps_change (Or.inl rfl)
  unfold brelse
  simp only
  split
  · obtain ⟨l, hall, hcircle⟩ := h.circle
    obtain ⟨s, t, rfl⟩ := List.append_of_mem (hall b hb)
    refine ⟨hinv.links (fun a ha => ?_) hcircle.moveFront, hkeeps⟩
    have := hall a ha
    simp only [List.mem_append, List.mem_cons] at this ⊢
    tauto
  · exact ⟨hinv, hkeeps⟩

theorem acquiresleep_spec (h : st.Inv) (hcall : st.call p = .bget b)
    (hlock : (st.buf b).lock = none) :
    ((st.setBuf b { st.buf b with lock := some p }).setCall p .idle).Inv := by
  have hpos : 0 < (st.buf b).refcnt := by
    apply h.refcnt_pos (p := p)
    rw [hcall]
    exact List.mem_singleton_self b
  refine h.change (h.ne_head hpos) (Or.inl rfl) (fun a hab => ?_) ?_
  · rw [hcall]
    exact (count_singleton_ne hab).symm
  · rw [hcall, Buf.held, hlock]
    change (st.buf b).refcnt + 0 + [b].count b = (st.buf b).refcnt + 1 + 0
    rw [List.count_singleton_self]

theorem releasesleep_spec (h : st.Inv) (hcall : st.call p = .idle)
    (hlock : (st.buf b).lock = some p) :
    ((st.setBuf b { st.buf b with lock := none }).setCall p (.brelse b)).Inv := by
  refine h.change (h.ne_head_of_lock hlock) (Or.inl rfl) (fun a hab => ?_) ?_
  · rw [hcall]
    exact count_singleton_ne hab
  · rw [hcall, Buf.held, hlock]
    change (st.buf b).refcnt + 1 + 0 = (st.buf b).refcnt + 0 + [b].count b
    rw [List.count_singleton_self]

/-- **Step lemma** for the buffer cache. -/
theorem step_spec (h : st.Inv) (e : Event ι) :
    Ends st.MayStop (st.step e) fun st' => st'.Inv ∧ st.Keeps st' := by
  cases e with
  | bget p dev blockno =>
      simp only [step]
      cases hcall : st.call p with
      | idle => exact bget_spec h hcall dev blockno
      | bget b => trivial
      | brelse b => trivial
  | acquiresleep p =>
      simp only [step]
      cases hcall : st.call p with
      | idle => trivial
      | brelse b => trivial
      | bget b =>
          simp only
          split
          · rename_i hlock
            exact ⟨acquiresleep_spec h hcall hlock, keeps_change (Or.inl rfl)⟩
          · trivial
  | setFlags p b flags =>
      simp only [step]
      split
      · rename_i hlock
        -- the call of the process is the one that it was in
        have hinv := h.change (p := p) (c := st.call p) (x := { st.buf b with flags := flags })
          (h.ne_head_of_lock hlock) (Or.inl rfl) (fun _ _ => rfl) rfl
        have hkeeps : st.Keeps ((st.setBuf b { st.buf b with flags := flags }).setCall p
          (st.call p)) := keeps_change (Or.inl rfl)
        have hself := setCall_self (st.setBuf b { st.buf b with flags := flags }) p
        change (st.setBuf b _).setCall p (st.call p) = _ at hself
        rw [hself] at hinv hkeeps
        exact ⟨hinv, hkeeps⟩
      · trivial
  | releasesleep p b =>
      simp only [step]
      cases hcall : st.call p with
      | bget b' => trivial
      | brelse b' => trivial
      | idle =>
          simp only
          split
          · rename_i hlock
            exact ⟨releasesleep_spec h hcall hlock, keeps_change (Or.inl rfl)⟩
          · trivial
  | brelse p =>
      simp only [step]
      cases hcall : st.call p with
      | idle => trivial
      | bget b => trivial
      | brelse b => exact brelse_spec h hcall

theorem run_inv (h : st.Inv) (es : List (Event ι)) :
    Ends (fun e => e ≠ .lost) (st.run es) Inv := by
  induction es generalizing st with
  | nil => exact h
  | cons e es ih =>
      have hstep := step_spec h e
      rw [run]
      cases hok : st.step e with
      | error e' =>
          rw [hok] at hstep
          rintro rfl
          exact hstep
      | ok st' =>
          rw [hok] at hstep
          exact ih hstep.1

end Bcache

/-! ## The law -/

/-- The nodes in the order in which `binit` leaves them. -/
theorem circle_binit (d : Dlist Node) :
    (binit d).Circle .head ((List.finRange NBUF).map Node.buf).reverse := by
  have hnodup : ((Node.head :: ((List.finRange NBUF).map Node.buf ++ [])).Nodup) := by
    decide +kernel
  have := (Dlist.circle_alone d Node.head).pushFronts _ hnodup
  rw [List.foldl_map, List.append_nil] at this
  exact this

theorem boot_inv {ι : Type} [Fintype ι] (d : Dlist Node) :
    (boot d : Bcache ι).Inv := by
  refine ⟨⟨_, fun b hb => ?_, circle_binit d⟩, rfl, fun a b hdev => ?_, fun b => ?_⟩
  · cases b with
    | head => exact absurd rfl hb
    | buf i => exact List.mem_reverse.2 (List.mem_map_of_mem (List.mem_finRange i))
  · exact absurd hdev (show ¬(1 : UInt32) ≤ 0 by decide)
  · have hnone : named (fun _ : ι => ([] : List Node)) b = 0 :=
      named_eq_zero.2 fun p => List.not_mem_nil
    change 0 = 0 + named (fun _ : ι => ([] : List Node)) b
    rw [hnone]

namespace Bcache

variable {ι : Type} [Fintype ι]

/-- The processes that hold a buffer: its lock, or what is left of `brelse`. -/
def holders (st : Bcache ι) (b : Node) : Nat :=
  (st.buf b).held + (Finset.univ.filter fun p => st.call p = .brelse b).card

/-- The processes that wait for the lock of a buffer. -/
def waiters (st : Bcache ι) (b : Node) : Nat :=
  (Finset.univ.filter fun p => st.call p = .bget b).card

theorem Inv.refcnt_eq {st : Bcache ι} (h : st.Inv) (b : Node) :
    (st.buf b).refcnt = st.holders b + st.waiters b := by
  rw [h.refcnt b, holders, waiters, Nat.add_assoc, Finset.card_filter, Finset.card_filter,
    ← Finset.sum_add_distrib]
  congr 1
  apply Finset.sum_congr rfl
  intro p _
  change (st.call p).refs.count b = _
  cases st.call p with
  | idle => simp only [Call.refs, List.count_nil, reduceCtorEq, if_false]
  | bget a =>
      simp only [Call.refs, List.count_singleton, beq_iff_eq, reduceCtorEq, if_false,
        Call.bget.injEq, Nat.zero_add]
  | brelse a =>
      simp only [Call.refs, List.count_singleton, beq_iff_eq, reduceCtorEq, if_false,
        Call.brelse.injEq, Nat.add_zero]

end Bcache

/-- **The buffer cache**, after any run. A search always ends, and `bget` fails
only if all buffers are in use. No two buffers have the label of one block. The
links are one list around the head in both directions, with every buffer once.
`refcnt` is the number of holders and waiters. No step changes the label of a
buffer that is held, waited for or dirty. -/
theorem bcache_kept {ι : Type} [Fintype ι] [DecidableEq ι] (d : Dlist Node)
    (es : List (Event ι)) :
    Ends (fun e => e ≠ .lost) ((boot d).run es) fun st =>
      (∀ i j, 1 ≤ (st.buf (.buf i)).dev →
        (st.buf (.buf i)).label = (st.buf (.buf j)).label → i = j)
      ∧ (∃ l, (∀ i, .buf i ∈ l) ∧ st.links.Circle .head l)
      ∧ (∀ i, (st.buf (.buf i)).refcnt = st.holders (.buf i) + st.waiters (.buf i))
      ∧ ∀ e, Ends st.MayStop (st.step e) st.Keeps := by
  apply (Bcache.run_inv (boot_inv d) es).mono
  intro st h
  refine ⟨fun i j hdev heq => ?_, ?_, fun i => h.refcnt_eq _, fun e => ?_⟩
  · exact Node.buf.inj (h.unique _ _ hdev heq)
  · obtain ⟨l, hall, hcircle⟩ := h.circle
    exact ⟨l, fun i => hall (.buf i) nofun, hcircle⟩
  · exact (Bcache.step_spec h e).mono fun _ hst => hst.2

end SchoolStuff.Xv6.Bio
