import Mathlib.Data.List.Induction
import SchoolStuff.Lib.Recency

/-!
# WriteBack — write-back, write-allocate LRU caches

A cache maps every class of blocks to a set of at most `k` resident
blocks, each with a dirty bit, least recently used first. An access is a
block and whether it is a write. `keys_run` and `misses_run` say what the
machine is for: its sets are the recency windows of the history, and its
misses are the accesses to blocks outside of them.
-/

namespace SchoolStuff.WriteBack

open Recency

variable {α ι : Type*}

/-! ## One set -/

def keys (es : List (α × Bool)) : List α := es.map Prod.fst

@[simp] theorem keys_append (es es' : List (α × Bool)) :
    keys (es ++ es') = keys es ++ keys es' := by
  simp [keys]

@[simp] theorem keys_singleton (e : α × Bool) : keys [e] = [e.1] := rfl

variable [DecidableEq α]

def isDirty (es : List (α × Bool)) (a : α) : Bool :=
  es.any fun e => decide (e.1 = a) && e.2

/-- One access of a set of at most `k` blocks: a resident block becomes
the most recent one, another one replaces the least recent of a full set. -/
def touchSet (k : Nat) (es : List (α × Bool)) (a : α) (w : Bool) :
    List (α × Bool) :=
  if a ∈ keys es then
    es.filter (fun e => decide (e.1 ≠ a)) ++ [(a, isDirty es a || w)]
  else (if es.length < k then es else es.tail) ++ [(a, w)]

/-- A new block would displace a dirty one. -/
def evictsDirty (k : Nat) (es : List (α × Bool)) : Bool :=
  !decide (es.length < k) && es.head?.any Prod.snd

/-- What is resident forgets the dirty bits: it is the recency queue. -/
theorem keys_touchSet {k : Nat} {es : List (α × Bool)} (hnd : (keys es).Nodup)
    (a : α) (w : Bool) : keys (touchSet k es a w) = touch k (keys es) a := by
  rw [touchSet, touch]
  split
  · have hkeep : es.filter (fun e => decide (e.1 ≠ a))
        = es.filter ((fun x => x != a) ∘ Prod.fst) := by
      apply List.filter_congr
      intro e _
      simp [bne, beq_eq_decide]
    rw [keys_append, keys_singleton, hnd.erase_eq_filter, keys, keys,
      List.filter_map, hkeep]
  · rw [keys_append, keys_singleton]
    have hlen : (keys es).length = es.length := by simp [keys]
    rw [hlen]
    split
    · rfl
    · rw [keys, keys, List.map_tail]

/-- A resident block, and what a hit on it leaves. -/
theorem touchSet_of_split {k : Nat} {es₁ es₂ : List (α × Bool)} {a : α}
    {d : Bool} (hnd : (keys (es₁ ++ (a, d) :: es₂)).Nodup) (w : Bool) :
    touchSet k (es₁ ++ (a, d) :: es₂) a w = es₁ ++ es₂ ++ [(a, d || w)] := by
  have hne : ∀ e, e ∈ es₁ ∨ e ∈ es₂ → e.1 ≠ a := by
    simp only [keys, List.map_append, List.map_cons] at hnd
    obtain ⟨_, hcons, hdis⟩ := List.nodup_append.mp hnd
    rintro e (he | he) rfl
    · exact hdis e.1 (List.mem_map_of_mem he) e.1 List.mem_cons_self rfl
    · exact (List.nodup_cons.mp hcons).1 (List.mem_map_of_mem he)
  have hfilter : ∀ es : List (α × Bool), (∀ e ∈ es, e.1 ≠ a) →
      es.filter (fun e => decide (e.1 ≠ a)) = es := fun es hes =>
    List.filter_eq_self.mpr fun e he => decide_eq_true (hes e he)
  have hany : ∀ es : List (α × Bool), (∀ e ∈ es, e.1 ≠ a) →
      es.any (fun e => decide (e.1 = a) && e.2) = false := by
    intro es hes
    simp only [List.any_eq_false]
    intro e he
    simp [hes e he]
  have hdirty : isDirty (es₁ ++ (a, d) :: es₂) a = d := by
    rw [isDirty, List.any_append, List.any_cons,
      hany es₁ fun e he => hne e (Or.inl he),
      hany es₂ fun e he => hne e (Or.inr he)]
    simp
  rw [touchSet, if_pos (by simp [keys]), hdirty, List.filter_append,
    hfilter es₁ fun e he => hne e (Or.inl he),
    List.filter_cons_of_neg (by simp),
    hfilter es₂ fun e he => hne e (Or.inr he)]

/-! ## The cache -/

structure Cache (α ι : Type*) where
  sets : ι → List (α × Bool)
  misses : Nat
  writes : Nat

def Cache.empty : Cache α ι := ⟨fun _ => [], 0, 0⟩

variable [DecidableEq ι] (cls : α → ι) (k : Nat)

/-- One access. -/
def access (c : Cache α ι) (x : α × Bool) : Cache α ι where
  sets i := if i = cls x.1 then touchSet k (c.sets i) x.1 x.2 else c.sets i
  misses := c.misses + if x.1 ∈ keys (c.sets (cls x.1)) then 0 else 1
  writes := c.writes + if x.1 ∈ keys (c.sets (cls x.1)) then 0
    else if evictsDirty k (c.sets (cls x.1)) then 1 else 0

/-- The cache after a history of accesses. -/
def run (h : List (α × Bool)) : Cache α ι :=
  h.foldl (access cls k) Cache.empty

/-- The blocks of class `i` in a history. -/
def history (i : ι) (h : List α) : List α :=
  h.filter fun a => decide (cls a = i)

/-- The access misses in a cache with the history `h`. -/
def isMiss (h : List α) (a : α) : Bool :=
  !decide (a ∈ mru k (history cls (cls a) h))

omit [DecidableEq α] in
theorem history_append (i : ι) (h : List α) (a : α) :
    history cls i (h ++ [a])
      = if cls a = i then history cls i h ++ [a] else history cls i h := by
  by_cases ha : cls a = i <;> simp [history, ha]

theorem run_append (h : List (α × Bool)) (x : α × Bool) :
    run cls k (h ++ [x]) = access cls k (run cls k h) x := by
  rw [run, List.foldl_append]
  rfl

variable {cls k}

/-- **Every set holds the recency window of its class.** -/
theorem keys_run (hk : 0 < k) (h : List (α × Bool)) (i : ι) :
    keys ((run cls k h).sets i) = mru k (history cls i (keys h)) := by
  induction h using List.reverseRecOn with
  | nil => simp [run, Cache.empty, keys, history]
  | append_singleton h x ih =>
      rw [run_append, keys_append, keys_singleton, history_append]
      show keys (if i = cls x.1 then touchSet k ((run cls k h).sets i) x.1 x.2
        else (run cls k h).sets i) = _
      by_cases hx : cls x.1 = i
      · rw [if_pos hx.symm, if_pos hx, mru_append hk, ← ih]
        exact keys_touchSet (ih ▸ mru_nodup k _) x.1 x.2
      · rw [if_neg (Ne.symm hx), if_neg hx, ih]

/-- **The misses are the accesses outside of the window.** -/
theorem misses_run (hk : 0 < k) (h : List (α × Bool)) :
    (run cls k h).misses = tally (isMiss cls k) (keys h) := by
  induction h using List.reverseRecOn with
  | nil => rfl
  | append_singleton h x ih =>
      rw [run_append, keys_append, keys_singleton, tally_append, access, ih,
        keys_run hk]
      by_cases hx : x.1 ∈ mru k (history cls (cls x.1) (keys h)) <;>
        simp [isMiss, hx]

theorem keys_nodup (hk : 0 < k) (h : List (α × Bool)) (i : ι) :
    (keys ((run cls k h).sets i)).Nodup := by
  rw [keys_run hk]
  exact mru_nodup k _

/-- What is resident was accessed, and is in its class. -/
theorem mem_keys_run (hk : 0 < k) {h : List (α × Bool)} {i : ι} {a : α}
    (ha : a ∈ keys ((run cls k h).sets i)) : a ∈ keys h ∧ cls a = i := by
  rw [keys_run hk] at ha
  simpa [history] using mru_subset ha

end SchoolStuff.WriteBack
