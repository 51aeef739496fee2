import Mathlib.Data.List.Dedup
import Mathlib.Data.List.DropRight

/-!
# Recency — least-recently-used order over an access history

A history lists accesses oldest first. `mru w h` is what a cache of `w`
entries must hold after `h` under exact LRU replacement: the `w` most
recently used distinct entries, least recent first. `touch w` is one
step of the queue that realises it; `mru_append` ties the two, so a
client only ever compares its own data structure with one `touch`.
-/

namespace SchoolStuff.Recency

variable {α : Type*}

/-! ## Counting accesses -/

/-- How many accesses of `h` satisfy `p`, each judged on the history
before it and the entry it accesses. -/
def tally (p : List α → α → Bool) (h : List α) : Nat :=
  (List.range h.length).countP fun k => h[k]?.any (p (h.take k))

/-- The last access is judged on everything before it. -/
theorem tally_append (p : List α → α → Bool) (h : List α) (a : α) :
    tally p (h ++ [a]) = tally p h + (if p h a then 1 else 0) := by
  have hold : ∀ k ∈ List.range h.length,
      ((h ++ [a])[k]?.any (p ((h ++ [a]).take k)) = true
        ↔ h[k]?.any (p (h.take k)) = true) := by
    intro k hk
    have hk' : k < h.length := List.mem_range.mp hk
    rw [List.getElem?_append_left hk', List.take_append_of_le_length (by omega)]
  rw [tally, List.length_append, List.length_singleton, List.range_succ,
    List.countP_append, List.countP_congr hold]
  simp [tally, List.countP_cons]

/-- A test that is stricter on every access counts no more of them. -/
theorem tally_mono {p q : List α → α → Bool} {h : List α}
    (hpq : ∀ pre, ∀ a ∈ h, p pre a = true → q pre a = true) :
    tally p h ≤ tally q h := by
  apply List.countP_mono_left
  intro k _ hk
  cases ha : h[k]? with
  | none => simp [ha] at hk
  | some a =>
      rw [ha, Option.any_some] at hk
      exact hpq _ a (List.mem_of_getElem? ha) hk

/-! ## The recency window -/

variable [DecidableEq α]

/-- The `w` most recently used distinct entries of the history `h`
(oldest access first), in least-to-most-recent order. -/
def mru (w : Nat) (h : List α) : List α :=
  h.dedup.rtake w

/-- One access of an LRU queue of at most `w` entries: a resident entry
moves to the back, a new one is appended after the front entry of a full
queue is dropped. -/
def touch (w : Nat) (q : List α) (a : α) : List α :=
  if a ∈ q then q.erase a ++ [a]
  else (if q.length < w then q else q.tail) ++ [a]

/-- Accessing `a` last moves it to the back of the recency order. -/
theorem dedup_append_singleton (h : List α) (a : α) :
    (h ++ [a]).dedup = h.dedup.erase a ++ [a] := by
  induction h with
  | nil => simp
  | cons x t ih =>
      -- `dedup` keeps the last copy, so the cases are where `x` occurs again
      by_cases hxt : x ∈ t
      · rw [List.cons_append, List.dedup_cons_of_mem (by simp [hxt]), ih,
          List.dedup_cons_of_mem hxt]
      · rw [List.dedup_cons_of_notMem hxt]
        by_cases hxa : x = a
        · subst hxa
          rw [List.cons_append, List.dedup_cons_of_mem (by simp), ih,
            List.erase_cons_head, List.erase_of_not_mem (by simpa using hxt)]
        · rw [List.cons_append, List.dedup_cons_of_notMem (by simp [hxt, hxa]),
            ih, List.erase_cons_tail (by simpa using hxa), List.cons_append]

@[simp] theorem mru_nil (w : Nat) : mru w ([] : List α) = [] := by
  simp [mru]

theorem mru_singleton {w : Nat} (hw : 0 < w) (a : α) : mru w [a] = [a] := by
  have hdrop : 1 - w = 0 := by omega
  simp [mru, List.rtake, hdrop]

theorem mru_nodup (w : Nat) (h : List α) : (mru w h).Nodup :=
  (List.nodup_dedup h).sublist (List.drop_sublist _ _)

theorem mru_subset {w : Nat} {h : List α} {a : α} (ha : a ∈ mru w h) :
    a ∈ h :=
  List.mem_dedup.mp (List.mem_of_mem_drop ha)

theorem mru_length (w : Nat) (h : List α) :
    (mru w h).length = min w h.dedup.length := by
  simp only [mru, List.rtake, List.length_drop]
  omega

theorem mru_length_le (w : Nat) (h : List α) : (mru w h).length ≤ w := by
  rw [mru_length]
  exact Nat.min_le_left _ _

/-- A larger window has what a smaller one has. -/
theorem mru_mono {w w' : Nat} (hw : w ≤ w') (h : List α) : mru w h ⊆ mru w' h :=
  List.drop_subset_drop_left h.dedup (Nat.sub_le_sub_left hw _)

/-- The recency order splits into the entries that fell out of the window
and the window itself. -/
theorem dedup_split (w : Nat) (h : List α) :
    ∃ old : List α, h.dedup = old ++ mru w h
      ∧ old.length = h.dedup.length - w := by
  refine ⟨h.dedup.take (h.dedup.length - w), ?_, ?_⟩
  · exact (List.take_append_drop _ _).symm
  · rw [List.length_take]
    omega

/-! ## One access -/

/-- **One access of the window is one `touch`.** -/
theorem mru_append {w : Nat} (hw : 0 < w) (h : List α) (a : α) :
    mru w (h ++ [a]) = touch w (mru w h) a := by
  obtain ⟨old, hsplit, hold⟩ := dedup_split w h
  have hnd : (old ++ mru w h).Nodup := hsplit ▸ List.nodup_dedup h
  have hlen := mru_length w h
  have hmru : mru w (h ++ [a])
      = (h.dedup.erase a ++ [a]).drop ((h.dedup.erase a).length + 1 - w) := by
    rw [mru, dedup_append_singleton, List.rtake]
    simp
  have hdl : h.dedup.length = old.length + (mru w h).length := by
    rw [hsplit, List.length_append]
  rw [hmru, touch]
  by_cases ha : a ∈ mru w h
  · -- a hit: the erased entry lies inside the window
    have hnot : a ∉ old := fun hao =>
      (List.nodup_append.mp hnd).2.2 a hao a ha rfl
    rw [if_pos ha, hsplit, List.erase_append_right _ hnot, List.append_assoc]
    have hpos : 0 < (mru w h).length := List.length_pos_of_mem ha
    rw [List.length_append, List.length_erase_of_mem ha,
      show old.length + ((mru w h).length - 1) + 1 - w = old.length from by omega,
      List.drop_left]
  · rw [if_neg ha]
    by_cases hroom : (mru w h).length < w
    · -- a miss with room left: nothing has fallen out of the window yet
      have hold0 : old = [] := List.length_eq_zero_iff.mp (by omega)
      subst hold0
      rw [List.nil_append] at hsplit
      rw [if_pos hroom, hsplit, List.erase_of_not_mem ha,
        show (mru w h).length + 1 - w = 0 from by omega, List.drop_zero]
    · -- a miss in a full window: the front entry falls out
      rw [if_neg hroom]
      obtain ⟨b, m, hm⟩ := List.exists_cons_of_length_pos
        (show 0 < (mru w h).length from by omega)
      have hwl : (mru w h).length = w := by omega
      by_cases hao : a ∈ old
      · have hop : 0 < old.length := List.length_pos_of_mem hao
        rw [hsplit, List.erase_append_left _ hao, List.append_assoc,
          List.length_append, List.length_erase_of_mem hao, hwl,
          show old.length - 1 + w + 1 - w = (old.erase a).length + 1 from by
            rw [List.length_erase_of_mem hao]; omega,
          List.drop_length_add_append, hm]
        simp
      · have hno : a ∉ old ++ mru w h := by simp [hao, ha]
        rw [hsplit, List.erase_of_not_mem hno, List.append_assoc,
          List.length_append, hwl,
          show old.length + w + 1 - w = old.length + 1 from by omega,
          List.drop_length_add_append, hm]
        simp

/-- An entry accessed once before everything else only occupies the place
of the oldest entry. -/
theorem mem_mru_cons {w : Nat} {x b : α} {h : List α} (hx : x ∉ h)
    (hb : b ≠ x) : b ∈ mru w (x :: h) ↔ b ∈ mru w h := by
  rw [mru, mru, List.dedup_cons_of_notMem hx, List.rtake, List.rtake,
    List.length_cons]
  by_cases hlen : h.dedup.length < w
  · rw [show h.dedup.length + 1 - w = 0 from by omega,
      show h.dedup.length - w = 0 from by omega]
    simp [hb]
  · rw [show h.dedup.length + 1 - w = (h.dedup.length - w) + 1 from by omega,
      List.drop_succ_cons]

end SchoolStuff.Recency
