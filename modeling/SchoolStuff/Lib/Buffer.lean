import Mathlib.Tactic.Common

/-!
# Buffer — allocated arrays, entry by entry

What `malloc` returns holds nothing that may be read: an entry is `none`
until it is written. A write outside of the array and a read of an entry
that was not written have no result. `Upto P b size n` is the state of a
loop that fills an array from its start, and `Ready P b k` is what the
reader of a list with a terminator relies on.
-/

namespace SchoolStuff

/-- An array whose entries may be uninitialised. -/
abbrev Buffer (α : Type*) := List (Option α)

namespace Buffer

variable {α : Type*} {P : α → Prop} {b : Buffer α} {size n k : Nat}

def alloc (n : Nat) : Buffer α := List.replicate n none

def read (b : Buffer α) (i : Nat) : Option α := b[i]?.getD none

def write (b : Buffer α) (i : Nat) (a : α) : Option (Buffer α) :=
  if i < b.length then some (b.set i (some a)) else none

/-- What a write inside of the array does. -/
theorem write_spec {i : Nat} (h : i < b.length) (a : α) :
    ∃ b', b.write i a = some b' ∧ b'.length = b.length ∧ b'.read i = some a
      ∧ ∀ j, j ≠ i → b'.read j = b.read j := by
  refine ⟨b.set i (some a), if_pos h, List.length_set, ?_, fun j hj => ?_⟩
  · rw [read, List.getElem?_set_self h]
    rfl
  · rw [read, List.getElem?_set_ne (Ne.symm hj)]
    rfl

theorem write_lt {i : Nat} {a : α} {b' : Buffer α}
    (h : b.write i a = some b') : i < b.length := by
  by_contra hge
  rw [write, if_neg hge] at h
  cases h

theorem length_write {i : Nat} {a : α} {b' : Buffer α}
    (h : b.write i a = some b') : b'.length = b.length := by
  rw [write] at h
  split at h
  · exact Option.some.inj h ▸ List.length_set
  · cases h

theorem read_lt {i : Nat} {a : α} (h : b.read i = some a) : i < b.length := by
  by_contra hi
  rw [read, List.getElem?_eq_none (Nat.not_lt.mp hi)] at h
  cases h

/-- Of `size` entries, the first `n` are written, with values of `P`, and the
others are not. -/
structure Upto (P : α → Prop) (b : Buffer α) (size n : Nat) : Prop where
  length : b.length = size
  filled : ∀ i < n, ∃ a, b.read i = some a ∧ P a
  fresh : ∀ i, n ≤ i → b.read i = none

theorem upto_alloc (P : α → Prop) (size : Nat) :
    Upto P (alloc size) size 0 where
  length := List.length_replicate
  filled := fun i hi => absurd hi (Nat.not_lt_zero i)
  fresh := fun i _ => by
    rw [read, alloc, List.getElem?_replicate]
    split <;> rfl

theorem Upto.write (h : Upto P b size n) (hn : n < size) {a : α} (ha : P a) :
    ∃ b', b.write n a = some b' ∧ Upto P b' size (n + 1) := by
  obtain ⟨b', hwrite, hlen, hself, hother⟩ := write_spec (h.length.symm ▸ hn) a
  refine ⟨b', hwrite, hlen.trans h.length, fun i hi => ?_, fun i hi => ?_⟩
  · by_cases heq : i = n
    · exact ⟨a, heq ▸ hself, ha⟩
    · rw [hother i heq]
      exact h.filled i (by omega)
  · rw [hother i (by omega)]
    exact h.fresh i (by omega)

variable {stop : α}

/-- The first `k` entries hold values of `P`, and the next one is `stop`. -/
structure Ready (P : α → Prop) (stop : α) (b : Buffer α) (k : Nat) : Prop where
  filled : ∀ i < k, ∃ a, b.read i = some a ∧ P a
  stop : b.read k = some stop

/-- The terminator is written right after the entries that are filled. -/
theorem Upto.terminate (h : Upto P b size n) (hn : n < size) (stop : α) :
    ∃ b', b.write n stop = some b' ∧ Ready P stop b' n := by
  obtain ⟨b', hwrite, -, hself, hother⟩ := write_spec (h.length.symm ▸ hn) stop
  refine ⟨b', hwrite, fun i hi => ?_, hself⟩
  rw [hother i (Nat.ne_of_lt hi)]
  exact h.filled i hi

/-- A terminator written elsewhere leaves the list without one. -/
theorem Upto.not_ready (h : Upto P b size n) {i : Nat} (hi : i ≠ n)
    {b' : Buffer α} (hwrite : b.write i stop = some b') :
    ¬ Ready P stop b' n := by
  intro hready
  have hlt : i < b.length := write_lt hwrite
  obtain ⟨b'', hwrite', -, -, hother⟩ := write_spec hlt stop
  rw [hwrite, Option.some.injEq] at hwrite'
  have hstop := hready.stop
  rw [hwrite', hother n (Ne.symm hi), h.fresh n (Nat.le_refl n)] at hstop
  cases hstop

/-! ## Reading up to the terminator -/

/-- The entries before the first `stop`. -/
def upTo [DecidableEq α] (stop : α) : Buffer α → Option (List α)
  | [] => none
  | none :: _ => none
  | some a :: b => if a = stop then some [] else (upTo stop b).map (a :: ·)

theorem Ready.upTo [DecidableEq α] (hP : ∀ a, P a → a ≠ stop)
    (h : Ready P stop b k) :
    ∃ as, b.upTo stop = some as ∧ as.length = k ∧ ∀ a ∈ as, P a := by
  induction b generalizing k with
  | nil => exact absurd h.stop (by simp [read])
  | cons a b ih =>
      cases k with
      | zero =>
          obtain rfl : a = some stop := by simpa [read] using h.stop
          exact ⟨[], if_pos rfl, rfl, by simp⟩
      | succ k =>
          obtain ⟨a', ha', hPa⟩ := h.filled 0 (by omega)
          obtain rfl : a = some a' := by simpa [read] using ha'
          have hready : Ready P stop b k :=
            ⟨fun i hi => h.filled (i + 1) (by omega), h.stop⟩
          obtain ⟨as, hupTo, hlen, hall⟩ := ih hready
          refine ⟨a' :: as, ?_, congrArg (· + 1) hlen,
            List.forall_mem_cons.mpr ⟨hPa, hall⟩⟩
          rw [Buffer.upTo, if_neg (hP a' hPa), hupTo]
          rfl

end Buffer

end SchoolStuff
