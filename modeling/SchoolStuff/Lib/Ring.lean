import Mathlib.Tactic.Common

/-!
# Ring — a stream through a ring of slots

The elements of a stream are put into `cap` slots in turn, and taken out in
turn. While at most `cap` of them are in between, slot `k % cap` has element
`k` (`Holds`). The counters of such a ring may wrap: two of them that are
less than a turn apart are equal if and only if what they count is
(`wrap_eq_iff`).
-/

namespace SchoolStuff.Ring

variable {α : Type*} {cap : Nat} {slot slot' : Nat → α} {puts : List α} {taken : Nat}

/-- The slots have what was put into them and is not taken yet. -/
structure Holds (cap : Nat) (slot : Nat → α) (puts : List α) (taken : Nat) : Prop where
  taken_le : taken ≤ puts.length
  room : puts.length ≤ taken + cap
  kept : ∀ k, taken ≤ k → k < puts.length → puts[k]? = some (slot (k % cap))

theorem Holds.empty (slot : Nat → α) : Holds cap slot [] 0 :=
  ⟨Nat.le_refl 0, Nat.zero_le _, fun _ _ hk => absurd hk (Nat.not_lt_zero _)⟩

/-- Two indices less than a turn apart have different slots. -/
theorem slot_ne {j k : Nat} (hjk : j < k) (hk : k < j + cap) : j % cap ≠ k % cap := by
  intro heq
  have hzero := Nat.sub_mod_eq_zero_of_mod_eq heq.symm
  rw [Nat.mod_eq_of_lt (by omega)] at hzero
  omega

/-- One more element is put, if there is room. -/
theorem Holds.put (h : Holds cap slot puts taken) (hroom : puts.length < taken + cap)
    {x : α} (hself : slot' (puts.length % cap) = x)
    (hother : ∀ k, k % cap ≠ puts.length % cap → slot' (k % cap) = slot (k % cap)) :
    Holds cap slot' (puts ++ [x]) taken := by
  have hle := h.taken_le
  refine ⟨?_, ?_, fun k htaken hk => ?_⟩
  · rw [List.length_append]
    omega
  · rw [List.length_append, List.length_singleton]
    omega
  rw [List.length_append, List.length_singleton] at hk
  rcases Nat.lt_succ_iff_lt_or_eq.1 hk with hlt | rfl
  · rw [List.getElem?_append_left hlt, hother k (slot_ne hlt (by omega)),
      h.kept k htaken hlt]
  · rw [List.getElem?_concat_length, hself]

/-- The next element is taken, if there is one. -/
theorem Holds.take (h : Holds cap slot puts taken) (hlt : taken < puts.length) :
    puts[taken]? = some (slot (taken % cap)) ∧ Holds cap slot puts (taken + 1) := by
  have hroom := h.room
  exact ⟨h.kept taken (Nat.le_refl _) hlt, hlt, by omega,
    fun k htaken hk => h.kept k (by omega) hk⟩

/-- What is in the slots, the oldest element first. -/
def contents (cap : Nat) (slot : Nat → α) (first n : Nat) : List α :=
  (List.range n).map fun k => slot ((first + k) % cap)

theorem length_contents (cap : Nat) (slot : Nat → α) (first n : Nat) :
    (contents cap slot first n).length = n := by
  rw [contents, List.length_map, List.length_range]

theorem Holds.contents_eq (h : Holds cap slot puts taken) :
    contents cap slot taken (puts.length - taken) = puts.drop taken := by
  apply List.ext_getElem?
  intro k
  rw [contents, List.getElem?_map, List.getElem?_drop]
  by_cases hk : k < puts.length - taken
  · rw [List.getElem?_range hk, h.kept (taken + k) (by omega) (by omega)]
    rfl
  · rw [List.getElem?_eq_none (by rw [List.length_range]; omega),
      List.getElem?_eq_none (by omega)]
    rfl

/-- Counters that wrap at `m`. -/
theorem wrap_eq_iff {m a b : Nat} (hab : a ≤ b) (hb : b < a + m) :
    a % m = b % m ↔ a = b := by
  constructor
  · intro heq
    rcases Nat.lt_or_eq_of_le hab with hlt | heq'
    · exact absurd heq (slot_ne hlt hb)
    · exact heq'
  · rintro rfl
    rfl

end SchoolStuff.Ring
