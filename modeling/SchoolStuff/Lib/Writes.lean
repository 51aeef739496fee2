import Mathlib.Logic.Function.Basic
import Mathlib.Tactic.Common

/-!
# Writes — a store under a list of single writes

A store is a function, and `apply` writes a list of cells to it, the first
one first. A cell that is not written keeps what it holds
(`apply_of_not_mem`), and one that is written once holds that
(`apply_of_mem`). `Throughout` is what a stop between two of the writes
cannot break, with a rule for each way to put writes together.
-/

namespace SchoolStuff.Writes

variable {α β : Type*} [DecidableEq α]

/-- The store `d` after the writes `ws`. -/
def apply (d : α → β) (ws : List (α × β)) : α → β :=
  ws.foldl (fun d w => Function.update d w.1 w.2) d

@[simp] theorem apply_nil (d : α → β) : apply d [] = d := rfl

@[simp] theorem apply_cons (d : α → β) (w : α × β) (ws : List (α × β)) :
    apply d (w :: ws) = apply (Function.update d w.1 w.2) ws := rfl

theorem apply_append (d : α → β) (ws vs : List (α × β)) :
    apply d (ws ++ vs) = apply (apply d ws) vs := by
  simp only [apply, List.foldl_append]

/-- A cell that no write is to is unchanged. -/
theorem apply_of_not_mem {ws : List (α × β)} (d : α → β) {a : α}
    (h : a ∉ ws.map Prod.fst) : apply d ws a = d a := by
  induction ws generalizing d with
  | nil => rfl
  | cons w ws ih =>
      simp only [List.map_cons, List.mem_cons, not_or] at h
      rw [apply_cons, ih _ h.2, Function.update_of_ne h.1]

/-- Among writes to different cells, each is the last one to its cell. -/
theorem apply_of_mem {ws : List (α × β)} (hws : (ws.map Prod.fst).Nodup)
    (d : α → β) {w : α × β} (hw : w ∈ ws) : apply d ws w.1 = w.2 := by
  induction ws generalizing d with
  | nil => simp at hw
  | cons v ws ih =>
      rw [List.map_cons, List.nodup_cons] at hws
      rcases List.mem_cons.1 hw with rfl | hw
      · rw [apply_cons, apply_of_not_mem _ hws.1, Function.update_self]
      · exact ih hws.2 _ hw

/-! ## Stops between two writes -/

/-- `P` holds of the store wherever the writes stop. -/
def Throughout (P : (α → β) → Prop) (d : α → β) (ws : List (α × β)) : Prop :=
  ∀ k, P (apply d (ws.take k))

variable {P Q : (α → β) → Prop} {d : α → β} {ws vs : List (α × β)}

theorem Throughout.at_end (h : Throughout P d ws) : P (apply d ws) := by
  have := h ws.length
  rwa [List.take_length] at this

theorem Throughout.nil (h : P d) : Throughout P d ([] : List (α × β)) := by
  intro k
  simpa using h

theorem Throughout.mono (h : Throughout P d ws) (hPQ : ∀ d, P d → Q d) :
    Throughout Q d ws :=
  fun k => hPQ _ (h k)

theorem Throughout.append (h : Throughout P d ws)
    (h' : Throughout P (apply d ws) vs) : Throughout P d (ws ++ vs) := by
  intro k
  rw [List.take_append]
  rcases Nat.lt_or_ge k ws.length with hk | hk
  · have hzero : k - ws.length = 0 := by omega
    rw [hzero, List.take_zero, List.append_nil]
    exact h k
  · rw [List.take_of_length_le hk, apply_append]
    exact h' _

theorem Throughout.single (h : P d) {w : α × β}
    (h' : P (Function.update d w.1 w.2)) : Throughout P d [w] := by
  intro k
  cases k with
  | zero => exact h
  | succ k => simpa using h'

/-- Writes that each keep `P` keep it throughout. -/
theorem throughout_of_step (h : P d)
    (hstep : ∀ w ∈ ws, ∀ d, P d → P (Function.update d w.1 w.2)) :
    Throughout P d ws := by
  induction ws generalizing d with
  | nil => exact Throughout.nil h
  | cons w ws ih =>
      have hw := hstep w List.mem_cons_self d h
      have hrest : Throughout P (apply d [w]) ws :=
        ih hw fun v hv => hstep v (List.mem_cons_of_mem _ hv)
      exact (Throughout.single h hw).append hrest

end SchoolStuff.Writes
