import Mathlib.Data.Fintype.Card
import Mathlib.Logic.Function.Basic

/-!
# Linked — queues that are linked through their nodes

A pointer leads to a node, its link to the next one, and the last link leads
nowhere. A node is put in at the end, behind a walk along the links.
-/

namespace SchoolStuff.Linked

variable {β : Type*} {next next' : β → Option β} {head : Option β} {bs : List β} {b : β}

/-- The nodes that a pointer leads to, in order. -/
def Chain (next : β → Option β) : Option β → List β → Prop
  | head, [] => head = none
  | head, b :: bs => head = some b ∧ Chain next (next b) bs

/-- The last node from `b` on, behind at most `n` links. -/
def last (next : β → Option β) : Nat → β → Option β
  | 0, _ => none
  | n + 1, b =>
      match next b with
      | none => some b
      | some c => last next n c

theorem Chain.cons (h : Chain next head bs) (hb : head = some b) :
    ∃ bs', bs = b :: bs' ∧ Chain next (next b) bs' := by
  cases bs with
  | nil => exact nomatch hb.symm.trans h
  | cons c bs =>
      obtain ⟨hc, hrest⟩ := h
      cases hb.symm.trans hc
      exact ⟨bs, rfl, hrest⟩

theorem Chain.eq_nil (h : Chain next none bs) : bs = [] := by
  cases bs with
  | nil => rfl
  | cons b bs => exact nomatch h.1

theorem Chain.congr (h : Chain next head bs) (hnext : ∀ b ∈ bs, next' b = next b) :
    Chain next' head bs := by
  induction bs generalizing head with
  | nil => exact h
  | cons b bs ih =>
      refine ⟨h.1, ?_⟩
      rw [hnext b List.mem_cons_self]
      exact ih h.2 fun c hc => hnext c (List.mem_cons_of_mem b hc)

/-- The walk finds the end. -/
theorem Chain.last {n : Nat} (h : Chain next (some b) bs) (hn : bs.length ≤ n) :
    ∃ init c, bs = init ++ [c] ∧ last next n b = some c := by
  induction bs generalizing b n with
  | nil => cases h
  | cons c bs ih =>
      obtain ⟨hb, hrest⟩ := h
      obtain rfl : b = c := Option.some.inj hb
      obtain ⟨n, rfl⟩ : ∃ m, n = m + 1 := ⟨n - 1, by simp only [List.length_cons] at hn; omega⟩
      rw [Linked.last]
      cases hnext : next b with
      | none =>
          rw [hnext] at hrest
          exact ⟨[], b, by rw [hrest.eq_nil]; rfl, rfl⟩
      | some d =>
          rw [hnext] at hrest
          obtain ⟨init, c, rfl, hlast⟩ := ih hrest (Nat.le_of_succ_le_succ hn)
          exact ⟨b :: init, c, rfl, hlast⟩

variable [DecidableEq β]

/-- A node is linked in at the end. -/
def append (next : β → Option β) (head : Option β) (n : Nat) (b : β) :
    Option ((β → Option β) × Option β) :=
  let next := Function.update next b none
  match head with
  | none => some (next, some b)
  | some c =>
      match last next n c with
      | none => none
      | some d => some (Function.update next d (some b), head)

theorem Chain.snoc {init : List β} {c : β} (h : Chain next head (init ++ [c])) (hb : next b = none)
    (hc : c ∉ init) (hbc : b ∉ init ++ [c]) :
    Chain (Function.update next c (some b)) head (init ++ [c, b]) := by
  induction init generalizing head with
  | nil =>
      obtain ⟨hhead, _⟩ := h
      have hne : b ≠ c := fun heq => hbc (List.mem_singleton.2 heq)
      refine ⟨hhead, Function.update_self .., ?_⟩
      rw [Function.update_of_ne hne]
      exact hb
  | cons d init ih =>
      obtain ⟨hhead, hrest⟩ := h
      have hdc : d ≠ c := fun heq => hc (heq ▸ List.mem_cons_self)
      refine ⟨hhead, ?_⟩
      rw [Function.update_of_ne hdc]
      exact ih hrest (fun hmem => hc (List.mem_cons_of_mem d hmem))
        fun hmem => hbc (List.mem_cons_of_mem d hmem)

/-- **A new node comes to the end.** -/
theorem Chain.append {n : Nat} (h : Chain next head bs) (hnodup : bs.Nodup) (hb : b ∉ bs)
    (hn : bs.length ≤ n) :
    ∃ next' head', append next head n b = some (next', head') ∧ Chain next' head' (bs ++ [b]) := by
  have hchain : Chain (Function.update next b none) head bs :=
    h.congr fun c hc => Function.update_of_ne (ne_of_mem_of_not_mem hc hb) ..
  unfold Linked.append
  cases head with
  | none =>
      rw [h.eq_nil]
      exact ⟨_, _, rfl, rfl, Function.update_self ..⟩
  | some c =>
      obtain ⟨init, d, rfl, hlast⟩ := hchain.last hn
      simp only [hlast]
      refine ⟨_, _, rfl, ?_⟩
      rw [List.append_assoc]
      refine hchain.snoc (Function.update_self ..) ?_ hb
      exact fun hd => (List.nodup_append.1 hnodup).2.2 d hd d List.mem_cons_self rfl

end SchoolStuff.Linked
