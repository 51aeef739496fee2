import Mathlib.Computability.Language

/-!
# Letters — languages of single letters

`letter p` are the words of one letter that has property `p`. In front of
another language it takes one letter off a word (`cons_mem_letter_mul`); its
star takes none, or one and goes on (`mem_star_mul`).
-/

namespace SchoolStuff.Letters

open Computability

variable {α : Type*}

def letter (p : α → Prop) : Language α := {w | ∃ c, p c ∧ w = [c]}

variable {p : α → Prop} {l L : Language α} {c : α} {w : List α}

theorem nil_not_mem_letter_mul : [] ∉ letter p * L := by
  intro h
  obtain ⟨_, ⟨c, _, rfl⟩, _, _, heq⟩ := Language.mem_mul.mp h
  exact List.cons_ne_nil _ _ heq

theorem cons_mem_letter_mul : c :: w ∈ letter p * L ↔ p c ∧ w ∈ L := by
  rw [Language.mem_mul]
  constructor
  · rintro ⟨_, ⟨c', hc, rfl⟩, w', hw, heq⟩
    obtain ⟨rfl, rfl⟩ := List.cons.inj heq
    exact ⟨hc, hw⟩
  · rintro ⟨hc, hw⟩
    exact ⟨[c], ⟨c, hc, rfl⟩, w, hw, rfl⟩

theorem mem_star_mul : w ∈ l∗ * L ↔ w ∈ L ∨ w ∈ l * (l∗ * L) := by
  rw [← mul_assoc, ← Language.mem_add]
  conv_lhs => rw [← Language.one_add_self_mul_kstar_eq_kstar, add_mul, one_mul]

/-- A word has a part in `L` at its end. -/
theorem mem_top_mul : w ∈ ⊤ * L ↔ ∃ s, s <:+ w ∧ s ∈ L := by
  rw [Language.mem_mul]
  constructor
  · rintro ⟨before, _, s, hs, heq⟩
    exact ⟨s, ⟨before, heq⟩, hs⟩
  · rintro ⟨s, ⟨before, heq⟩, hs⟩
    exact ⟨before, trivial, s, hs, heq⟩

end SchoolStuff.Letters
