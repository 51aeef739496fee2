import Mathlib.Data.List.Infix
import Mathlib.Logic.Function.Basic
import Mathlib.Tactic.Common

/-!
# Regions — places of a tree that are shared out

A place is the way to it from the root, the last step first, so what is below a
place are the lists that end with it. Owners have regions, each of all places
below some, and no place is in the regions of two (`Apart`). A region may shrink,
be split with a new owner, and have a place taken from it for good: no place is
ever taken twice.
-/

namespace SchoolStuff.Regions

variable {σ ι : Type} [DecidableEq ι]

/-- In the region of some places. -/
def Under (os : List (List σ)) (x : List σ) : Prop := ∃ o ∈ os, o <:+ x

variable {os os' : List (List σ)} {a x y : List σ} {s t : σ}

theorem not_under_nil : ¬Under [] x := fun ⟨_, ho, _⟩ => absurd ho List.not_mem_nil

@[simp] theorem under_singleton : Under [a] x ↔ a <:+ x := by
  simp only [Under, List.mem_singleton, exists_eq_left]

@[simp] theorem under_pair : Under [a, y] x ↔ a <:+ x ∨ y <:+ x := by
  simp only [Under, List.mem_cons, List.not_mem_nil, or_false, exists_eq_or_imp, exists_eq_left]

theorem below_of_below (h : s :: a <:+ x) : a <:+ x := (List.suffix_cons s a).trans h

theorem not_below_self : ¬s :: a <:+ a := by
  intro h
  have := h.length_le
  simp only [List.length_cons] at this
  omega

/-- The parts of one place are apart. -/
theorem side_unique (hs : s :: a <:+ x) (ht : t :: a <:+ x) : s = t := by
  have heq := List.suffix_of_suffix_length_le hs ht (by simp only [List.length_cons, le_refl])
  exact (List.cons.inj (heq.eq_of_length (by simp only [List.length_cons]))).1

/-- No place is in two regions, or in one and taken; none is taken twice. -/
structure Apart (owns : ι → List (List σ)) (taken : List (List σ)) : Prop where
  apart : ∀ {p q x}, Under (owns p) x → Under (owns q) x → p = q
  left : ∀ {p x}, x ∈ taken → ¬Under (owns p) x
  nodup : taken.Nodup

namespace Apart

variable {owns : ι → List (List σ)} {taken : List (List σ)} {p q : ι}

theorem under_update (hsub : ∀ x, Under os x → Under (owns p) x) {r : ι}
    (h : Under (Function.update owns p os r) x) : Under (owns r) x := by
  by_cases hr : r = p
  · subst hr
    rw [Function.update_self] at h
    exact hsub x h
  · rwa [Function.update_of_ne hr] at h

/-- A region shrinks. -/
theorem narrow (h : Apart owns taken) (hsub : ∀ x, Under os x → Under (owns p) x) :
    Apart (Function.update owns p os) taken :=
  ⟨fun hx hy => h.apart (under_update hsub hx) (under_update hsub hy),
    fun hx hu => h.left hx (under_update hsub hu), h.nodup⟩

/-- A region is split with a new owner. -/
theorem split (h : Apart owns taken)
    (hsub : ∀ x, Under os x → Under (owns p) x) (hsub' : ∀ x, Under os' x → Under (owns p) x)
    (hapart : ∀ x, Under os x → ¬Under os' x) :
    Apart (Function.update (Function.update owns p os) q os') taken := by
  have hcases : ∀ {r x}, Under (Function.update (Function.update owns p os) q os' r) x →
      r = q ∧ Under os' x ∨ r = p ∧ r ≠ q ∧ Under os x ∨ r ≠ p ∧ r ≠ q ∧ Under (owns r) x := by
    intro r x hx
    by_cases hq : r = q
    · rw [hq, Function.update_self] at hx
      exact .inl ⟨hq, hx⟩
    · rw [Function.update_of_ne hq] at hx
      by_cases hp : r = p
      · rw [hp, Function.update_self] at hx
        exact .inr (.inl ⟨hp, hq, hx⟩)
      · rw [Function.update_of_ne hp] at hx
        exact .inr (.inr ⟨hp, hq, hx⟩)
  refine ⟨fun {r r' x} hx hy => ?_, fun {r x} hx hu => ?_, h.nodup⟩
  · obtain ⟨hr, hu⟩ | ⟨hr, _, hu⟩ | ⟨hr, _, hu⟩ := hcases hx <;>
      obtain ⟨hr', hv⟩ | ⟨hr', _, hv⟩ | ⟨hr', _, hv⟩ := hcases hy
    · rw [hr, hr']
    · exact absurd hu (hapart x hv)
    · exact absurd (h.apart (hsub' x hu) hv).symm hr'
    · exact absurd hv (hapart x hu)
    · rw [hr, hr']
    · exact absurd (h.apart (hsub x hu) hv).symm hr'
    · exact absurd (h.apart hu (hsub' x hv)) hr
    · exact absurd (h.apart hu (hsub x hv)) hr
    · exact h.apart hu hv
  · obtain ⟨_, hv⟩ | ⟨_, _, hv⟩ | ⟨_, _, hv⟩ := hcases hu
    · exact h.left hx (hsub' x hv)
    · exact h.left hx (hsub x hv)
    · exact h.left hx hv

/-- A place is taken from a region. -/
theorem take (h : Apart owns taken) (ha : Under (owns p) a)
    (hsub : ∀ x, Under os x → Under (owns p) x) (hout : ¬Under os a) :
    Apart (Function.update owns p os) (taken ++ [a]) := by
  have hnarrow := h.narrow hsub
  refine ⟨hnarrow.apart, fun {r x} hx hu => ?_, ?_⟩
  · rcases List.mem_append.1 hx with hx | hx
    · exact hnarrow.left hx hu
    · rw [List.mem_singleton.1 hx] at hu
      by_cases hr : r = p
      · rw [hr, Function.update_self] at hu
        exact hout hu
      · rw [Function.update_of_ne hr] at hu
        exact hr (h.apart hu ha)
  · rw [List.nodup_append]
    refine ⟨h.nodup, List.nodup_cons.2 ⟨List.not_mem_nil, List.nodup_nil⟩, fun x hx y hy heq => ?_⟩
    rw [List.mem_singleton.1 hy] at heq
    exact h.left hx (heq ▸ ha)

end Apart

end SchoolStuff.Regions
