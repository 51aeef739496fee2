import Mathlib.Data.List.Nodup
import Mathlib.Data.List.Perm.Basic
import SchoolStuff.Xv6.Phys

/-!
# Xv6 — who has the free frames

From a state `s₀` on, the frames of its free list are taken and given back.
`Kept s₀ s taken` says that the ones taken and the ones that are free are still
those, and that no other frame has changed; `Taken` says besides that every
call of `kalloc` since has succeeded, one for each frame that is taken, so the
next failure is the first one.
-/

namespace SchoolStuff.Xv6.Phys

open Vm (PGSIZE KERNBASE)

variable {l : Linker} {fails : Nat → Bool} {s₀ s s' : State}
  {taken taken' : List Nat} {f : Nat}

/-- The free list: frames that `kfree` accepts, none of them twice. -/
structure FreeOk (l : Linker) (s : State) : Prop where
  nodup : s.freelist.Nodup
  range : ∀ f ∈ s.freelist,
    0 < f ∧ l.kend ≤ KERNBASE + f * PGSIZE ∧ f * PGSIZE < PHYSTOP

/-- The frames of the free list are taken or still free, and no others have
changed. -/
structure Kept (s₀ s : State) (taken : List Nat) : Prop where
  perm : (taken ++ s.freelist).Perm s₀.freelist
  mem : ∀ f, f ∉ s₀.freelist → s.mem f = s₀.mem f

/-- Call number `n` of `kalloc` from `s₀` on fails, if none has failed before
it. -/
def Fails (fails : Nat → Bool) (s₀ : State) (n : Nat) : Prop :=
  fails (s₀.kallocs + n) = true ∨ s₀.freelist.length ≤ n

/-- Call number `n` is the first one to fail. -/
def FirstFailure (fails : Nat → Bool) (s₀ : State) (n : Nat) : Prop :=
  Fails fails s₀ n ∧ ∀ k, k < n → ¬ Fails fails s₀ k

/-- No call has failed, and each frame that is taken was returned by one. -/
structure Taken (fails : Nat → Bool) (s₀ s : State) (taken : List Nat) : Prop
    extends Kept s₀ s taken where
  calls : s.kallocs = s₀.kallocs + taken.length
  before : ∀ n, n < taken.length → ¬ Fails fails s₀ n

theorem FirstFailure.unique {n k : Nat} (hn : FirstFailure fails s₀ n)
    (hk : FirstFailure fails s₀ k) : n = k := by
  cases Nat.lt_trichotomy n k with
  | inl hlt => exact absurd hn.1 (hk.2 n hlt)
  | inr h =>
      cases h with
      | inl heq => exact heq
      | inr hlt => exact absurd hk.1 (hn.2 k hlt)

theorem Kept.start (s₀ : State) : Kept s₀ s₀ [] :=
  ⟨List.Perm.refl _, fun _ _ => rfl⟩

theorem Taken.start (fails : Nat → Bool) (s₀ : State) : Taken fails s₀ s₀ [] :=
  ⟨Kept.start s₀, rfl, fun _ h => absurd h (Nat.not_lt_zero _)⟩

theorem Kept.reorder (h : Kept s₀ s taken) (hp : taken'.Perm taken) : Kept s₀ s taken' :=
  ⟨(hp.append_right _).trans h.perm, h.mem⟩

theorem Taken.reorder (h : Taken fails s₀ s taken) (hp : taken'.Perm taken) :
    Taken fails s₀ s taken' :=
  ⟨h.toKept.reorder hp, by rw [hp.length_eq, h.calls], by rw [hp.length_eq]; exact h.before⟩

theorem Kept.free (h : Kept s₀ s taken) (hf : f ∈ taken) : f ∈ s₀.freelist :=
  h.perm.subset (List.mem_append_left _ hf)

theorem Kept.nodup (h : Kept s₀ s taken) (hfree : FreeOk l s₀) :
    (taken ++ s.freelist).Nodup :=
  h.perm.nodup_iff.2 hfree.nodup

theorem Kept.nodup_left (h : Kept s₀ s (taken ++ taken')) (hfree : FreeOk l s₀) :
    taken.Nodup :=
  (List.nodup_append.1 (List.nodup_append.1 (h.nodup hfree)).1).1

theorem Kept.apart (h : Kept s₀ s (taken ++ taken')) (hfree : FreeOk l s₀) (hf : f ∈ taken') :
    f ∉ taken :=
  fun hin => (List.nodup_append.1 (List.nodup_append.1 (h.nodup hfree)).1).2.2 f hin f hf rfl

theorem Kept.not_free (h : Kept s₀ s taken) (hfree : FreeOk l s₀) (hf : f ∈ taken) :
    f ∉ s.freelist :=
  fun hin => (List.nodup_append.1 (h.nodup hfree)).2.2 f hf f hin rfl

/-- What is written to frames that are taken is of no account. -/
theorem Kept.write (h : Kept s₀ s taken) (hlist : s'.freelist = s.freelist)
    (hmem : ∀ f, f ∉ taken → s'.mem f = s.mem f) : Kept s₀ s' taken where
  perm := by rw [hlist]; exact h.perm
  mem f hf := by rw [hmem f fun hin => hf (h.free hin), h.mem f hf]

theorem Taken.write (h : Taken fails s₀ s taken) (hlist : s'.freelist = s.freelist)
    (hcalls : s'.kallocs = s.kallocs) (hmem : ∀ f, f ∉ taken → s'.mem f = s.mem f) :
    Taken fails s₀ s' taken :=
  ⟨h.toKept.write hlist hmem, by rw [hcalls, h.calls], h.before⟩

/-- **A call of `kalloc`** takes a frame, or is the first one to fail. -/
theorem Taken.kalloc (h : Taken fails s₀ s taken) :
    (∃ f s', s.kalloc fails = (some f, s') ∧ s'.mem = s.mem ∧
      s.freelist = f :: s'.freelist ∧ Taken fails s₀ s' (f :: taken)) ∨
    ∃ s', s.kalloc fails = (none, s') ∧ s'.mem = s.mem ∧ Kept s₀ s' taken ∧
      FirstFailure fails s₀ taken.length := by
  have hlen := h.perm.length_eq
  rw [List.length_append] at hlen
  cases hfail : fails s.kallocs with
  | true =>
      refine .inr ⟨{ s with kallocs := s.kallocs + 1 }, by simp [State.kalloc, hfail], rfl,
        ⟨h.perm, h.mem⟩, .inl ?_, h.before⟩
      rw [← h.calls, hfail]
  | false =>
      cases hlist : s.freelist with
      | nil =>
          refine .inr ⟨{ s with kallocs := s.kallocs + 1 }, by simp [State.kalloc, hfail, hlist],
            rfl, ⟨h.perm, h.mem⟩, .inr ?_, h.before⟩
          rw [hlist, List.length_nil] at hlen
          omega
      | cons r next =>
          have hperm : (r :: taken ++ next).Perm s₀.freelist := by
            have hp := h.perm
            rw [hlist] at hp
            exact List.perm_middle.symm.trans hp
          refine .inl ⟨r, { s with kallocs := s.kallocs + 1, freelist := next },
            by simp [State.kalloc, hfail, hlist], rfl, rfl, ⟨hperm, h.mem⟩, ?_, ?_⟩
          · show s.kallocs + 1 = _
            rw [h.calls, List.length_cons, Nat.add_assoc]
          · intro n hn
            by_cases hlast : n = taken.length
            · rw [Fails, hlast, ← h.calls, hfail]
              rw [hlist, List.length_cons] at hlen
              simp only [Bool.false_eq_true, false_or]
              omega
            · exact h.before n (by rw [List.length_cons] at hn; omega)

/-- **Giving a frame back.** -/
theorem Kept.kfree (h : Kept s₀ s (f :: taken)) (hfree : FreeOk l s₀) :
    ∃ s', s.kfree l f = some s' ∧ Kept s₀ s' taken ∧ ∀ g, g ≠ f → s'.mem g = s.mem g := by
  have hin := h.free List.mem_cons_self
  obtain ⟨-, hlow, hhigh⟩ := hfree.range f hin
  refine ⟨_, by rw [State.kfree, if_neg (by omega)], ⟨?_, fun g hg => ?_⟩, fun g hg => ?_⟩
  · exact List.perm_middle.trans h.perm
  · have hne : g ≠ f := fun heq => hg (heq ▸ hin)
    exact (Function.update_of_ne hne _ _).trans (h.mem g hg)
  · exact Function.update_of_ne hg _ _

end SchoolStuff.Xv6.Phys
