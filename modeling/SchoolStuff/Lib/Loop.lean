import Mathlib.Tactic.Common

/-!
# Loop — `while` loops over a fallible body

`run cond body fuel s` turns the loop at most `fuel` times and is `none`
when the body fails or the turns run out. `run_total` is the total
correctness rule: an invariant and a measure that the body decreases give
a result for every fuel from the measure of the entry state on. `Tops`
are the states in which the condition is tested; whatever the loop
returns is reached from each of them (`run_from_top`). `Trace` keeps the
states that the body was run in, for what depends on the history. A loop
that simulates another ends with it (`run_sim`). A `for` loop is a fold over
its range, with `foldlM_range'` as its rule.
-/

namespace SchoolStuff.Loop

variable {σ : Type*} {cond : σ → Bool} {body : σ → Option σ}

/-- `while (cond) body`, at most `fuel` turns. -/
def run (cond : σ → Bool) (body : σ → Option σ) : Nat → σ → Option σ
  | 0, s => if cond s then none else some s
  | fuel + 1, s =>
      if cond s then (body s).bind (run cond body fuel) else some s

/-- The states at the top of an iteration of the loop entered in `s₀`. -/
inductive Tops (cond : σ → Bool) (body : σ → Option σ) (s₀ : σ) : σ → Prop
  | entry : Tops cond body s₀ s₀
  | turn {s s' : σ} : Tops cond body s₀ s → cond s = true →
      body s = some s' → Tops cond body s₀ s'

/-- The state at the top of an iteration, after the body has been run in the
states `past`, in this order. -/
inductive Trace (cond : σ → Bool) (body : σ → Option σ) (s₀ : σ) :
    List σ → σ → Prop
  | entry : Trace cond body s₀ [] s₀
  | turn {past : List σ} {s s' : σ} : Trace cond body s₀ past s →
      cond s = true → body s = some s' → Trace cond body s₀ (past ++ [s]) s'

theorem run_of_exit {s : σ} (h : cond s = false) (fuel : Nat) :
    run cond body fuel s = some s := by
  cases fuel <;> simp [run, h]

theorem run_turn {s : σ} (h : cond s = true) (fuel : Nat) :
    run cond body (fuel + 1) s = (body s).bind (run cond body fuel) := by
  rw [run, if_pos h]

/-- **Total correctness**: a body that keeps `I` and decreases `m` while
the condition holds ends the loop in a state of `I` that leaves it. -/
theorem run_total (cond : σ → Bool) (body : σ → Option σ) (I : σ → Prop)
    (m : σ → Nat) (hbody : ∀ s, I s → cond s = true →
      ∃ s', body s = some s' ∧ I s' ∧ m s' < m s) :
    ∀ (fuel : Nat) (s : σ), I s → m s ≤ fuel →
      ∃ s', run cond body fuel s = some s' ∧ I s' ∧ cond s' = false := by
  intro fuel
  induction fuel with
  | zero =>
      intro s hs hm
      cases hc : cond s with
      | false => exact ⟨s, run_of_exit hc 0, hs, hc⟩
      | true =>
          obtain ⟨s', _, _, hlt⟩ := hbody s hs hc
          omega
  | succ fuel ih =>
      intro s hs hm
      cases hc : cond s with
      | false => exact ⟨s, run_of_exit hc _, hs, hc⟩
      | true =>
          obtain ⟨s₁, hs₁, hI, hlt⟩ := hbody s hs hc
          obtain ⟨s', hrun, hI', hc'⟩ := ih s₁ hI (by omega)
          exact ⟨s', by simp [run, hc, hs₁, hrun], hI', hc'⟩

/-- An invariant of the body holds at the top of every iteration. -/
theorem Tops.invariant {I : σ → Prop} {s₀ s : σ} (h : Tops cond body s₀ s)
    (h₀ : I s₀)
    (hbody : ∀ s s', I s → cond s = true → body s = some s' → I s') :
    I s := by
  induction h with
  | entry => exact h₀
  | turn _ hc hb ih => exact hbody _ _ ih hc hb

theorem Tops.trace {s₀ s : σ} (h : Tops cond body s₀ s) :
    ∃ past, Trace cond body s₀ past s := by
  induction h with
  | entry => exact ⟨[], Trace.entry⟩
  | turn _ hc hb ih =>
      obtain ⟨past, hpast⟩ := ih
      exact ⟨_, hpast.turn hc hb⟩

/-- An invariant that looks at the history. -/
theorem Trace.invariant {I : List σ → σ → Prop} {s₀ s : σ} {past : List σ}
    (h : Trace cond body s₀ past s) (h₀ : I [] s₀)
    (hbody : ∀ past s s', I past s → cond s = true → body s = some s' →
      I (past ++ [s]) s') : I past s := by
  induction h with
  | entry => exact h₀
  | turn _ hc hb ih => exact hbody _ _ _ ih hc hb

/-- What the loop returns is a state at the top of an iteration. -/
theorem tops_of_run {fuel : Nat} {s₀ s s' : σ} (h : Tops cond body s₀ s)
    (hrun : run cond body fuel s = some s') : Tops cond body s₀ s' := by
  induction fuel generalizing s with
  | zero =>
      cases hc : cond s with
      | true => simp [run, hc] at hrun
      | false =>
          simp only [run, hc, Bool.false_eq_true, if_false,
            Option.some.injEq] at hrun
          exact hrun ▸ h
  | succ fuel ih =>
      cases hc : cond s with
      | false =>
          rw [run_of_exit hc, Option.some.injEq] at hrun
          exact hrun ▸ h
      | true =>
          simp only [run, hc, if_true, Option.bind_eq_some_iff] at hrun
          obtain ⟨s₁, hs₁, hrest⟩ := hrun
          exact ih (h.turn hc hs₁) hrest

/-- The result of the loop is also the result of the loop entered at any
of its tops. -/
theorem run_from_top {fuel : Nat} {s₀ s s' : σ} (h : Tops cond body s₀ s)
    (hrun : run cond body fuel s₀ = some s') :
    ∃ fuel', run cond body fuel' s = some s' := by
  induction h with
  | entry => exact ⟨fuel, hrun⟩
  | turn _ hc hb ih =>
      obtain ⟨fuel', hfuel'⟩ := ih
      cases fuel' with
      | zero => simp [run, hc] at hfuel'
      | succ k =>
          simp only [run, hc, if_true, hb, Option.bind_some] at hfuel'
          exact ⟨k, hfuel'⟩

/-- A top that leaves the loop is its result. -/
theorem run_eq_of_exit {fuel : Nat} {s₀ s s' : σ}
    (h : Tops cond body s₀ s) (hexit : cond s = false)
    (hrun : run cond body fuel s₀ = some s') : s' = s := by
  obtain ⟨fuel', hfuel'⟩ := run_from_top h hrun
  rw [run_of_exit hexit, Option.some.injEq] at hfuel'
  exact hfuel'.symm

/-- **Total correctness, with one result for every fuel that is enough.** -/
theorem run_ends (cond : σ → Bool) (body : σ → Option σ) (I : σ → Prop)
    (m : σ → Nat) (hbody : ∀ s, I s → cond s = true →
      ∃ s', body s = some s' ∧ I s' ∧ m s' < m s) {s : σ} (hs : I s)
    {n : Nat} (hm : m s ≤ n) :
    ∃ s', (∀ fuel, n ≤ fuel → run cond body fuel s = some s')
      ∧ Tops cond body s s' ∧ I s' ∧ cond s' = false := by
  obtain ⟨s', hrun, hI, hexit⟩ := run_total cond body I m hbody n s hs hm
  have htops := tops_of_run Tops.entry hrun
  refine ⟨s', fun fuel hfuel => ?_, htops, hI, hexit⟩
  obtain ⟨s₁, hrun₁, _, _⟩ :=
    run_total cond body I m hbody fuel s hs (Nat.le_trans hm hfuel)
  rw [hrun₁, run_eq_of_exit htops hexit hrun₁]

/-- **Simulation**: a loop that does in each turn what another does, up to `R`,
returns when the other returns. -/
theorem run_sim {τ : Type*} (cond : σ → Bool) (body : σ → Option σ) {cond' : τ → Bool}
    {body' : τ → Option τ} (R : σ → τ → Prop)
    (hcond : ∀ s t, R s t → cond s = cond' t)
    (hbody : ∀ s t t', R s t → cond' t = true → body' t = some t' →
      ∃ s', body s = some s' ∧ R s' t') :
    ∀ (fuel : Nat) {s : σ} {t t' : τ}, R s t → run cond' body' fuel t = some t' →
      ∃ s', run cond body fuel s = some s' ∧ R s' t' := by
  intro fuel
  induction fuel with
  | zero =>
      intro s t t' hR hrun
      cases hc : cond' t with
      | true => simp [run, hc] at hrun
      | false =>
          rw [run_of_exit hc, Option.some.injEq] at hrun
          exact ⟨s, run_of_exit ((hcond s t hR).trans hc) 0, hrun ▸ hR⟩
  | succ fuel ih =>
      intro s t t' hR hrun
      cases hc : cond' t with
      | true =>
          rw [run, if_pos hc] at hrun
          obtain ⟨t₁, ht₁, hrest⟩ := Option.bind_eq_some_iff.1 hrun
          obtain ⟨s₁, hs₁, hR₁⟩ := hbody s t t₁ hR hc ht₁
          obtain ⟨s', hrun', hR'⟩ := ih hR₁ hrest
          exact ⟨s', by rw [run, if_pos ((hcond s t hR).trans hc), hs₁]; exact hrun', hR'⟩
      | false =>
          rw [run_of_exit hc, Option.some.injEq] at hrun
          exact ⟨s, run_of_exit ((hcond s t hR).trans hc) _, hrun ▸ hR⟩

/-! ## `for` loops -/

/-- **Total correctness** of `for (i = start; i < start + n; i++)`. -/
theorem foldlM_range' {f : σ → Nat → Option σ} {I : Nat → σ → Prop}
    {start : Nat} {s : σ} (h : I start s) :
    ∀ n, (∀ i s, start ≤ i → i < start + n → I i s →
        ∃ s', f s i = some s' ∧ I (i + 1) s') →
      ∃ s', (List.range' start n).foldlM f s = some s' ∧ I (start + n) s' := by
  intro n
  induction n with
  | zero => exact fun _ => ⟨s, rfl, h⟩
  | succ n ih =>
      intro hbody
      obtain ⟨s₁, hrun, hs₁⟩ := ih fun i s hle hlt => hbody i s hle (by omega)
      obtain ⟨s', hlast, hs'⟩ := hbody (start + n) s₁ (by omega) (by omega) hs₁
      refine ⟨s', ?_, hs'⟩
      rw [List.range'_1_concat, List.foldlM_append, hrun]
      simpa using hlast

/-- What every turn that succeeds keeps. -/
theorem foldlM_invariant {α : Type*} {f : σ → α → Option σ} {I : σ → Prop}
    (hbody : ∀ a s s', I s → f s a = some s' → I s') :
    ∀ {l : List α} {s s' : σ}, I s → l.foldlM f s = some s' → I s' := by
  intro l
  induction l with
  | nil =>
      rintro s s' hs ⟨⟩
      exact hs
  | cons a l ih =>
      intro s s' hs hrun
      rw [List.foldlM_cons] at hrun
      obtain ⟨s₁, hs₁, hrun⟩ := Option.bind_eq_some_iff.mp hrun
      exact ih (hbody a s s₁ hs hs₁) hrun

/-- `foldlM_range'` from 0 on. -/
theorem foldlM_range {f : σ → Nat → Option σ} {I : Nat → σ → Prop} {s : σ}
    (h : I 0 s) (n : Nat) (hbody : ∀ i s, i < n → I i s →
      ∃ s', f s i = some s' ∧ I (i + 1) s') :
    ∃ s', (List.range n).foldlM f s = some s' ∧ I n s' := by
  obtain ⟨s', hrun, hs'⟩ := foldlM_range' h n
    fun i s _ hlt => hbody i s (by omega)
  rw [Nat.zero_add] at hs'
  exact ⟨s', by rw [List.range_eq_range']; exact hrun, hs'⟩

end SchoolStuff.Loop
