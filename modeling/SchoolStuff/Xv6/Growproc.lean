import Mathlib.Tactic.NormNum
import SchoolStuff.Xv6.Vm

/-!
# Growproc — the size of a process (`growproc`)

`allocuvm` and `deallocuvm` answer with the new size of the process, and
`growproc` takes 0 for their failure. `ExactAtomic` is what a call should
do: succeed with exactly the pages of the new size, or fail with the old
ones. A process that shrinks to nothing loses its pages and hears of a
failure, and one that shrinks further, where the sum wraps around, keeps
its size and hears of a success.
-/

namespace SchoolStuff.Xv6.Vm

/-- A process: its size, a `uint`, and its page table. -/
structure Proc (Page : Type) where
  sz : Nat
  space : Space Page

variable {Page : Type} (supply : Nat → Option Page)

/-- `sz + n`, a sum of `uint`s. -/
def addInt (sz : Nat) (n : Int32) : Nat := ((sz + n.toInt) % 2 ^ 32).toNat

/-- The end of `growproc`, after the new size has been assigned to `sz`. -/
def Proc.finish (p : Proc Page) : Nat × Space Page → Int × Proc Page
  | (sz, space) =>
      if sz = 0 then (-1, { p with space := space }) else (0, ⟨sz, space⟩)

/-- `growproc`, without `switchuvm`, which loads the page table into the
hardware. -/
def growproc (fuel : Nat) (p : Proc Page) (n : Int32) :
    Option (Int × Proc Page) :=
  if n > 0 then
    (allocuvm supply fuel p.space p.sz (addInt p.sz n)).map p.finish
  else if n < 0 then
    (deallocuvm supply fuel p.space p.sz (addInt p.sz n)).map p.finish
  else some (0, p)

/-- The user pages that are present are those that the size takes. -/
def Exact (p : Proc Page) : Prop :=
  ∀ v, (v < UPAGES ∧ (p.space.page v).isSome) ↔ v < pagesOf p.sz

/-- The process grew by exactly `n`, or its size and its pages are as
before. -/
def ExactAtomic (p : Proc Page) (n : Int32) (r : Int) (p' : Proc Page) : Prop :=
  r = 0 ∧ (p'.sz : Int) = p.sz + n.toInt ∧ Exact p'
    ∨ r = -1 ∧ p'.sz = p.sz
      ∧ ∀ v, v < UPAGES → (p'.space.page v).isSome = (p.space.page v).isSome

theorem pos_iff (n : Int32) : n > 0 ↔ 0 < n.toInt := Int32.lt_iff_toInt_lt

theorem neg_iff (n : Int32) : n < 0 ↔ n.toInt < 0 := Int32.lt_iff_toInt_lt

variable {p : Proc Page}

theorem Exact.sz_le (h : Exact p) : p.sz ≤ KERNBASE := by
  have hlast : ¬ UPAGES < pagesOf p.sz := fun hlt =>
    Nat.lt_irrefl _ ((h UPAGES).mpr hlt).1
  rw [lt_pagesOf] at hlast
  simp only [UPAGES, PGSIZE, KERNBASE] at *
  omega

theorem Exact.absent (h : Exact p) {v : Nat} (hle : pagesOf p.sz ≤ v)
    (hv : v < UPAGES) : p.space.page v = none := by
  refine Option.not_isSome_iff_eq_none.mp fun hsome => ?_
  have := (h v).mp ⟨hv, hsome⟩
  omega

theorem Exact.present (h : Exact p) {v : Nat} (hv : v < pagesOf p.sz) :
    (p.space.page v).isSome :=
  ((h v).mpr hv).2

theorem Exact.grow (h : Exact p) {sz : Nat} {s : Space Page}
    (hle : sz ≤ KERNBASE)
    (hchanged : Changed true p.space s (pagesOf p.sz) (pagesOf sz))
    (hsz : p.sz ≤ sz) : Exact ⟨sz, s⟩ := by
  have hpages := pagesOf_mono hsz
  have hbound := pagesOf_le hle
  intro v
  by_cases hv : pagesOf p.sz ≤ v ∧ v < pagesOf sz
  · simp only [hchanged.inside v hv.1 hv.2, hv.2]
    simp
    omega
  · rw [hchanged.outside v (by omega), h v]
    show v < pagesOf p.sz ↔ v < pagesOf sz
    omega

theorem Exact.shrink (h : Exact p) {sz : Nat} {s : Space Page}
    (hchanged : Changed false p.space s (pagesOf sz) (pagesOf p.sz))
    (hsz : sz ≤ p.sz) : Exact ⟨sz, s⟩ := by
  have hpages := pagesOf_mono hsz
  intro v
  by_cases hv : pagesOf sz ≤ v ∧ v < pagesOf p.sz
  · simp only [hchanged.inside v hv.1 hv.2]
    simp
    omega
  · rw [hchanged.outside v (by omega), h v]
    show v < pagesOf p.sz ↔ v < pagesOf sz
    omega

theorem Exact.addInt_eq (h : Exact p) {n : Int32} (hn : 0 ≤ p.sz + n.toInt) :
    (addInt p.sz n : Int) = p.sz + n.toInt := by
  have hsz := h.sz_le
  have hlt := n.toInt_lt
  simp only [KERNBASE] at hsz
  rw [addInt, Int.emod_eq_of_lt hn (by omega)]
  omega

/-- A sum below 0 wraps around to a size that is not smaller. -/
theorem Exact.le_addInt (h : Exact p) {n : Int32} (hn : p.sz + n.toInt < 0) :
    p.sz ≤ addInt p.sz n := by
  have hsz := h.sz_le
  have hle := n.le_toInt
  simp only [KERNBASE] at hsz
  rw [addInt]
  omega

/-- Where the sum wraps around, the size is kept. -/
theorem growproc_wrap (h : Exact p) {n : Int32} (fuel : Nat)
    (hsum : p.sz + n.toInt < 0) :
    ∃ r p', growproc supply fuel p n = some (r, p')
      ∧ (ExactAtomic p n r p' ↔ p.sz = 0) := by
  have hn : n.toInt < 0 := by omega
  have hnpos : ¬ n > 0 := by
    rw [pos_iff]
    omega
  rw [growproc, if_neg hnpos, if_pos ((neg_iff n).mpr hn),
    deallocuvm, if_pos (h.le_addInt hsum)]
  by_cases hzero : p.sz = 0
  · refine ⟨-1, p, congrArg some (if_pos hzero), ?_⟩
    exact iff_of_true (Or.inr ⟨rfl, rfl, fun _ _ => rfl⟩) hzero
  · refine ⟨0, p, congrArg some (if_neg hzero), iff_of_false ?_ hzero⟩
    rintro (⟨_, hsz, _⟩ | ⟨h1, _⟩)
    · omega
    · exact absurd h1 (by decide)

section Calls

variable {fuel : Nat} (hfuel : 2 ^ 20 ≤ fuel) {n : Int32} (h : Exact p)

include hfuel h

theorem growproc_pos (hn : 0 < n.toInt) :
    ∃ r p', growproc supply fuel p n = some (r, p') ∧ ExactAtomic p n r p' := by
  have hsum := h.addInt_eq (n := n) (by omega)
  have hlt : p.sz < addInt p.sz n := by omega
  rw [growproc, if_pos ((pos_iff n).mpr hn)]
  by_cases hle : addInt p.sz n < KERNBASE
  · have hbound := pagesOf_le (Nat.le_of_lt hle)
    obtain ⟨r, s', hrun, ⟨rfl, hchanged⟩ | ⟨rfl, hpage⟩⟩ :=
      allocuvm_spec supply hfuel hlt hle
        fun v hlo hhi => h.absent hlo (Nat.lt_of_lt_of_le hhi hbound)
    · refine ⟨0, ⟨addInt p.sz n, s'⟩, ?_, Or.inl ⟨rfl, hsum, ?_⟩⟩
      · rw [hrun]
        exact congrArg some (if_neg (by omega))
      · exact h.grow (Nat.le_of_lt hle) hchanged (Nat.le_of_lt hlt)
    · refine ⟨-1, { p with space := s' }, by rw [hrun]; rfl, ?_⟩
      exact Or.inr ⟨rfl, rfl, fun v _ => by rw [hpage]⟩
  · refine ⟨-1, p, ?_, Or.inr ⟨rfl, rfl, fun _ _ => rfl⟩⟩
    rw [allocuvm, if_pos (by omega)]
    rfl

/-- A process that shrinks to nothing has lost its pages when it fails. -/
theorem growproc_neg (hn : n.toInt < 0) (hsum : 0 ≤ p.sz + n.toInt) :
    ∃ r p', growproc supply fuel p n = some (r, p')
      ∧ (ExactAtomic p n r p' ↔ 0 < p.sz + n.toInt) := by
  have hadd := h.addInt_eq hsum
  have hlt : addInt p.sz n < p.sz := by omega
  obtain ⟨s', hrun, hchanged⟩ := deallocuvm_spec supply p.space hfuel hlt h.sz_le
  have hnpos : ¬ n > 0 := by
    rw [pos_iff]
    omega
  rw [growproc, if_neg hnpos, if_pos ((neg_iff n).mpr hn), hrun]
  by_cases hzero : addInt p.sz n = 0
  · refine ⟨-1, { p with space := s' }, congrArg some (if_pos hzero), ?_⟩
    refine iff_of_false ?_ (by omega)
    rintro (⟨h0, _⟩ | ⟨_, _, hpage⟩)
    · exact absurd h0 (by decide)
    · -- the first page was there
      have hfirst : 0 < pagesOf p.sz := lt_pagesOf.mpr (by omega)
      have hgone := hchanged.inside 0 (by rw [hzero]; decide) hfirst
      rw [hpage 0 (by decide), h.present hfirst] at hgone
      exact absurd hgone (by decide)
  · refine ⟨0, ⟨addInt p.sz n, s'⟩, congrArg some (if_neg hzero), ?_⟩
    refine iff_of_true (Or.inl ⟨rfl, hadd, ?_⟩) (by omega)
    exact h.shrink hchanged (Nat.le_of_lt hlt)

/-- **`growproc` is exact and atomic if and only if** the process is empty
or keeps a size above 0. -/
theorem growproc_exact_iff : ∃ r p', growproc supply fuel p n = some (r, p')
    ∧ (ExactAtomic p n r p' ↔ p.sz = 0 ∨ 0 < p.sz + n.toInt) := by
  rcases Int.lt_trichotomy 0 n.toInt with hn | hn | hn
  · obtain ⟨r, p', hrun, hexact⟩ := growproc_pos supply hfuel h hn
    exact ⟨r, p', hrun, iff_of_true hexact (Or.inr (by omega))⟩
  · have hzero : n = 0 := Int32.toInt_inj.mp hn.symm
    refine ⟨0, p, by rw [hzero]; rfl, ?_⟩
    refine iff_of_true (Or.inl ⟨rfl, by omega, h⟩) (by omega)
  · rcases Int.lt_or_le (p.sz + n.toInt) 0 with hsum | hsum
    · obtain ⟨r, p', hrun, hexact⟩ := growproc_wrap supply h fuel hsum
      exact ⟨r, p', hrun, hexact.trans (by omega)⟩
    · obtain ⟨r, p', hrun, hexact⟩ := growproc_neg supply hfuel h hn hsum
      exact ⟨r, p', hrun, hexact.trans (by omega)⟩

end Calls

/-- A process with one page. -/
def onePage : Proc Nat :=
  ⟨4096, ⟨fun d => if d = 0 then some fun t => if t = 0 then some 7 else none
    else none, 0⟩⟩

theorem onePage_page (v : Nat) :
    onePage.space.page v = if v = 0 then some 7 else none := by
  show (if v / 1024 = 0 then some _ else none : Option (Nat → Option Nat)).bind _
    = _
  split
  · rename_i htable
    show (if v % 1024 = 0 then some 7 else none) = _
    rw [show v % 1024 = v by omega]
  · rw [if_neg (by omega)]
    rfl

theorem onePage_exact : Exact onePage := by
  intro v
  rw [onePage_page]
  show _ ↔ v < 1
  by_cases hv : v = 0
  · rw [hv]
    decide
  · rw [if_neg hv]
    exact iff_of_false (fun h => absurd h.2 Bool.false_ne_true) (by omega)

theorem growproc_exact_iff_onePage :
    Exact onePage
      ∧ ∃ r p', growproc (fun _ => none) (2 ^ 20) onePage 4096 = some (r, p')
        ∧ (ExactAtomic onePage 4096 r p'
          ↔ onePage.sz = 0 ∨ 0 < onePage.sz + (4096 : Int32).toInt) :=
  ⟨onePage_exact, growproc_exact_iff _ (Nat.le_refl _) onePage_exact⟩

/-- Giving the page back fails, and the page is gone. -/
theorem growproc_frees_and_fails :
    Exact onePage
      ∧ ∃ p', growproc (fun _ => none) (2 ^ 20) onePage (-4096) = some (-1, p')
        ∧ p'.sz = 4096 ∧ p'.space.page 0 = none
        ∧ ¬ ExactAtomic onePage (-4096) (-1) p' := by
  have hrun : (growproc (fun _ => none) (2 ^ 20) onePage (-4096)).map
      (fun (r, p') => (r, p'.sz, p'.space.page 0)) = some (-1, 4096, none) := by
    decide +kernel
  obtain ⟨r, p', hcall, hiff⟩ := growproc_neg (fun _ => none)
    (Nat.le_refl _) onePage_exact (n := -4096) (by decide) (by decide)
  rw [hcall] at hrun
  obtain ⟨rfl, hsz, hpage⟩ : r = -1 ∧ p'.sz = 4096 ∧ p'.space.page 0 = none := by
    simpa using hrun
  exact ⟨onePage_exact, p', hcall, hsz, hpage,
    fun h => absurd (hiff.mp h) (by decide)⟩

end SchoolStuff.Xv6.Vm
