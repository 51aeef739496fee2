import SchoolStuff.Lib.Subsets

/-!
# Knapsack — selections, optima and the density cut

Items are any type with a weight and a value. `IsOptimum l w v` says that
`v` is the greatest value of a selection from `l` within capacity `w`;
`snoc` is the recurrence on the last item. `cut_bound` is the greedy
argument: a list that starts with its densest items holds no selection of
at most their weight and more than their value.
-/

namespace SchoolStuff.Knapsack

variable {α : Type*} (wt val : α → Int)

/-- The weight of a selection; also its value, under another name. -/
def total (f : α → Int) (s : List α) : Int := (s.map f).sum

@[simp] theorem total_nil (f : α → Int) : total f [] = 0 := rfl

@[simp] theorem total_cons (f : α → Int) (x : α) (s : List α) :
    total f (x :: s) = f x + total f s := by
  simp [total]

@[simp] theorem total_append (f : α → Int) (s t : List α) :
    total f (s ++ t) = total f s + total f t := by
  simp [total]

theorem total_perm {f : α → Int} {s t : List α} (h : s.Perm t) :
    total f s = total f t :=
  (h.map f).sum_eq

theorem total_nonneg {f : α → Int} {s : List α} (hf : ∀ x ∈ s, 0 ≤ f x) :
    0 ≤ total f s := by
  apply List.sum_nonneg
  simpa using hf

theorem total_sublist {f : α → Int} {s l : List α} (h : s.Sublist l)
    (hf : ∀ x ∈ l, 0 ≤ f x) : total f s ≤ total f l :=
  Subsets.sum_le_of_sublist h hf

/-- A part weighs at most the whole. -/
theorem le_total {f : α → Int} {s : List α} (hf : ∀ x ∈ s, 0 ≤ f x) {x : α}
    (hx : x ∈ s) : f x ≤ total f s := by
  have := total_sublist (List.singleton_sublist.mpr hx) hf
  simpa using this

/-! ## Optima -/

/-- `s` is a selection from `l` within capacity `w`. -/
structure Fits (l : List α) (w : Int) (s : List α) : Prop where
  sublist : s.Sublist l
  weight : total wt s ≤ w

structure IsOptimum (l : List α) (w v : Int) : Prop where
  attained : ∃ s, Fits wt l w s ∧ total val s = v
  bound : ∀ s, Fits wt l w s → total val s ≤ v

variable {wt val} {l : List α} {w v : Int}

theorem IsOptimum.nil (hw : 0 ≤ w) : IsOptimum wt val [] w 0 := by
  refine ⟨⟨[], ⟨List.Sublist.refl _, hw⟩, rfl⟩, ?_⟩
  intro s hs
  rw [List.sublist_nil.mp hs.sublist]
  exact Int.le_refl 0

theorem IsOptimum.unique {v' : Int} (h : IsOptimum wt val l w v)
    (h' : IsOptimum wt val l w v') : v = v' := by
  obtain ⟨s, hs, rfl⟩ := h.attained
  obtain ⟨t, ht, rfl⟩ := h'.attained
  exact Int.le_antisymm (h'.bound s hs) (h.bound t ht)

/-- Nothing of positive weight fits into capacity zero. -/
theorem IsOptimum.zero (hwt : ∀ x ∈ l, 1 ≤ wt x) :
    IsOptimum wt val l 0 0 := by
  refine ⟨⟨[], ⟨List.nil_sublist l, Int.le_refl 0⟩, rfl⟩, ?_⟩
  intro s hs
  cases s with
  | nil => exact Int.le_refl 0
  | cons x s =>
      have hpos : ∀ y ∈ x :: s, 1 ≤ wt y :=
        fun y hy => hwt y (hs.sublist.subset hy)
      have hx := le_total (f := wt) (fun y hy => by have := hpos y hy; omega)
        (List.mem_cons_self)
      have := hpos x List.mem_cons_self
      have := hs.weight
      omega

theorem fits_concat {x : α} {s : List α} :
    Fits wt (l ++ [x]) w s
      ↔ Fits wt l w s ∨ ∃ s', s = s' ++ [x] ∧ Fits wt l (w - wt x) s' := by
  constructor
  · rintro ⟨hsub, hweight⟩
    obtain ⟨s₁, s₂, rfl, h₁, h₂⟩ := List.sublist_append_iff.mp hsub
    rcases List.sublist_singleton.mp h₂ with rfl | rfl
    · exact Or.inl ⟨by simpa using h₁, hweight⟩
    · refine Or.inr ⟨s₁, rfl, h₁, ?_⟩
      simp only [total_append, total_cons, total_nil] at hweight
      omega
  · rintro (⟨hsub, hweight⟩ | ⟨s', rfl, hsub, hweight⟩)
    · exact ⟨hsub.trans (List.sublist_append_left l [x]), hweight⟩
    · refine ⟨hsub.append (List.Sublist.refl [x]), ?_⟩
      simp only [total_append, total_cons, total_nil]
      omega

/-- **The recurrence** where the last item fits. -/
theorem IsOptimum.snoc {x : α} {a b : Int} (ha : IsOptimum wt val l w a)
    (hb : IsOptimum wt val l (w - wt x) b) :
    IsOptimum wt val (l ++ [x]) w (max a (val x + b)) := by
  constructor
  · rcases Int.le_total a (val x + b) with hle | hle
    · obtain ⟨s, hs, heq⟩ := hb.attained
      refine ⟨s ++ [x], fits_concat.mpr (Or.inr ⟨s, rfl, hs⟩), ?_⟩
      simp only [total_append, total_cons, total_nil]
      omega
    · obtain ⟨s, hs, heq⟩ := ha.attained
      exact ⟨s, fits_concat.mpr (Or.inl hs), by omega⟩
  · intro s hs
    rcases fits_concat.mp hs with hs | ⟨s', rfl, hs'⟩
    · have := ha.bound s hs
      omega
    · have := hb.bound s' hs'
      simp only [total_append, total_cons, total_nil]
      omega

/-- **The recurrence** where the last item is too heavy. -/
theorem IsOptimum.snoc_of_lt {x : α} {a : Int} (ha : IsOptimum wt val l w a)
    (hwt : ∀ y ∈ l, 0 ≤ wt y) (hx : w < wt x) :
    IsOptimum wt val (l ++ [x]) w a := by
  constructor
  · obtain ⟨s, hs, heq⟩ := ha.attained
    exact ⟨s, fits_concat.mpr (Or.inl hs), heq⟩
  · intro s hs
    rcases fits_concat.mp hs with hs | ⟨s', rfl, hs'⟩
    · exact ha.bound s hs
    · have := total_nonneg (f := wt) (s := s')
        fun y hy => hwt y (hs'.sublist.subset hy)
      have := hs'.weight
      omega

/-! ## The density cut -/

/-- `b` is not denser than `a`. -/
def Denser (wt val : α → Int) (a b : α) : Prop := val b * wt a ≤ val a * wt b

theorem total_denser {a : α} : ∀ {s : List α},
    (∀ b ∈ s, Denser wt val a b) → total val s * wt a ≤ val a * total wt s := by
  intro s
  induction s with
  | nil => simp
  | cons b s ih =>
      intro hd
      rw [total_cons, total_cons, Int.add_mul, Int.mul_add]
      exact Int.add_le_add (hd b List.mem_cons_self)
        (ih fun b' hb' => hd b' (List.mem_cons_of_mem b hb'))

theorem cross_total {s : List α} : ∀ {r : List α},
    (∀ a ∈ r, ∀ b ∈ s, Denser wt val a b) →
    total val s * total wt r ≤ total val r * total wt s := by
  intro r
  induction r with
  | nil => simp
  | cons a r ih =>
      intro hd
      rw [total_cons, total_cons, Int.mul_add, Int.add_mul]
      exact Int.add_le_add (total_denser (hd a List.mem_cons_self))
        (ih fun a' ha' => hd a' (List.mem_cons_of_mem a ha'))

/-- **The greedy argument.** No selection from `A ++ B` of at most the
weight of `A` has more value than `A`, when nothing in `B` is denser than
anything in `A`. -/
theorem cut_bound {A B s : List α} (hwt : ∀ x ∈ A ++ B, 1 ≤ wt x)
    (hval : ∀ x ∈ A, 0 ≤ val x)
    (hd : ∀ a ∈ A, ∀ b ∈ B, Denser wt val a b)
    (hs : Fits wt (A ++ B) (total wt A) s) : total val s ≤ total val A := by
  obtain ⟨s₁, s₂, rfl, h₁, h₂⟩ := List.sublist_append_iff.mp hs.sublist
  -- what `s₁` leaves of `A` outweighs `s₂`
  obtain ⟨r, hr⟩ := h₁.exists_perm_append
  have hrA : ∀ x ∈ r, x ∈ A := fun x hx =>
    hr.mem_iff.mpr (List.mem_append_right s₁ hx)
  have hweight : total wt s₂ ≤ total wt r := by
    have := hs.weight
    rw [total_perm hr, total_append, total_append] at this
    omega
  have hcross : total val s₂ * total wt r ≤ total val r * total wt s₂ :=
    cross_total fun a ha b hb => hd a (hrA a ha) b (h₂.subset hb)
  have hrval : 0 ≤ total val r := total_nonneg fun x hx => hval x (hrA x hx)
  -- so what is left out is worth at least what comes from `B`
  have hle : total val s₂ ≤ total val r := by
    cases s₂ with
    | nil => exact hrval
    | cons b s₂ =>
        have hpos : ∀ x ∈ b :: s₂, 1 ≤ wt x := fun x hx =>
          hwt x (List.mem_append_right A (h₂.subset hx))
        have hb : wt b ≤ total wt (b :: s₂) :=
          le_total (fun x hx => by have := hpos x hx; omega)
            List.mem_cons_self
        have hb1 := hpos b List.mem_cons_self
        have hrpos : 0 < total wt r := by omega
        refine Int.le_of_mul_le_mul_right (Int.le_trans hcross ?_) hrpos
        exact Int.mul_le_mul_of_nonneg_left hweight hrval
  rw [total_perm hr, total_append, total_append]
  omega

end SchoolStuff.Knapsack
