import Mathlib.Data.Finset.Card
import Mathlib.Data.Finset.Max
import Mathlib.Tactic.Order

/-!
# Cyclic — a finite set in a linear order, gone through round and round

`Next S x y` says that `y` comes after `x`: the least element above `x`, or the
least of all when `x` is the greatest. A new element belongs on the way from one
element to the next (`Between`), and there is one such place. Who goes on from
element to element comes closer to each of them (`steps_lt`).
-/

namespace SchoolStuff.Cyclic

variable {α : Type*} [LinearOrder α] {S : Finset α} {x y z w b t : α} {next : α → α}

/-- `y` is the element after `x`. -/
def Next (S : Finset α) (x y : α) : Prop :=
  y ∈ S ∧ (x < y ∧ (∀ z ∈ S, z ≤ x ∨ y ≤ z) ∨ y ≤ x ∧ ∀ z ∈ S, y ≤ z ∧ z ≤ x)

/-- `b` is passed on the way from `x` to the next element `y`. -/
def Between (x b y : α) : Prop := x < b ∧ b < y ∨ y ≤ x ∧ (x < b ∨ b < y)

instance : Decidable (Between x b y) := by
  unfold Between
  infer_instance

theorem next_singleton (x : α) : Next {x} x x := by
  refine ⟨Finset.mem_singleton_self x, Or.inr ⟨le_refl x, fun z hz => ?_⟩⟩
  rw [Finset.mem_singleton.1 hz]
  exact ⟨le_refl x, le_refl x⟩

/-- Only one element is before another. -/
theorem Next.prev_unique (hx : x ∈ S) (hw : w ∈ S) (h : Next S x y) (h' : Next S w y) :
    x = w := by
  obtain ⟨_, ⟨hxy, hx'⟩ | ⟨hyx, hx'⟩⟩ := h
  · obtain ⟨_, ⟨hwy, hw'⟩ | ⟨hyw, hw'⟩⟩ := h'
    · rcases hx' w hw with hle | hle
      · rcases hw' x hx with hle' | hle'
        · exact le_antisymm hle' hle
        · exact absurd hxy (not_lt.2 hle')
      · exact absurd hwy (not_lt.2 hle)
    · exact absurd hxy (not_lt.2 (hw' x hx).1)
  · obtain ⟨_, ⟨hwy, _⟩ | ⟨_, hw'⟩⟩ := h'
    · exact absurd hwy (not_lt.2 (hx' w hw).1)
    · exact le_antisymm (hw' x hx).2 (hx' w hw).2

/-- The next larger element, if there is one, is the next. -/
theorem Next.eq_of_lt (h : Next S x y) (hz : z ∈ S) (hxz : x < z)
    (hnone : ∀ w ∈ S, w ≤ x ∨ z ≤ w) : y = z := by
  obtain ⟨hy, ⟨hxy, hx'⟩ | ⟨_, hx'⟩⟩ := h
  · rcases hx' z hz with hle | hle
    · exact absurd hxz (not_lt.2 hle)
    · rcases hnone y hy with hle' | hle'
      · exact absurd hxy (not_lt.2 hle')
      · exact le_antisymm hle hle'
  · exact absurd hxz (not_lt.2 (hx' z hz).2)

/-- An element follows itself when it is alone. -/
theorem Next.eq_singleton (h : Next S x x) : S = {x} := by
  obtain ⟨hx, ⟨hlt, _⟩ | ⟨_, hall⟩⟩ := h
  · exact absurd hlt (lt_irrefl x)
  · exact Finset.eq_singleton_iff_unique_mem.2
      ⟨hx, fun z hz => le_antisymm (hall z hz).2 (hall z hz).1⟩

/-! ## A new element -/

theorem Next.insert_before (h : Next S x y) (hb : Between x b y) : Next (insert b S) x b := by
  refine ⟨Finset.mem_insert_self b S, ?_⟩
  obtain ⟨_, ⟨hxy, hall⟩ | ⟨hyx, hall⟩⟩ := h
  · obtain ⟨hxb, hby⟩ : x < b ∧ b < y := hb.resolve_right fun hor => not_le.2 hxy hor.1
    refine Or.inl ⟨hxb, fun z hz => ?_⟩
    rcases Finset.mem_insert.1 hz with rfl | hz
    · exact Or.inr (le_refl z)
    · exact (hall z hz).imp id fun hyz => le_trans (le_of_lt hby) hyz
  · rcases lt_or_ge x b with hxb | hbx
    · refine Or.inl ⟨hxb, fun z hz => ?_⟩
      rcases Finset.mem_insert.1 hz with rfl | hz
      · exact Or.inr (le_refl z)
      · exact Or.inl (hall z hz).2
    · have hby : b < y := by
        obtain ⟨hxb, _⟩ | ⟨_, hxb | hby⟩ := hb
        · exact absurd hxb (not_lt.2 hbx)
        · exact absurd hxb (not_lt.2 hbx)
        · exact hby
      refine Or.inr ⟨hbx, fun z hz => ?_⟩
      rcases Finset.mem_insert.1 hz with rfl | hz
      · exact ⟨le_refl z, hbx⟩
      · exact ⟨le_trans (le_of_lt hby) (hall z hz).1, (hall z hz).2⟩

theorem Next.insert_after (h : Next S x y) (hb : Between x b y) : Next (insert b S) b y := by
  refine ⟨Finset.mem_insert_of_mem h.1, ?_⟩
  obtain ⟨_, ⟨hxy, hall⟩ | ⟨hyx, hall⟩⟩ := h
  · obtain ⟨hxb, hby⟩ : x < b ∧ b < y := hb.resolve_right fun hor => not_le.2 hxy hor.1
    refine Or.inl ⟨hby, fun z hz => ?_⟩
    rcases Finset.mem_insert.1 hz with rfl | hz
    · exact Or.inl (le_refl z)
    · exact (hall z hz).imp (fun hzx => le_trans hzx (le_of_lt hxb)) id
  · rcases lt_or_ge b y with hby | hyb
    · refine Or.inl ⟨hby, fun z hz => ?_⟩
      rcases Finset.mem_insert.1 hz with rfl | hz
      · exact Or.inl (le_refl z)
      · exact Or.inr (hall z hz).1
    · have hxb : x < b := by
        obtain ⟨hxb, _⟩ | ⟨_, hxb | hby⟩ := hb
        · exact hxb
        · exact hxb
        · exact absurd hby (not_lt.2 hyb)
      refine Or.inr ⟨hyb, fun z hz => ?_⟩
      rcases Finset.mem_insert.1 hz with rfl | hz
      · exact ⟨hyb, le_refl z⟩
      · exact ⟨(hall z hz).1, le_trans (hall z hz).2 (le_of_lt hxb)⟩

theorem Next.insert_other (h : Next S x y) (hb : ¬Between x b y) : Next (insert b S) x y := by
  refine ⟨Finset.mem_insert_of_mem h.1, ?_⟩
  obtain ⟨_, ⟨hxy, hall⟩ | ⟨hyx, hall⟩⟩ := h
  · refine Or.inl ⟨hxy, fun z hz => ?_⟩
    rcases Finset.mem_insert.1 hz with rfl | hz
    · rcases le_or_gt z x with hle | hlt
      · exact Or.inl hle
      · exact Or.inr (not_lt.1 fun hlt' => hb (Or.inl ⟨hlt, hlt'⟩))
    · exact hall z hz
  · refine Or.inr ⟨hyx, fun z hz => ?_⟩
    rcases Finset.mem_insert.1 hz with rfl | hz
    · exact ⟨not_lt.1 fun hlt => hb (Or.inr ⟨hyx, Or.inr hlt⟩),
        not_lt.1 fun hlt => hb (Or.inr ⟨hyx, Or.inl hlt⟩)⟩
    · exact hall z hz

/-- There is one place for a new element. -/
theorem Between.unique (hx : x ∈ S) (hw : w ∈ S) (h : Next S x y) (h' : Next S w z)
    (hxb : Between x b y) (hwb : Between w b z) : x = w :=
  -- both would be the element before `b`
  (h.insert_before hxb).prev_unique (Finset.mem_insert_of_mem hx) (Finset.mem_insert_of_mem hw)
    (h'.insert_before hwb)

/-- There is a place for a new element. -/
theorem exists_between (hb : b ∉ S) (hne : S.Nonempty) (hnext : ∀ x ∈ S, Next S x (next x)) :
    ∃ x ∈ S, Between x b (next x) := by
  by_cases hbelow : (S.filter (· < b)).Nonempty
  · -- behind the greatest of the smaller elements
    have hmem := Finset.mem_filter.1 (Finset.max'_mem _ hbelow)
    generalize hx : (S.filter (· < b)).max' hbelow = x at hmem
    refine ⟨x, hmem.1, ?_⟩
    rcases lt_or_ge x (next x) with hlt | hge
    · refine Or.inl ⟨hmem.2, not_le.1 fun hle => ?_⟩
      have hy := (hnext x hmem.1).1
      have hlt' : next x < b := lt_of_le_of_ne hle fun heq => hb (heq ▸ hy)
      have hbelow' : next x ∈ S.filter (· < b) := Finset.mem_filter.2 ⟨hy, hlt'⟩
      have hmax := Finset.le_max' _ _ hbelow'
      rw [hx] at hmax
      exact absurd hlt (not_lt.2 hmax)
    · exact Or.inr ⟨hge, Or.inl hmem.2⟩
  · -- before the least element, behind the greatest
    have hall : ∀ z ∈ S, b < z := by
      intro z hz
      refine lt_of_le_of_ne (not_lt.1 fun hlt => ?_) fun heq => hb (heq ▸ hz)
      exact hbelow ⟨z, Finset.mem_filter.2 ⟨hz, hlt⟩⟩
    have hmem := Finset.max'_mem S hne
    have hy := (hnext _ hmem).1
    exact ⟨S.max' hne, hmem, Or.inr ⟨Finset.le_max' S _ hy, Or.inr (hall _ hy)⟩⟩

/-! ## An element less -/

theorem Next.erase (h : Next S x y) (h' : Next S y z) (hx : x ∈ S) (hxy : x ≠ y) :
    Next (S.erase y) x z := by
  have hz : z ≠ y := by
    rintro rfl
    exact hxy (Finset.mem_singleton.1 (h'.eq_singleton ▸ hx))
  refine ⟨Finset.mem_erase.2 ⟨hz, h'.1⟩, ?_⟩
  obtain ⟨hy, ⟨hlt, hall⟩ | ⟨hle, hall⟩⟩ := h
  · obtain ⟨hz', ⟨hlt', hall'⟩ | ⟨hle', hall'⟩⟩ := h'
    · refine Or.inl ⟨lt_trans hlt hlt', fun w hw => ?_⟩
      obtain ⟨hwy, hw⟩ := Finset.mem_erase.1 hw
      rcases hall w hw with hwx | hyw
      · exact Or.inl hwx
      · exact (hall' w hw).imp (fun hwy' => absurd (le_antisymm hwy' hyw) hwy) id
    · refine Or.inr ⟨(hall' x hx).1, fun w hw => ?_⟩
      obtain ⟨hwy, hw⟩ := Finset.mem_erase.1 hw
      refine ⟨(hall' w hw).1, (hall w hw).resolve_right fun hyw => ?_⟩
      exact hwy (le_antisymm (hall' w hw).2 hyw)
  · obtain ⟨hz', ⟨hlt', hall'⟩ | ⟨hle', hall'⟩⟩ := h'
    · refine Or.inr ⟨(hall z hz').2, fun w hw => ?_⟩
      obtain ⟨hwy, hw⟩ := Finset.mem_erase.1 hw
      exact ⟨(hall' w hw).resolve_left fun hle' => hwy (le_antisymm hle' (hall w hw).1),
        (hall w hw).2⟩
    · exact absurd (le_antisymm hle' (hall z hz').1) hz

theorem Next.erase_other (h : Next S w z) (hz : z ≠ y) : Next (S.erase y) w z := by
  refine ⟨Finset.mem_erase.2 ⟨hz, h.1⟩, ?_⟩
  obtain ⟨_, ⟨hlt, hall⟩ | ⟨hle, hall⟩⟩ := h
  · exact Or.inl ⟨hlt, fun v hv => hall v (Finset.mem_of_mem_erase hv)⟩
  · exact Or.inr ⟨hle, fun v hv => hall v (Finset.mem_of_mem_erase hv)⟩

/-! ## Going round -/

/-- The elements to go on by from `p` before `t` is reached. -/
def steps (S : Finset α) (t p : α) : Nat :=
  if p = t then 0
  else if p < t then (S.filter fun z => p < z ∧ z ≤ t).card
  else (S.filter fun z => p < z ∨ z ≤ t).card

theorem steps_le_card (S : Finset α) (t p : α) : steps S t p ≤ S.card := by
  unfold steps
  split
  · exact Nat.zero_le _
  split
  · exact Finset.card_filter_le S _
  · exact Finset.card_filter_le S _

theorem steps_self (S : Finset α) (t : α) : steps S t t = 0 := if_pos rfl

omit [LinearOrder α] in
theorem card_filter_lt {P Q : α → Prop} [DecidablePred P] [DecidablePred Q] (hy : y ∈ S)
    (hQ : Q y) (hP : ¬P y) (himp : ∀ z ∈ S, P z → Q z) :
    (S.filter P).card < (S.filter Q).card := by
  apply Finset.card_lt_card
  refine (Finset.ssubset_iff_of_subset fun z hz => ?_).2 ⟨y, Finset.mem_filter.2 ⟨hy, hQ⟩, ?_⟩
  · obtain ⟨hz, hPz⟩ := Finset.mem_filter.1 hz
    exact Finset.mem_filter.2 ⟨hz, himp z hz hPz⟩
  · exact fun hmem => hP (Finset.mem_filter.1 hmem).2

/-- **The next element is closer.** -/
theorem steps_lt (ht : t ∈ S) (h : Next S x y) (hxt : x ≠ t) : steps S t y < steps S t x := by
  obtain ⟨hy, ⟨hxy, hall⟩ | ⟨hyx, hall⟩⟩ := h
  · rcases lt_or_gt_of_ne hxt with hlt | hgt
    · have hyt : y ≤ t := (hall t ht).resolve_left fun hle => absurd hlt (not_lt.2 hle)
      have hpos : 0 < steps S t x := by
        rw [steps, if_neg hxt, if_pos hlt]
        exact Finset.card_pos.2 ⟨y, Finset.mem_filter.2 ⟨hy, hxy, hyt⟩⟩
      rcases eq_or_lt_of_le hyt with rfl | hyt'
      · rwa [steps_self]
      · rw [steps, steps, if_neg hxt, if_pos hlt, if_neg (ne_of_lt hyt'), if_pos hyt']
        exact card_filter_lt hy ⟨hxy, hyt⟩ (fun hP => lt_irrefl y hP.1)
          fun z _ hP => ⟨lt_trans hxy hP.1, hP.2⟩
    · have hty : t < y := lt_trans hgt hxy
      rw [steps, steps, if_neg hxt, if_neg (not_lt.2 (le_of_lt hgt)), if_neg (ne_of_gt hty),
        if_neg (not_lt.2 (le_of_lt hty))]
      exact card_filter_lt hy (Or.inl hxy)
        (fun hP => hP.elim (lt_irrefl y) fun hle => absurd hty (not_lt.2 hle))
        fun z _ hP => hP.imp (lt_trans hxy) id
  · -- `x` is the greatest and `y` the least
    have hlt : t < x := lt_of_le_of_ne (hall t ht).2 (Ne.symm hxt)
    rw [steps.eq_1 S t x, if_neg hxt, if_neg (not_lt.2 (le_of_lt hlt))]
    rcases eq_or_lt_of_le (hall t ht).1 with rfl | hyt
    · rw [steps_self]
      exact Finset.card_pos.2 ⟨y, Finset.mem_filter.2 ⟨hy, Or.inr (le_refl y)⟩⟩
    · rw [steps, if_neg (ne_of_lt hyt), if_pos hyt]
      exact card_filter_lt hy (Or.inr (le_of_lt hyt)) (fun hP => lt_irrefl y hP.1)
        fun z _ hP => Or.inr hP.2

/-- What the next elements inherit is true of all. -/
theorem forall_of_next {P : α → Prop} (hnext : ∀ x ∈ S, Next S x (next x)) (hx : x ∈ S)
    (hP : P x) (hstep : ∀ z ∈ S, P z → P (next z)) (ht : t ∈ S) : P t := by
  induction hn : steps S t x using Nat.strong_induction_on generalizing x with
  | _ n ih =>
      by_cases hxt : x = t
      · exact hxt ▸ hP
      · exact ih _ (hn ▸ steps_lt ht (hnext x hx) hxt) (hnext x hx).1 (hstep x hx hP) rfl

end SchoolStuff.Cyclic
