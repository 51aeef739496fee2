import SchoolStuff.Lib.Holdings
import SchoolStuff.Xv6.Phys

/-!
# Xv6 — what a page directory holds

A page directory in memory is read as tables (`table`) and, through both
levels, as entries (`entry`); `frames` are the frames it takes, for itself, its
tables and its user pages. As long as no frame is taken twice, a store to a
table changes one entry (`entry_store`), a new table none (`entry_grow`), and a
change to any other frame nothing (`dirOf_congr`).
-/

namespace SchoolStuff.Xv6.Phys

open Vm (PGSIZE KERNBASE NPTENTRIES UPAGES PDX PTX PDX_eq PTX_eq)
open Holdings

/-! ## Entries -/

theorem present_iff {pte : Nat} : present pte = true ↔ pte % 2 = 1 := by
  simp [present, PTE_P, Nat.and_one_is_mod]

/-- An entry that refers to frame `f`. -/
theorem entry_word {f flags : Nat} (hflags : flags < PGSIZE) :
    f * PGSIZE ||| flags ||| PTE_P = f * PGSIZE + (flags ||| 1) := by
  have hlt : flags ||| 1 < 2 ^ 12 := Nat.or_lt_two_pow hflags (by decide)
  rw [Nat.or_assoc, Nat.mul_comm]
  exact (Nat.two_pow_add_eq_or_of_lt hlt f).symm

theorem frame_word {f flags : Nat} (hflags : flags < PGSIZE) :
    (f * PGSIZE ||| flags ||| PTE_P) / PGSIZE = f := by
  have hlt : flags ||| 1 < 2 ^ 12 := Nat.or_lt_two_pow hflags (by decide)
  rw [entry_word hflags]
  simp only [PGSIZE] at *
  omega

theorem flags_word {f flags : Nat} (hflags : flags < PGSIZE) :
    PTE_FLAGS (f * PGSIZE ||| flags ||| PTE_P) = flags ||| 1 := by
  have hlt : flags ||| 1 < 2 ^ 12 := Nat.or_lt_two_pow hflags (by decide)
  rw [entry_word hflags, PTE_FLAGS]
  simp only [PGSIZE] at *
  omega

theorem present_word {f flags : Nat} (hflags : flags < PGSIZE) :
    present (f * PGSIZE ||| flags ||| PTE_P) = true := by
  rw [present_iff, entry_word hflags]
  have hodd : (flags ||| 1) % 2 = 1 := by
    rw [Nat.or_mod_two_eq_one]
    exact .inr rfl
  simp only [PGSIZE]
  omega

/-- The flags of an entry that is present are those of its copy. -/
theorem flags_or_one {flags : Nat} (h : flags % 2 = 1) : flags ||| 1 = flags := by
  have hdiv : (flags ||| 1) / 2 = flags / 2 := by
    rw [Nat.or_div_two]
    exact Nat.or_zero _
  have hmod : (flags ||| 1) % 2 = 1 := Nat.or_mod_two_eq_one.2 (.inr rfl)
  omega

theorem pde_word (f : Nat) :
    f * PGSIZE ||| PTE_P ||| PTE_W ||| PTE_U = f * PGSIZE ||| 6 ||| PTE_P := by
  rw [Nat.or_assoc, Nat.or_assoc, Nat.or_assoc]
  rfl

/-! ## Reading a directory -/

section Read

variable (m : Nat → Nat → Nat) (d : Nat)

/-- The table at index `i` of the directory in frame `d`. -/
def table (i : Nat) : Option Nat :=
  if i < NPDENTRIES ∧ present (m d i) then some (m d i / PGSIZE) else none

/-- Both levels of the directory. -/
def dirOf : TwoLevel.Dir Nat := fun i =>
  (table m d i).map fun t j => if present (m t j) then some (m t j) else none

/-- The entry of the page with number `v`, if it is present. -/
def entry (v : Nat) : Option Nat := TwoLevel.get NPTENTRIES (dirOf m d) v

def frameAt (v : Nat) : Option Nat := (entry m d v).map (· / PGSIZE)

/-- The frames of a directory, its tables and its user pages. -/
def frames : List Nat := d :: (held (table m d) NPDENTRIES ++ held (frameAt m d) UPAGES)

end Read

variable {m m' : Nat → Nat → Nat} {d i t v f w pte : Nat}

theorem table_lt (h : table m d i = some t) : i < NPDENTRIES := by
  by_contra hge
  simp [table, hge] at h

theorem table_congr (h : m' d = m d) : table m' d = table m d := by
  funext i
  simp only [table, h]

theorem dirOf_congr (hd : m' d = m d) (ht : ∀ i t, table m d i = some t → m' t = m t) :
    dirOf m' d = dirOf m d := by
  funext i
  simp only [dirOf, table_congr hd]
  cases h : table m d i with
  | none => rfl
  | some t => simp only [Option.map_some, ht i t h]

theorem entry_of_table (h : table m d (v / NPTENTRIES) = some t) :
    entry m d v = if present (m t (v % NPTENTRIES)) then some (m t (v % NPTENTRIES))
      else none := by
  simp [entry, TwoLevel.get, dirOf, h]

theorem entry_of_none (h : table m d (v / NPTENTRIES) = none) : entry m d v = none := by
  simp [entry, TwoLevel.get, dirOf, h]

theorem frameAt_of_entry (h : entry m d v = some pte) : frameAt m d v = some (pte / PGSIZE) := by
  rw [frameAt, h]
  rfl

theorem frames_congr (ht : table m' d = table m d) (he : entry m' d = entry m d) :
    frames m' d = frames m d := by
  have hf : frameAt m' d = frameAt m d := by
    funext v
    simp only [frameAt, he]
  rw [frames, frames, ht, hf]

/-! ### No frame twice -/

theorem mem_frames_table (h : table m d i = some t) : t ∈ frames m d :=
  List.mem_cons_of_mem _ (List.mem_append_left _ (mem_held.2 ⟨i, table_lt h, h⟩))

theorem mem_frames_page (hv : v < UPAGES) (h : frameAt m d v = some f) : f ∈ frames m d :=
  List.mem_cons_of_mem _ (List.mem_append_right _ (mem_held.2 ⟨v, hv, h⟩))

/-- What is in other frames does not matter. -/
theorem table_same (h : ∀ g ∈ frames m d, m' g = m g) : table m' d = table m d :=
  table_congr (h d List.mem_cons_self)

theorem dirOf_same (h : ∀ g ∈ frames m d, m' g = m g) : dirOf m' d = dirOf m d :=
  dirOf_congr (h d List.mem_cons_self) fun _ t ht => h t (mem_frames_table ht)

theorem entry_same (h : ∀ g ∈ frames m d, m' g = m g) : entry m' d = entry m d := by
  funext v
  rw [entry, entry, dirOf_same h]

theorem frames_same (h : ∀ g ∈ frames m d, m' g = m g) : frames m' d = frames m d :=
  frames_congr (table_same h) (entry_same h)

section Nodup

variable (hnd : (frames m d).Nodup)

include hnd

theorem table_ne (h : table m d i = some t) : t ≠ d := by
  rintro rfl
  exact (List.nodup_cons.1 hnd).1 (List.mem_append_left _ (mem_held.2 ⟨i, table_lt h, h⟩))

theorem table_inj {j : Nat} (hi : table m d i = some t) (hj : table m d j = some t) :
    i = j :=
  held_inj (List.nodup_append.1 (List.nodup_cons.1 hnd).2).1 (table_lt hi) (table_lt hj) hi hj

theorem page_ne (hv : v < UPAGES) (h : frameAt m d v = some f) : f ≠ d := by
  rintro rfl
  exact (List.nodup_cons.1 hnd).1 (List.mem_append_right _ (mem_held.2 ⟨v, hv, h⟩))

theorem page_ne_table (hv : v < UPAGES) (h : frameAt m d v = some f)
    (ht : table m d i = some t) : f ≠ t := by
  have hdisj := (List.nodup_append.1 (List.nodup_cons.1 hnd).2).2.2
  exact fun heq => hdisj t (mem_held.2 ⟨i, table_lt ht, ht⟩) f (mem_held.2 ⟨v, hv, h⟩) heq.symm

theorem page_inj {u : Nat} (hv : v < UPAGES) (hu : u < UPAGES)
    (h : frameAt m d v = some f) (h' : frameAt m d u = some f) : v = u :=
  held_inj (List.nodup_append.1 (List.nodup_cons.1 hnd).2).2.1 hv hu h h'

end Nodup

/-- A page among the frames, put in front of them. -/
theorem frames_page {tables pages pages' : List Nat} (h : pages'.Perm (f :: pages)) :
    (d :: (tables ++ pages')).Perm (f :: d :: (tables ++ pages)) := by
  have hmiddle : (tables ++ pages').Perm (f :: (tables ++ pages)) :=
    (h.append_left tables).trans List.perm_middle
  exact (hmiddle.cons d).trans (List.Perm.swap _ _ _)

/-! ### A store to a table -/

section Store

variable (hnd : (frames m d).Nodup) (ht : table m d (v / NPTENTRIES) = some t)
  (hm : m' = Function.update m t (Function.update (m t) (v % NPTENTRIES) w))

include hnd ht hm

theorem table_store : table m' d = table m d :=
  table_congr (by rw [hm, Function.update_of_ne (table_ne hnd ht).symm])

theorem dirOf_store : dirOf m' d =
    TwoLevel.set (dirOf m d) (v / NPTENTRIES) (v % NPTENTRIES)
      (if present w then some w else none) := by
  funext i
  by_cases hi : i = v / NPTENTRIES
  · subst hi
    rw [TwoLevel.set, Function.update_self, dirOf, table_store hnd ht hm, dirOf, ht,
      Option.map_some, Option.map_some, Option.map_some, hm, Function.update_self]
    congr 1
    funext j
    by_cases hj : j = v % NPTENTRIES
    · rw [hj, Function.update_self, Function.update_self]
    · rw [Function.update_of_ne hj, Function.update_of_ne hj]
  · rw [TwoLevel.set, Function.update_of_ne hi, dirOf, dirOf, table_store hnd ht hm]
    cases htab : table m d i with
    | none => rfl
    | some t' =>
        have hne : t' ≠ t := fun heq => hi (table_inj hnd (heq ▸ htab) ht)
        rw [Option.map_some, Option.map_some, hm, Function.update_of_ne hne]

theorem entry_store (u : Nat) : entry m' d u =
    if u = v then (if present w then some w else none) else entry m d u := by
  rw [entry, dirOf_store hnd ht hm]
  exact TwoLevel.get_set (by simp [dirOf, ht]) _ u

/-- Above the user part nothing is counted. -/
theorem frames_store_kernel (hv : UPAGES ≤ v) : frames m' d = frames m d := by
  have hpages : held (frameAt m' d) UPAGES = held (frameAt m d) UPAGES := by
    refine held_congr fun u hu => ?_
    rw [frameAt, frameAt, entry_store hnd ht hm, if_neg (by omega)]
  rw [frames, frames, table_store hnd ht hm, hpages]

/-- An entry that was absent. -/
theorem frames_put (hv : v < UPAGES) (hnone : entry m d v = none) (hw : present w = true) :
    (frames m' d).Perm (w / PGSIZE :: frames m d) := by
  have hpages : (held (frameAt m' d) UPAGES).Perm (w / PGSIZE :: held (frameAt m d) UPAGES) := by
    refine held_give hv (by rw [frameAt, hnone]; rfl) fun u => ?_
    rw [frameAt, entry_store hnd ht hm, if_pos hw]
    by_cases hu : u = v
    · rw [if_pos hu, if_pos hu]
      rfl
    · rw [if_neg hu, if_neg hu, frameAt]
  rw [frames, frames, table_store hnd ht hm]
  exact frames_page hpages

/-- An entry that is cleared. -/
theorem frames_drop (hv : v < UPAGES) (hsome : entry m d v = some pte)
    (hw : present w = false) : (frames m d).Perm (pte / PGSIZE :: frames m' d) := by
  have hpages : (held (frameAt m d) UPAGES).Perm
      (pte / PGSIZE :: held (frameAt m' d) UPAGES) := by
    refine held_take hv (by rw [frameAt, hsome]; rfl) fun u => ?_
    rw [frameAt, entry_store hnd ht hm]
    by_cases hu : u = v
    · rw [if_pos hu, if_neg (by simp [hw]), if_pos hu]
      rfl
    · rw [if_neg hu, if_neg hu, frameAt]
  rw [frames, frames, table_store hnd ht hm]
  exact frames_page hpages

end Store

/-! ### A new table -/

section Grow

variable (hm : m' = Function.update (Function.update m f fun _ => 0) d
    (Function.update (m d) i (f * PGSIZE ||| PTE_P ||| PTE_W ||| PTE_U)))
  (hi : i < NPDENTRIES)

include hm hi

theorem table_grow (j : Nat) : table m' d j = if j = i then some f else table m d j := by
  have hdir : m' d = Function.update (m d) i (f * PGSIZE ||| 6 ||| PTE_P) := by
    rw [hm, Function.update_self, pde_word]
  have hsix : 6 < PGSIZE := by decide
  by_cases hj : j = i
  · subst hj
    rw [table, hdir, Function.update_self, if_pos ⟨hi, present_word hsix⟩, if_pos rfl,
      frame_word hsix]
  · rw [if_neg hj, table, hdir, Function.update_of_ne hj, table]

variable (hnd : (frames m d).Nodup) (hf : f ∉ frames m d)

include hnd hf

theorem dirOf_grow : dirOf m' d = TwoLevel.ensure (dirOf m d) i := by
  funext j
  rw [dirOf, table_grow hm hi]
  by_cases hj : j = i
  · subst hj
    have hfd : f ≠ d := fun h => hf (h ▸ List.mem_cons_self)
    rw [if_pos rfl, TwoLevel.ensure, Function.update_self, Option.map_some, hm,
      Function.update_of_ne hfd, Function.update_self]
    rfl
  · rw [if_neg hj, TwoLevel.ensure, Function.update_of_ne hj, dirOf]
    cases htab : table m d j with
    | none => rfl
    | some t =>
        have hne : t ≠ f := fun h => hf (h ▸ mem_frames_table htab)
        rw [Option.map_some, Option.map_some, hm, Function.update_of_ne (table_ne hnd htab),
          Function.update_of_ne hne]

variable (hnone : table m d i = none)

include hnone

theorem entry_grow : entry m' d = entry m d := by
  funext v
  rw [entry, dirOf_grow hm hi hnd hf]
  exact TwoLevel.get_ensure (by rw [dirOf, hnone]; rfl) v

theorem frames_grow : (frames m' d).Perm (f :: frames m d) := by
  have htables : (held (table m' d) NPDENTRIES).Perm (f :: held (table m d) NPDENTRIES) :=
    held_give hi hnone (table_grow hm hi)
  have hpages : held (frameAt m' d) UPAGES = held (frameAt m d) UPAGES := by
    refine held_congr fun v _ => ?_
    rw [frameAt, frameAt, entry_grow hm hi hnd hf hnone]
  rw [frames, frames, hpages]
  exact ((htables.append_right _).cons d).trans (List.Perm.swap _ _ _)

end Grow

end SchoolStuff.Xv6.Phys
