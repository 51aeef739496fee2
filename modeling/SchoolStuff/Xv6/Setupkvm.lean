import Mathlib.Data.Finset.Max
import Mathlib.Order.Interval.Finset.Nat
import SchoolStuff.Xv6.Freevm

/-!
# Xv6 — `setupkvm`, to the last page or not at all

`Built` says which pages a directory maps that is being built, and that it has
the tables these need and no others; the frames it takes are then counted by
its pages (`Built.size`). A region of the kernel adds its pages, or one of its
tables is the first call of `kalloc` to fail and `freevm` gives everything
back.
-/

namespace SchoolStuff.Xv6.Phys

open Vm (PGSIZE KERNBASE NPTENTRIES UPAGES)
open Holdings

variable {l : Linker} {fails : Nat → Bool} {s₀ s s' : State} {d v w n pa perm : Nat}
  {P Q : Finset Nat} {loose : List Nat}

/-! ## Directories being built -/

/-- The tables that the pages `P` need. -/
def tablesOf (P : Finset Nat) : Finset Nat := P.image (· / NPTENTRIES)

/-- The directory in frame `d` maps the pages `P`. It and the frames `loose`
are all that has been taken. -/
structure Built (fails : Nat → Bool) (s₀ s : State) (d : Nat) (P : Finset Nat)
    (loose : List Nat) : Prop where
  taken : Taken fails s₀ s (frames s.mem d ++ loose)
  pages : ∀ u, (entry s.mem d u).isSome ↔ u ∈ P
  tables : ∀ i, (table s.mem d i).isSome ↔ i ∈ tablesOf P

/-- The frames of a directory: its own, its tables and its user pages. -/
theorem Built.size (h : Built fails s₀ s d P loose) :
    (frames s.mem d).length = 1 + (tablesOf P).card + (P.filter (· < UPAGES)).card := by
  have htables : ((Finset.range NPDENTRIES).filter fun i => (table s.mem d i).isSome) =
      tablesOf P := by
    ext i
    rw [Finset.mem_filter, h.tables, Finset.mem_range]
    refine and_iff_right_of_imp fun hi => ?_
    obtain ⟨t, ht⟩ := Option.isSome_iff_exists.1 ((h.tables i).2 hi)
    exact table_lt ht
  have hpages : ((Finset.range UPAGES).filter fun u => (frameAt s.mem d u).isSome) =
      P.filter (· < UPAGES) := by
    ext u
    rw [Finset.mem_filter, Finset.mem_filter, frameAt, Option.isSome_map, h.pages,
      Finset.mem_range, and_comm]
  rw [frames, List.length_cons, List.length_append, length_held, length_held, htables, hpages]
  omega

/-- One more page. -/
theorem Built.map {e : Nat} {rest : List Nat} (h : Built fails s₀ s d P loose)
    (hmapped : Mapped fails s₀ s d v e rest s') :
    Built fails s₀ s' d (insert v P) rest where
  taken := hmapped.taken
  pages u := by
    rw [hmapped.entries, Finset.mem_insert]
    by_cases hu : u = v
    · simp [hu]
    · rw [if_neg hu, h.pages]
      simp [hu]
  tables i := by
    rw [hmapped.tables, h.tables, tablesOf, tablesOf, Finset.image_insert, Finset.mem_insert,
      or_comm]

/-- A page that is not mapped yet. -/
theorem Built.absent (h : Built fails s₀ s d P loose) (hv : v ∉ P) :
    entry s.mem d v = none := by
  rw [← Option.not_isSome_iff_eq_none, h.pages]
  exact hv

/-- `kalloc` and `memset`, the directory being empty. -/
theorem Built.start {f : Nat} (h : Taken fails s₀ s' [f]) :
    Built fails s₀ (s'.clear f) f ∅ [] := by
  have hzero : (s'.clear f).mem f = fun _ => 0 := Function.update_self _ _ _
  have htable (i : Nat) : table (s'.clear f).mem f i = none := by
    simp [table, hzero, present]
  have hentry (u : Nat) : entry (s'.clear f).mem f u = none := entry_of_none (htable _)
  refine ⟨?_, fun u => by simp [hentry], fun i => by simp [htable, tablesOf]⟩
  have hframes : frames (s'.clear f).mem f = [f] := by
    rw [frames, held_eq_nil fun i _ => htable i,
      held_eq_nil fun u _ => by rw [frameAt, hentry]; rfl]
    rfl
  rw [hframes]
  refine h.write rfl rfl fun g hg => ?_
  have hgf : g ≠ f := fun heq => hg (heq ▸ List.mem_cons_self)
  exact Function.update_of_ne hgf _ _

/-! ## Regions of the kernel -/

/-- Everything taken is in the directory, and the first call to fail was one
for a table of the pages `P`. -/
structure Short (fails : Nat → Bool) (s₀ s : State) (d : Nat) (P : Finset Nat) : Prop where
  kept : Kept s₀ s (frames s.mem d)
  first : ∃ k, FirstFailure fails s₀ k ∧ k < 1 + (tablesOf P).card

theorem Short.mono (h : Short fails s₀ s d P) (hPQ : P ⊆ Q) : Short fails s₀ s d Q := by
  obtain ⟨k, hfirst, hk⟩ := h.first
  have hcard := Finset.card_le_card (Finset.image_subset_image (f := (· / NPTENTRIES)) hPQ)
  exact ⟨h.kept, k, hfirst, Nat.lt_of_lt_of_le hk (Nat.add_le_add_left hcard 1)⟩

/-- Page `v` of the kernel did not get its table. -/
theorem Built.short (h : Built fails s₀ s d P []) (hfailed : Failed fails s₀ s d v [] s')
    (hP : ∀ u ∈ P, UPAGES ≤ u) (hPQ : P ⊆ Q) (hv : v ∈ Q) : Short fails s₀ s' d Q := by
  have hkept := hfailed.kept
  rw [List.append_nil] at hkept
  have huser : P.filter (· < UPAGES) = ∅ :=
    Finset.filter_eq_empty_iff.2 fun u hu => Nat.not_lt.2 (hP u hu)
  have hsize := h.size
  rw [huser, Finset.card_empty, Nat.add_zero] at hsize
  have hnot : v / NPTENTRIES ∉ tablesOf P := by
    rw [← h.tables, hfailed.missing]
    simp
  have hcard : (tablesOf P).card < (tablesOf Q).card := by
    refine Finset.card_lt_card (Finset.ssubset_iff_of_subset ?_ |>.2 ⟨_, ?_, hnot⟩)
    · exact Finset.image_subset_image hPQ
    · exact Finset.mem_image_of_mem _ hv
  refine ⟨hkept, _, hfailed.first, ?_⟩
  rw [hsize, List.length_nil]
  omega

/-- The invariant of `mappages` in a region from page `v` to page `w`. -/
inductive Mapping (fails : Nat → Bool) (s₀ : State) (d v w : Nat) (P : Finset Nat) :
    MapSt → Prop
  | page {u pa : Nat} {s : State} : v ≤ u → u < w →
      Built fails s₀ s d (P ∪ Finset.Ico v u) [] →
      Mapping fails s₀ d v w P ⟨u * PGSIZE, pa, s, none⟩
  | done {a pa : Nat} {s : State} : Built fails s₀ s d (P ∪ Finset.Ico v w) [] →
      Mapping fails s₀ d v w P ⟨a, pa, s, some true⟩
  | short {a pa : Nat} {s : State} : Short fails s₀ s d (P ∪ Finset.Ico v w) →
      Mapping fails s₀ d v w P ⟨a, pa, s, some false⟩

/-- Turns left. -/
def MapSt.left (w : Nat) (st : MapSt) : Nat :=
  if st.ret.isNone then w - st.a / PGSIZE else 0

theorem Ico_insert {u : Nat} (hv : v ≤ u) :
    insert u (P ∪ Finset.Ico v u) = P ∪ Finset.Ico v (u + 1) := by
  ext x
  simp only [Finset.mem_insert, Finset.mem_union, Finset.mem_Ico]
  constructor
  · rintro (rfl | hx | hx)
    · exact .inr (by omega)
    · exact .inl hx
    · exact .inr (by omega)
  · rintro (hx | hx)
    · exact .inr (.inl hx)
    · by_cases hu : x = u
      · exact .inl hu
      · exact .inr (.inr (by omega))

theorem Mapping.turn {st : MapSt} (hfree : FreeOk l s₀) (hP : ∀ u ∈ P, UPAGES ≤ u ∧ u < v)
    (hv : UPAGES ≤ v) (hw : w ≤ 2 ^ 20) (h : Mapping fails s₀ d v w P st)
    (hret : st.ret.isNone = true) :
    ∃ st', mapBody fails d ((w - 1) * PGSIZE) perm st = some st' ∧
      Mapping fails s₀ d v w P st' ∧ st'.left w < st.left w := by
  cases h with
  | done | short => simp at hret
  | @page u pa s hvu huw hbuilt =>
      have hleft : MapSt.left w ⟨u * PGSIZE, pa, s, none⟩ = w - u := by
        simp [MapSt.left, PGSIZE]
      have hkernel : ∀ x ∈ P ∪ Finset.Ico v u, UPAGES ≤ x ∧ x < u := by
        intro x hx
        rcases Finset.mem_union.1 hx with hx | hx
        · exact ⟨(hP x hx).1, Nat.lt_of_lt_of_le (hP x hx).2 hvu⟩
        · rw [Finset.mem_Ico] at hx
          exact ⟨Nat.le_trans hv hx.1, hx.2⟩
      have hnone := hbuilt.absent fun hin => Nat.lt_irrefl u (hkernel u hin).2
      have huser : ¬ u < UPAGES := Nat.not_lt.2 (Nat.le_trans hv hvu)
      rcases mapBody_spec ((w - 1) * PGSIZE) pa perm [] hfree hbuilt.taken
        (Nat.lt_of_lt_of_le huw hw) hnone (by rw [if_neg huser]) with
        ⟨s', hbody, hmapped⟩ | ⟨s', hbody, hfailed⟩
      · have hbuilt' := hbuilt.map hmapped
        rw [Ico_insert hvu] at hbuilt'
        refine ⟨_, hbody, ?_⟩
        rw [hleft]
        by_cases hlast : u * PGSIZE = (w - 1) * PGSIZE
        · have huw' : u + 1 = w := by
            simp only [PGSIZE] at hlast
            omega
          rw [if_pos hlast]
          exact ⟨.done (huw' ▸ hbuilt'), Nat.sub_pos_of_lt huw⟩
        · have hlt : u + 1 < w := by
            simp only [PGSIZE] at hlast
            omega
          have hnext : (u * PGSIZE + PGSIZE) % 2 ^ 32 = (u + 1) * PGSIZE := by
            simp only [PGSIZE]
            omega
          rw [if_neg hlast, hnext]
          refine ⟨.page (Nat.le_succ_of_le hvu) hlt hbuilt', ?_⟩
          simp only [MapSt.left, PGSIZE, Option.isNone_none, if_true]
          omega
      · refine ⟨_, hbody, .short ?_, ?_⟩
        · refine hbuilt.short hfailed (fun x hx => (hkernel x hx).1) ?_ ?_
          · exact Finset.union_subset_union_right (Finset.Ico_subset_Ico_right huw.le)
          · exact Finset.mem_union_right _ (Finset.mem_Ico.2 ⟨hvu, huw⟩)
        · rw [hleft]
          exact Nat.sub_pos_of_lt huw

/-- **`mappages`** of a region of the kernel. -/
theorem mappages_kernel (hfree : FreeOk l s₀) (hP : ∀ u ∈ P, UPAGES ≤ u ∧ u < v)
    (hv : UPAGES ≤ v) (hn : 0 < n) (hw : v + n ≤ 2 ^ 20) (h : Built fails s₀ s d P [])
    (pa perm : Nat) :
    ∃ s', (mappages fails s d (v * PGSIZE) (n * PGSIZE) pa perm = some (true, s') ∧
        Built fails s₀ s' d (P ∪ Finset.Ico v (v + n)) []) ∨
      (mappages fails s d (v * PGSIZE) (n * PGSIZE) pa perm = some (false, s') ∧
        Short fails s₀ s' d (P ∪ Finset.Ico v (v + n))) := by
  have hfirst : PGROUNDDOWN (v * PGSIZE) = v * PGSIZE := by
    simp only [PGROUNDDOWN, PGSIZE]
    omega
  have hlast : PGROUNDDOWN ((v * PGSIZE + n * PGSIZE + 2 ^ 32 - 1) % 2 ^ 32) =
      (v + n - 1) * PGSIZE := by
    simp only [PGROUNDDOWN, PGSIZE]
    omega
  have hstart : Mapping fails s₀ d v (v + n) P ⟨v * PGSIZE, pa, s, none⟩ := by
    refine .page (Nat.le_refl v) (by omega) ?_
    rw [Finset.Ico_self, Finset.union_empty]
    exact h
  obtain ⟨st, hrun, hst, hexit⟩ :=
    Loop.run_total (fun st : MapSt => st.ret.isNone)
      (mapBody fails d ((v + n - 1) * PGSIZE) perm) (Mapping fails s₀ d v (v + n) P)
      (MapSt.left (v + n)) (fun _ hst hret => hst.turn hfree hP hv hw hret)
      TURNS ⟨v * PGSIZE, pa, s, none⟩ hstart (by
        simp only [MapSt.left, PGSIZE, TURNS, Option.isNone_none, if_true]
        omega)
  have hmappages : mappages fails s d (v * PGSIZE) (n * PGSIZE) pa perm =
      some (st.ret.getD true, st.state) := by
    rw [mappages, hfirst, hlast, hrun]
    rfl
  cases hst with
  | page => simp at hexit
  | done hbuilt => exact ⟨_, .inl ⟨hmappages, hbuilt⟩⟩
  | short hshort => exact ⟨_, .inr ⟨hmappages, hshort⟩⟩

/-! ## `setupkvm` -/

/-- Regions of whole pages from page `v` on, each above the one before, and the
pages they are. -/
inductive Regions : Nat → List Kmap → Finset Nat → Prop
  | nil {v : Nat} : Regions v [] ∅
  | cons {v w n : Nat} {k : Kmap} {ks : List Kmap} {Q : Finset Nat} : v ≤ w → 0 < n →
      w + n ≤ 2 ^ 20 → k.virt = w * PGSIZE →
      (k.phys_end + 2 ^ 32 - k.phys_start) % 2 ^ 32 = n * PGSIZE → Regions (w + n) ks Q →
      Regions v (k :: ks) (Finset.Ico w (w + n) ∪ Q)

theorem kmapLoop_spec {ks : List Kmap} (hfree : FreeOk l s₀) (hks : Regions v ks Q)
    (hv : UPAGES ≤ v) (hP : ∀ u ∈ P, UPAGES ≤ u ∧ u < v) (h : Built fails s₀ s d P []) :
    ∃ s', (kmapLoop l fails d ks s = some (some d, s') ∧ Built fails s₀ s' d (P ∪ Q) []) ∨
      (kmapLoop l fails d ks s = some (none, s') ∧ Kept s₀ s' [] ∧
        ∃ k, FirstFailure fails s₀ k ∧ k < 1 + (tablesOf (P ∪ Q)).card) := by
  induction hks generalizing P s with
  | nil =>
      rw [Finset.union_empty]
      exact ⟨s, .inl ⟨rfl, h⟩⟩
  | @cons v w n k ks Q hvw hn hw hvirt hsize _ ih =>
      have hP' : ∀ u ∈ P, UPAGES ≤ u ∧ u < w := fun u hu =>
        ⟨(hP u hu).1, Nat.lt_of_lt_of_le (hP u hu).2 hvw⟩
      have huw := Nat.le_trans hv hvw
      obtain ⟨s₁, ⟨hmappages, hbuilt⟩ | ⟨hmappages, hshort⟩⟩ :=
        mappages_kernel hfree hP' huw hn hw h k.phys_start k.perm
      · have hP₁ : ∀ u ∈ P ∪ Finset.Ico w (w + n), UPAGES ≤ u ∧ u < w + n := by
          intro u hu
          rcases Finset.mem_union.1 hu with hu | hu
          · exact ⟨(hP' u hu).1, Nat.lt_add_right n (hP' u hu).2⟩
          · rw [Finset.mem_Ico] at hu
            exact ⟨Nat.le_trans huw hu.1, hu.2⟩
        have hrun : kmapLoop l fails d (k :: ks) s = kmapLoop l fails d ks s₁ := by
          rw [kmapLoop, hvirt, hsize, hmappages]
          rfl
        rw [hrun, ← Finset.union_assoc]
        exact ih (Nat.le_add_right_of_le huw) hP₁ hbuilt
      · -- one of its tables could not be made
        have hkept := hshort.kept
        rw [← List.append_nil (frames s₁.mem d)] at hkept
        obtain ⟨s', hfreevm, hkept'⟩ := freevm_spec fails hfree hkept
        have hsub : P ∪ Finset.Ico w (w + n) ⊆ P ∪ (Finset.Ico w (w + n) ∪ Q) :=
          Finset.union_subset_union_right Finset.subset_union_left
        refine ⟨s', .inr ⟨?_, hkept', (hshort.mono hsub).first⟩⟩
        rw [kmapLoop, hvirt, hsize, hmappages]
        simp [hfreevm]

/-- What `kernel.ld` promises. -/
structure Linker.Ok (l : Linker) : Prop where
  aligned : l.data % PGSIZE = 0
  low : KERNLINK < l.data
  high : l.data < KERNBASE + PHYSTOP

/-- The pages of the kernel: physical memory, and the devices. -/
def kpages : Finset Nat := Finset.Ico 0x80000 0x8E000 ∪ Finset.Ico 0xFE000 0x100000

theorem mem_kpages {u : Nat} :
    u ∈ kpages ↔ 0x80000 ≤ u ∧ u < 0x8E000 ∨ 0xFE000 ≤ u ∧ u < 0x100000 := by
  rw [kpages, Finset.mem_union, Finset.mem_Ico, Finset.mem_Ico]

theorem kmap_regions (hl : l.Ok) : Regions UPAGES (kmap l) kpages := by
  obtain ⟨haligned, hlow, hhigh⟩ := hl
  obtain ⟨p, hp⟩ : ∃ p, l.data = p * PGSIZE :=
    ⟨l.data / PGSIZE, (Nat.div_mul_cancel (Nat.dvd_of_mod_eq_zero haligned)).symm⟩
  have hplow : 0x80100 < p := by
    simp only [KERNLINK, KERNBASE, EXTMEM, PGSIZE] at *
    omega
  have hphigh : p < 0x8E000 := by
    simp only [KERNBASE, PHYSTOP, PGSIZE] at *
    omega
  have hsplit : kpages = Finset.Ico 0x80000 (0x80000 + 0x100) ∪
      (Finset.Ico 0x80100 (0x80100 + (p - 0x80100)) ∪ (Finset.Ico p (p + (0x8E000 - p)) ∪
        (Finset.Ico 0xFE000 (0xFE000 + 0x2000) ∪ ∅))) := by
    ext u
    simp only [mem_kpages, Finset.mem_union, Finset.mem_Ico, Finset.notMem_empty, or_false]
    omega
  rw [hsplit, kmap]
  refine .cons (by decide) (by decide) (by decide) rfl rfl ?_
  refine .cons (by decide) (by omega) (by omega) rfl ?_ ?_
  · simp only [V2P, KERNLINK, KERNBASE, EXTMEM, PGSIZE] at *
    omega
  refine .cons (by omega) (by omega) (by omega) hp ?_ ?_
  · simp only [V2P, KERNBASE, PHYSTOP, PGSIZE] at *
    omega
  exact .cons (by omega) (by decide) (by decide) rfl rfl .nil

/-- The tables of the kernel and of the user pages below `v`. -/
theorem tablesOf_pages (v : Nat) : tablesOf (kpages ∪ Finset.range v) =
    (Finset.Ico 512 568 ∪ Finset.Ico 1016 1024) ∪ Finset.range ((v + 1023) / 1024) := by
  ext i
  simp only [tablesOf, Finset.mem_image, Finset.mem_union, Finset.mem_Ico, Finset.mem_range,
    mem_kpages]
  constructor
  · rintro ⟨u, hu, rfl⟩
    simp only [NPTENTRIES]
    omega
  · intro hi
    refine ⟨i * NPTENTRIES, ?_, Nat.mul_div_cancel _ (by decide)⟩
    simp only [NPTENTRIES]
    omega

theorem card_tablesOf_pages (hv : v ≤ UPAGES) :
    (tablesOf (kpages ∪ Finset.range v)).card = 64 + (v + 1023) / 1024 := by
  have hkernel : Disjoint (Finset.Ico 512 568) (Finset.Ico 1016 1024) := by
    rw [Finset.disjoint_left]
    intro i hi hi'
    rw [Finset.mem_Ico] at hi hi'
    omega
  have huser : Disjoint (Finset.Ico 512 568 ∪ Finset.Ico 1016 1024)
      (Finset.range ((v + 1023) / 1024)) := by
    rw [Finset.disjoint_left]
    intro i hi hi'
    simp only [Finset.mem_union, Finset.mem_Ico, Finset.mem_range, UPAGES] at *
    omega
  rw [tablesOf_pages, Finset.card_union_of_disjoint huser,
    Finset.card_union_of_disjoint hkernel, Nat.card_Ico, Nat.card_Ico, Finset.card_range]

theorem kpages_user {u : Nat} (hu : u ∈ kpages) : UPAGES ≤ u := by
  rw [mem_kpages] at hu
  simp only [UPAGES]
  omega

/-- **`setupkvm`** maps all of the kernel or gives everything back. -/
theorem setupkvm_spec (fails : Nat → Bool) (hfree : FreeOk l s₀) (hl : l.Ok) :
    (∃ d s, setupkvm l fails s₀ = some (some d, s) ∧ Built fails s₀ s d kpages []) ∨
    ∃ s, setupkvm l fails s₀ = some (none, s) ∧ Kept s₀ s [] ∧
      ∃ k, FirstFailure fails s₀ k ∧ k < 65 := by
  have hdev : ¬ KERNBASE + PHYSTOP > DEVSPACE := by decide
  rcases (Taken.start fails s₀).kalloc with
    ⟨d, s, hkalloc, -, -, htaken⟩ | ⟨s, hkalloc, -, hkept, hfirst⟩
  · have hrun : setupkvm l fails s₀ = kmapLoop l fails d (kmap l) (s.clear d) := by
      simp [setupkvm, hkalloc, hdev]
    have hspec := kmapLoop_spec hfree (kmap_regions hl) (Nat.le_refl _)
      (fun u hu => absurd hu (Finset.notMem_empty u)) (Built.start htaken)
    rw [Finset.empty_union] at hspec
    obtain ⟨s', ⟨hloop, hbuilt⟩ | ⟨hloop, hkept, k, hfirst, hk⟩⟩ := hspec
    · exact .inl ⟨d, s', hrun.trans hloop, hbuilt⟩
    · have hcard := card_tablesOf_pages (Nat.zero_le UPAGES)
      rw [Finset.range_zero, Finset.union_empty] at hcard
      exact .inr ⟨s', hrun.trans hloop, hkept, k, hfirst, by omega⟩
  · exact .inr ⟨s, by simp [setupkvm, hkalloc], hkept, _, hfirst, by decide⟩

end SchoolStuff.Xv6.Phys
