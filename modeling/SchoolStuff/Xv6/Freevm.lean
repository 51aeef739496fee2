import SchoolStuff.Xv6.Mapping

/-!
# Xv6 — `freevm` gives every frame back

`deallocuvm` does to a directory in memory what it does to the map of its pages
(`deallocuvm_refines`), and gives the frames of the pages back: each one is read
for the last time before it is filled with junk. The second loop of `freevm`
gives back the tables, and the last `kfree` the directory itself. What is not
mapped in the directory stays taken (`freevm_spec`).
-/

namespace SchoolStuff.Xv6.Phys

open Vm (PGSIZE KERNBASE NPTENTRIES UPAGES PDX PTX PGROUNDUP PDX_eq PTX_eq)
open Holdings

variable {l : Linker} {fails : Nat → Bool} {s₀ s : State} {d v : Nat} {loose : List Nat}
  {sp sp' : Vm.Space Nat}

/-! ## `deallocuvm` -/

/-- The directory in frame `d` is the address space `sp`, and all that is taken
besides the frames `loose`. -/
structure Represents (s₀ s : State) (d : Nat) (loose : List Nat) (sp : Vm.Space Nat) : Prop where
  kept : Kept s₀ s (frames s.mem d ++ loose)
  dir : sp.pgdir = dirOf s.mem d

/-- A page that is present is given back. -/
theorem Represents.page {t : Nat} (hfree : FreeOk l s₀) (h : Represents s₀ s d loose sp)
    (hv : v < UPAGES) (ht : table s.mem d (v / NPTENTRIES) = some t)
    (hp : present (s.mem t (v % NPTENTRIES)) = true) :
    ∃ s', s.kfree l (s.mem t (v % NPTENTRIES) / PGSIZE) = some s' ∧
      PTE_ADDR (s.mem t (v % NPTENTRIES)) ≠ 0 ∧
      Represents s₀ (s'.store t (v % NPTENTRIES) 0) d loose (sp.setPte (v * PGSIZE) none) := by
  let pte := s.mem t (v % NPTENTRIES)
  have hlt : v < 2 ^ 20 := Nat.lt_trans hv (by decide)
  have hnd := h.kept.nodup_left hfree
  have hentry : entry s.mem d v = some pte := by rw [entry_of_table ht, if_pos hp]
  have hframe := frameAt_of_entry hentry
  -- the entry is cleared after the page is freed, but might as well be before
  let m₁ := Function.update s.mem t (Function.update (s.mem t) (v % NPTENTRIES) 0)
  have hm₁ : m₁ = Function.update s.mem t (Function.update (s.mem t) (v % NPTENTRIES) 0) := rfl
  have hdrop : (frames s.mem d).Perm (pte / PGSIZE :: frames m₁ d) :=
    frames_drop hnd ht hm₁ hv hentry rfl
  have hkept : Kept s₀ s (pte / PGSIZE :: (frames m₁ d ++ loose)) :=
    h.kept.reorder (hdrop.append_right loose).symm
  obtain ⟨s', hkfree, hkept', hmem⟩ := hkept.kfree hfree
  have hft : pte / PGSIZE ≠ t := page_ne_table hnd hv hframe ht
  have hsame : ∀ g ∈ frames m₁ d, (s'.store t (v % NPTENTRIES) 0).mem g = m₁ g := by
    intro g hin
    have hg : g ≠ pte / PGSIZE := fun heq =>
      (List.nodup_cons.1 (hdrop.nodup_iff.1 hnd)).1 (heq ▸ hin)
    by_cases hgt : g = t
    · rw [hgt, hm₁, Function.update_self, ← hmem t hft.symm]
      exact Function.update_self _ _ _
    · rw [hm₁, Function.update_of_ne hgt, ← hmem g hg]
      exact Function.update_of_ne hgt _ _
  have hpos := (hfree.range _ (hkept.free List.mem_cons_self)).1
  refine ⟨s', hkfree, ?_, ?_, ?_⟩
  · simp only [PTE_ADDR, PGSIZE] at *
    omega
  · rw [frames_same hsame]
    refine hkept'.write rfl fun g hg => ?_
    have htm : t ∈ frames m₁ d := by
      refine mem_frames_table (i := v / NPTENTRIES) ?_
      rw [table_store hnd ht hm₁]
      exact ht
    have hgt : g ≠ t := fun heq => hg (heq ▸ List.mem_append_left _ htm)
    exact Function.update_of_ne hgt _ _
  · rw [dirOf_same hsame, dirOf_store hnd ht hm₁, Vm.Space.setPte, PDX_eq hlt, PTX_eq, h.dir]
    rfl

/-- A turn of the loop of `deallocuvm` does what it does to the pages. -/
theorem Represents.turn {a : Nat} (fails : Nat → Bool) {supply : Nat → Option Nat}
    (hfree : FreeOk l s₀) (h : Represents s₀ s d loose sp) (hv : v < UPAGES)
    (hbody : Vm.deallocBody supply (v * PGSIZE, sp) = some (a, sp')) :
    ∃ s', deallocBody l fails d (v * PGSIZE, s) = some (a, s') ∧
      Represents s₀ s' d loose sp' := by
  have hlt : v < 2 ^ 20 := Nat.lt_trans hv (by decide)
  have hdir : sp.pgdir (v / NPTENTRIES) = dirOf s.mem d (v / NPTENTRIES) := by rw [h.dir]
  have hpage : sp.pte (v * PGSIZE) = entry s.mem d v := by
    rw [Vm.pte_eq sp hlt, Vm.Space.page, h.dir]
    rfl
  simp only [Vm.deallocBody, Vm.walkpgdir_find supply hlt, hdir] at hbody
  cases htable : table s.mem d (v / NPTENTRIES) with
  | none =>
      simp only [dirOf, htable, Option.map_none, Option.isSome_none, Option.some.injEq,
        Prod.mk.injEq] at hbody
      obtain ⟨rfl, rfl⟩ := hbody
      refine ⟨s, ?_, h⟩
      simp only [deallocBody, walkpgdir_find fails s d hlt, htable, Option.map_none]
  | some t =>
      simp only [dirOf, htable, Option.map_some, Option.isSome_some, hpage,
        entry_of_table htable, Option.some.injEq, Prod.mk.injEq] at hbody
      obtain ⟨rfl, rfl⟩ := hbody
      cases hp : present (s.mem t (v % NPTENTRIES)) with
      | true =>
          obtain ⟨s', hkfree, hne, hrep⟩ := h.page hfree hv htable hp
          refine ⟨s'.store t (v % NPTENTRIES) 0, ?_, hrep⟩
          simp [deallocBody, walkpgdir_find fails s d hlt, htable, hp, hne, addr_frame, hkfree]
      | false =>
          refine ⟨s, ?_, h⟩
          simp [deallocBody, walkpgdir_find fails s d hlt, htable, hp]

/-- The loops of both at the same page. -/
structure Beside (s₀ : State) (d : Nat) (loose : List Nat) (st : Nat × State)
    (t : Nat × Vm.Space Nat) : Prop where
  same : st.1 = t.1
  page : ∃ v, t.1 = v * PGSIZE ∧ v ≤ UPAGES
  space : Represents s₀ st.2 d loose t.2

theorem Beside.turn {oldsz : Nat} {st : Nat × State} {t t' : Nat × Vm.Space Nat}
    (fails : Nat → Bool) {supply : Nat → Option Nat} (hfree : FreeOk l s₀)
    (hle : oldsz ≤ KERNBASE) (h : Beside s₀ d loose st t) (hcond : t.1 < oldsz)
    (hbody : Vm.deallocBody supply t = some t') :
    ∃ st', deallocBody l fails d st = some st' ∧ Beside s₀ d loose st' t' := by
  obtain ⟨a, s⟩ := st
  obtain ⟨b, sp⟩ := t
  obtain ⟨c, sp'⟩ := t'
  obtain ⟨rfl, ⟨v, rfl, -⟩, hrep⟩ := h
  have hv : v < UPAGES := by
    simp only [KERNBASE, UPAGES, PGSIZE] at *
    omega
  obtain ⟨s', hbody', hrep'⟩ := hrep.turn fails hfree hv hbody
  obtain ⟨w, sp₁, hspec, -, hw, -⟩ := Vm.deallocBody_spec supply sp hv
  rw [hspec, Option.some.injEq, Prod.mk.injEq] at hbody
  exact ⟨_, hbody', rfl, ⟨w, hbody.1.symm, hw⟩, hrep'⟩

/-- **`deallocuvm`** does to the directory what it does to the pages. -/
theorem deallocuvm_refines {oldsz newsz r : Nat} (fails : Nat → Bool)
    {supply : Nat → Option Nat} (hfree : FreeOk l s₀) (hle : oldsz ≤ KERNBASE)
    (h : Represents s₀ s d loose sp)
    (hrun : Vm.deallocuvm supply TURNS sp oldsz newsz = some (r, sp')) :
    ∃ s', deallocuvm l fails s d oldsz newsz = some (r, s') ∧
      Represents s₀ s' d loose sp' := by
  by_cases hge : newsz ≥ oldsz
  · rw [Vm.deallocuvm, if_pos hge, Option.some.injEq, Prod.mk.injEq] at hrun
    obtain ⟨rfl, rfl⟩ := hrun
    exact ⟨s, by rw [deallocuvm, if_pos hge], h⟩
  · rw [Vm.deallocuvm, if_neg hge] at hrun
    obtain ⟨⟨a, sp₁⟩, hloop, hr⟩ := Option.bind_eq_some_iff.1 hrun
    rw [Option.some.injEq, Prod.mk.injEq] at hr
    obtain ⟨rfl, rfl⟩ := hr
    have hstart : PGROUNDUP newsz = Vm.pagesOf newsz * PGSIZE :=
      Vm.PGROUNDUP_eq (by omega)
    have hpages : Vm.pagesOf newsz ≤ UPAGES := Vm.pagesOf_le (by omega)
    have hbeside : Beside s₀ d loose (PGROUNDUP newsz, s) (PGROUNDUP newsz, sp) :=
      ⟨rfl, ⟨_, hstart, hpages⟩, h⟩
    obtain ⟨⟨a', s'⟩, hloop', hrep⟩ :=
      Loop.run_sim (fun st => decide (st.1 < oldsz)) (deallocBody l fails d)
        (Beside s₀ d loose) (fun st t hR => by rw [hR.same])
        (fun st t t' hR hcond hbody => hR.turn fails hfree hle (of_decide_eq_true hcond) hbody)
        TURNS hbeside hloop
    refine ⟨s', ?_, hrep.space⟩
    rw [deallocuvm, if_neg hge, hloop']
    rfl

/-! ## `freevm` -/

/-- The second loop of `freevm`, over the indices `is`. -/
theorem freeTables_spec (hfree : FreeOk l s₀) (m : Nat → Nat → Nat) (is : List Nat)
    (his : ∀ i ∈ is, i < NPDENTRIES) (hm : s.mem d = m d)
    (h : Kept s₀ s (is.filterMap (table m d) ++ d :: loose)) :
    ∃ s', is.foldlM (freeTable l d) s = some s' ∧ Kept s₀ s' (d :: loose) := by
  induction is generalizing s with
  | nil => exact ⟨s, rfl, h⟩
  | cons i is ih =>
      obtain ⟨hi, his⟩ := List.forall_mem_cons.1 his
      cases hp : present (m d i) with
      | false =>
          have hnone : table m d i = none := by simp [table, hp]
          rw [List.filterMap_cons_none hnone] at h
          obtain ⟨s', hrun, hkept⟩ := ih his hm h
          exact ⟨s', by simp [freeTable, hm, hp, hrun], hkept⟩
      | true =>
          have hsome : table m d i = some (m d i / PGSIZE) := by
            rw [table, if_pos ⟨hi, hp⟩]
          rw [List.filterMap_cons_some hsome] at h
          obtain ⟨s₁, hkfree, hkept, hmem⟩ := h.kfree hfree
          have hne : d ≠ m d i / PGSIZE := by
            have hnd := (List.nodup_append.1 (h.nodup hfree)).1
            intro heq
            exact (List.nodup_cons.1 hnd).1
              (heq ▸ List.mem_append_right _ List.mem_cons_self)
          obtain ⟨s', hrun, hkept'⟩ := ih his ((hmem d hne).trans hm) hkept
          exact ⟨s', by simp [freeTable, hm, hp, addr_frame, hkfree, hrun], hkept'⟩

/-- **`freevm`** gives back what the directory has. -/
theorem freevm_spec (fails : Nat → Bool) (hfree : FreeOk l s₀)
    (h : Kept s₀ s (frames s.mem d ++ loose)) :
    ∃ s', freevm l fails s d = some s' ∧ Kept s₀ s' loose := by
  obtain ⟨sp, hvm, hchanged⟩ := Vm.deallocuvm_spec (fun _ => none) ⟨dirOf s.mem d, 0⟩
    (show 2 ^ 20 ≤ TURNS from Nat.le_refl _) (show 0 < KERNBASE by decide) (Nat.le_refl _)
  obtain ⟨s₁, hdealloc, hrep⟩ := deallocuvm_refines fails hfree (Nat.le_refl _) ⟨h, rfl⟩ hvm
  have hgone (v : Nat) (hv : v < UPAGES) : frameAt s₁.mem d v = none := by
    have hnone := hchanged.inside v (Nat.zero_le v) hv
    rw [Vm.Space.page, hrep.dir, Option.isSome_eq_false_iff, Option.isNone_iff_eq_none] at hnone
    rw [frameAt, entry, hnone]
    rfl
  have hkept : Kept s₀ s₁ ((List.range NPDENTRIES).filterMap (table s₁.mem d) ++ d :: loose) := by
    have hkept := hrep.kept
    rw [frames, held_eq_nil hgone, List.append_nil] at hkept
    exact hkept.reorder List.perm_middle
  obtain ⟨s₂, hrun, hkept₂⟩ := freeTables_spec hfree s₁.mem (List.range NPDENTRIES)
    (fun i hi => List.mem_range.1 hi) rfl hkept
  obtain ⟨s₃, hkfree, hkept₃, -⟩ := hkept₂.kfree hfree
  refine ⟨s₃, ?_, hkept₃⟩
  simp only [freevm, hdealloc, Option.bind_eq_bind, Option.bind_some, hrun, hkfree]

end SchoolStuff.Xv6.Phys
