import Mathlib.Algebra.Order.Ring.Nat
import SchoolStuff.Lib.Loop
import SchoolStuff.Lib.TwoLevel

/-!
# Xv6 — the user part of an address space (`vm.c`)

`allocuvm` and `deallocuvm` walk a two-level page table, of which they read
whether an entry is present and which page it refers to. Addresses are
`uint`s, so sums are taken modulo `2 ^ 32`. Whether `kalloc` has a page left
is decided by the environment (`supply`), a function of the number of calls
before; a page it returned passes the checks of `kfree`. Behind the two levels an
address space is a map from page numbers to pages (`Space.page`), and each
function has its effect on that map.
-/

namespace SchoolStuff.Xv6.Vm

/-! ## `mmu.h`, `memlayout.h` -/

def PGSIZE : Nat := 4096
def NPTENTRIES : Nat := 1024
def KERNBASE : Nat := 0x80000000

def PDX (va : Nat) : Nat := (va >>> 22) &&& 0x3FF
def PTX (va : Nat) : Nat := (va >>> 12) &&& 0x3FF
def PGADDR (d t o : Nat) : Nat := (d <<< 22 ||| t <<< 12 ||| o) % 2 ^ 32

/-- `PGROUNDUP`. Masking with `~(PGSIZE-1)` takes the remainder away. -/
def PGROUNDUP (sz : Nat) : Nat :=
  (sz + PGSIZE - 1) % 2 ^ 32 / PGSIZE * PGSIZE

/-- A page directory, and how often `kalloc` has been called. An entry
without `PTE_P` is `none`. -/
structure Space (Page : Type) where
  pgdir : TwoLevel.Dir Page
  kallocs : Nat

variable {Page : Type} (supply : Nat → Option Page)

/-- `kalloc()`. -/
def Space.kalloc (s : Space Page) : Option Page × Space Page :=
  (supply s.kallocs, { s with kallocs := s.kallocs + 1 })

/-- `walkpgdir`, and whether it returned an entry. -/
def walkpgdir (s : Space Page) (va : Nat) (alloc : Bool) : Bool × Space Page :=
  match s.pgdir (PDX va) with
  | some _ => (true, s)
  | none =>
      if alloc then
        match s.kalloc supply with
        | (none, s) => (false, s)
        | (some _, s) =>
            (true, { s with pgdir := TwoLevel.ensure s.pgdir (PDX va) })
      else (false, s)

/-- `*pte`, for the entry of `va`. -/
def Space.pte (s : Space Page) (va : Nat) : Option Page :=
  (s.pgdir (PDX va)).bind (· (PTX va))

/-- An assignment to `*pte`. -/
def Space.setPte (s : Space Page) (va : Nat) (e : Option Page) : Space Page :=
  { s with pgdir := TwoLevel.set s.pgdir (PDX va) (PTX va) e }

/-- `mappages(pgdir, a, PGSIZE, V2P(mem), PTE_W|PTE_U)` at a page boundary,
where its loop ends in the first turn: whether it succeeds. A page that is
there already makes it panic. -/
def mappages (s : Space Page) (a : Nat) (mem : Page) :
    Option (Bool × Space Page) :=
  match walkpgdir supply s a true with
  | (false, s) => some (false, s)
  | (true, s) =>
      if (s.pte a).isSome then none else some (true, s.setPte a (some mem))

/-- A turn of the loop of `deallocuvm`, which skips the pages of a table
that is not there. -/
def deallocBody (st : Nat × Space Page) : Option (Nat × Space Page) :=
  let (a, s) := st
  match walkpgdir supply s a false with
  | (false, s) =>
      let a := (PGADDR (PDX a + 1) 0 0 + 2 ^ 32 - PGSIZE) % 2 ^ 32
      some ((a + PGSIZE) % 2 ^ 32, s)
  | (true, s) =>
      some ((a + PGSIZE) % 2 ^ 32,
        if (s.pte a).isSome then s.setPte a none else s)

/-- `deallocuvm`, with at most `fuel` turns of its loop. -/
def deallocuvm (fuel : Nat) (s : Space Page) (oldsz newsz : Nat) :
    Option (Nat × Space Page) :=
  if newsz ≥ oldsz then some (oldsz, s)
  else do
    let (_, s) ← Loop.run (fun st => decide (st.1 < oldsz)) (deallocBody supply)
      fuel (PGROUNDUP newsz, s)
    some (newsz, s)

/-- The state of the loop of `allocuvm`, and what it returned. -/
structure AllocSt (Page : Type) where
  a : Nat
  space : Space Page
  ret : Option Nat

/-- `deallocuvm(pgdir, newsz, oldsz)` and `return 0`. -/
def AllocSt.fail (fuel : Nat) (st : AllocSt Page) (s : Space Page)
    (newsz oldsz : Nat) : Option (AllocSt Page) := do
  let (_, s) ← deallocuvm supply fuel s newsz oldsz
  some { st with space := s, ret := some 0 }

/-- A turn of the loop of `allocuvm`. -/
def allocBody (fuel newsz oldsz : Nat) (st : AllocSt Page) :
    Option (AllocSt Page) :=
  match st.space.kalloc supply with
  | (none, s) => st.fail supply fuel s newsz oldsz
  | (some mem, s) =>
      match mappages supply s st.a mem with
      | none => none
      | some (false, s) => st.fail supply fuel s newsz oldsz
      | some (true, s) =>
          some { st with a := (st.a + PGSIZE) % 2 ^ 32, space := s }

/-- `allocuvm`. -/
def allocuvm (fuel : Nat) (s : Space Page) (oldsz newsz : Nat) :
    Option (Nat × Space Page) :=
  if newsz ≥ KERNBASE then some (0, s)
  else if newsz < oldsz then some (oldsz, s)
  else do
    let st ← Loop.run (fun st => st.ret.isNone && decide (st.a < newsz))
      (allocBody supply fuel newsz oldsz) fuel ⟨PGROUNDUP oldsz, s, none⟩
    some (st.ret.getD newsz, st.space)

/-! ## Page numbers -/

/-- The pages below `KERNBASE`. -/
def UPAGES : Nat := 0x80000

/-- The page with number `v`, if it is present. -/
def Space.page (s : Space Page) (v : Nat) : Option Page :=
  TwoLevel.get NPTENTRIES s.pgdir v

/-- How many pages a size takes. -/
def pagesOf (sz : Nat) : Nat := (sz + PGSIZE - 1) / PGSIZE

theorem PDX_eq {v : Nat} (hv : v < 2 ^ 20) : PDX (v * PGSIZE) = v / NPTENTRIES := by
  rw [PDX, Nat.shiftRight_eq_div_pow,
    show (0x3FF : Nat) = 2 ^ 10 - 1 from rfl, Nat.and_two_pow_sub_one_eq_mod]
  simp only [PGSIZE, NPTENTRIES]
  omega

theorem PTX_eq (v : Nat) : PTX (v * PGSIZE) = v % NPTENTRIES := by
  rw [PTX, Nat.shiftRight_eq_div_pow,
    show (0x3FF : Nat) = 2 ^ 10 - 1 from rfl, Nat.and_two_pow_sub_one_eq_mod]
  simp only [PGSIZE, NPTENTRIES]
  omega

theorem PGROUNDUP_eq {sz : Nat} (hsz : sz ≤ KERNBASE) :
    PGROUNDUP sz = pagesOf sz * PGSIZE := by
  simp only [PGROUNDUP, pagesOf, KERNBASE, PGSIZE] at *
  omega

theorem PGADDR_table (d : Nat) : PGADDR d 0 0 = d * 2 ^ 22 % 2 ^ 32 := by
  rw [PGADDR, Nat.zero_shiftLeft, Nat.or_zero, Nat.or_zero, Nat.shiftLeft_eq]

/-- The first page of the next table, in the steps that `deallocuvm` takes. -/
theorem next_table {v : Nat} (hv : v < UPAGES) :
    ((PGADDR (v / NPTENTRIES + 1) 0 0 + 2 ^ 32 - PGSIZE) % 2 ^ 32 + PGSIZE)
      % 2 ^ 32 = (v / NPTENTRIES + 1) * NPTENTRIES * PGSIZE := by
  rw [PGADDR_table]
  simp only [UPAGES, PGSIZE, NPTENTRIES] at *
  omega

theorem lt_pagesOf {v sz : Nat} : v < pagesOf sz ↔ v * PGSIZE < sz := by
  simp only [pagesOf, PGSIZE]
  omega

theorem pagesOf_mono {sz sz' : Nat} (h : sz ≤ sz') :
    pagesOf sz ≤ pagesOf sz' := by
  simp only [pagesOf, PGSIZE]
  omega

theorem pagesOf_le {sz : Nat} (h : sz ≤ KERNBASE) : pagesOf sz ≤ UPAGES := by
  simp only [pagesOf, PGSIZE, KERNBASE, UPAGES] at *
  omega

theorem pte_eq (s : Space Page) {v : Nat} (hv : v < 2 ^ 20) :
    s.pte (v * PGSIZE) = s.page v := by
  rw [Space.pte, PDX_eq hv, PTX_eq]
  rfl

theorem page_setPte {s : Space Page} {v : Nat} (hv : v < 2 ^ 20)
    (htable : (s.pgdir (v / NPTENTRIES)).isSome) (e : Option Page) (w : Nat) :
    (s.setPte (v * PGSIZE) e).page w = if w = v then e else s.page w := by
  rw [Space.setPte, PDX_eq hv, PTX_eq]
  exact TwoLevel.get_set htable e w

/-- The pages from `lo` up to `hi` have all become present, or all absent,
and no other page has changed. -/
structure Changed (present : Bool) (s s' : Space Page) (lo hi : Nat) :
    Prop where
  inside : ∀ v, lo ≤ v → v < hi → (s'.page v).isSome = present
  outside : ∀ v, v < lo ∨ hi ≤ v → s'.page v = s.page v

theorem Changed.refl (present : Bool) (s : Space Page) (lo : Nat) :
    Changed present s s lo lo where
  inside v hle hlt := by omega
  outside _ _ := rfl

theorem Changed.single {s s' : Space Page} {v : Nat} {e : Option Page}
    (h : ∀ w, s'.page w = if w = v then e else s.page w) :
    Changed e.isSome s s' v (v + 1) where
  inside w hle hlt := by rw [h, if_pos (by omega)]
  outside w hw := by rw [h, if_neg (by omega)]

theorem Changed.trans {present : Bool} {s s₁ s₂ : Space Page}
    {lo mid hi : Nat} (h : Changed present s s₁ lo mid)
    (h' : Changed present s₁ s₂ mid hi) (hlo : lo ≤ mid) (hhi : mid ≤ hi) :
    Changed present s s₂ lo hi where
  inside v hle hlt := by
    by_cases hv : v < mid
    · rw [h'.outside v (Or.inl hv)]
      exact h.inside v hle hv
    · exact h'.inside v (by omega) hlt
  outside v hv := by
    rw [h'.outside v (by omega), h.outside v (by omega)]

/-- Pages that are absent can count as freed. -/
theorem Changed.skip {s s' : Space Page} {lo hi hi' : Nat}
    (h : Changed false s s' lo hi) (hle : hi ≤ hi')
    (hnone : ∀ v, hi ≤ v → v < hi' → s'.page v = none) :
    Changed false s s' lo hi' where
  inside v hlo hlt := by
    by_cases hv : v < hi
    · exact h.inside v hlo hv
    · rw [hnone v (by omega) hlt]
      rfl
  outside v hv := h.outside v (by omega)

/-- Freeing what was allocated, and more that was absent, leads back. -/
theorem Changed.undo {s s₁ s₂ : Space Page} {lo mid hi : Nat}
    (h : Changed true s s₁ lo mid) (h' : Changed false s₁ s₂ lo hi)
    (hle : mid ≤ hi) (hnone : ∀ v, lo ≤ v → v < hi → s.page v = none)
    (v : Nat) : s₂.page v = s.page v := by
  by_cases hv : lo ≤ v ∧ v < hi
  · rw [hnone v hv.1 hv.2]
    exact Option.not_isSome_iff_eq_none.mp (by simp [h'.inside v hv.1 hv.2])
  · rw [h'.outside v (by omega), h.outside v (by omega)]

/-! ## The page map after each function -/

theorem walkpgdir_find {s : Space Page} {v : Nat} (hv : v < 2 ^ 20) :
    walkpgdir supply s (v * PGSIZE) false
      = ((s.pgdir (v / NPTENTRIES)).isSome, s) := by
  rw [walkpgdir, PDX_eq hv]
  cases s.pgdir (v / NPTENTRIES) <;> rfl

/-- A table that `walkpgdir` adds is empty. -/
theorem walkpgdir_alloc (s : Space Page) {v : Nat} (hv : v < 2 ^ 20) :
    ∃ found s', walkpgdir supply s (v * PGSIZE) true = (found, s')
      ∧ (∀ w, s'.page w = s.page w)
      ∧ (found = true → (s'.pgdir (v / NPTENTRIES)).isSome) := by
  rw [walkpgdir, PDX_eq hv]
  cases htable : s.pgdir (v / NPTENTRIES) with
  | some table => exact ⟨true, s, rfl, fun _ => rfl, fun _ => by rw [htable]; rfl⟩
  | none =>
      rw [Space.kalloc]
      cases supply s.kallocs with
      | none => exact ⟨false, _, rfl, fun _ => rfl, fun h => nomatch h⟩
      | some mem =>
          refine ⟨true, _, rfl, fun w => TwoLevel.get_ensure htable w, ?_⟩
          intro _
          simp [TwoLevel.ensure]

theorem mappages_spec {s : Space Page} {v : Nat} (hv : v < 2 ^ 20)
    (hnone : s.page v = none) (mem : Page) :
    ∃ mapped s', mappages supply s (v * PGSIZE) mem = some (mapped, s')
      ∧ if mapped then Changed true s s' v (v + 1)
        else ∀ w, s'.page w = s.page w := by
  obtain ⟨found, s₁, hwalk, hpage, htable⟩ := walkpgdir_alloc supply s hv
  rw [mappages, hwalk]
  cases found with
  | false => exact ⟨false, s₁, rfl, hpage⟩
  | true =>
      have habsent : (s₁.pte (v * PGSIZE)).isSome = false := by
        rw [pte_eq s₁ hv, hpage, hnone]
        rfl
      refine ⟨true, _, by simp [habsent]; rfl, ?_⟩
      refine Changed.single (e := some mem) fun w => ?_
      rw [page_setPte hv (htable rfl), hpage]

/-- A turn frees one page, and the pages it skips are absent. -/
theorem deallocBody_spec (s : Space Page) {v : Nat} (hv : v < UPAGES) :
    ∃ w s', deallocBody supply (v * PGSIZE, s) = some (w * PGSIZE, s')
      ∧ v < w ∧ w ≤ UPAGES ∧ Changed false s s' v (v + 1)
      ∧ ∀ u, v < u → u < w → s'.page u = none := by
  have hlt : v < 2 ^ 20 := Nat.lt_trans hv (by decide)
  have hnext : (v * PGSIZE + PGSIZE) % 2 ^ 32 = (v + 1) * PGSIZE := by
    simp only [UPAGES, PGSIZE] at *
    omega
  rw [deallocBody]
  simp only [walkpgdir_find supply hlt]
  cases htable : s.pgdir (v / NPTENTRIES) with
  | none =>
      -- no page of the table is there, and the next turn is at the next table
      have hskip : ∀ u, v ≤ u → u < (v / NPTENTRIES + 1) * NPTENTRIES →
          s.page u = none := by
        intro u hle hu
        refine TwoLevel.get_of_none ?_
        rw [show u / NPTENTRIES = v / NPTENTRIES by
          simp only [NPTENTRIES] at *; omega]
        exact htable
      refine ⟨(v / NPTENTRIES + 1) * NPTENTRIES, s, ?_, ?_, ?_, ?_, ?_⟩
      · simp only [Option.isSome_none, PDX_eq hlt, next_table hv]
      · simp only [NPTENTRIES]
        omega
      · simp only [UPAGES, NPTENTRIES] at *
        omega
      · refine (Changed.refl false s v).skip (Nat.le_succ v) fun u hle hu => ?_
        exact hskip u hle (by simp only [NPTENTRIES]; omega)
      · exact fun u hgt hu => hskip u (by omega) hu
  | some table =>
      refine ⟨v + 1, _, by simp only [Option.isSome_some, hnext]; rfl,
        by omega, hv, ?_, fun u hgt hu => by omega⟩
      rw [pte_eq s hlt]
      split
      · exact Changed.single (page_setPte hlt (by rw [htable]; rfl) none)
      · rename_i habsent
        refine (Changed.refl false s v).skip (Nat.le_succ v) fun u hle hu => ?_
        rw [show u = v by omega]
        exact Option.not_isSome_iff_eq_none.mp habsent

/-- The top of the loop of `deallocuvm`. -/
def DeallocInv (s : Space Page) (lo hi : Nat) (st : Nat × Space Page) : Prop :=
  ∃ v, st.1 = v * PGSIZE ∧ lo ≤ v ∧ v ≤ UPAGES
    ∧ Changed false s st.2 lo (min v hi)

theorem DeallocInv.turn {s : Space Page} {lo oldsz : Nat}
    (hle : oldsz ≤ KERNBASE) {st : Nat × Space Page}
    (h : DeallocInv s lo (pagesOf oldsz) st) (hcond : st.1 < oldsz) :
    ∃ st', deallocBody supply st = some st'
      ∧ DeallocInv s lo (pagesOf oldsz) st'
      ∧ UPAGES - st'.1 / PGSIZE < UPAGES - st.1 / PGSIZE := by
  obtain ⟨a, s₁⟩ := st
  obtain ⟨v, rfl, hlo, _, hchanged⟩ := h
  have hv : v < pagesOf oldsz := lt_pagesOf.mpr hcond
  have hbound : pagesOf oldsz ≤ UPAGES := pagesOf_le hle
  obtain ⟨w, s₂, hbody, hgt, hw, hturn, hskip⟩ :=
    deallocBody_spec supply s₁ (Nat.lt_of_lt_of_le hv hbound)
  have hsofar : Changed false s s₂ lo (v + 1) := by
    rw [Nat.min_eq_left (Nat.le_of_lt hv)] at hchanged
    exact hchanged.trans hturn hlo (Nat.le_succ v)
  refine ⟨_, hbody, ⟨w, rfl, by omega, hw, ?_⟩, ?_⟩
  · refine hsofar.skip (by omega) fun u hle hlt => ?_
    exact hskip u (by omega) (by omega)
  · simp only [PGSIZE, Nat.mul_div_cancel _ (Nat.succ_pos _)]
    omega

/-- `deallocuvm` frees the pages between the sizes, and no other. -/
theorem deallocuvm_spec (s : Space Page) {fuel oldsz newsz : Nat}
    (hfuel : 2 ^ 20 ≤ fuel) (hlt : newsz < oldsz) (hle : oldsz ≤ KERNBASE) :
    ∃ s', deallocuvm supply fuel s oldsz newsz = some (newsz, s')
      ∧ Changed false s s' (pagesOf newsz) (pagesOf oldsz) := by
  have hpages : pagesOf newsz ≤ pagesOf oldsz := pagesOf_mono (Nat.le_of_lt hlt)
  have hbound : pagesOf oldsz ≤ UPAGES := pagesOf_le hle
  have hentry : DeallocInv s (pagesOf newsz) (pagesOf oldsz)
      (PGROUNDUP newsz, s) := by
    refine ⟨pagesOf newsz, PGROUNDUP_eq (by omega), Nat.le_refl _, by omega, ?_⟩
    rw [Nat.min_eq_left hpages]
    exact Changed.refl false s _
  obtain ⟨⟨_, s'⟩, hrun, ⟨v, rfl, hv, _, hchanged⟩, hexit⟩ :=
    Loop.run_total (fun st => decide (st.1 < oldsz)) (deallocBody supply)
      (DeallocInv s (pagesOf newsz) (pagesOf oldsz))
      (fun st => UPAGES - st.1 / PGSIZE)
      (fun st hst hcond => hst.turn supply hle (of_decide_eq_true hcond))
      fuel _ hentry (Nat.le_trans (Nat.sub_le _ _) (by simp only [UPAGES]; omega))
  have hend : pagesOf oldsz ≤ v :=
    Nat.le_of_not_lt fun hlt => of_decide_eq_false hexit (lt_pagesOf.mp hlt)
  rw [Nat.min_eq_right hend] at hchanged
  refine ⟨s', ?_, hchanged⟩
  rw [deallocuvm, if_neg (by omega), hrun]
  rfl

/-- The top of the loop of `allocuvm`. -/
inductive AllocInv (s : Space Page) (lo hi : Nat) : AllocSt Page → Prop
  | go {v : Nat} {s' : Space Page} (hlo : lo ≤ v) (hhi : v ≤ hi)
      (hchanged : Changed true s s' lo v) :
      AllocInv s lo hi ⟨v * PGSIZE, s', none⟩
  | failed {a : Nat} {s' : Space Page} (hpage : ∀ v, s'.page v = s.page v) :
      AllocInv s lo hi ⟨a, s', some 0⟩

/-- The turns that are left to `allocuvm`. -/
def AllocSt.left (st : AllocSt Page) : Nat :=
  if st.ret.isSome then 0 else UPAGES + 1 - st.a / PGSIZE

theorem AllocSt.left_go (v : Nat) (s : Space Page) :
    AllocSt.left ⟨v * PGSIZE, s, none⟩ = UPAGES + 1 - v := by
  rw [AllocSt.left, if_neg (by simp), PGSIZE, Nat.mul_div_cancel _ (by decide)]

section Alloc

variable {s : Space Page} {fuel oldsz newsz : Nat} (hfuel : 2 ^ 20 ≤ fuel)
  (hlt : oldsz < newsz) (hle : newsz < KERNBASE)
  (habsent : ∀ v, pagesOf oldsz ≤ v → v < pagesOf newsz → s.page v = none)

include hfuel hlt hle habsent

/-- A failure takes the new pages back. -/
theorem AllocSt.fail_spec (a : Nat) {v : Nat} {s₁ : Space Page}
    (s₀ s₂ : Space Page)
    (hhi : v ≤ pagesOf newsz) (hchanged : Changed true s s₁ (pagesOf oldsz) v)
    (hpage : ∀ v, s₂.page v = s₁.page v) :
    ∃ st', AllocSt.fail supply fuel ⟨a, s₀, none⟩ s₂ newsz oldsz = some st'
      ∧ AllocInv s (pagesOf oldsz) (pagesOf newsz) st' ∧ st'.left = 0 := by
  obtain ⟨s₃, hdealloc, hfreed⟩ :=
    deallocuvm_spec supply s₂ hfuel hlt (Nat.le_of_lt hle)
  have hchanged : Changed true s s₂ (pagesOf oldsz) v :=
    ⟨fun w hlo hlt => by rw [hpage, hchanged.inside w hlo hlt],
      fun w hw => by rw [hpage, hchanged.outside w hw]⟩
  refine ⟨_, by rw [AllocSt.fail, hdealloc]; rfl, AllocInv.failed ?_, rfl⟩
  exact hchanged.undo hfreed hhi habsent

theorem AllocInv.turn {st : AllocSt Page}
    (h : AllocInv s (pagesOf oldsz) (pagesOf newsz) st)
    (hcond : (st.ret.isNone && decide (st.a < newsz)) = true) :
    ∃ st', allocBody supply fuel newsz oldsz st = some st'
      ∧ AllocInv s (pagesOf oldsz) (pagesOf newsz) st' ∧ st'.left < st.left := by
  have hbound : pagesOf newsz ≤ UPAGES := pagesOf_le (Nat.le_of_lt hle)
  cases h with
  | failed hpage => simp at hcond
  | @go v s₁ hlo hhi hchanged =>
      simp only [Option.isNone_none, Bool.true_and, decide_eq_true_eq] at hcond
      have hv : v < pagesOf newsz := lt_pagesOf.mpr hcond
      have hleft : 0 < (⟨v * PGSIZE, s₁, none⟩ : AllocSt Page).left := by
        rw [AllocSt.left_go]
        omega
      have hfail := fun s₂ => AllocSt.fail_spec supply hfuel hlt hle habsent
        (v * PGSIZE) s₁ s₂ hhi hchanged
      rw [allocBody, Space.kalloc]
      cases supply s₁.kallocs with
      | none =>
          obtain ⟨st', hst', hinv, hzero⟩ :=
            hfail { s₁ with kallocs := s₁.kallocs + 1 } fun _ => rfl
          exact ⟨st', hst', hinv, by omega⟩
      | some mem =>
          -- the entry may still need a page for its table
          have hnone : s₁.page v = none := by
            rw [hchanged.outside v (Or.inr (Nat.le_refl v))]
            exact habsent v hlo hv
          obtain ⟨mapped, s₂, hmap, hspec⟩ := mappages_spec supply
            (s := { s₁ with kallocs := s₁.kallocs + 1 })
            (Nat.lt_trans (Nat.lt_of_lt_of_le hv hbound) (by decide)) hnone mem
          simp only [hmap]
          cases mapped with
          | false =>
              obtain ⟨st', hst', hinv, hzero⟩ := hfail s₂ hspec
              exact ⟨st', hst', hinv, by omega⟩
          | true =>
              have hnext : (v * PGSIZE + PGSIZE) % 2 ^ 32 = (v + 1) * PGSIZE := by
                simp only [UPAGES, PGSIZE] at *
                omega
              rw [if_pos rfl] at hspec
              have hturn : Changed true s₁ s₂ v (v + 1) :=
                ⟨hspec.inside, hspec.outside⟩
              rw [hnext]
              refine ⟨_, rfl, ?_, ?_⟩
              · exact AllocInv.go (by omega) hv
                  (hchanged.trans hturn hlo (Nat.le_succ v))
              · rw [AllocSt.left_go, AllocSt.left_go]
                omega

/-- `allocuvm` makes the pages between the sizes present, or changes no
page. -/
theorem allocuvm_spec :
    ∃ r s', allocuvm supply fuel s oldsz newsz = some (r, s')
      ∧ (r = newsz ∧ Changed true s s' (pagesOf oldsz) (pagesOf newsz)
        ∨ r = 0 ∧ ∀ v, s'.page v = s.page v) := by
  have hpages : pagesOf oldsz ≤ pagesOf newsz := pagesOf_mono (Nat.le_of_lt hlt)
  have hentry : AllocInv s (pagesOf oldsz) (pagesOf newsz)
      ⟨PGROUNDUP oldsz, s, none⟩ := by
    rw [PGROUNDUP_eq (by omega)]
    exact AllocInv.go (Nat.le_refl _) hpages (Changed.refl true s _)
  have hturns : AllocSt.left ⟨PGROUNDUP oldsz, s, none⟩ ≤ 2 ^ 20 := by
    rw [PGROUNDUP_eq (by omega), AllocSt.left_go]
    exact Nat.le_trans (Nat.sub_le _ _) (by decide)
  obtain ⟨st, hrun, hst, hexit⟩ := Loop.run_total _
    (allocBody supply fuel newsz oldsz)
    (AllocInv s (pagesOf oldsz) (pagesOf newsz)) AllocSt.left
    (fun st hst hcond => hst.turn supply hfuel hlt hle habsent hcond)
    fuel _ hentry (Nat.le_trans hturns hfuel)
  rw [allocuvm, if_neg (by omega), if_neg (by omega), hrun]
  refine ⟨_, _, rfl, ?_⟩
  cases hst with
  | failed hpage => exact Or.inr ⟨rfl, hpage⟩
  | @go v s' hlo hhi hchanged =>
      have hend : pagesOf newsz ≤ v := by
        refine Nat.le_of_not_lt fun hlt => ?_
        simp [lt_pagesOf.mp hlt] at hexit
      rw [Nat.le_antisymm hhi hend] at hchanged
      exact Or.inl ⟨rfl, hchanged⟩

end Alloc

end SchoolStuff.Xv6.Vm
