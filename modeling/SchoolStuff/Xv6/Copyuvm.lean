import SchoolStuff.Xv6.Setupkvm

/-!
# Xv6 — what `copyuvm` takes and gives back

The loop of `copyuvm` has copied the pages below `u` and taken nothing besides
the child's directory (`Copies`), or a call of `kalloc` has failed and the
directory is gone. At `bad:` the page that was to be mapped is in no directory:
if its table was what could not be made, it is not given back.
-/

namespace SchoolStuff.Xv6.Phys

open Vm (PGSIZE KERNBASE NPTENTRIES UPAGES pagesOf lt_pagesOf pagesOf_le)
open Holdings

variable {l : Linker} {fails : Nat → Bool} {s₀ s s' : State} {pgdir sz d u v f : Nat}
  {P : Finset Nat} {loose : List Nat}

/-! ## The parent -/

/-- A process of size `sz` has the page directory `pgdir`. -/
structure Parent (s₀ : State) (pgdir sz : Nat) : Prop where
  size : sz ≤ KERNBASE
  mapped : ∀ v, v < pagesOf sz → (entry s₀.mem pgdir v).isSome
  taken : ∀ f ∈ frames s₀.mem pgdir, f ∉ s₀.freelist

theorem Parent.same (hp : Parent s₀ pgdir sz) (h : Kept s₀ s loose) :
    ∀ f ∈ frames s₀.mem pgdir, s.mem f = s₀.mem f :=
  fun f hf => h.mem f (hp.taken f hf)

/-- `copyuvm` finds the page, where it was before. -/
theorem Parent.find (fails : Nat → Bool) (hp : Parent s₀ pgdir sz) (h : Kept s₀ s loose)
    (hu : u < pagesOf sz) :
    ∃ t pte, walkpgdir fails s pgdir (u * PGSIZE) false = (some (t, u % NPTENTRIES), s) ∧
      s.mem t (u % NPTENTRIES) = pte ∧ present pte = true ∧
      entry s₀.mem pgdir u = some pte ∧ pte / PGSIZE ∈ frames s₀.mem pgdir := by
  have hlt : u < UPAGES := Nat.lt_of_lt_of_le hu (pagesOf_le hp.size)
  have hlt' : u < 2 ^ 20 := Nat.lt_trans hlt (by decide)
  obtain ⟨pte, hpte⟩ := Option.isSome_iff_exists.1 (hp.mapped u hu)
  have hsame := hp.same h
  cases htable : table s.mem pgdir (u / NPTENTRIES) with
  | none =>
      rw [← entry_same hsame, entry_of_none htable] at hpte
      contradiction
  | some t =>
      have hentry := entry_of_table htable
      rw [entry_same hsame, hpte] at hentry
      split at hentry
      · rename_i hpresent
        rw [Option.some.injEq] at hentry
        refine ⟨t, pte, ?_, hentry.symm, by rw [hentry, hpresent], hpte,
          mem_frames_page hlt (frameAt_of_entry hpte)⟩
        rw [walkpgdir_find fails s pgdir hlt', htable]
        rfl
      · contradiction

/-! ## One page -/

/-- **`mappages`** of a user page. -/
theorem mappages_page (hfree : FreeOk l s₀) (h : Built fails s₀ s d P [f]) (hv : v < UPAGES)
    (hP : v ∉ P) {flags : Nat} (hflags : flags < PGSIZE) :
    ∃ s', (mappages fails s d (v * PGSIZE) PGSIZE (f * PGSIZE) flags = some (true, s') ∧
        Mapped fails s₀ s d v (f * PGSIZE ||| flags ||| PTE_P) [] s') ∨
      (mappages fails s d (v * PGSIZE) PGSIZE (f * PGSIZE) flags = some (false, s') ∧
        Failed fails s₀ s d v [f] s') := by
  have hlt : v < 2 ^ 20 := Nat.lt_trans hv (by decide)
  have hfirst : PGROUNDDOWN (v * PGSIZE) = v * PGSIZE := by
    simp only [PGROUNDDOWN, PGSIZE]
    omega
  have hlast : PGROUNDDOWN ((v * PGSIZE + PGSIZE + 2 ^ 32 - 1) % 2 ^ 32) = v * PGSIZE := by
    simp only [PGROUNDDOWN, PGSIZE]
    omega
  have hloose : [f] = if v < UPAGES then
      (f * PGSIZE ||| flags ||| PTE_P) / PGSIZE :: [] else [] := by
    rw [if_pos hv, frame_word hflags]
  have hrun (ret : Bool) (s' : State)
      (hbody : mapBody fails d (v * PGSIZE) flags ⟨v * PGSIZE, f * PGSIZE, s, none⟩ =
        some ⟨v * PGSIZE, f * PGSIZE, s', some ret⟩) :
      mappages fails s d (v * PGSIZE) PGSIZE (f * PGSIZE) flags = some (ret, s') := by
    rw [mappages, hfirst, hlast, show TURNS = 1048575 + 1 from rfl, Loop.run,
      if_pos Option.isNone_none, hbody, Option.bind_some, Loop.run_of_exit rfl]
    rfl
  rcases mapBody_spec (v * PGSIZE) (f * PGSIZE) flags [] hfree h.taken hlt (h.absent hP)
    hloose with
    ⟨s', hbody, hmapped⟩ | ⟨s', hbody, hfailed⟩
  · rw [if_pos rfl] at hbody
    exact ⟨s', .inl ⟨hrun true s' hbody, hmapped⟩⟩
  · exact ⟨s', .inr ⟨hrun false s' hbody, hfailed⟩⟩

/-! ## The loop -/

/-- Page `v` of the directory `d` is a copy of the parent's. -/
def IsCopy (s₀ s : State) (pgdir d v : Nat) : Prop :=
  ∃ pte pte', entry s₀.mem pgdir v = some pte ∧ entry s.mem d v = some pte' ∧
    PTE_FLAGS pte' = PTE_FLAGS pte ∧ s.mem (pte' / PGSIZE) = s₀.mem (pte / PGSIZE)

/-- The pages below `u` have been copied. -/
structure Copies (fails : Nat → Bool) (s₀ s : State) (pgdir d u : Nat) (loose : List Nat) : Prop
    extends Built fails s₀ s d (kpages ∪ Finset.range u) loose where
  copied : ∀ v, v < u → IsCopy s₀ s pgdir d v

/-- The number of calls of `kalloc` so far. -/
theorem Built.count (hu : u ≤ UPAGES)
    (h : Built fails s₀ s d (kpages ∪ Finset.range u) loose) :
    (frames s.mem d).length = 65 + u + (u + 1023) / 1024 := by
  have huser : (kpages ∪ Finset.range u).filter (· < UPAGES) = Finset.range u := by
    ext x
    rw [Finset.mem_filter, Finset.mem_union, Finset.mem_range]
    constructor
    · rintro ⟨hx | hx, hlt⟩
      · exact absurd hlt (Nat.not_lt.2 (kpages_user hx))
      · exact hx
    · exact fun hx => ⟨.inr hx, Nat.lt_of_lt_of_le hx hu⟩
  rw [h.size, huser, card_tablesOf_pages hu, Finset.card_range]
  omega

/-- What is done to other frames does not matter. -/
theorem IsCopy.same (h : IsCopy s₀ s pgdir d v) (hv : v < UPAGES)
    (hsame : ∀ g ∈ frames s.mem d, s'.mem g = s.mem g) : IsCopy s₀ s' pgdir d v := by
  obtain ⟨pte, pte', hpte, hpte', hflags, hcontent⟩ := h
  refine ⟨pte, pte', hpte, ?_, hflags, ?_⟩
  · rw [entry_same hsame, hpte']
  · rw [hsame _ (mem_frames_page hv (frameAt_of_entry hpte')), hcontent]

theorem Copies.same (h : Copies fails s₀ s pgdir d u loose) (hu : u ≤ UPAGES)
    (hsame : ∀ g ∈ frames s.mem d, s'.mem g = s.mem g) {loose' : List Nat}
    (htaken : Taken fails s₀ s' (frames s.mem d ++ loose')) :
    Copies fails s₀ s' pgdir d u loose' where
  taken := by
    rw [frames_same hsame]
    exact htaken
  pages := by
    rw [entry_same hsame]
    exact h.pages
  tables := by
    rw [table_same hsame]
    exact h.tables
  copied v hv := (h.copied v hv).same (Nat.lt_of_lt_of_le hv hu) hsame

/-- `kalloc`, for the next page. -/
theorem Copies.kalloc (h : Copies fails s₀ s pgdir d u []) (hu : u ≤ UPAGES) :
    (∃ f s', s.kalloc fails = (some f, s') ∧ Copies fails s₀ s' pgdir d u [f]) ∨
    ∃ s', s.kalloc fails = (none, s') ∧ Kept s₀ s' (frames s'.mem d ++ []) ∧
      FirstFailure fails s₀ (65 + u + (u + 1023) / 1024) := by
  rcases h.taken.kalloc with
    ⟨f, s', hkalloc, hmem, -, htaken⟩ | ⟨s', hkalloc, hmem, hkept, hfirst⟩
  · refine .inl ⟨f, s', hkalloc, h.same hu (fun g _ => by rw [hmem]) ?_⟩
    rw [List.append_nil] at htaken
    exact htaken.reorder (List.perm_append_singleton f _)
  · rw [List.append_nil, h.toBuilt.count hu] at hfirst
    rw [← hmem] at hkept
    exact .inr ⟨s', hkalloc, hkept, hfirst⟩

/-- `memmove` to the page that is not mapped yet. -/
theorem Copies.copy (hfree : FreeOk l s₀) (h : Copies fails s₀ s pgdir d u [f])
    (hu : u ≤ UPAGES) (src : Nat) : Copies fails s₀ (s.copy f src) pgdir d u [f] := by
  have hf : f ∉ frames s.mem d := h.taken.apart hfree List.mem_cons_self
  have hmem (g : Nat) (hg : g ≠ f) : (s.copy f src).mem g = s.mem g :=
    Function.update_of_ne hg _ _
  refine h.same hu (fun g hg => hmem g fun heq => hf (heq ▸ hg)) ?_
  refine h.taken.write rfl rfl fun g hg => hmem g fun heq => hg ?_
  rw [heq]
  exact List.mem_append_right _ List.mem_cons_self

/-- A page that was taken before is not written to. -/
theorem Mapped.content {w g : Nat} (hfree : FreeOk l s₀)
    (h : Mapped fails s₀ s d u w loose s') (hv : v < UPAGES)
    (hframe : frameAt s'.mem d v = some g) (hg : g ∉ s.freelist) : s'.mem g = s.mem g := by
  have hnd := h.taken.nodup_left hfree
  exact h.mem g (page_ne hnd hv hframe) hg fun i hi => page_ne_table hnd hv hframe hi rfl

/-- One more page. -/
theorem Copies.map {pte : Nat} (hfree : FreeOk l s₀) (h : Copies fails s₀ s pgdir d u [f])
    (hu : u < UPAGES) (hpte : entry s₀.mem pgdir u = some pte) (hpresent : present pte = true)
    (hcontent : s.mem f = s₀.mem (pte / PGSIZE))
    (hmapped : Mapped fails s₀ s d u (f * PGSIZE ||| PTE_FLAGS pte ||| PTE_P) [] s') :
    Copies fails s₀ s' pgdir d (u + 1) [] := by
  have hflags : PTE_FLAGS pte < PGSIZE := Nat.mod_lt _ (by decide)
  have hodd : PTE_FLAGS pte % 2 = 1 := by
    rw [present_iff] at hpresent
    simp only [PTE_FLAGS, PGSIZE]
    omega
  have hnot (g : Nat) (hg : g ∈ frames s.mem d ++ [f]) : g ∉ s.freelist :=
    h.taken.not_free hfree hg
  have hbuilt := h.toBuilt.map hmapped
  have hpages : insert u (kpages ∪ Finset.range u) = kpages ∪ Finset.range (u + 1) := by
    rw [Finset.range_add_one, Finset.union_insert]
  rw [hpages] at hbuilt
  refine ⟨hbuilt, fun v hv => ?_⟩
  by_cases hlast : v = u
  · subst hlast
    have hentry : entry s'.mem d v = some (f * PGSIZE ||| PTE_FLAGS pte ||| PTE_P) := by
      rw [hmapped.entries, if_pos rfl]
    have hframe : frameAt s'.mem d v = some f := by
      rw [frameAt_of_entry hentry, frame_word hflags]
    refine ⟨pte, _, hpte, hentry, ?_, ?_⟩
    · rw [flags_word hflags, flags_or_one hodd]
    · rw [frame_word hflags, ← hcontent]
      exact hmapped.content hfree hu hframe
        (hnot f (List.mem_append_right _ List.mem_cons_self))
  · have hvu : v < UPAGES := Nat.lt_of_lt_of_le hv hu
    obtain ⟨pte, pte', hpte, hpte', hflags, hcontent⟩ := h.copied v (by omega)
    have hentry : entry s'.mem d v = some pte' := by
      rw [hmapped.entries, if_neg hlast, hpte']
    have hin := mem_frames_page hvu (frameAt_of_entry hpte')
    refine ⟨pte, pte', hpte, hentry, hflags, ?_⟩
    rw [hmapped.content hfree hvu (frameAt_of_entry hentry)
      (hnot _ (List.mem_append_left _ hin)), hcontent]

/-- `mappages`, of the page that has been copied. It fails where a table is
needed. -/
theorem Copies.mappages {pte : Nat} (hfree : FreeOk l s₀)
    (h : Copies fails s₀ s pgdir d u [f]) (hu : u < UPAGES)
    (hpte : entry s₀.mem pgdir u = some pte) (hpresent : present pte = true)
    (hcontent : s.mem f = s₀.mem (pte / PGSIZE)) :
    ∃ s', (Phys.mappages fails s d (u * PGSIZE) PGSIZE (f * PGSIZE) (PTE_FLAGS pte) =
          some (true, s') ∧ Copies fails s₀ s' pgdir d (u + 1) []) ∨
      (Phys.mappages fails s d (u * PGSIZE) PGSIZE (f * PGSIZE) (PTE_FLAGS pte) =
          some (false, s') ∧ Kept s₀ s' (frames s'.mem d ++ [f]) ∧
        u / NPTENTRIES * NPTENTRIES = u ∧
        FirstFailure fails s₀ (66 + 1025 * (u / NPTENTRIES))) := by
  have hnot : u ∉ kpages ∪ Finset.range u := by
    rw [Finset.mem_union, Finset.mem_range]
    rintro (hk | hk)
    · exact absurd hu (Nat.not_lt.2 (kpages_user hk))
    · exact Nat.lt_irrefl u hk
  have hflags : PTE_FLAGS pte < PGSIZE := Nat.mod_lt _ (by decide)
  obtain ⟨s', ⟨hmappages, hmapped⟩ | ⟨hmappages, hfailed⟩⟩ :=
    mappages_page hfree h.toBuilt hu hnot hflags
  · exact ⟨s', .inl ⟨hmappages, h.map hfree hu hpte hpresent hcontent hmapped⟩⟩
  · have hnew : u / NPTENTRIES ∉ tablesOf (kpages ∪ Finset.range u) := by
      rw [← h.tables, hfailed.missing]
      simp
    rw [tablesOf_pages] at hnew
    have hfirst := hfailed.first
    rw [h.toBuilt.count hu.le, List.length_singleton] at hfirst
    simp only [Finset.mem_union, Finset.mem_range, NPTENTRIES, not_or, not_lt] at *
    have hcall : 65 + u + (u + 1023) / 1024 + 1 = 66 + 1025 * (u / 1024) := by omega
    exact ⟨s', .inr ⟨hmappages, hfailed.kept, by omega, hcall ▸ hfirst⟩⟩

/-- `bad:`. -/
theorem CopySt.bad_spec (fails : Nat → Bool) (st : CopySt) (hfree : FreeOk l s₀)
    (h : Kept s₀ s (frames s.mem d ++ loose)) :
    ∃ s', st.bad l fails d s = some { st with state := s', ret := some none } ∧
      Kept s₀ s' loose := by
  obtain ⟨s', hfreevm, hkept⟩ := freevm_spec fails hfree h
  exact ⟨s', by simp [CopySt.bad, hfreevm], hkept⟩

/-- What has become of the frames when `copyuvm` returns. -/
inductive Outcome (fails : Nat → Bool) (s₀ : State) (pgdir sz : Nat) :
    Option Nat → State → Prop
  | copied {d : Nat} {s : State} : Copies fails s₀ s pgdir d (pagesOf sz) [] →
      Outcome fails s₀ pgdir sz (some d) s
  | back {k : Nat} {s : State} : Kept s₀ s [] → FirstFailure fails s₀ k →
      (∀ t, k ≠ 66 + 1025 * t) → Outcome fails s₀ pgdir sz none s
  | lost {t f : Nat} {s : State} : Kept s₀ s [f] → t * NPTENTRIES * PGSIZE < sz →
      FirstFailure fails s₀ (66 + 1025 * t) → Outcome fails s₀ pgdir sz none s

/-- The invariant of the loop. -/
inductive Copying (fails : Nat → Bool) (s₀ : State) (pgdir d sz : Nat) : CopySt → Prop
  | page {u : Nat} {s : State} : u ≤ pagesOf sz → Copies fails s₀ s pgdir d u [] →
      Copying fails s₀ pgdir d sz ⟨u * PGSIZE, s, none⟩
  | bad {i : Nat} {s : State} : Outcome fails s₀ pgdir sz none s →
      Copying fails s₀ pgdir d sz ⟨i, s, some none⟩

def CopySt.left (sz : Nat) (st : CopySt) : Nat :=
  if st.ret.isNone then pagesOf sz - st.i / PGSIZE else 0

/-- A turn of the loop. -/
theorem Copying.turn {st : CopySt} (hfree : FreeOk l s₀) (hp : Parent s₀ pgdir sz)
    (h : Copying fails s₀ pgdir d sz st)
    (hcond : (st.ret.isNone && decide (st.i < sz)) = true) :
    ∃ st', copyBody l fails pgdir d st = some st' ∧ Copying fails s₀ pgdir d sz st' ∧
      st'.left sz < st.left sz := by
  rw [Bool.and_eq_true] at hcond
  obtain ⟨hret, hlt⟩ := hcond
  cases h with
  | bad => simp at hret
  | @page u s _ hcopies =>
      have hin : u * PGSIZE < sz := of_decide_eq_true hlt
      have hu : u < pagesOf sz := lt_pagesOf.2 hin
      have huser : u < UPAGES := Nat.lt_of_lt_of_le hu (pagesOf_le hp.size)
      have hleft : 0 < CopySt.left sz ⟨u * PGSIZE, s, none⟩ := by
        simp only [CopySt.left, PGSIZE, Option.isNone_none, if_true] at *
        omega
      obtain ⟨t, pte, hwalk, hpte, hpresent, hentry, hframe⟩ :=
        hp.find fails hcopies.taken.toKept hu
      rcases hcopies.kalloc huser.le with
        ⟨f, s₁, hkalloc, hcopies₁⟩ | ⟨s₁, hkalloc, hkept, hfirst⟩
      · have hcontent : (s₁.copy f (pte / PGSIZE)).mem f = s₀.mem (pte / PGSIZE) := by
          rw [← hp.same hcopies₁.taken.toKept _ hframe]
          exact Function.update_self _ _ _
        obtain ⟨s₂, ⟨hmappages, hcopies₂⟩ | ⟨hmappages, hkept, htable, hfirst⟩⟩ :=
          (hcopies₁.copy hfree huser.le (pte / PGSIZE)).mappages hfree huser hentry hpresent
            hcontent
        · have hnext : (u * PGSIZE + PGSIZE) % 2 ^ 32 = (u + 1) * PGSIZE := by
            simp only [UPAGES, PGSIZE] at *
            omega
          have hbody : copyBody l fails pgdir d ⟨u * PGSIZE, s, none⟩ =
              some ⟨(u + 1) * PGSIZE, s₂, none⟩ := by
            rw [← hnext]
            simp [copyBody, hwalk, hpte, hpresent, hkalloc, addr_frame, hmappages]
          refine ⟨_, hbody, .page hu hcopies₂, ?_⟩
          simp only [CopySt.left, PGSIZE, Option.isNone_none, if_true] at *
          omega
        · -- the page is in no directory yet
          obtain ⟨s', hbad, hkept'⟩ := CopySt.bad_spec fails ⟨u * PGSIZE, s, none⟩ hfree hkept
          have hbody : copyBody l fails pgdir d ⟨u * PGSIZE, s, none⟩ =
              some ⟨u * PGSIZE, s', some none⟩ := by
            simp [copyBody, hwalk, hpte, hpresent, hkalloc, addr_frame, hmappages, hbad]
          refine ⟨_, hbody, .bad (.lost hkept' ?_ hfirst), hleft⟩
          rw [htable]
          exact hin
      · obtain ⟨s', hbad, hkept'⟩ := CopySt.bad_spec fails ⟨u * PGSIZE, s, none⟩ hfree
          hkept
        have hbody : copyBody l fails pgdir d ⟨u * PGSIZE, s, none⟩ =
            some ⟨u * PGSIZE, s', some none⟩ := by
          simp [copyBody, hwalk, hpte, hpresent, hkalloc, hbad]
        exact ⟨_, hbody, .bad (.back hkept' hfirst fun t => by omega), hleft⟩

/-! ## `copyuvm` -/

theorem copyuvm_outcome (fails : Nat → Bool) (hl : l.Ok) (hfree : FreeOk l s₀)
    (hp : Parent s₀ pgdir sz) :
    ∃ r s, copyuvm l fails s₀ pgdir sz = some (r, s) ∧ Outcome fails s₀ pgdir sz r s := by
  rcases setupkvm_spec fails hfree hl with
    ⟨d, s, hsetup, hbuilt⟩ | ⟨s, hsetup, hkept, k, hfirst, hk⟩
  · have hstart : Copies fails s₀ s pgdir d 0 [] := by
      refine ⟨?_, fun v hv => absurd hv (Nat.not_lt_zero v)⟩
      rw [Finset.range_zero, Finset.union_empty]
      exact hbuilt
    obtain ⟨st, hrun, hst, hexit⟩ :=
      Loop.run_total (fun st : CopySt => st.ret.isNone && decide (st.i < sz))
        (copyBody l fails pgdir d) (Copying fails s₀ pgdir d sz) (CopySt.left sz)
        (fun _ hst hcond => hst.turn hfree hp hcond) TURNS ⟨0, s, none⟩
        (.page (Nat.zero_le _) hstart)
        (Nat.le_trans (Nat.sub_le _ _) (Nat.le_trans (pagesOf_le hp.size) (by decide)))
    have hcopyuvm : copyuvm l fails s₀ pgdir sz = some (st.ret.getD (some d), st.state) := by
      simp [copyuvm, hsetup, hrun]
    cases hst with
    | @page u s hu hcopies =>
        have hge : ¬ u * PGSIZE < sz := by simpa using hexit
        have hend : u = pagesOf sz := by
          rw [← lt_pagesOf] at hge
          omega
        exact ⟨some d, s, hcopyuvm, .copied (hend ▸ hcopies)⟩
    | bad houtcome => exact ⟨none, _, hcopyuvm, houtcome⟩
  · exact ⟨none, s, by simp [copyuvm, hsetup], .back hkept hfirst fun t => by omega⟩

/-- The directory `d` maps copies of the parent's pages, in frames of their own
that were free. -/
structure Copied (s₀ s : State) (pgdir d sz : Nat) : Prop where
  copied : ∀ v, v < pagesOf sz → IsCopy s₀ s pgdir d v
  fresh : ∀ v f, v < pagesOf sz → frameAt s.mem d v = some f →
    f ∈ s₀.freelist ∧ f ∉ s.freelist
  distinct : ∀ u v f, u < pagesOf sz → v < pagesOf sz → frameAt s.mem d u = some f →
    frameAt s.mem d v = some f → u = v
  balance : (frames s.mem d ++ s.freelist).Perm s₀.freelist

/-- `copyuvm` returns a copy of the address space, or 0 and the free list is
what it was. The parent is left as it was. -/
def Conserves (l : Linker) (fails : Nat → Bool) (s₀ : State) (pgdir sz : Nat) : Prop :=
  ∃ r s, copyuvm l fails s₀ pgdir sz = some (r, s) ∧
    (∀ f ∈ frames s₀.mem pgdir, s.mem f = s₀.mem f) ∧
    match r with
    | some d => Copied s₀ s pgdir d sz
    | none => s.freelist.Perm s₀.freelist

/-- The first call of `kalloc` to fail is for a table of user pages: the kernel
takes 65 frames, each table before 1025 with its pages, and the first page of
this one has been taken. -/
def TableFails (fails : Nat → Bool) (s₀ : State) (sz : Nat) : Prop :=
  ∃ t, t * NPTENTRIES * PGSIZE < sz ∧ FirstFailure fails s₀ (66 + 1025 * t)

theorem Copies.result (hfree : FreeOk l s₀) (hsz : sz ≤ KERNBASE)
    (h : Copies fails s₀ s pgdir d (pagesOf sz) []) : Copied s₀ s pgdir d sz := by
  have hle := pagesOf_le hsz
  have hperm := h.taken.perm
  rw [List.append_nil] at hperm
  have hframes := h.taken.nodup_left hfree
  refine ⟨h.copied, fun v f hv hframe => ?_, fun u v f hu hv hfu hfv => ?_, hperm⟩
  · have hin := List.mem_append_left [] (mem_frames_page (Nat.lt_of_lt_of_le hv hle) hframe)
    exact ⟨h.taken.free hin, h.taken.not_free hfree hin⟩
  · exact page_inj hframes (Nat.lt_of_lt_of_le hu hle) (Nat.lt_of_lt_of_le hv hle) hfu hfv

/-- All tables were made where everything has been copied. -/
theorem Copies.no_failure (hsz : sz ≤ KERNBASE)
    (h : Copies fails s₀ s pgdir d (pagesOf sz) []) : ¬ TableFails fails s₀ sz := by
  rintro ⟨t, ht, hfirst⟩
  have hlt := lt_pagesOf.2 ht
  refine h.taken.before _ ?_ hfirst.1
  rw [List.append_nil, h.toBuilt.count (pagesOf_le hsz)]
  simp only [NPTENTRIES] at hlt
  omega

theorem conserves_of_no_failure (hl : l.Ok) (hfree : FreeOk l s₀) (hp : Parent s₀ pgdir sz)
    (hfails : ¬ TableFails fails s₀ sz) : Conserves l fails s₀ pgdir sz := by
  obtain ⟨r, s, hrun, houtcome⟩ := copyuvm_outcome fails hl hfree hp
  cases houtcome with
  | copied hcopies =>
      exact ⟨_, s, hrun, hp.same hcopies.taken.toKept, hcopies.result hfree hp.size⟩
  | back hkept => exact ⟨_, s, hrun, hp.same hkept, hkept.perm⟩
  | lost _ ht hfirst => exact absurd ⟨_, ht, hfirst⟩ hfails

theorem not_conserves_of_failure (hl : l.Ok) (hfree : FreeOk l s₀) (hp : Parent s₀ pgdir sz)
    (hfails : TableFails fails s₀ sz) : ¬ Conserves l fails s₀ pgdir sz := by
  rintro ⟨r, s, hrun, -, hresult⟩
  obtain ⟨r', s', hrun', houtcome⟩ := copyuvm_outcome fails hl hfree hp
  rw [hrun, Option.some.injEq, Prod.mk.injEq] at hrun'
  obtain ⟨rfl, rfl⟩ := hrun'
  cases houtcome with
  | copied hcopies => exact hcopies.no_failure hp.size hfails
  | back _ hfirst hk =>
      obtain ⟨t, -, hfirst'⟩ := hfails
      exact hk t (hfirst.unique hfirst')
  | lost hkept =>
      -- one frame less than there was
      have hlen := hkept.perm.length_eq
      have hlen' := hresult.length_eq
      rw [List.length_append, List.length_singleton] at hlen
      omega

/-- **`copyuvm` conserves pages** unless the first call to fail is the one for a
table of user pages: the page that was to be mapped there is lost. -/
theorem copyuvm_conserves_iff (l : Linker) (fails : Nat → Bool) (s₀ : State) (pgdir sz : Nat)
    (hl : l.Ok) (hfree : FreeOk l s₀) (hp : Parent s₀ pgdir sz) :
    Conserves l fails s₀ pgdir sz ↔ ¬ TableFails fails s₀ sz :=
  ⟨fun h hfails => not_conserves_of_failure hl hfree hp hfails h,
    conserves_of_no_failure hl hfree hp⟩

/-! ### A process of one page -/

/-- The directory in frame 1024, its table in 1025, the page in 1026. The
kernel's part, which `copyuvm` does not read, is left out. -/
def smallMem (f i : Nat) : Nat :=
  if f = 1024 ∧ i = 0 then 1025 * PGSIZE ||| 7
  else if f = 1025 ∧ i = 0 then 1026 * PGSIZE ||| 7
  else 0

/-- It is all there is besides `n` free frames. -/
def smallState (n : Nat) : State := ⟨smallMem, List.range' 1027 n, 0⟩

def smallKernel : Linker := ⟨0x80108000, 0x80115000⟩

theorem smallKernel_ok : smallKernel.Ok := ⟨by decide, by decide, by decide⟩

theorem smallState_free {n : Nat} (hn : n ≤ 1000) : FreeOk smallKernel (smallState n) where
  nodup := List.nodup_range'
  range f hf := by
    obtain ⟨i, hi, rfl⟩ := List.mem_range'.1 hf
    simp only [smallKernel, KERNBASE, PHYSTOP, PGSIZE]
    omega

theorem smallMem_table {i t : Nat} (h : table smallMem 1024 i = some t) : i = 0 ∧ t = 1025 := by
  by_cases hi : i = 0
  · subst hi
    have hzero : table smallMem 1024 0 = some 1025 := by decide
    exact ⟨rfl, by rw [hzero, Option.some.injEq] at h; exact h.symm⟩
  · simp [table, smallMem, hi, present] at h

theorem smallMem_page {v f : Nat} (h : frameAt smallMem 1024 v = some f) : f = 1026 := by
  cases htable : table smallMem 1024 (v / NPTENTRIES) with
  | none =>
      rw [frameAt, entry_of_none htable] at h
      contradiction
  | some t =>
      obtain ⟨-, rfl⟩ := smallMem_table htable
      rw [frameAt, entry_of_table htable] at h
      by_cases hv : v % NPTENTRIES = 0
      · rw [hv] at h
        have hword : (if present (smallMem 1025 0) then some (smallMem 1025 0) else none).map
            (· / PGSIZE) = some 1026 := by decide
        rw [hword, Option.some.injEq] at h
        exact h.symm
      · simp [smallMem, hv, present] at h

theorem smallState_parent (n : Nat) : Parent (smallState n) 1024 4096 where
  size := by decide
  mapped v hv := by
    have hzero : v = 0 := by
      rw [lt_pagesOf, PGSIZE] at hv
      omega
    subst hzero
    show (entry smallMem 1024 0).isSome
    decide
  taken f hf hin := by
    obtain ⟨i, -, rfl⟩ := List.mem_range'.1 hin
    rcases List.mem_cons.1 hf with hd | hf
    · omega
    · rcases List.mem_append.1 hf with hf | hf
      · obtain ⟨j, -, hj⟩ := mem_held.1 hf
        have ht := (smallMem_table hj).2
        omega
      · obtain ⟨v, -, hv⟩ := mem_held.1 hf
        have hpage := smallMem_page hv
        omega

/-- Where 67 frames are free, they are what the child takes. -/
theorem copyuvm_conserves_small :
    Conserves smallKernel (fun _ => false) (smallState 67) 1024 4096 := by
  refine (copyuvm_conserves_iff _ _ _ _ _ smallKernel_ok (smallState_free (by decide))
    (smallState_parent 67)).2 ?_
  rintro ⟨t, ht, hfirst⟩
  have hzero : t = 0 := by
    simp only [NPTENTRIES, PGSIZE] at ht
    omega
  have hfails := hfirst.1
  rw [hzero, Fails, smallState, List.length_range'] at hfails
  simp at hfails

/-- Where 66 are free, the last of them is lost: the kernel and the directory
take 65, the page one, and its table none. -/
theorem copyuvm_loses_page :
    ¬ Conserves smallKernel (fun _ => false) (smallState 66) 1024 4096 := by
  refine not_conserves_of_failure smallKernel_ok (smallState_free (by decide))
    (smallState_parent 66) ⟨0, by decide, .inr ?_, fun k hk => ?_⟩
  · rw [smallState, List.length_range']
  · rw [Fails, smallState, List.length_range']
    simp only [Bool.false_eq_true, false_or]
    omega

end SchoolStuff.Xv6.Phys
