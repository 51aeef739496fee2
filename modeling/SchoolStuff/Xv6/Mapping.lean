import SchoolStuff.Xv6.Kalloc
import SchoolStuff.Xv6.PageTables

/-!
# Xv6 — mapping a page, and freeing an address space

The frames that are taken are those of the new directory and some that are
not mapped yet. `walkpgdir` adds a table to them if it is missing, or is the
first call to fail; an entry that is set takes a frame over into the
directory. `freevm` gives back the frames of the directory and no others.
-/

namespace SchoolStuff.Xv6.Phys

open Vm (PGSIZE KERNBASE NPTENTRIES UPAGES PDX PTX PDX_eq PTX_eq)
open Holdings

variable {l : Linker} {fails : Nat → Bool} {s₀ s : State} {d v : Nat} {loose : List Nat}

/-! ## `walkpgdir` -/

theorem table_some (h : present (s.mem d (v / NPTENTRIES)) = true) (hv : v < 2 ^ 20) :
    table s.mem d (v / NPTENTRIES) = some (s.mem d (v / NPTENTRIES) / PGSIZE) := by
  have hi : v / NPTENTRIES < NPDENTRIES := by
    simp only [NPTENTRIES, NPDENTRIES]
    omega
  rw [table, if_pos ⟨hi, h⟩]

theorem table_none (h : present (s.mem d (v / NPTENTRIES)) = false) :
    table s.mem d (v / NPTENTRIES) = none := by
  simp [table, h]

theorem addr_frame (pte : Nat) : PTE_ADDR pte / PGSIZE = pte / PGSIZE := by
  simp only [PTE_ADDR, PGSIZE]
  omega

/-- Looking a page up. -/
theorem walkpgdir_find (fails : Nat → Bool) (s : State) (d : Nat) (hv : v < 2 ^ 20) :
    walkpgdir fails s d (v * PGSIZE) false =
      ((table s.mem d (v / NPTENTRIES)).map fun t => (t, v % NPTENTRIES), s) := by
  rw [walkpgdir, PDX_eq hv, PTX_eq]
  cases h : present (s.mem d (v / NPTENTRIES)) with
  | true => simp [table_some h hv, addr_frame]
  | false => simp [table_none h]

/-- What `walkpgdir` has done where it found or made a table. -/
structure Walked (fails : Nat → Bool) (s₀ s : State) (d v : Nat) (loose : List Nat)
    (t : Nat) (s' : State) : Prop where
  taken : Taken fails s₀ s' (frames s'.mem d ++ loose)
  found : table s'.mem d (v / NPTENTRIES) = some t
  tables : ∀ i, (table s'.mem d i).isSome ↔
    (table s.mem d i).isSome ∨ i = v / NPTENTRIES
  entries : entry s'.mem d = entry s.mem d
  mem : ∀ f, f ≠ d → f ∉ s.freelist → s'.mem f = s.mem f

/-- The table in a frame that was free. -/
theorem Walked.grow {f : Nat} {s₁ : State} (hfree : FreeOk l s₀)
    (htaken : Taken fails s₀ s₁ (f :: (frames s.mem d ++ loose))) (hmem : s₁.mem = s.mem)
    (hlist : s.freelist = f :: s₁.freelist) (hi : v / NPTENTRIES < NPDENTRIES)
    (hnone : table s.mem d (v / NPTENTRIES) = none) :
    Walked fails s₀ s d v loose f ((s₁.clear f).store d (v / NPTENTRIES)
      (f * PGSIZE ||| PTE_P ||| PTE_W ||| PTE_U)) := by
  have hnd : (frames s.mem d).Nodup :=
    (htaken.toKept.reorder List.perm_middle).nodup_left hfree
  have hf : f ∉ frames s.mem d :=
    (htaken.toKept.reorder List.perm_middle).apart hfree List.mem_cons_self
  have hfd : d ≠ f := fun heq => hf (heq ▸ List.mem_cons_self)
  let s' := (s₁.clear f).store d (v / NPTENTRIES) (f * PGSIZE ||| PTE_P ||| PTE_W ||| PTE_U)
  have hm : s'.mem = Function.update (Function.update s.mem f fun _ => 0) d
      (Function.update (s.mem d) (v / NPTENTRIES)
        (f * PGSIZE ||| PTE_P ||| PTE_W ||| PTE_U)) := by
    simp only [s', State.store, State.clear, hmem, Function.update_of_ne hfd]
  have hother (g : Nat) (hgd : g ≠ d) (hgf : g ≠ f) : s'.mem g = s.mem g := by
    rw [hm, Function.update_of_ne hgd, Function.update_of_ne hgf]
  have hperm := frames_grow hm hi hnd hf hnone
  have htable := table_grow hm hi
  refine ⟨?_, by rw [htable, if_pos rfl], fun i => ?_, entry_grow hm hi hnd hf hnone,
    fun g hgd hg => ?_⟩
  · have htaken' := htaken.reorder (hperm.append_right loose)
    refine htaken'.write rfl rfl fun g hg => ?_
    rw [hmem]
    refine hother g (fun heq => hg ?_) (fun heq => hg ?_)
    · rw [heq]
      exact List.mem_append_left _ List.mem_cons_self
    · rw [heq]
      exact List.mem_append_left _ (hperm.mem_iff.2 List.mem_cons_self)
  · rw [htable]
    by_cases heq : i = v / NPTENTRIES <;> simp [heq]
  · refine hother g hgd fun heq => hg ?_
    rw [heq, hlist]
    exact List.mem_cons_self

/-- Looking a page up, its table being made if need be. -/
theorem walkpgdir_alloc (hfree : FreeOk l s₀)
    (h : Taken fails s₀ s (frames s.mem d ++ loose)) (hv : v < 2 ^ 20) :
    (∃ t s', walkpgdir fails s d (v * PGSIZE) true = (some (t, v % NPTENTRIES), s') ∧
      Walked fails s₀ s d v loose t s') ∨
    ∃ s', walkpgdir fails s d (v * PGSIZE) true = (none, s') ∧
      table s.mem d (v / NPTENTRIES) = none ∧ s'.mem = s.mem ∧
      Kept s₀ s' (frames s.mem d ++ loose) ∧
      FirstFailure fails s₀ (frames s.mem d ++ loose).length := by
  rw [walkpgdir, PDX_eq hv, PTX_eq]
  have hi : v / NPTENTRIES < NPDENTRIES := by
    simp only [NPTENTRIES, NPDENTRIES]
    omega
  cases hp : present (s.mem d (v / NPTENTRIES)) with
  | true =>
      have htable := table_some hp hv
      refine .inl ⟨_, s, by simp [addr_frame], h, htable, fun i => ?_, rfl, fun _ _ _ => rfl⟩
      constructor
      · exact .inl
      · rintro (hsome | rfl)
        · exact hsome
        · simp [htable]
  | false =>
      have hnone := table_none hp
      cases h.kalloc with
      | inr hfail =>
          obtain ⟨s', hkalloc, hmem, hkept, hfirst⟩ := hfail
          exact .inr ⟨s', by simp [hkalloc], hnone, hmem, hkept, hfirst⟩
      | inl hsome =>
          obtain ⟨f, s₁, hkalloc, hmem, hlist, htaken⟩ := hsome
          exact .inl ⟨f, _, by simp [hkalloc], .grow hfree htaken hmem hlist hi hnone⟩

/-! ## One page -/

theorem present_or (w : Nat) : present (w ||| PTE_P) = true := by
  rw [present_iff, Nat.or_mod_two_eq_one]
  exact .inr rfl

/-- What mapping page `v` by the entry `w` has done. A frame of the user part is
no longer loose. -/
structure Mapped (fails : Nat → Bool) (s₀ s : State) (d v w : Nat) (loose : List Nat)
    (s' : State) : Prop where
  taken : Taken fails s₀ s' (frames s'.mem d ++ loose)
  tables : ∀ i, (table s'.mem d i).isSome ↔
    (table s.mem d i).isSome ∨ i = v / NPTENTRIES
  entries : ∀ u, entry s'.mem d u = if u = v then some w else entry s.mem d u
  mem : ∀ f, f ≠ d → f ∉ s.freelist → (∀ i, table s'.mem d i ≠ some f) → s'.mem f = s.mem f

/-- A call of `walkpgdir` for page `v` that was the first to fail in
`kalloc`. -/
structure Failed (fails : Nat → Bool) (s₀ s : State) (d v : Nat) (loose : List Nat)
    (s' : State) : Prop where
  kept : Kept s₀ s' (frames s'.mem d ++ loose)
  missing : table s.mem d (v / NPTENTRIES) = none
  first : FirstFailure fails s₀ ((frames s.mem d).length + loose.length)

theorem Walked.store {t w : Nat} {s' : State} {rest : List Nat} (hfree : FreeOk l s₀)
    (h : Walked fails s₀ s d v loose t s') (hnone : entry s.mem d v = none)
    (hw : present w = true)
    (hloose : loose = if v < UPAGES then w / PGSIZE :: rest else rest) :
    Mapped fails s₀ s d v w rest (s'.store t (v % NPTENTRIES) w) := by
  have hnd := h.taken.nodup_left hfree
  have hm : (s'.store t (v % NPTENTRIES) w).mem =
      Function.update s'.mem t (Function.update (s'.mem t) (v % NPTENTRIES) w) := rfl
  have hnone' : entry s'.mem d v = none := by rw [h.entries, hnone]
  have htable := table_store hnd h.found hm
  have hentry := entry_store hnd h.found hm
  have hmem (f : Nat) (hf : f ≠ t) : (s'.store t (v % NPTENTRIES) w).mem f = s'.mem f := by
    rw [hm, Function.update_of_ne hf]
  have hwrite : Taken fails s₀ (s'.store t (v % NPTENTRIES) w) (frames s'.mem d ++ loose) :=
    h.taken.write rfl rfl fun f hf => hmem f fun heq =>
      hf (heq ▸ List.mem_append_left _ (mem_frames_table h.found))
  refine ⟨?_, ?_, ?_, ?_⟩
  · by_cases hv : v < UPAGES
    · rw [hloose, if_pos hv] at hwrite
      refine hwrite.reorder ?_
      exact ((frames_put hnd h.found hm hv hnone' hw).append_right rest).trans
        List.perm_middle.symm
    · rw [hloose, if_neg hv] at hwrite
      rw [frames_store_kernel hnd h.found hm (Nat.not_lt.1 hv)]
      exact hwrite
  · intro i
    rw [htable, h.tables]
  · intro u
    rw [hentry, if_pos hw, h.entries]
  · intro f hfd hf ht
    have hft : f ≠ t := fun heq => ht (v / NPTENTRIES) (by rw [htable, h.found, heq])
    rw [hmem f hft, h.mem f hfd hf]

/-- A turn of the loop of `mappages`. -/
theorem mapBody_spec (last pa perm : Nat) (rest : List Nat) (hfree : FreeOk l s₀)
    (h : Taken fails s₀ s (frames s.mem d ++ loose)) (hv : v < 2 ^ 20)
    (hnone : entry s.mem d v = none)
    (hloose : loose =
      if v < UPAGES then (pa ||| perm ||| PTE_P) / PGSIZE :: rest else rest) :
    (∃ s', mapBody fails d last perm ⟨v * PGSIZE, pa, s, none⟩ =
        some (if v * PGSIZE = last then ⟨v * PGSIZE, pa, s', some true⟩
          else ⟨(v * PGSIZE + PGSIZE) % 2 ^ 32, (pa + PGSIZE) % 2 ^ 32, s', none⟩) ∧
      Mapped fails s₀ s d v (pa ||| perm ||| PTE_P) rest s') ∨
    ∃ s', mapBody fails d last perm ⟨v * PGSIZE, pa, s, none⟩ =
        some ⟨v * PGSIZE, pa, s', some false⟩ ∧ Failed fails s₀ s d v loose s' := by
  cases walkpgdir_alloc hfree h hv with
  | inl hwalk =>
      obtain ⟨t, s', hwalk, hwalked⟩ := hwalk
      have habsent : present (s'.mem t (v % NPTENTRIES)) = false := by
        have hentry := entry_of_table hwalked.found
        rw [hwalked.entries, hnone] at hentry
        by_contra hp
        simp [hp] at hentry
      refine .inl ⟨_, ?_, hwalked.store hfree hnone (present_or _) hloose⟩
      simp only [mapBody, hwalk, habsent, Bool.false_eq_true, if_false]
      split <;> rfl
  | inr hfail =>
      obtain ⟨s', hwalk, htable, hmem, hkept, hfirst⟩ := hfail
      refine .inr ⟨s', by simp [mapBody, hwalk], ?_, htable, ?_⟩
      · rw [hmem]
        exact hkept
      · rw [← List.length_append]
        exact hfirst

end SchoolStuff.Xv6.Phys
