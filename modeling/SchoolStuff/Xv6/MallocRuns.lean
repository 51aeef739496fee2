import SchoolStuff.Xv6.Malloc

/-!
# MallocRuns — what a program that allocates can rely on

A program calls `malloc` and `free`, stores into its blocks and into memory that
is not the allocator's, and may call `sbrk` itself. In each state of a run the
units that `morecore` got are in one block each, and no two free blocks touch.
So `malloc` gives memory without the kernel whenever there is a hole that is
large enough, and when everything has been freed the blocks have become one
again.
-/

namespace SchoolStuff.Xv6.Umalloc

/-- A program and its memory. -/
structure Sys where
  heap : Heap
  /-- the blocks in use, by their headers -/
  live : Finset Nat
  /-- the units that `morecore` has got -/
  arena : Finset Nat

/-- The most that can be asked for: with more, the size of the new memory is no
positive `int`. -/
abbrev MAXREQUEST : Nat := 2 ^ 31 - 16

inductive Event where
  | malloc (nbytes : Nat) (granted : Bool)
  | free (b : Nat)
  | store (u : Nat) (hd : Header)
  | sbrk (brk : Nat)

namespace Sys

/-- A unit that the program may store in. -/
def Owns (s : Sys) (u : Nat) : Prop :=
  (∃ b ∈ s.live, b ≠ u ∧ s.heap.In b u) ∨ (u ∉ s.arena ∧ u ≠ s.heap.base)

/-- `malloc` has returned `ret`. -/
def got (s : Sys) (ret : Option Nat) (h : Heap) : Sys where
  heap := h
  live := match ret with
    | none => s.live
    | some ap => insert (ap - 1) s.live
  arena := s.arena ∪ Finset.Ico s.heap.brk h.brk

/-- One step of the program. It frees what is in use, and gives back only memory
that it got itself. -/
def Step (s : Sys) : Event → Sys → Prop
  | .malloc nbytes granted, s' =>
      nbytes ≤ MAXREQUEST ∧ ∃ ret h, s.heap.malloc granted nbytes = some (ret, h)
        ∧ s' = s.got ret h
  | .free b, s' =>
      b ∈ s.live ∧ ∃ h, s.heap.free (b + 1) = some h
        ∧ s' = { s with heap := h, live := s.live.erase b }
  | .store u hd, s' =>
      s.Owns u ∧ s' = { s with heap := { s.heap with mem := Function.update s.heap.mem u hd } }
  | .sbrk brk, s' =>
      s.heap.base < brk ∧ brk < KERNBASE ∧ (∀ u ∈ s.arena, u < brk)
        ∧ s' = { s with heap := { s.heap with brk := brk } }

/-- A run. -/
inductive Run : Sys → List Event → Sys → Prop
  | nil {s : Sys} : Run s [] s
  | cons {s s₁ s' : Sys} {e : Event} {es : List Event} : s.Step e s₁ → Run s₁ es s' →
      Run s (e :: es) s'

/-- A program that has allocated nothing. -/
def start (mem : Nat → Header) (base brk : Nat) : Sys :=
  ⟨⟨mem, base, none, brk⟩, ∅, ∅⟩

/-- **The invariant of a run**: the blocks of the ring `S` and those in use have
what `morecore` got. -/
structure Good (s : Sys) (S : Finset Nat) : Prop where
  valid : s.heap.Valid S s.live
  arena : ∀ u, u ∈ s.arena ↔ s.heap.Has S u ∨ s.heap.Has s.live u

/-- No call of `malloc` yet. -/
structure Unused (s : Sys) : Prop where
  freep : s.heap.freep = none
  live : s.live = ∅
  arena : s.arena = ∅
  base_lt : s.heap.base < s.heap.brk
  brk_lt : s.heap.brk < KERNBASE

variable {s s' : Sys} {S : Finset Nat} {b u n : Nat} {e : Event}

theorem nunits_lt {nbytes : Nat} (hn : nbytes ≤ MAXREQUEST) :
    Heap.nunits nbytes < KERNBASE ∧ nbytes ≤ 8 * (Heap.nunits nbytes - 1) := by
  simp only [MAXREQUEST] at hn
  unfold Heap.nunits
  rw [Heap.uint_of_lt (by omega)]
  simp only [KERNBASE]
  omega

/-! ## One step -/

/-- A heap is as valid as one with the same headers. -/
theorem valid_congr {h h' : Heap} {L : Finset Nat} (hv : h.Valid S L)
    (hmem : ∀ p ∈ S ∪ L, h'.mem p = h.mem p) (hbase : h'.base = h.base)
    (hfreep : h'.freep = h.freep) (hlt : h.base < h'.brk) (hbrk : h'.brk < KERNBASE)
    (hle : ∀ p ∈ S ∪ L, p + h.size p ≤ h'.brk) : h'.Valid S L := by
  have hinv := hv.inv
  have hsize : ∀ p ∈ S ∪ L, h'.size p = h.size p := fun p hp => by
    rw [Heap.size, hmem p hp, ← Heap.size]
  have hsizeS : ∀ p ∈ S, h'.size p = h.size p := fun p hp =>
    hsize p (Finset.mem_union_left L hp)
  refine ⟨⟨hbase ▸ hinv.base_mem, ?_, fun p hp => ?_, hinv.used, hbase ▸ hinv.base_le,
    fun p hp hne => ?_, fun p hp => ?_, fun p hp q hq hpq => ?_, hbrk, hbase ▸ hlt⟩,
    hfreep ▸ hv.freep, fun p hp hpE q hq hpq => ?_⟩
  · rw [hbase, hsizeS _ hinv.base_mem, hinv.base_size]
  · rw [Heap.ptr, hmem p (Finset.mem_union_left L hp), ← Heap.ptr]
    exact hinv.next p hp
  · rw [hsize p hp]
    exact hinv.pos p hp (hbase ▸ hne)
  · rw [hsize p hp]
    exact hle p hp
  · rw [hsize p hp]
    exact hinv.apart p hp q hq hpq
  · rw [hsizeS p hp]
    exact hv.loose p hp hpE q hq hpq

theorem has_congr {h h' : Heap} {L : Finset Nat} (hsize : ∀ p ∈ L, h'.size p = h.size p) :
    h'.Has L u ↔ h.Has L u := by
  unfold Heap.Has Heap.In
  constructor
  · rintro ⟨p, hp, hle, hlt⟩
    exact ⟨p, hp, hle, hsize p hp ▸ hlt⟩
  · rintro ⟨p, hp, hle, hlt⟩
    exact ⟨p, hp, hle, (hsize p hp).symm ▸ hlt⟩

/-- The program does not store in a header. -/
theorem Good.not_header (hg : s.Good S) (hu : s.Owns u) : u ∉ S ∪ s.live := by
  have hinv := hg.valid.inv
  intro hmem
  obtain ⟨b, hb, hbu, hin⟩ | ⟨harena, hbase⟩ := hu
  · rcases Finset.mem_union.1 hmem with hmem | hmem
    · exact hinv.not_in hb hmem hin
    · exact hbu (hinv.in_unique (Finset.mem_union_right S hb) (Finset.mem_union_right S hmem)
        hin (hinv.in_self hmem))
  · have hpos := hinv.pos u hmem hbase
    have hin : s.heap.In u u := ⟨le_refl u, by omega⟩
    rw [hg.arena u] at harena
    rcases Finset.mem_union.1 hmem with hmem | hmem
    · exact harena (Or.inl ⟨u, hmem, hin⟩)
    · exact harena (Or.inr ⟨u, hmem, hin⟩)

theorem Good.got {S' : Finset Nat} {h : Heap} {granted : Bool} {q : Nat} (hg : s.Good S)
    (hgot : Heap.Got s.heap h S S' s.live granted q n) : (s.got (some (q + 1)) h).Good S' := by
  have hlive : ∀ p ∈ s.live, h.size p = s.heap.size p := fun p hp => by
    rw [Heap.size, hgot.keeps p hp p (hg.valid.inv.in_self hp), ← Heap.size]
  refine ⟨hgot.valid, fun u => ?_⟩
  have hhas := hgot.has u
  show u ∈ s.arena ∪ Finset.Ico s.heap.brk h.brk ↔ h.Has S' u ∨ h.Has (insert q s.live) u
  have hinsert : h.Has (insert q s.live) u ↔ h.In q u ∨ s.heap.Has s.live u := by
    rw [← has_congr hlive]
    unfold Heap.Has
    exact Finset.exists_mem_insert ..
  rw [Finset.mem_union, Finset.mem_Ico, hg.arena u, hinsert]
  constructor
  · rintro ((hS | hL) | hnew)
    · exact (hhas.1 (Or.inl hS)).elim (fun hq => Or.inr (Or.inl hq)) Or.inl
    · exact Or.inr (Or.inr hL)
    · exact (hhas.1 (Or.inr hnew)).elim (fun hq => Or.inr (Or.inl hq)) Or.inl
  · rintro (hS' | hq | hL)
    · exact (hhas.2 (Or.inr hS')).imp Or.inl id
    · exact (hhas.2 (Or.inl hq)).imp Or.inl id
    · exact Or.inl (Or.inr hL)

theorem Good.free (hg : s.Good S) (hb : b ∈ s.live) {h : Heap}
    (hfree : s.heap.free (b + 1) = some h) :
    ∃ S', ({ s with heap := h, live := s.live.erase b } : Sys).Good S' := by
  obtain ⟨h', S', hfree', hvalid, hfreed, _⟩ := hg.valid.free hb
  rw [hfree, Option.some.injEq] at hfree'
  subst hfree'
  have hinv := hg.valid.inv
  have hlive : ∀ p ∈ s.live.erase b, h.size p = s.heap.size p := by
    intro p hp
    obtain ⟨hpb, hp⟩ := Finset.mem_erase.1 hp
    have hnot : p ∉ insert b S := fun hmem =>
      hinv.used p hp (Finset.mem_of_mem_insert_of_ne hmem hpb)
    rw [Heap.size, hfreed.mem p hnot, ← Heap.size]
  refine ⟨S', hvalid, fun u => ?_⟩
  show u ∈ s.arena ↔ h.Has S' u ∨ h.Has (s.live.erase b) u
  rw [hg.arena u, hfreed.has u, has_congr hlive]
  constructor
  · rintro (hS | ⟨p, hp, hin⟩)
    · exact Or.inl (Or.inr hS)
    · by_cases hpb : p = b
      · exact Or.inl (Or.inl (hpb ▸ hin))
      · exact Or.inr ⟨p, Finset.mem_erase.2 ⟨hpb, hp⟩, hin⟩
  · rintro ((hin | hS) | ⟨p, hp, hin⟩)
    · exact Or.inr ⟨b, hb, hin⟩
    · exact Or.inl hS
    · exact Or.inr ⟨p, Finset.mem_of_mem_erase hp, hin⟩

theorem Good.store (hg : s.Good S) (hu : s.Owns u) (hd : Header) :
    ({ s with heap := { s.heap with mem := Function.update s.heap.mem u hd } } : Sys).Good S := by
  have hnot := hg.not_header hu
  have hmem : ∀ p ∈ S ∪ s.live, Function.update s.heap.mem u hd p = s.heap.mem p :=
    fun p hp => Function.update_of_ne (ne_of_mem_of_not_mem hp hnot) _ _
  have hinv := hg.valid.inv
  refine ⟨valid_congr hg.valid hmem rfl rfl hinv.base_lt hinv.brk_lt hinv.le_brk, fun v => ?_⟩
  have hsize : ∀ p ∈ S ∪ s.live,
      Heap.size { s.heap with mem := Function.update s.heap.mem u hd } p = s.heap.size p :=
    fun p hp => congrArg Header.size (hmem p hp)
  rw [has_congr fun p hp => hsize p (Finset.mem_union_left _ hp),
    has_congr fun p hp => hsize p (Finset.mem_union_right _ hp)]
  exact hg.arena v

theorem Good.sbrk (hg : s.Good S) {brk : Nat} (hbase : s.heap.base < brk)
    (hbrk : brk < KERNBASE) (harena : ∀ u ∈ s.arena, u < brk) :
    ({ s with heap := { s.heap with brk := brk } } : Sys).Good S := by
  have hinv := hg.valid.inv
  refine ⟨valid_congr hg.valid (fun _ _ => rfl) rfl rfl hbase hbrk fun p hp => ?_, hg.arena⟩
  show p + s.heap.size p ≤ brk
  by_cases hpbase : p = s.heap.base
  · rw [hpbase, hinv.base_size]
    omega
  · -- its last unit is in the arena
    have hpos := hinv.pos p hp hpbase
    have hin : s.heap.In p (p + s.heap.size p - 1) := ⟨by omega, by omega⟩
    have hlast : p + s.heap.size p - 1 ∈ s.arena := by
      rw [hg.arena]
      exact (Finset.mem_union.1 hp).imp (fun hp => ⟨p, hp, hin⟩) fun hp => ⟨p, hp, hin⟩
    have hlt := harena _ hlast
    omega

/-! ## Before the first call -/

theorem init_of_some {h : Heap} {f : Nat} (hf : h.freep = some f) : h.init = h := by
  rw [Heap.init, hf]

theorem init_brk (h : Heap) : h.init.brk = h.brk := by
  unfold Heap.init
  split <;> rfl

theorem malloc_init (h : Heap) (granted : Bool) (nbytes : Nat) :
    h.init.malloc granted nbytes = h.malloc granted nbytes := by
  have hinit : h.init.init = h.init := by
    cases hf : h.freep with
    | none =>
        refine init_of_some (f := h.base) ?_
        rw [Heap.init, hf]
    | some f => rw [init_of_some hf, init_of_some hf]
  unfold Heap.malloc
  rw [hinit]

/-- The program behind the first lines of `malloc`. -/
def used (s : Sys) : Sys := { s with heap := s.heap.init }

theorem Good.used_eq (hg : s.Good S) : s.used = s := by
  obtain ⟨f, _, hf⟩ := hg.valid.freep
  rw [used, init_of_some hf]

theorem Unused.good (hun : s.Unused) : s.used.Good {s.heap.base} := by
  have hv := Heap.valid_init hun.freep hun.base_lt hun.brk_lt
  have hbase : s.heap.init.base = s.heap.base := by
    unfold Heap.init
    split <;> rfl
  refine ⟨?_, fun u => ?_⟩
  · show s.heap.init.Valid {s.heap.base} s.live
    rw [hun.live]
    exact hv
  · show u ∈ s.arena ↔ s.heap.init.Has {s.heap.base} u ∨ s.heap.init.Has s.live u
    rw [hun.arena, hun.live]
    constructor
    · exact fun hmem => absurd hmem (Finset.notMem_empty u)
    · rintro (⟨p, hp, hle, hlt⟩ | ⟨p, hp, _⟩)
      · rw [Finset.mem_singleton.1 hp] at hle hlt
        have hsize := hv.inv.base_size
        rw [hbase] at hsize
        omega
      · exact absurd hp (Finset.notMem_empty p)

/-- Every state of a run. -/
def Ok (s : Sys) : Prop := s.Unused ∨ ∃ S, s.Good S

theorem Ok.used_good (hok : s.Ok) : ∃ S, s.used.Good S := by
  obtain hun | ⟨S, hg⟩ := hok
  · exact ⟨_, hun.good⟩
  · exact ⟨S, hg.used_eq.symm ▸ hg⟩

theorem Ok.good (hok : s.Ok) (hb : b ∈ s.live) : ∃ S, s.Good S := by
  obtain hun | hg := hok
  · rw [hun.live] at hb
    exact absurd hb (Finset.notMem_empty b)
  · exact hg

/-- What `malloc` does. -/
theorem malloc_cases (hg : s.used.Good S) {nbytes : Nat} (hn : nbytes ≤ MAXREQUEST)
    (granted : Bool) :
    (∃ q h S', s.heap.malloc granted nbytes = some (some (q + 1), h)
        ∧ Heap.Got s.heap.init h S S' s.live granted q (Heap.nunits nbytes))
      ∨ ¬s.heap.init.Fits S (Heap.nunits nbytes)
        ∧ ¬s.heap.init.Grants granted (Heap.want (Heap.nunits nbytes))
        ∧ s.heap.malloc granted nbytes = some (none, s.heap.init) := by
  rw [← malloc_init]
  exact hg.valid.malloc (nunits_lt hn).1

/-- **Step lemma.** -/
theorem Ok.step (hok : s.Ok) (hstep : s.Step e s') : s'.Ok := by
  cases e with
  | malloc nbytes granted =>
      obtain ⟨hn, ret, h, hmalloc, rfl⟩ := hstep
      obtain ⟨S, hg⟩ := hok.used_good
      have hbrk := init_brk s.heap
      obtain ⟨q, h', S', hmalloc', hgot⟩ | ⟨_, _, hmalloc'⟩ := malloc_cases hg hn granted
      · rw [hmalloc, Option.some.injEq, Prod.mk.injEq] at hmalloc'
        obtain ⟨rfl, rfl⟩ := hmalloc'
        have hgood := hg.got hgot
        rw [got, used, hbrk] at hgood
        exact Or.inr ⟨S', hgood⟩
      · rw [hmalloc, Option.some.injEq, Prod.mk.injEq] at hmalloc'
        obtain ⟨rfl, rfl⟩ := hmalloc'
        refine Or.inr ⟨S, ?_⟩
        rw [got, hbrk, Finset.Ico_self, Finset.union_empty]
        exact hg
  | free b =>
      obtain ⟨hb, h, hfree, rfl⟩ := hstep
      obtain ⟨S, hg⟩ := hok.good hb
      exact Or.inr (hg.free hb hfree)
  | store u hd =>
      obtain ⟨hu, rfl⟩ := hstep
      obtain hun | ⟨S, hg⟩ := hok
      · exact Or.inl ⟨hun.freep, hun.live, hun.arena, hun.base_lt, hun.brk_lt⟩
      · exact Or.inr ⟨S, hg.store hu hd⟩
  | sbrk brk =>
      obtain ⟨hbase, hbrk, harena, rfl⟩ := hstep
      obtain hun | ⟨S, hg⟩ := hok
      · exact Or.inl ⟨hun.freep, hun.live, hun.arena, hbase, hbrk⟩
      · exact Or.inr ⟨S, hg.sbrk hbase hbrk harena⟩

/-- **Run lemma.** -/
theorem Ok.run {es : List Event} (hok : s.Ok) (hrun : s.Run es s') : s'.Ok := by
  induction hrun with
  | nil => exact hok
  | cons hstep _ ih => exact ih (hok.step hstep)

theorem ok_start {mem : Nat → Header} {base brk : Nat} (hbase : base < brk)
    (hbrk : brk < KERNBASE) : (start mem base brk).Ok :=
  Or.inl ⟨rfl, rfl, rfl, hbase, hbrk⟩

/-! ## The blocks -/

/-- The free blocks are `F`, in the ring of `freep`. -/
structure Blocks (s : Sys) (F : Finset Nat) : Prop where
  free : ∀ b ∈ s.live, b ∉ F
  cover : ∀ u, u ∈ s.arena ↔ ∃ b ∈ F ∪ s.live, s.heap.In b u
  unique : ∀ b ∈ F ∪ s.live, ∀ c ∈ F ∪ s.live, ∀ u, s.heap.In b u → s.heap.In c u → b = c
  coalesced : ∀ b ∈ F, ∀ c ∈ F, b + s.heap.size b ≠ c
  ring : ∀ f, s.heap.freep = some f → f ∈ insert s.heap.base F
    ∧ ∀ p ∈ insert s.heap.base F, Cyclic.Next (insert s.heap.base F) p (s.heap.ptr p)

theorem Good.blocks (hg : s.Good S) : s.Blocks (S.erase s.heap.base) := by
  have hinv := hg.valid.inv
  have hring : insert s.heap.base (S.erase s.heap.base) = S := Finset.insert_erase hinv.base_mem
  have hsub : S.erase s.heap.base ∪ s.live ⊆ S ∪ s.live :=
    Finset.union_subset_union (Finset.erase_subset _ S) (Finset.Subset.refl _)
  refine ⟨fun b hb hmem => hinv.used b hb (Finset.mem_of_mem_erase hmem), fun u => ?_,
    fun b hb c hc u => hinv.in_unique (hsub hb) (hsub hc), fun b hb c hc heq => ?_,
    fun f hf => ?_⟩
  · rw [hg.arena u]
    constructor
    · rintro (⟨p, hp, hin⟩ | ⟨p, hp, hin⟩)
      · refine ⟨p, Finset.mem_union_left _ (Finset.mem_erase.2 ⟨?_, hp⟩), hin⟩
        rintro rfl
        have hlt := hin.2
        have hle := hin.1
        rw [hinv.base_size] at hlt
        omega
      · exact ⟨p, Finset.mem_union_right _ hp, hin⟩
    · rintro ⟨p, hp, hin⟩
      exact (Finset.mem_union.1 hp).imp (fun hp => ⟨p, Finset.mem_of_mem_erase hp, hin⟩)
        fun hp => ⟨p, hp, hin⟩
  · obtain ⟨hbbase, hbS⟩ := Finset.mem_erase.1 hb
    have hpos := hinv.pos b (Finset.mem_union_left _ hbS) hbbase
    exact hg.valid.loose b hbS (Finset.notMem_empty b) c (Finset.mem_of_mem_erase hc) (by omega)
      heq
  · obtain ⟨f', hf'S, hf'⟩ := hg.valid.freep
    rw [hf, Option.some.injEq] at hf'
    rw [hring, hf']
    exact ⟨hf'S, hinv.next⟩

theorem Ok.blocks (hok : s.Ok) : ∃ F, s.Blocks F := by
  obtain hun | ⟨S, hg⟩ := hok
  · refine ⟨∅, ?_, fun u => ?_, ?_, fun b hb => absurd hb (Finset.notMem_empty b), fun f hf => ?_⟩
    · rw [hun.live]
      exact fun b hb => absurd hb (Finset.notMem_empty b)
    · rw [hun.arena, hun.live]
      constructor
      · exact fun hmem => absurd hmem (Finset.notMem_empty u)
      · rintro ⟨b, hb, _⟩
        exact absurd hb (Finset.notMem_empty b)
    · rw [hun.live]
      exact fun b hb => absurd hb (Finset.notMem_empty b)
    · rw [hun.freep] at hf
      cases hf
  · exact ⟨_, hg.blocks⟩

/-- `n` units in a row that `morecore` got, none of them in use. -/
def Hole (s : Sys) (n : Nat) : Prop :=
  ∃ a, ∀ u, a ≤ u → u < a + n → u ∈ s.arena ∧ ∀ b ∈ s.live, ¬s.heap.In b u

/-- **A hole is in one block**: free blocks do not touch. -/
theorem Good.fits_iff (hg : s.Good S) (hn : 0 < n) : s.heap.Fits S n ↔ s.Hole n := by
  have hinv := hg.valid.inv
  constructor
  · rintro ⟨p, hp, hle⟩
    refine ⟨p, fun u hpu hu => ?_⟩
    have hin : s.heap.In p u := ⟨hpu, by omega⟩
    refine ⟨(hg.arena u).2 (Or.inl ⟨p, hp, hin⟩), fun b hb hbu => ?_⟩
    have hpb := hinv.in_unique (Finset.mem_union_left _ hp) (Finset.mem_union_right _ hb) hin hbu
    exact hinv.used b hb (hpb ▸ hp)
  · rintro ⟨a, ha⟩
    have hfree : ∀ u, a ≤ u → u < a + n → s.heap.Has S u := fun u hle hlt =>
      ((hg.arena u).1 (ha u hle hlt).1).resolve_right fun ⟨b, hb, hin⟩ =>
        (ha u hle hlt).2 b hb hin
    obtain ⟨p, hp, hin⟩ := hfree a (le_refl a) (by omega)
    have hall : ∀ k, k < n → s.heap.In p (a + k) := by
      intro k
      induction k with
      | zero => exact fun _ => hin
      | succ k ih =>
          intro hk
          have hpk := ih (by omega)
          obtain ⟨q, hq, hqk⟩ := hfree (a + (k + 1)) (by omega) (by omega)
          by_cases hpq : p = q
          · exact hpq ▸ hqk
          · -- then `q` starts where `p` ends
            obtain ⟨hple, hplt⟩ := hpk
            obtain ⟨hqle, hqlt⟩ := hqk
            rcases Nat.lt_or_gt_of_ne hpq with hlt | hgt
            · have hle := hinv.apart p (Finset.mem_union_left _ hp) q
                (Finset.mem_union_left _ hq) hlt
              exact absurd (by omega) (hg.valid.loose p hp (Finset.notMem_empty p) q hq hlt)
            · have hle := hinv.apart q (Finset.mem_union_left _ hq) p
                (Finset.mem_union_left _ hp) hgt
              omega
    have hlast := (hall (n - 1) (by omega)).2
    have hfirst := hin.1
    exact ⟨p, hp, by omega⟩

/-! ## What is in a block -/

theorem Good.store_ne (hg : s.Good S) (hb : b ∈ s.live) (hu : s.Owns u) : b ≠ u := fun heq =>
  hg.not_header hu (Finset.mem_union_right S (heq ▸ hb))

/-- A step that does not free the block keeps what it does not store in. -/
theorem Good.step_keeps (hg : s.Good S) (hstep : s.Step e s') (hb : b ∈ s.live)
    (hfree : e ≠ .free b) (hin : s.heap.In b u) (hstore : ∀ hd, e ≠ .store u hd) :
    b ∈ s'.live ∧ s'.heap.mem u = s.heap.mem u := by
  have hinv := hg.valid.inv
  cases e with
  | malloc nbytes granted =>
      obtain ⟨hn, ret, h, hmalloc, rfl⟩ := hstep
      have hinit : s.heap.init = s.heap := congrArg Sys.heap hg.used_eq
      obtain ⟨q, h', S', hmalloc', hgot⟩ | ⟨_, _, hmalloc'⟩ :=
        malloc_cases (hg.used_eq.symm ▸ hg) hn granted
      · rw [hmalloc, Option.some.injEq, Prod.mk.injEq] at hmalloc'
        obtain ⟨rfl, rfl⟩ := hmalloc'
        rw [hinit] at hgot
        exact ⟨Finset.mem_insert_of_mem hb, hgot.keeps b hb u hin⟩
      · rw [hmalloc, Option.some.injEq, Prod.mk.injEq, hinit] at hmalloc'
        obtain ⟨rfl, rfl⟩ := hmalloc'
        exact ⟨hb, rfl⟩
  | free c =>
      obtain ⟨hc, h, hfree', rfl⟩ := hstep
      obtain ⟨h', S', hrun, _, hfreed, _⟩ := hg.valid.free hc
      rw [hfree', Option.some.injEq] at hrun
      subst hrun
      have hbc : b ≠ c := fun heq => hfree (heq ▸ rfl)
      refine ⟨Finset.mem_erase.2 ⟨hbc, hb⟩, hfreed.mem u fun hmem => ?_⟩
      rcases Finset.mem_insert.1 hmem with rfl | hmem
      · exact hbc (hinv.in_unique (Finset.mem_union_right S hb) (Finset.mem_union_right S hc) hin
          (hinv.in_self hc))
      · exact hinv.not_in hb hmem hin
  | store v hd =>
      obtain ⟨hv, rfl⟩ := hstep
      have hne : u ≠ v := by
        rintro rfl
        exact hstore hd rfl
      exact ⟨hb, Function.update_of_ne hne _ _⟩
  | sbrk brk =>
      obtain ⟨_, _, _, rfl⟩ := hstep
      exact ⟨hb, rfl⟩

theorem Good.step_in (hg : s.Good S) (hstep : s.Step e s') (hb : b ∈ s.live)
    (hfree : e ≠ .free b) (hin : s.heap.In b u) : s'.heap.In b u := by
  have hheader := (hg.step_keeps hstep hb hfree (hg.valid.inv.in_self hb) (by
    rintro hd rfl
    exact hg.store_ne hb hstep.1 rfl)).2
  rw [Heap.In, Heap.size, hheader]
  exact hin

end Sys

variable {mem : Nat → Header} {base brk : Nat} {es es' : List Event} {s s' : Sys}

/-- **The blocks have the memory between them.** In each state of a run the units
that `morecore` got are in one block each, in use or free; the free ones are
the ring, no two of them touch, and each block in use can be freed. -/
theorem umalloc_blocks (hbase : base < brk) (hbrk : brk < KERNBASE)
    (hrun : (Sys.start mem base brk).Run es s) :
    (∃ F, s.Blocks F) ∧ ∀ b ∈ s.live, (s.heap.free (b + 1)).isSome := by
  have hok := (Sys.ok_start hbase hbrk).run hrun
  refine ⟨hok.blocks, fun b hb => ?_⟩
  obtain ⟨S, hg⟩ := hok.good hb
  obtain ⟨h', _, hfree, _⟩ := hg.valid.free hb
  rw [hfree]
  rfl

/-- A program asks for 100 bytes: the block has the last of 4096 units. -/
theorem start_malloc : ∃ h, (Sys.start (fun _ => ⟨0, 0⟩) 100 2048).heap.malloc true 100
      = some (some 6131, h) ∧ h.brk = 6144 ∧ h.size 6130 = 14 := by
  have hsome : ((Sys.start (fun _ => ⟨0, 0⟩) 100 2048).heap.malloc true 100).map
      (fun r => (r.1, r.2.brk, r.2.size 6130)) = some (some 6131, 6144, 14) := by
    decide +kernel
  obtain ⟨⟨ret, h⟩, hmalloc, heq⟩ := Option.map_eq_some_iff.1 hsome
  simp only [Prod.mk.injEq] at heq
  exact ⟨h, heq.1 ▸ hmalloc, heq.2⟩

theorem start_run : ∃ s, (Sys.start (fun _ => ⟨0, 0⟩) 100 2048).Run [.malloc 100 true] s
    ∧ s.live = {6130} ∧ s.arena = Finset.Ico 2048 6144 ∧ s.heap.size 6130 = 14 := by
  obtain ⟨h, hmalloc, hk, hsize⟩ := start_malloc
  refine ⟨_, .cons ⟨by decide, _, _, hmalloc, rfl⟩ .nil, rfl, ?_, hsize⟩
  show ∅ ∪ Finset.Ico 2048 h.brk = _
  rw [hk, Finset.empty_union]

/-- Three blocks, and two of them are freed: they become one, with the block in use
between them and the rest. -/
def churn : List Event :=
  [.malloc 100 true, .malloc 200 true, .malloc 40 true, .free 6104, .free 6130]

theorem churn_run : ∃ s, (Sys.start (fun _ => ⟨0, 0⟩) 100 2048).Run churn s
    ∧ s.live = {6098} ∧ s.heap.ptr 2048 = 6104 ∧ s.heap.size 6104 = 40 := by
  have hsome : (do
      let r₁ ← (Sys.start (fun _ => ⟨0, 0⟩) 100 2048).heap.malloc true 100
      let r₂ ← r₁.2.malloc true 200
      let r₃ ← r₂.2.malloc true 40
      let h₄ ← r₃.2.free 6105
      let h₅ ← h₄.free 6131
      some ((r₁.1, r₂.1, r₃.1), h₅.ptr 2048, h₅.size 6104))
      = some ((some 6131, some 6105, some 6099), 6104, 40) := by
    decide +kernel
  simp only [Option.bind_eq_bind, Option.bind_eq_some_iff, Option.some.injEq,
    Prod.mk.injEq] at hsome
  obtain ⟨⟨_, h₁⟩, hmalloc₁, ⟨_, h₂⟩, hmalloc₂, ⟨_, h₃⟩, hmalloc₃, h₄, hfree₄, h₅, hfree₅,
    ⟨rfl, rfl, rfl⟩, hptr, hsize⟩ := hsome
  refine ⟨_, .cons ⟨by decide, _, _, hmalloc₁, rfl⟩ (.cons ⟨by decide, _, _, hmalloc₂, rfl⟩
    (.cons ⟨by decide, _, _, hmalloc₃, rfl⟩ (.cons ⟨?_, h₄, hfree₄, rfl⟩
      (.cons ⟨?_, h₅, hfree₅, rfl⟩ .nil)))), ?_, hptr, hsize⟩
  · show 6104 ∈ ({6098, 6104, 6130} : Finset Nat)
    decide
  · show 6130 ∈ ({6098, 6104, 6130} : Finset Nat).erase 6104
    decide
  · show (({6098, 6104, 6130} : Finset Nat).erase 6104).erase 6130 = {6098}
    decide

theorem umalloc_blocks_churn :
    ∃ s, (Sys.start (fun _ => ⟨0, 0⟩) 100 2048).Run churn s ∧ s.live = {6098}
      ∧ s.heap.size 6104 = 40
      ∧ (∃ F, s.Blocks F) ∧ ∀ b ∈ s.live, (s.heap.free (b + 1)).isSome := by
  obtain ⟨s, hrun, hlive, _, hsize⟩ := churn_run
  exact ⟨s, hrun, hlive, hsize, umalloc_blocks (by decide) (by decide) hrun⟩

/-- **What `malloc` returns.** It returns 0 only when there is no hole and the
kernel refuses, and asks the kernel only when there is no hole. Otherwise the
block is large enough, is not in use, and takes nothing of a block that is. -/
theorem malloc_returns (hbase : base < brk) (hbrk : brk < KERNBASE)
    (hrun : (Sys.start mem base brk).Run es s) {nbytes : Nat} (hn : nbytes ≤ MAXREQUEST)
    (granted : Bool) :
    ∃ ret h, s.heap.malloc granted nbytes = some (ret, h)
      ∧ (ret = none ↔ ¬s.Hole (Heap.nunits nbytes)
        ∧ ¬s.heap.Grants granted (Heap.want (Heap.nunits nbytes)))
      ∧ (h.brk ≠ s.heap.brk → ¬s.Hole (Heap.nunits nbytes))
      ∧ ∀ ap, ret = some ap → ap - 1 ∉ s.live ∧ nbytes ≤ 8 * (h.size (ap - 1) - 1)
        ∧ (∀ u, h.In (ap - 1) u → u ∈ (s.got ret h).arena)
        ∧ ∀ b ∈ s.live, ∀ u, s.heap.In b u → ¬h.In (ap - 1) u ∧ h.mem u = s.heap.mem u := by
  have hok := (Sys.ok_start hbase hbrk).run hrun
  obtain ⟨S, hg⟩ := hok.used_good
  have hinit : ∀ b ∈ s.live, s.heap.init = s.heap := fun b hb => by
    obtain ⟨S, hg⟩ := hok.good hb
    exact congrArg Sys.heap hg.used_eq
  have hhole : s.heap.init.Fits S (Heap.nunits nbytes) ↔ s.Hole (Heap.nunits nbytes) := by
    refine (hg.fits_iff (Nat.succ_pos _)).trans (exists_congr fun a => ?_)
    refine forall_congr' fun u => imp_congr Iff.rfl (imp_congr Iff.rfl (and_congr Iff.rfl ?_))
    refine forall_congr' fun b => ⟨fun hnot hb => ?_, fun hnot hb => ?_⟩
    · exact hinit b hb ▸ hnot hb
    · show ¬s.heap.init.In b u
      rw [hinit b hb]
      exact hnot hb
  have hgrants : s.heap.init.Grants granted (Heap.want (Heap.nunits nbytes))
      ↔ s.heap.Grants granted (Heap.want (Heap.nunits nbytes)) := by
    rw [Heap.Grants, Sys.init_brk]
    exact Iff.rfl
  obtain ⟨q, h, S', hmalloc, hgot⟩ | ⟨hnofit, hnogrant, hmalloc⟩ :=
    Sys.malloc_cases hg hn granted
  · refine ⟨_, h, hmalloc, ⟨fun hret => (nomatch hret), fun ⟨hnohole, hnogrant⟩ => ?_⟩,
      fun hne => ?_, fun ap hap => ?_⟩
    · obtain ⟨hfit, _⟩ | ⟨_, hgrant, _⟩ := hgot.brk
      · exact absurd (hhole.1 hfit) hnohole
      · exact absurd (hgrants.1 hgrant) hnogrant
    · obtain ⟨_, heq⟩ | ⟨hnofit, _⟩ := hgot.brk
      · exact absurd (heq.trans (Sys.init_brk _)) hne
      · exact hhole.not.1 hnofit
    · cases hap
      have hgood := hg.got hgot
      have hinv := hgot.valid.inv
      refine ⟨hgot.new, ?_, fun u hin => ?_, fun b hb u hin => ?_⟩
      · rw [Nat.add_sub_cancel, hgot.size]
        exact (Sys.nunits_lt hn).2
      · have hmem := (hgood.arena u).2 (Or.inr ⟨q, Finset.mem_insert_self q _, hin⟩)
        rw [Sys.got, Sys.used, Sys.init_brk] at hmem
        exact hmem
      · rw [← hinit b hb] at hin ⊢
        have hb' : b ∈ S' ∪ insert q s.live :=
          Finset.mem_union_right _ (Finset.mem_insert_of_mem hb)
        have hin' := (hgot.keeps.in_iff hg.valid.inv hb).2 hin
        refine ⟨fun hq => hgot.new ?_, hgot.keeps b hb u hin⟩
        have heq := hinv.in_unique (Finset.mem_union_right _ (Finset.mem_insert_self q _)) hb'
          hq hin'
        rwa [heq]
  · refine ⟨_, _, hmalloc, ⟨fun _ => ⟨hhole.not.1 hnofit, hgrants.not.1 hnogrant⟩, fun _ => rfl⟩,
      fun hne => absurd (Sys.init_brk _) hne, fun ap hap => nomatch hap⟩

theorem malloc_returns_churn :
    ∃ s, (Sys.start (fun _ => ⟨0, 0⟩) 100 2048).Run churn s ∧ s.live = {6098}
      ∧ s.heap.size 6104 = 40 ∧ ∀ nbytes ∈ [300, 40000], ∀ granted,
        ∃ ret h, s.heap.malloc granted nbytes = some (ret, h)
          ∧ (ret = none ↔ ¬s.Hole (Heap.nunits nbytes)
            ∧ ¬s.heap.Grants granted (Heap.want (Heap.nunits nbytes)))
          ∧ (h.brk ≠ s.heap.brk → ¬s.Hole (Heap.nunits nbytes))
          ∧ ∀ ap, ret = some ap → ap - 1 ∉ s.live ∧ nbytes ≤ 8 * (h.size (ap - 1) - 1)
            ∧ (∀ u, h.In (ap - 1) u → u ∈ (s.got ret h).arena)
            ∧ ∀ b ∈ s.live, ∀ u, s.heap.In b u → ¬h.In (ap - 1) u ∧ h.mem u = s.heap.mem u := by
  obtain ⟨s, hrun, hlive, _, hsize⟩ := churn_run
  have hsmall : ∀ nbytes ∈ [300, 40000], nbytes ≤ MAXREQUEST := by decide
  exact ⟨s, hrun, hlive, hsize, fun nbytes hn granted =>
    malloc_returns (by decide) (by decide) hrun (hsmall nbytes hn) granted⟩

/-- **Only the program changes what is in its blocks**, for as long as it does not
free them. -/
theorem umalloc_contents (hbase : base < brk) (hbrk : brk < KERNBASE)
    (hrun : (Sys.start mem base brk).Run es s) (hrun' : s.Run es' s') {b u : Nat}
    (hb : b ∈ s.live) (hin : s.heap.In b u) (hfree : Event.free b ∉ es')
    (hstore : ∀ hd, Event.store u hd ∉ es') :
    b ∈ s'.live ∧ s'.heap.In b u ∧ s'.heap.mem u = s.heap.mem u := by
  have hok := (Sys.ok_start hbase hbrk).run hrun
  clear hrun
  induction hrun' with
  | nil => exact ⟨hb, hin, rfl⟩
  | cons hstep _ ih =>
      simp only [List.mem_cons, not_or] at hfree hstore
      obtain ⟨S, hg⟩ := hok.good hb
      obtain ⟨hb₁, hmem₁⟩ := hg.step_keeps hstep hb (Ne.symm hfree.1) hin
        fun hd => Ne.symm (hstore hd).1
      have hin₁ := hg.step_in hstep hb (Ne.symm hfree.1) hin
      obtain ⟨hb', hin', hmem'⟩ := ih hb₁ hin₁ hfree.2 (fun hd => (hstore hd).2) (hok.step hstep)
      exact ⟨hb', hin', hmem'.trans hmem₁⟩

/-- The program stores in the first unit of its block, and gets more memory itself:
the second unit is as before. -/
theorem umalloc_contents_start :
    ∃ s s', (Sys.start (fun _ => ⟨0, 0⟩) 100 2048).Run [.malloc 100 true] s
      ∧ s.Run [.store 6131 ⟨7, 7⟩, .sbrk 7000] s'
      ∧ 6130 ∈ s'.live ∧ s'.heap.In 6130 6132 ∧ s'.heap.mem 6132 = s.heap.mem 6132 := by
  obtain ⟨s, hrun, hlive, harena, hsize⟩ := start_run
  have hin : ∀ u, 6130 ≤ u → u < 6144 → s.heap.In 6130 u := fun u hle hlt =>
    ⟨hle, by rw [hsize]; exact hlt⟩
  have hb : 6130 ∈ s.live := hlive ▸ Finset.mem_singleton_self 6130
  have hbase : s.heap.base < 7000 := by
    obtain ⟨S, hg⟩ := ((Sys.ok_start (by decide) (by decide)).run hrun).good hb
    exact Nat.lt_of_le_of_lt (hg.valid.inv.base_le 6130 (Finset.mem_union_right S hb)) (by decide)
  have hrun' : s.Run [.store 6131 ⟨7, 7⟩, .sbrk 7000] _ :=
    .cons ⟨Or.inl ⟨6130, hb, by decide, hin 6131 (by decide) (by decide)⟩, rfl⟩
      (.cons ⟨hbase, by decide, fun u hu => by
        rw [harena, Finset.mem_Ico] at hu
        omega, rfl⟩ .nil)
  exact ⟨s, _, hrun, hrun', umalloc_contents (by decide) (by decide) hrun hrun' hb
    (hin 6132 (by decide) (by decide)) (by simp) (by simp)⟩

/-- **When everything has been freed** and the program has got no memory in
between, there is one block again. -/
theorem umalloc_all_free (hbase : base < brk) (hbrk : brk < KERNBASE)
    (hrun : (Sys.start mem base brk).Run es s) (hlive : s.live = ∅) {a b : Nat} (hab : a < b)
    (harena : s.arena = Finset.Ico a b) :
    s.heap.ptr s.heap.base = a ∧ s.heap.ptr a = s.heap.base ∧ s.heap.size a = b - a := by
  obtain hun | ⟨S, hg⟩ := (Sys.ok_start hbase hbrk).run hrun
  · have hmem : a ∈ s.arena := harena ▸ Finset.mem_Ico.2 ⟨le_refl a, hab⟩
    rw [hun.arena] at hmem
    exact absurd hmem (Finset.notMem_empty a)
  have hinv := hg.valid.inv
  have hunit : ∀ u, a ≤ u ∧ u < b ↔ s.heap.Has S u := by
    intro u
    rw [← Finset.mem_Ico, ← harena, hg.arena u, hlive]
    exact or_iff_left fun ⟨p, hp, _⟩ => Finset.notMem_empty p hp
  have hU : ∀ p ∈ S, p ∈ S ∪ s.live := fun p hp => Finset.mem_union_left _ hp
  -- a free block starts in the arena, and ends there
  have hstart : ∀ p ∈ S, p ≠ s.heap.base → a ≤ p ∧ p < b ∧ p + s.heap.size p ≤ b := by
    intro p hp hne
    have hpos := hinv.pos p (hU p hp) hne
    have hfirst := (hunit p).2 ⟨p, hp, le_refl p, by omega⟩
    have hlast := (hunit (p + s.heap.size p - 1)).2 ⟨p, hp, by omega, by omega⟩
    omega
  obtain ⟨p, hp, hin⟩ := (hunit a).1 ⟨le_refl a, hab⟩
  have hpbase : p ≠ s.heap.base := by
    rintro rfl
    have hlt := hin.2
    have hle := hin.1
    rw [hinv.base_size] at hlt
    omega
  obtain rfl : p = a := Nat.le_antisymm hin.1 (hstart p hp hpbase).1
  have hsize : p + s.heap.size p = b := by
    refine Nat.le_antisymm (hstart p hp hpbase).2.2 (Nat.le_of_not_lt fun hlt => ?_)
    -- the block behind it would touch it
    obtain ⟨q, hq, hqin⟩ := (hunit (p + s.heap.size p)).1 ⟨Nat.le_add_right .., hlt⟩
    obtain ⟨hqle, hqlt⟩ := hqin
    rcases Nat.lt_trichotomy p q with hpq | rfl | hqp
    · have hle := hinv.apart p (hU p hp) q (hU q hq) hpq
      exact hg.valid.loose p hp (Finset.notMem_empty p) q hq hpq (by omega)
    · exact absurd hqlt (Nat.lt_irrefl _)
    · have hle := hinv.apart q (hU q hq) p (hU p hp) hqp
      omega
  have hall : ∀ q ∈ S, q = s.heap.base ∨ q = p := by
    intro q hq
    by_cases hqbase : q = s.heap.base
    · exact Or.inl hqbase
    · obtain ⟨hle, hlt, _⟩ := hstart q hq hqbase
      have hpos := hinv.pos q (hU q hq) hqbase
      exact Or.inr (hinv.in_unique (hU q hq) (hU p hp) ⟨le_refl q, by omega⟩ ⟨hle, by omega⟩)
  have hbasep : s.heap.base < p :=
    Nat.lt_of_le_of_ne (hinv.base_le p (hU p hp)) (Ne.symm hpbase)
  refine ⟨?_, ?_, by omega⟩
  · refine (hinv.next _ hinv.base_mem).eq_of_lt hp hbasep fun w hw => ?_
    exact (hall w hw).imp Nat.le_of_eq fun heq => Nat.le_of_eq heq.symm
  · refine (hall _ (hinv.mem_next hp)).resolve_right fun heq => ?_
    have hnext := hinv.next p hp
    rw [heq] at hnext
    have hmem := hinv.base_mem
    rw [hnext.eq_singleton, Finset.mem_singleton] at hmem
    exact hpbase hmem.symm

theorem umalloc_all_free_start :
    ∃ s, (Sys.start (fun _ => ⟨0, 0⟩) 100 2048).Run [.malloc 100 true, .free 6130] s
      ∧ s.heap.ptr s.heap.base = 2048 ∧ s.heap.ptr 2048 = s.heap.base
      ∧ s.heap.size 2048 = 6144 - 2048 := by
  obtain ⟨h, hmalloc, hk, _⟩ := start_malloc
  have hstep : (Sys.start (fun _ => ⟨0, 0⟩) 100 2048).Step (.malloc 100 true) _ :=
    ⟨by decide, _, _, hmalloc, rfl⟩
  obtain ⟨S, hg⟩ := ((Sys.ok_start (by decide) (by decide)).step hstep).good
    (Finset.mem_insert_self 6130 ∅)
  obtain ⟨h', _, hfree, _⟩ := hg.valid.free (Finset.mem_insert_self 6130 ∅)
  have hrun : (Sys.start (fun _ => ⟨0, 0⟩) 100 2048).Run [.malloc 100 true, .free 6130] _ :=
    .cons hstep (.cons ⟨Finset.mem_insert_self 6130 ∅, h', hfree, rfl⟩ .nil)
  refine ⟨_, hrun, umalloc_all_free (by decide) (by decide) hrun
    (Finset.erase_insert (Finset.notMem_empty 6130)) (by decide) ?_⟩
  show ∅ ∪ Finset.Ico 2048 h.brk = _
  rw [hk, Finset.empty_union]

end SchoolStuff.Xv6.Umalloc
