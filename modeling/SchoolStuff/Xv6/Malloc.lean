import SchoolStuff.Xv6.Umalloc
import Mathlib.Order.Interval.Finset.Nat

/-!
# Malloc — programs that allocate memory

`malloc` finds a free block that is large enough if there is one, and otherwise
asks the kernel for more memory once. A program calls `malloc` and `free`, stores
into its blocks, and may call `sbrk` itself. After every such run the blocks,
in use and free, have each unit that `morecore` got once.
-/

namespace SchoolStuff.Xv6.Umalloc

namespace Heap

variable {h h' : Heap} {S L : Finset Nat} {b p q x u n f : Nat} {granted : Bool}

/-- The blocks of `L` are as before, with what is in them. -/
def Keeps (h h' : Heap) (L : Finset Nat) : Prop :=
  ∀ b ∈ L, ∀ u, h.In b u → h'.mem u = h.mem u

theorem Keeps.refl (h : Heap) (L : Finset Nat) : h.Keeps h L := fun _ _ _ _ => rfl

theorem Inv.in_self (hinv : h.Inv S L) (hb : b ∈ L) : h.In b b := by
  have hbS := hinv.used b hb
  have hpos := hinv.pos b (Finset.mem_union_right S hb) fun heq => hbS (heq ▸ hinv.base_mem)
  exact ⟨le_refl b, by omega⟩

/-- A unit is in one block. -/
theorem Inv.in_unique (hinv : h.Inv S L) (hp : p ∈ S ∪ L) (hq : q ∈ S ∪ L) (hpu : h.In p u)
    (hqu : h.In q u) : p = q := by
  obtain ⟨hpu, hpu'⟩ := hpu
  obtain ⟨hqu, hqu'⟩ := hqu
  rcases Nat.lt_trichotomy p q with hlt | heq | hgt
  · have hle := hinv.apart p hp q hq hlt
    omega
  · exact heq
  · have hle := hinv.apart q hq p hp hgt
    omega

/-- No header of a free block is in a block in use. -/
theorem Inv.not_in (hinv : h.Inv S L) (hb : b ∈ L) (hx : x ∈ S) : ¬h.In b x := by
  rintro ⟨hle, hlt⟩
  have hne : b ≠ x := fun heq => hinv.used b hb (heq ▸ hx)
  have hle' := hinv.apart b (Finset.mem_union_right S hb) x (Finset.mem_union_left L hx)
    (lt_of_le_of_ne hle hne)
  omega

theorem Keeps.in_iff (hkeeps : h.Keeps h' L) (hinv : h.Inv S L) (hb : b ∈ L) :
    h'.In b u ↔ h.In b u := by
  unfold In size
  rw [hkeeps b hb b (hinv.in_self hb)]

/-- A free block that is large enough. -/
def Fits (h : Heap) (S : Finset Nat) (n : Nat) : Prop := ∃ p ∈ S, n ≤ h.size p

/-! ## `morecore` -/

/-- The memory that `sbrk` has added is a block in use. -/
theorem Valid.grown (hv : h.Valid S L) {nu : Nat} (hnu : 0 < nu)
    (hbrk : h.brk + nu < KERNBASE) :
    ({ h with brk := h.brk + nu }.setSize h.brk nu).Valid S (insert h.brk L) := by
  have hinv := hv.inv
  have hbelow : ∀ p ∈ S ∪ L, p < h.brk := by
    intro p hp
    have hle := hinv.le_brk p hp
    by_cases hbase : p = h.base
    · rw [hbase]
      exact hinv.base_lt
    · have hpos := hinv.pos p hp hbase
      omega
  have hsize : ∀ p, ({ h with brk := h.brk + nu }.setSize h.brk nu).size p
      = if p = h.brk then nu else h.size p := fun p => size_setSize
  have hnotS : h.brk ∉ S := fun hmem =>
    Nat.lt_irrefl _ (hbelow _ (Finset.mem_union_left L hmem))
  refine ⟨⟨hinv.base_mem, ?_, fun p hp => ?_, fun p hp => ?_, fun p hp => ?_,
    fun p hp hne => ?_, fun p hp => ?_, fun p hp q hq hpq => ?_, hbrk, ?_⟩, hv.freep,
    fun p hp hpE q hq hpq => ?_⟩
  · show Heap.size _ h.base = 0
    rw [hsize, if_neg (Nat.ne_of_lt hinv.base_lt)]
    exact hinv.base_size
  · rw [ptr_setSize]
    exact hinv.next p hp
  · rcases Finset.mem_insert.1 hp with rfl | hp
    · exact hnotS
    · exact hinv.used p hp
  · rw [Finset.union_insert, Finset.mem_insert] at hp
    rcases hp with rfl | hp
    · exact Nat.le_of_lt hinv.base_lt
    · exact hinv.base_le p hp
  · rw [hsize]
    rw [Finset.union_insert, Finset.mem_insert] at hp
    split
    · exact hnu
    · rename_i hpbrk
      exact hinv.pos p (hp.resolve_left hpbrk) hne
  · rw [hsize]
    rw [Finset.union_insert, Finset.mem_insert] at hp
    show _ ≤ h.brk + nu
    split
    · rename_i heq
      rw [heq]
    · rename_i hpbrk
      have hle := hinv.le_brk p (hp.resolve_left hpbrk)
      omega
  · rw [hsize]
    rw [Finset.union_insert, Finset.mem_insert] at hp hq
    split
    · rename_i heq
      have hlt := hbelow q (hq.resolve_left (by omega))
      omega
    · rename_i hpbrk
      rcases hq with rfl | hq
      · exact hinv.le_brk p (hp.resolve_left hpbrk)
      · exact hinv.apart p (hp.resolve_left hpbrk) q hq hpq
  · exact Nat.lt_of_lt_of_le hinv.base_lt (Nat.le_add_right ..)
  · have hne : p ≠ h.brk := fun heq => hnotS (heq ▸ hp)
    rw [hsize, if_neg hne]
    exact hv.loose p hp hpE q hq hpq

theorem Inv.has_grown (hinv : h.Inv S L) {nu : Nat} :
    ({ h with brk := h.brk + nu }.setSize h.brk nu).Has S u ↔ h.Has S u := by
  have hsame : ∀ p ∈ S, ({ h with brk := h.brk + nu }.setSize h.brk nu).In p u ↔ h.In p u := by
    intro p hp
    have hle := hinv.le_brk p (Finset.mem_union_left L hp)
    unfold In
    rw [size_setSize]
    split
    · -- there is only room for `base` there
      rename_i heq
      by_cases hbase : p = h.base
      · exact absurd (hbase.symm.trans heq) (Nat.ne_of_lt hinv.base_lt)
      · have hpos := hinv.pos p (Finset.mem_union_left L hp) hbase
        have heq' : p = h.brk := heq
        omega
    · exact Iff.rfl
  constructor
  · rintro ⟨p, hp, hin⟩
    exact ⟨p, hp, (hsame p hp).1 hin⟩
  · rintro ⟨p, hp, hin⟩
    exact ⟨p, hp, (hsame p hp).2 hin⟩

/-- The number of units that `morecore` asks for. -/
def want (n : Nat) : Nat := if n < 4096 then 4096 else n

/-- The kernel gives as many units. -/
def Grants (h : Heap) (granted : Bool) (nu : Nat) : Prop :=
  granted = true ∧ h.brk + nu < KERNBASE

theorem sbrk_eq {nu : Nat} (hpos : 0 < nu) (hnu : nu < KERNBASE) :
    (h.Grants granted nu → h.sbrk granted (toInt (uint (nu * 8)) / 8)
        = some (h.brk, { h with brk := h.brk + nu }))
      ∧ (¬h.Grants granted nu → h.sbrk granted (toInt (uint (nu * 8)) / 8) = none) := by
  have hint : toInt (uint (nu * 8)) / 8 = nu := by
    simp only [KERNBASE] at hnu
    rw [uint_of_lt (by omega), toInt, if_pos (by omega)]
    omega
  have hpos' : (nu : Int) > 0 := by omega
  rw [hint, sbrk, if_pos hpos', Int.toNat_natCast]
  constructor
  · rintro ⟨rfl, hlt⟩
    rw [Bool.true_and, if_pos (decide_eq_true hlt)]
  · intro hnot
    rw [if_neg]
    rw [Bool.and_eq_true, decide_eq_true_eq]
    exact hnot

/-- `morecore` has got `nu` units. -/
structure Grown (h h' : Heap) (S S' L : Finset Nat) (nu : Nat) : Prop where
  valid : h'.Valid S' L
  has : ∀ u, h'.Has S' u ↔ (h.brk ≤ u ∧ u < h.brk + nu) ∨ h.Has S u
  card : S'.card ≤ S.card + 1
  room : h'.Room nu
  keeps : h.Keeps h' L
  brk : h'.brk = h.brk + nu
  base : h'.base = h.base

/-- **`morecore`.** -/
theorem Valid.morecore (hv : h.Valid S L) (granted : Bool) (hn : n < KERNBASE) :
    (h.Grants granted (want n) → ∃ h' S', h.morecore granted n = some (h'.freep, h')
        ∧ Grown h h' S S' L (want n))
      ∧ (¬h.Grants granted (want n) → h.morecore granted n = some (none, h)) := by
  have hwant : 0 < want n ∧ want n < KERNBASE := by
    simp only [KERNBASE] at hn ⊢
    unfold want
    split <;> omega
  obtain ⟨hgrants, hrefuses⟩ := @sbrk_eq h granted _ hwant.1 hwant.2
  constructor
  · intro hg
    have hgrown := hv.grown hwant.1 hg.2
    have hnot : h.brk ∉ L := by
      intro hmem
      have hle := (hv.inv.in_self hmem).2
      have hle' := hv.inv.le_brk h.brk (Finset.mem_union_right S hmem)
      omega
    obtain ⟨h', S', hfree, hvalid, hfreed, hroom⟩ := hgrown.free (Finset.mem_insert_self ..)
    rw [Finset.erase_insert hnot] at hvalid
    rw [size_setSize, if_pos rfl] at hroom
    refine ⟨h', S', ?_, hvalid, fun u => ?_, ?_, hroom, fun b hb u hu => ?_, hfreed.brk,
      hfreed.base⟩
    · rw [Heap.morecore, ← want, hgrants hg]
      show (Heap.free _ _).map _ = _
      rw [hfree]
      rfl
    · rw [hfreed.has, hv.inv.has_grown, In, size_setSize, if_pos rfl]
    · exact Nat.le_trans (Finset.card_le_card hfreed.sub) (Finset.card_insert_le ..)
    · have hlt : u ≠ h.brk := by
        have hle := hv.inv.le_brk b (Finset.mem_union_right S hb)
        have hlt := hu.2
        omega
      have hnot' : u ∉ insert h.brk S := fun hmem =>
        hv.inv.not_in hb (Finset.mem_of_mem_insert_of_ne hmem hlt) hu
      rw [hfreed.mem u hnot', mem_setSize, if_neg hlt]
  · intro hg
    rw [Heap.morecore, ← want, hrefuses hg]

/-! ## The loop of `malloc` -/

/-- The start of `malloc` on a heap that has not been used. -/
theorem valid_init (hfreep : h.freep = none) (hbase : h.base < h.brk)
    (hbrk : h.brk < KERNBASE) : h.init.Valid {h.base} ∅ := by
  have hinit : h.init
      = { (h.setPtr h.base h.base).setSize h.base 0 with freep := some h.base } := by
    rw [init, hfreep]
  have hsize : h.init.size h.base = 0 := by
    rw [hinit]
    exact (size_setSize ..).trans (if_pos rfl)
  have hptr : h.init.ptr h.base = h.base := by
    rw [hinit]
    exact (ptr_setSize ..).trans ((ptr_setPtr ..).trans (if_pos rfl))
  have hb : h.init.base = h.base := by
    rw [hinit]
    rfl
  have hk : h.init.brk = h.brk := by
    rw [hinit]
    rfl
  have hf : h.init.freep = some h.base := by
    rw [hinit]
  have hall : ∀ p ∈ ({h.base} ∪ ∅ : Finset Nat), p = h.base := fun p hp =>
    (Finset.mem_union.1 hp).elim Finset.mem_singleton.1 fun hmem =>
      absurd hmem (Finset.notMem_empty p)
  refine ⟨⟨?_, ?_, fun p hp => ?_, fun p hp => absurd hp (Finset.notMem_empty p),
    fun p hp => ?_, fun p hp hne => ?_, fun p hp => ?_, fun p hp q hq hpq => ?_, ?_, ?_⟩,
    ⟨h.base, Finset.mem_singleton_self _, hf⟩, fun p hp _ q hq hpq => ?_⟩
  · rw [hb]
    exact Finset.mem_singleton_self _
  · rw [hb, hsize]
  · rw [Finset.mem_singleton.1 hp, hptr]
    exact Cyclic.next_singleton _
  · rw [hb, hall p hp]
  · exact absurd ((hall p hp).trans hb.symm) hne
  · rw [hall p hp, hsize, hk]
    exact Nat.le_of_lt hbase
  · rw [hall p hp, hall q hq] at hpq
    exact absurd hpq (Nat.lt_irrefl _)
  · rwa [hk]
  · rwa [hb, hk]
  · rw [Finset.mem_singleton.1 hp, Finset.mem_singleton.1 hq] at hpq
    exact absurd hpq (Nat.lt_irrefl _)

/-- The loop has ended at a block that is large enough. -/
def Found (h : Heap) (S : Finset Nat) (n : Nat) (s : Search) : Prop :=
  ∃ prevp p, prevp ∈ S ∧ h.ptr prevp = p ∧ n ≤ h.size p
    ∧ s = ⟨(h.take prevp p n).2, prevp, p, some (some ((h.take prevp p n).1 + 1))⟩

theorem turn_fits {prevp : Nat} (hn : n ≤ h.size p) :
    Search.turn granted n ⟨h, prevp, p, none⟩
      = some ⟨(h.take prevp p n).2, prevp, p, some (some ((h.take prevp p n).1 + 1))⟩ := by
  rw [Search.turn, if_pos hn]

theorem turn_next {prevp : Nat} (hn : ¬n ≤ h.size p) (hp : h.freep ≠ some p) :
    Search.turn granted n ⟨h, prevp, p, none⟩ = some ⟨h, p, h.ptr p, none⟩ := by
  rw [Search.turn, if_neg hn, if_neg hp]

/-- The loop of `malloc`. -/
abbrev search (granted : Bool) (n fuel : Nat) (s : Search) : Option Search :=
  Loop.run (fun s : Search => s.ret.isNone) (Search.turn granted n) fuel s

theorem search_fits {prevp fuel : Nat} (hprevp : prevp ∈ S) (hp : h.ptr prevp = p)
    (hn : n ≤ h.size p) (hfuel : 0 < fuel) :
    ∃ s, search granted n fuel ⟨h, prevp, p, none⟩ = some s ∧ h.Found S n s := by
  obtain ⟨fuel, rfl⟩ := Nat.exists_eq_add_one_of_ne_zero (Nat.ne_of_gt hfuel)
  refine ⟨_, ?_, prevp, p, hprevp, hp, hn, rfl⟩
  rw [search, Loop.run_turn rfl, turn_fits hn, Option.bind_some, Loop.run_of_exit rfl]

theorem search_next {prevp fuel : Nat} (hn : ¬n ≤ h.size p) (hp : h.freep ≠ some p) :
    search granted n (fuel + 1) ⟨h, prevp, p, none⟩
      = search granted n fuel ⟨h, p, h.ptr p, none⟩ := by
  rw [search, Loop.run_turn rfl, turn_next hn hp, Option.bind_some]

/-- A block that is large enough where the loop is, or at `freep`, is found. -/
theorem Valid.search_found (hv : h.Valid S L) (granted : Bool) (hf : h.freep = some f)
    (hfS : f ∈ S) {prevp fuel : Nat} (hprevp : prevp ∈ S) (hp : h.ptr prevp = p)
    (hfit : n ≤ h.size f ∨ n ≤ h.size p) (hfuel : Cyclic.steps S f p < fuel) :
    ∃ s, search granted n fuel ⟨h, prevp, p, none⟩ = some s ∧ h.Found S n s := by
  induction fuel generalizing prevp p with
  | zero => exact absurd hfuel (Nat.not_lt_zero _)
  | succ fuel ih =>
      by_cases hn : n ≤ h.size p
      · exact search_fits hprevp hp hn (Nat.succ_pos fuel)
      · have hne : p ≠ f := fun heq => hn (heq ▸ hfit.resolve_right hn)
        have hpS : p ∈ S := hp ▸ hv.inv.mem_next hprevp
        have hlt := Cyclic.steps_lt hfS (hv.inv.next p hpS) hne
        rw [search_next hn fun heq => hne (Option.some.inj (hf.symm.trans heq)).symm]
        exact ih hpS rfl (Or.inl (hfit.resolve_right hn)) (by omega)

/-- The first time round: a block is found, or the loop is at `freep` and there
is none. `V` are the blocks that have been passed. -/
theorem Valid.search_round (hv : h.Valid S L) (granted : Bool) (hf : h.freep = some f)
    (hfS : f ∈ S)
    {prevp fuel : Nat} {V : Nat → Prop} (hprevp : prevp ∈ S) (hp : h.ptr prevp = p)
    (hV : ∀ z, V z → h.size z < n ∧ (V (h.ptr z) ∨ h.ptr z = p))
    (hfirst : V (h.ptr f) ∨ h.ptr f = p) (hfuel : Cyclic.steps S f p < fuel) :
    (∃ s, search granted n fuel ⟨h, prevp, p, none⟩ = some s ∧ h.Found S n s)
      ∨ ((∀ t ∈ S, h.size t < n) ∧ ∃ prevp' ∈ S, ∃ fuel', fuel ≤ fuel' + Cyclic.steps S f p
        ∧ h.ptr prevp' = f ∧ search granted n fuel ⟨h, prevp, p, none⟩
          = search granted n fuel' ⟨h, prevp', f, none⟩) := by
  induction fuel generalizing prevp p V with
  | zero => exact absurd hfuel (Nat.not_lt_zero _)
  | succ fuel ih =>
      have hpS : p ∈ S := hp ▸ hv.inv.mem_next hprevp
      by_cases hn : n ≤ h.size p
      · exact Or.inl (search_fits hprevp hp hn (Nat.succ_pos fuel))
      by_cases hpf : p = f
      · -- all blocks have been passed
        have hall : ∀ t ∈ S, V t ∨ t = f := by
          intro t ht
          refine Cyclic.forall_of_next (P := fun t => V t ∨ t = f) hv.inv.next hfS (Or.inr rfl)
            (fun z _ hz => ?_) ht
          rcases hz with hz | rfl
          · exact (hV z hz).2.imp id fun heq => heq.trans hpf
          · exact hfirst.imp id fun heq => heq.trans hpf
        refine Or.inr ⟨fun t ht => ?_, prevp, hprevp, fuel + 1, Nat.le_add_right ..,
          hp.trans hpf, by rw [hpf]⟩
        rcases hall t ht with ht | rfl
        · exact (hV t ht).1
        · rw [← hpf]
          exact Nat.lt_of_not_le hn
      · have hlt := Cyclic.steps_lt hfS (hv.inv.next p hpS) hpf
        have hne : h.freep ≠ some p := fun heq =>
          hpf (Option.some.inj (hf.symm.trans heq)).symm
        have hV' : ∀ z, V z ∨ z = p → h.size z < n ∧ ((V (h.ptr z) ∨ h.ptr z = p)
            ∨ h.ptr z = h.ptr p) := by
          rintro z (hz | rfl)
          · exact ⟨(hV z hz).1, Or.inl (hV z hz).2⟩
          · exact ⟨Nat.lt_of_not_le hn, Or.inr rfl⟩
        rw [search_next hn hne]
        obtain hfound | ⟨hnone, prevp', hprevp', fuel', hle, hrest⟩ :=
          ih (V := fun z => V z ∨ z = p) hpS rfl hV' (Or.inl hfirst) (by omega)
        · exact Or.inl hfound
        · exact Or.inr ⟨hnone, prevp', hprevp', fuel', by omega, hrest⟩

/-! ## The block that is returned -/

/-- A block `q` of `n` units has been taken out of the free ones. -/
structure Took (h h' : Heap) (S S' L : Finset Nat) (q n : Nat) : Prop where
  valid : h'.Valid S' (insert q L)
  new : q ∉ L
  size : h'.size q = n
  has : ∀ u, h.Has S u ↔ h'.In q u ∨ h'.Has S' u
  keeps : h.Keeps h' L
  brk : h'.brk = h.brk
  base : h'.base = h.base

/-- A whole block is taken. -/
theorem Valid.unlink (hv : h.Valid S L) {prevp : Nat} (hprevp : prevp ∈ S)
    (hp : h.ptr prevp = p) (hpos : 0 < h.size p) :
    Took h { h.setPtr prevp (h.ptr p) with freep := some prevp } S (S.erase p) L p
      (h.size p) := by
  have hinv := hv.inv
  have hpS : p ∈ S := hp ▸ hinv.mem_next hprevp
  have hpbase : p ≠ h.base := fun heq => by
    rw [heq, hinv.base_size] at hpos
    exact Nat.lt_irrefl 0 hpos
  have hne : prevp ≠ p := by
    rintro rfl
    have hnext := hinv.next prevp hprevp
    rw [hp] at hnext
    have hmem := hinv.base_mem
    rw [hnext.eq_singleton, Finset.mem_singleton] at hmem
    exact hpbase hmem.symm
  have hunion : S.erase p ∪ insert p L = S ∪ L := by
    rw [Finset.union_insert, ← Finset.insert_union, Finset.insert_erase hpS]
  have hsize : ∀ x, ({ h.setPtr prevp (h.ptr p) with freep := some prevp } : Heap).size x
      = h.size x := fun x => size_setPtr
  have hptr : ∀ x, ({ h.setPtr prevp (h.ptr p) with freep := some prevp } : Heap).ptr x
      = if x = prevp then h.ptr p else h.ptr x := fun x => ptr_setPtr
  have hin : ∀ x u, ({ h.setPtr prevp (h.ptr p) with freep := some prevp } : Heap).In x u
      ↔ h.In x u := by
    intro x u
    rw [In, hsize]
    exact Iff.rfl
  refine ⟨⟨⟨Finset.mem_erase.2 ⟨Ne.symm hpbase, hinv.base_mem⟩, ?_, fun z hz => ?_,
    fun z hz => ?_, ?_, ?_, ?_, ?_, hinv.brk_lt, hinv.base_lt⟩,
    ⟨prevp, Finset.mem_erase.2 ⟨hne, hprevp⟩, rfl⟩, fun x hx _ q hq hxq => ?_⟩,
    fun hmem => hinv.used p hmem hpS, hsize p, fun u => ?_, fun b hb u hu => ?_, rfl, rfl⟩
  · rw [hsize]
    exact hinv.base_size
  · obtain ⟨hzp, hzS⟩ := Finset.mem_erase.1 hz
    rw [hptr]
    split
    · rename_i hzprevp
      rw [hzprevp]
      exact (hp ▸ hinv.next prevp hprevp).erase (hinv.next p hpS) hprevp hne
    · rename_i hzprevp
      refine (hinv.next z hzS).erase_other fun heq => hzprevp ?_
      exact (heq ▸ hinv.next z hzS).prev_unique hzS hprevp (hp ▸ hinv.next prevp hprevp)
  · rcases Finset.mem_insert.1 hz with rfl | hz
    · exact Finset.notMem_erase z S
    · exact fun hmem => hinv.used z hz (Finset.mem_of_mem_erase hmem)
  · rw [hunion]
    exact hinv.base_le
  · rw [hunion]
    simp only [hsize]
    exact hinv.pos
  · rw [hunion]
    simp only [hsize]
    exact hinv.le_brk
  · rw [hunion]
    simp only [hsize]
    exact hinv.apart
  · rw [hsize]
    exact hv.loose x (Finset.mem_of_mem_erase hx) (Finset.notMem_empty x) q
      (Finset.mem_of_mem_erase hq) hxq
  · simp only [Has, hin]
    constructor
    · rintro ⟨z, hz, hzu⟩
      by_cases hzp : z = p
      · exact Or.inl (hzp ▸ hzu)
      · exact Or.inr ⟨z, Finset.mem_erase.2 ⟨hzp, hz⟩, hzu⟩
    · rintro (hpu | ⟨z, hz, hzu⟩)
      · exact ⟨p, hpS, hpu⟩
      · exact ⟨z, Finset.mem_of_mem_erase hz, hzu⟩
  · have hux : u ≠ prevp := fun heq => hinv.not_in hb hprevp (heq ▸ hu)
    exact mem_setPtr.trans (if_neg hux)

/-- The end of a block is taken. -/
theorem Valid.split (hv : h.Valid S L) {prevp : Nat} (hprevp : prevp ∈ S) (hpS : p ∈ S)
    (hn : 0 < n) (hlt : n < h.size p) :
    Took h { (h.setSize p (h.size p - n)).setSize (p + (h.size p - n)) n with
      freep := some prevp } S S L (p + (h.size p - n)) n := by
  have hinv := hv.inv
  have hpU : p ∈ S ∪ L := Finset.mem_union_left L hpS
  generalize hq : p + (h.size p - n) = q
  have hpq : h.In p q := ⟨by omega, by omega⟩
  have hqU : q ∉ S ∪ L := by
    intro hqU
    have hle := hinv.apart p hpU q hqU (by omega)
    omega
  have hqS : q ∉ S := fun hmem => hqU (Finset.mem_union_left L hmem)
  have hneq : ∀ z ∈ S, z ≠ q := fun z hz heq => hqS (heq ▸ hz)
  have hpbase : p ≠ h.base := fun heq => by
    rw [heq, hinv.base_size] at hlt
    exact Nat.not_lt_zero n hlt
  have hbase := hinv.base_le p hpU
  generalize hg : ({ (h.setSize p (h.size p - n)).setSize q n with freep := some prevp } : Heap)
    = g
  have hsize : ∀ x, g.size x = if x = q then n else if x = p then h.size p - n else h.size x := by
    intro x
    rw [← hg]
    exact size_setSize.trans (by rw [size_setSize])
  have hptr : ∀ x, g.ptr x = h.ptr x := by
    intro x
    rw [← hg]
    exact ptr_setSize.trans ptr_setSize
  have hgbase : g.base = h.base := by
    rw [← hg]
    rfl
  have hgbrk : g.brk = h.brk := by
    rw [← hg]
    rfl
  have hgfreep : g.freep = some prevp := by
    rw [← hg]
  have hmem : ∀ x ∈ S ∪ insert q L, x = q ∨ x ∈ S ∪ L := fun x hx => by
    rw [Finset.union_insert, Finset.mem_insert] at hx
    exact hx
  have hpbrk := hinv.le_brk p hpU
  -- a block that starts behind `p` starts behind `q` too
  have hafter : ∀ x ∈ S ∪ L, p < x → p + h.size p ≤ x := fun x hx => hinv.apart p hpU x hx
  have hbefore : ∀ x ∈ S ∪ L, x < p → x + h.size x ≤ p := fun x hx => hinv.apart x hx p hpU
  refine ⟨⟨⟨hgbase ▸ hinv.base_mem, ?_, fun z hz => ?_, fun z hz => ?_, fun z hz => ?_,
    fun z hz hne => ?_, fun z hz => ?_, fun z hz w hw hzw => ?_, hgbrk ▸ hinv.brk_lt, ?_⟩,
    ⟨prevp, hprevp, hgfreep⟩, fun z hz _ w hw hzw => ?_⟩, fun hmem => ?_, ?_, fun u => ?_,
    fun b hb u hu => ?_, hgbrk, hgbase⟩
  · rw [hgbase, hsize, if_neg (hneq _ hinv.base_mem), if_neg (Ne.symm hpbase),
      hinv.base_size]
  · rw [hptr]
    exact hinv.next z hz
  · rcases Finset.mem_insert.1 hz with rfl | hz
    · exact hqS
    · exact hinv.used z hz
  · rw [hgbase]
    rcases hmem z hz with rfl | hz
    · omega
    · exact hinv.base_le z hz
  · rw [hsize]
    split
    · exact hn
    split
    · omega
    · rename_i hzq _
      exact hinv.pos z ((hmem z hz).resolve_left hzq) (hgbase ▸ hne)
  · rw [hsize, hgbrk]
    split
    · omega
    split
    · omega
    · rename_i hzq _
      exact hinv.le_brk z ((hmem z hz).resolve_left hzq)
  · rw [hsize]
    split
    · rename_i hzq
      have hle := hafter w ((hmem w hw).resolve_left (by omega)) (by omega)
      omega
    split
    · rename_i hzp
      rcases hmem w hw with rfl | hw
      · omega
      · have hle := hafter w hw (by omega)
        omega
    · rename_i hzq hzp
      have hzU := (hmem z hz).resolve_left hzq
      rcases hmem w hw with heq | hw
      · rcases Nat.lt_or_gt_of_ne hzp with hlt' | hgt
        · have hle := hbefore z hzU hlt'
          omega
        · have hle := hafter z hzU hgt
          omega
      · exact hinv.apart z hzU w hw hzw
  · rw [hgbase, hgbrk]
    exact hinv.base_lt
  · rw [hsize, if_neg (hneq z hz)]
    split
    · rename_i hzp
      have hle := hafter w (Finset.mem_union_left L hw) (by omega)
      omega
    · exact hv.loose z hz (Finset.notMem_empty z) w hw hzw
  · exact hqU (Finset.mem_union_right S hmem)
  · rw [hsize, if_pos rfl]
  · constructor
    · rintro ⟨z, hz, hle, hlt'⟩
      by_cases hzp : z = p
      · rw [hzp] at hle hlt'
        rcases Nat.lt_or_ge u q with huq | hqu
        · refine Or.inr ⟨p, hpS, hle, ?_⟩
          rw [hsize, if_neg (by omega), if_pos rfl]
          omega
        · refine Or.inl ⟨hqu, ?_⟩
          rw [hsize, if_pos rfl]
          omega
      · refine Or.inr ⟨z, hz, hle, ?_⟩
        rwa [hsize, if_neg (hneq z hz), if_neg hzp]
    · rintro (⟨hle, hlt'⟩ | ⟨z, hz, hle, hlt'⟩)
      · rw [hsize, if_pos rfl] at hlt'
        exact ⟨p, hpS, by omega, by omega⟩
      · rw [hsize, if_neg (hneq z hz)] at hlt'
        refine ⟨z, hz, hle, ?_⟩
        split at hlt'
        · rename_i hzp
          rw [hzp]
          omega
        · exact hlt'
  · have hup : u ≠ p := fun heq => hinv.not_in hb hpS (heq ▸ hu)
    have huq : u ≠ q := by
      rintro rfl
      have hpb := hinv.in_unique hpU (Finset.mem_union_right S hb) hpq hu
      exact hinv.used b hb (hpb ▸ hpS)
    rw [← hg]
    exact mem_setSize.trans ((if_neg huq).trans (mem_setSize.trans (if_neg hup)))

/-- **The end of `malloc`.** -/
theorem Valid.take (hv : h.Valid S L) {prevp : Nat} (hprevp : prevp ∈ S)
    (hp : h.ptr prevp = p) (hpos : 0 < n) (hn : n ≤ h.size p) :
    ∃ S', Took h (h.take prevp p n).2 S S' L (h.take prevp p n).1 n := by
  unfold Heap.take
  split
  · rename_i heq
    refine ⟨S.erase p, ?_⟩
    rw [← heq]
    exact hv.unlink hprevp hp (by omega)
  · rename_i hne
    refine ⟨S, ?_⟩
    have hself : (h.setSize p (h.size p - n)).size p = h.size p - n :=
      size_setSize.trans (if_pos rfl)
    simp only [hself]
    exact hv.split hprevp (hp ▸ hv.inv.mem_next hprevp) hpos (by omega)

/-! ## `malloc` -/

theorem Keeps.trans {h₁ : Heap} (hinv : h.Inv S L) (hkeeps : h.Keeps h₁ L)
    (hkeeps' : h₁.Keeps h' L) : h.Keeps h' L := by
  intro b hb u hu
  rw [hkeeps' b hb u ((hkeeps.in_iff hinv hb).2 hu), hkeeps b hb u hu]

/-- `malloc` has returned the block `q` of `n` units. -/
structure Got (h h' : Heap) (S S' L : Finset Nat) (granted : Bool) (q n : Nat) : Prop where
  valid : h'.Valid S' (insert q L)
  new : q ∉ L
  size : h'.size q = n
  has : ∀ u, h.Has S u ∨ (h.brk ≤ u ∧ u < h'.brk) ↔ h'.In q u ∨ h'.Has S' u
  keeps : h.Keeps h' L
  brk : h.Fits S n ∧ h'.brk = h.brk
    ∨ ¬h.Fits S n ∧ h.Grants granted (want n) ∧ h'.brk = h.brk + want n
  base : h'.base = h.base

theorem Took.got {S' : Finset Nat} (ht : Took h h' S S' L q n) (hfit : h.Fits S n) :
    Got h h' S S' L granted q n := by
  refine ⟨ht.valid, ht.new, ht.size, fun u => ?_, ht.keeps, Or.inl ⟨hfit, ht.brk⟩, ht.base⟩
  rw [← ht.has u]
  have hbrk := ht.brk
  exact ⟨fun hor => hor.elim id fun hu => by omega, Or.inl⟩

theorem le_want : n ≤ want n := by
  unfold want
  split <;> omega

/-- `malloc` on a heap that has been used. -/
theorem Valid.malloc (hv : h.Valid S L) {nbytes : Nat} (hn : nunits nbytes < KERNBASE) :
    (∃ q h' S', h.malloc granted nbytes = some (some (q + 1), h')
        ∧ Got h h' S S' L granted q (nunits nbytes))
      ∨ ¬h.Fits S (nunits nbytes) ∧ ¬h.Grants granted (want (nunits nbytes))
        ∧ h.malloc granted nbytes = some (none, h) := by
  obtain ⟨f, hfS, hf⟩ := hv.freep
  have hpos : 0 < nunits nbytes := Nat.succ_pos _
  generalize hN : nunits nbytes = N at hn hpos
  have hmalloc : h.malloc granted nbytes
      = (search granted N (2 * (h.brk + 3)) ⟨h, f, h.ptr f, none⟩).bind
        fun s => s.ret.map fun r => (r, s.heap) := by
    rw [Heap.malloc, init, hf, ← hN]
    simp only [hf]
    rfl
  have hcard := hv.inv.card_le
  have hsteps := Cyclic.steps_le_card S f (h.ptr f)
  rcases hv.search_round granted hf hfS hfS rfl (V := fun _ => False)
      (fun _ hz => hz.elim) (Or.inr rfl)
      (show Cyclic.steps S f (h.ptr f) < 2 * (h.brk + 3) by omega) with
    ⟨s, hrun, prevp, p, hprevp, hp, hfit, rfl⟩ | ⟨hnone, prevp, hprevp, fuel, hle, hp, hrun⟩
  · obtain ⟨S', htook⟩ := hv.take hprevp hp hpos hfit
    exact Or.inl ⟨_, _, S', by rw [hmalloc, hrun]; rfl,
      htook.got ⟨p, hp ▸ hv.inv.mem_next hprevp, hfit⟩⟩
  · have hnofit : ¬h.Fits S N := fun ⟨t, ht, hle⟩ => absurd (hnone t ht) (Nat.not_lt.2 hle)
    obtain ⟨fuel, rfl⟩ : ∃ k, fuel = k + 1 := Nat.exists_eq_add_one_of_ne_zero (by omega)
    have hturn : search granted N (fuel + 1) ⟨h, prevp, f, none⟩
        = (Search.turn granted N ⟨h, prevp, f, none⟩).bind (search granted N fuel) :=
      Loop.run_turn rfl fuel
    rw [hturn, Search.turn, if_neg (Nat.not_le.2 (hnone f hfS)), if_pos hf] at hrun
    obtain ⟨hgrants, hrefuses⟩ := hv.morecore granted hn
    by_cases hg : h.Grants granted (want N)
    · -- the new memory is found the second time round
      obtain ⟨h₁, S₁, hmore, hgrown⟩ := hgrants hg
      obtain ⟨f₁, hf₁S, hf₁⟩ := hgrown.valid.freep
      obtain ⟨f₁', hf₁', hroom⟩ := hgrown.room
      rw [hf₁, Option.some.injEq] at hf₁'
      subst hf₁'
      have hsteps₁ := Cyclic.steps_le_card S₁ f₁ (h₁.ptr f₁)
      have hcard₁ := hgrown.card
      obtain ⟨s, hrun₁, prevp₁, p₁, hprevp₁, hp₁, hfit, rfl⟩ :=
        hgrown.valid.search_found granted hf₁ hf₁S hf₁S rfl
          (hroom.imp (Nat.le_trans le_want) (Nat.le_trans le_want))
          (show Cyclic.steps S₁ f₁ (h₁.ptr f₁) < fuel by omega)
      obtain ⟨S', htook⟩ := hgrown.valid.take hprevp₁ hp₁ hpos hfit
      refine Or.inl ⟨_, _, S', ?_, htook.valid, htook.new, htook.size, fun u => ?_,
        hgrown.keeps.trans hv.inv htook.keeps, Or.inr ⟨hnofit, hg, ?_⟩, ?_⟩
      · rw [hmalloc, hrun, hmore, hf₁]
        show ((search granted N fuel _).bind _) = _
        rw [hrun₁]
        rfl
      · rw [← htook.has u, hgrown.has u, htook.brk, hgrown.brk, or_comm]
      · rw [htook.brk, hgrown.brk]
      · rw [htook.base, hgrown.base]
    · refine Or.inr ⟨hnofit, hg, ?_⟩
      rw [hmalloc, hrun, hrefuses hg]
      show ((search granted N fuel _).bind _) = _
      rw [search, Loop.run_of_exit rfl]
      rfl

end Heap

end SchoolStuff.Xv6.Umalloc
