import SchoolStuff.Lib.Cyclic
import SchoolStuff.Lib.Loop
import Mathlib.Algebra.Order.Ring.Nat
import Mathlib.Algebra.Order.Ring.Int
import Mathlib.Logic.Function.Basic

/-!
# Umalloc — the user memory allocator (`umalloc.c`)

Memory is counted in units of `sizeof(Header)`, which is 8: a block has a header
and, behind it, what the caller may use. The free blocks and `base` are in a
ring in the order of their addresses. `malloc` looks for a block from `freep` on,
and `free` puts one in at its place and joins it to its neighbours.
-/

namespace SchoolStuff.Xv6.Umalloc

/-- `union header`. A pointer is the number of a unit. -/
structure Header where
  ptr : Nat
  size : Nat

/-- A sum of `uint`s. -/
def uint (n : Nat) : Nat := n % 2 ^ 32

/-- A `uint` that is passed as an `int`. -/
def toInt (n : Nat) : Int := if n < 2 ^ 31 then n else (n : Int) - 2 ^ 32

/-- `KERNBASE`, in units. -/
abbrev KERNBASE : Nat := 2 ^ 28

/-- The memory of the process, with `base` and `freep` of the allocator. -/
structure Heap where
  mem : Nat → Header
  /-- where `base` is -/
  base : Nat
  freep : Option Nat
  /-- the size of the process -/
  brk : Nat

namespace Heap

/-- `p->s.ptr`. -/
def ptr (h : Heap) (p : Nat) : Nat := (h.mem p).ptr

/-- `p->s.size`. -/
def size (h : Heap) (p : Nat) : Nat := (h.mem p).size

/-- `p->s.ptr = q`. -/
def setPtr (h : Heap) (p q : Nat) : Heap :=
  { h with mem := Function.update h.mem p { h.mem p with ptr := q } }

/-- `p->s.size = n`. -/
def setSize (h : Heap) (p n : Nat) : Heap :=
  { h with mem := Function.update h.mem p { h.mem p with size := n } }

/-- The loop of `free` is left at `p`. -/
def placed (h : Heap) (bp p : Nat) : Bool :=
  (bp > p && bp < h.ptr p) || (p ≥ h.ptr p && (bp > p || bp < h.ptr p))

/-- `x->s.size += x->s.ptr->s.size` and `x->s.ptr = x->s.ptr->s.ptr`, for `y`
the `x->s.ptr` of the source. -/
def join (h : Heap) (x y : Nat) : Heap :=
  let h := h.setSize x (uint (h.size x + h.size y))
  h.setPtr x (h.ptr y)

/-- The loop of `free`: the block behind which `bp` belongs. -/
def place (h : Heap) (bp : Nat) : Option Nat := do
  let freep ← h.freep
  Loop.run (fun p => !h.placed bp p) (fun p => some (h.ptr p)) (h.brk + 1) freep

/-- `free`, for a block. -/
def free (h : Heap) (ap : Nat) : Option Heap := do
  let bp := ap - 1
  let p ← h.place bp
  let h :=
    if bp + h.size bp = h.ptr p then h.join bp (h.ptr p) else h.setPtr bp (h.ptr p)
  let h := if p + h.size p = bp then h.join p bp else h.setPtr p bp
  some { h with freep := some p }

/-- `sbrk`, for a number of units: the old size. `granted` is whether the kernel
has the pages, as `growproc` asks for them. -/
def sbrk (h : Heap) (granted : Bool) (n : Int) : Option (Nat × Heap) :=
  if n > 0 then
    if granted && h.brk + n.toNat < KERNBASE then
      some (h.brk, { h with brk := h.brk + n.toNat })
    else none
  else if n < 0 then
    let sz := min h.brk ((h.brk + n) % 2 ^ 29).toNat
    if sz = 0 then none else some (h.brk, { h with brk := sz })
  else some (h.brk, h)

/-- `morecore`. -/
def morecore (h : Heap) (granted : Bool) (nu : Nat) : Option (Option Nat × Heap) :=
  let nu := if nu < 4096 then 4096 else nu
  match h.sbrk granted (toInt (uint (nu * 8)) / 8) with
  | none => some (none, h)
  | some (hp, h) =>
      ((h.setSize hp nu).free (hp + 1)).map fun h => (h.freep, h)

/-- `nunits`, for a number of bytes. -/
def nunits (nbytes : Nat) : Nat := uint (nbytes + 8 - 1) / 8 + 1

/-- The first lines of `malloc`. -/
def init (h : Heap) : Heap :=
  match h.freep with
  | none => { (h.setPtr h.base h.base).setSize h.base 0 with freep := some h.base }
  | some _ => h

/-- The end of `malloc` at a block `p` that is large enough: the block that is
returned. -/
def take (h : Heap) (prevp p n : Nat) : Nat × Heap :=
  if h.size p = n then (p, { h.setPtr prevp (h.ptr p) with freep := some prevp })
  else
    let h := h.setSize p (h.size p - n)
    let q := p + h.size p
    (q, { h.setSize q n with freep := some prevp })

end Heap

/-- The variables of the loop of `malloc`, and what it returns: `some none` is 0. -/
structure Search where
  heap : Heap
  prevp : Nat
  p : Nat
  ret : Option (Option Nat)

/-- The loop of `malloc`. -/
def Search.turn (granted : Bool) (n : Nat) (s : Search) : Option Search :=
  if n ≤ s.heap.size s.p then
    let (q, h) := s.heap.take s.prevp s.p n
    some { s with heap := h, ret := some (some (q + 1)) }
  else if s.heap.freep = some s.p then
    (s.heap.morecore granted n).map fun
      | (none, h) => { s with heap := h, ret := some none }
      | (some p, h) => { heap := h, prevp := p, p := h.ptr p, ret := none }
  else some { s with prevp := s.p, p := s.heap.ptr s.p }

/-- `malloc`. The loop goes round at most twice. -/
def Heap.malloc (h : Heap) (granted : Bool) (nbytes : Nat) : Option (Option Nat × Heap) := do
  let h := h.init
  let prevp ← h.freep
  let s ← Loop.run (fun s : Search => s.ret.isNone) (Search.turn granted (nunits nbytes))
    (2 * (h.brk + 3)) ⟨h, prevp, h.ptr prevp, none⟩
  (s.ret).map fun r => (r, s.heap)

/-! ## Blocks -/

namespace Heap

variable {h h' : Heap} {S L : Finset Nat} {b p q x y u n : Nat}

/-- Unit `u` is in the block `p`. -/
def In (h : Heap) (p u : Nat) : Prop := p ≤ u ∧ u < p + h.size p

/-- **The allocator's invariant**: the free blocks and `base` are the ring `S`,
and the blocks in use are `L`. -/
structure Inv (h : Heap) (S L : Finset Nat) : Prop where
  base_mem : h.base ∈ S
  base_size : h.size h.base = 0
  next : ∀ p ∈ S, Cyclic.Next S p (h.ptr p)
  used : ∀ p ∈ L, p ∉ S
  base_le : ∀ p ∈ S ∪ L, h.base ≤ p
  pos : ∀ p ∈ S ∪ L, p ≠ h.base → 0 < h.size p
  le_brk : ∀ p ∈ S ∪ L, p + h.size p ≤ h.brk
  apart : ∀ p ∈ S ∪ L, ∀ q ∈ S ∪ L, p < q → p + h.size p ≤ q
  brk_lt : h.brk < KERNBASE
  base_lt : h.base < h.brk

/-- No free block ends where the next one starts, except those of `E`. -/
def Loose (h : Heap) (S E : Finset Nat) : Prop :=
  ∀ p ∈ S, p ∉ E → ∀ q ∈ S, p < q → p + h.size p ≠ q

theorem mem_setPtr : (h.setPtr p q).mem x = if x = p then ⟨q, h.size p⟩ else h.mem x :=
  Function.update_apply ..

theorem mem_setSize : (h.setSize p n).mem x = if x = p then ⟨h.ptr p, n⟩ else h.mem x :=
  Function.update_apply ..

@[simp] theorem ptr_setPtr : (h.setPtr p q).ptr x = if x = p then q else h.ptr x := by
  rw [ptr, mem_setPtr]
  split <;> rfl

@[simp] theorem size_setPtr : (h.setPtr p q).size x = h.size x := by
  rw [size, mem_setPtr]
  split
  · rename_i heq
    rw [heq]
  · rfl

@[simp] theorem ptr_setSize : (h.setSize p n).ptr x = h.ptr x := by
  rw [ptr, mem_setSize]
  split
  · rename_i heq
    rw [heq]
  · rfl

@[simp] theorem size_setSize : (h.setSize p n).size x = if x = p then n else h.size x := by
  rw [size, mem_setSize]
  split <;> rfl

@[simp] theorem ptr_join : (h.join x y).ptr p = if p = x then h.ptr y else h.ptr p := by
  rw [join, ptr_setPtr, ptr_setSize, ptr_setSize]

@[simp] theorem size_join :
    (h.join x y).size p = if p = x then uint (h.size x + h.size y) else h.size p := by
  rw [join, size_setPtr, size_setSize]

theorem mem_join (hp : p ≠ x) : (h.join x y).mem p = h.mem p := by
  rw [join, mem_setPtr, if_neg hp, mem_setSize, if_neg hp]

/-- Two heaps whose headers have the same fields. -/
theorem mem_ext (hptr : ∀ x, h.ptr x = h'.ptr x) (hsize : ∀ x, h.size x = h'.size x) :
    h.mem = h'.mem := by
  funext x
  have hx := hptr x
  have hx' := hsize x
  unfold ptr at hx
  unfold size at hx'
  cases hm : h.mem x
  cases hm' : h'.mem x
  rw [hm, hm'] at hx hx'
  exact congrArg₂ Header.mk hx hx'

theorem uint_of_lt (hn : n < 2 ^ 32) : uint n = n := Nat.mod_eq_of_lt hn

/-! ## One block is put in -/

/-- Block `b` is put in behind `p`. -/
def link (h : Heap) (p b : Nat) : Heap := (h.setPtr b (h.ptr p)).setPtr p b

@[simp] theorem ptr_link :
    (h.link p b).ptr x = if x = p then b else if x = b then h.ptr p else h.ptr x := by
  rw [link, ptr_setPtr, ptr_setPtr]

@[simp] theorem size_link : (h.link p b).size x = h.size x := by
  rw [link, size_setPtr, size_setPtr]

theorem union_link (hb : b ∈ L) : insert b S ∪ L.erase b = S ∪ L := by
  rw [Finset.insert_union, ← Finset.union_insert, Finset.insert_erase hb]

/-- **A block in use is put into the ring.** -/
theorem Inv.link (hinv : h.Inv S L) (hb : b ∈ L) (hp : p ∈ S)
    (hbetween : Cyclic.Between p b (h.ptr p)) :
    (h.link p b).Inv (insert b S) (L.erase b) := by
  have hbS := hinv.used b hb
  refine ⟨Finset.mem_insert_of_mem hinv.base_mem, ?_, fun x hx => ?_, fun x hx => ?_, ?_, ?_,
    ?_, ?_, hinv.brk_lt, hinv.base_lt⟩
  · rw [size_link]
    exact hinv.base_size
  · rw [ptr_link]
    split
    · rename_i hxp
      rw [hxp]
      exact (hinv.next p hp).insert_before hbetween
    split
    · rename_i hxb
      rw [hxb]
      exact (hinv.next p hp).insert_after hbetween
    · rename_i hxp hxb
      have hxS := Finset.mem_of_mem_insert_of_ne hx hxb
      refine (hinv.next x hxS).insert_other fun hbetween' => hxp ?_
      exact hbetween'.unique hxS hp (hinv.next x hxS) (hinv.next p hp) hbetween
  · rw [Finset.mem_insert, not_or]
    exact ⟨Finset.ne_of_mem_erase hx, hinv.used x (Finset.mem_of_mem_erase hx)⟩
  · rw [union_link hb]
    exact hinv.base_le
  · rw [union_link hb]
    simp only [size_link]
    exact hinv.pos
  · rw [union_link hb]
    simp only [size_link]
    exact hinv.le_brk
  · rw [union_link hb]
    simp only [size_link]
    exact hinv.apart

/-! ## Two blocks become one -/

/-- A free block that ends where the next one starts. -/
structure Touch (h : Heap) (S : Finset Nat) (x y : Nat) : Prop where
  mem : x ∈ S
  next : h.ptr x = y
  lt : x < y
  touch : x + h.size x = y

variable {E : Finset Nat}

theorem Inv.mem_next (hinv : h.Inv S L) (hx : x ∈ S) : h.ptr x ∈ S := (hinv.next x hx).1

theorem Inv.size_join (hinv : h.Inv S L) (ht : h.Touch S x y) (p : Nat) :
    (h.join x y).size p = if p = x then h.size x + h.size y else h.size p := by
  have hx := ht.touch
  have hy := hinv.le_brk y (Finset.mem_union_left L (ht.next ▸ hinv.mem_next ht.mem))
  have hlt := hinv.brk_lt
  simp only [KERNBASE] at hlt
  rw [Heap.size_join, uint_of_lt (by omega)]

theorem Inv.lt_of_touch (hinv : h.Inv S L) (ht : h.Touch S x y) (hq : q ∈ S.erase y ∪ L)
    (hxq : x < q) : y < q := by
  have hyS : y ∈ S := ht.next ▸ hinv.mem_next ht.mem
  have hle := hinv.apart x (Finset.mem_union_left L ht.mem) q
    (Finset.union_subset_union (Finset.erase_subset y S) (Finset.Subset.refl L) hq) hxq
  rw [ht.touch] at hle
  refine lt_of_le_of_ne hle fun heq => ?_
  rcases Finset.mem_union.1 hq with hq | hq
  · exact Finset.ne_of_mem_erase hq heq.symm
  · exact hinv.used q hq (heq ▸ hyS)

/-- **The next block is joined to a block that it touches.** -/
theorem Inv.join (hinv : h.Inv S L) (ht : h.Touch S x y) :
    (h.join x y).Inv (S.erase y) L := by
  have hyS : y ∈ S := ht.next ▸ hinv.mem_next ht.mem
  have hsub : S.erase y ∪ L ⊆ S ∪ L :=
    Finset.union_subset_union (Finset.erase_subset y S) (Finset.Subset.refl L)
  have hxU : x ∈ S ∪ L := Finset.mem_union_left L ht.mem
  have hyU : y ∈ S ∪ L := Finset.mem_union_left L hyS
  have hx : x + h.size x = y := ht.touch
  have hxy := ht.lt
  have hbasex := hinv.base_le x hxU
  have hne : h.base ≠ y := by omega
  refine ⟨Finset.mem_erase.2 ⟨hne, hinv.base_mem⟩, ?_, fun z hz => ?_,
    fun z hz hz' => hinv.used z hz (Finset.mem_of_mem_erase hz'),
    fun z hz => hinv.base_le z (hsub hz), fun z hz hne => ?_, fun z hz => ?_,
    fun z hz q hq hzq => ?_, hinv.brk_lt, hinv.base_lt⟩
  · -- `base` has no size, and touches nothing
    show (h.join x y).size h.base = 0
    rw [hinv.size_join ht, if_neg, hinv.base_size]
    intro heq
    rw [← heq, hinv.base_size] at hx
    omega
  · rw [ptr_join]
    obtain ⟨hzy, hzS⟩ := Finset.mem_erase.1 hz
    split
    · rename_i hzx
      rw [hzx]
      exact (ht.next ▸ hinv.next x ht.mem).erase (hinv.next y hyS) ht.mem (by omega)
    · rename_i hzx
      refine (hinv.next z hzS).erase_other fun heq => hzx ?_
      exact (heq ▸ hinv.next z hzS).prev_unique hzS ht.mem (ht.next ▸ hinv.next x ht.mem)
  · rw [hinv.size_join ht]
    have hzpos := hinv.pos z (hsub hz) hne
    split
    · rename_i hzx
      rw [hzx] at hzpos
      omega
    · exact hzpos
  · rw [hinv.size_join ht]
    have hz' := hinv.le_brk z (hsub hz)
    have hy' := hinv.le_brk y hyU
    show _ ≤ h.brk
    split
    · omega
    · exact hz'
  · rw [hinv.size_join ht]
    have hz' := hinv.apart z (hsub hz) q (hsub hq) hzq
    split
    · rename_i hzx
      rw [hzx] at hzq
      have hy' := hinv.apart y hyU q (hsub hq) (hinv.lt_of_touch ht hq hzq)
      omega
    · exact hz'

theorem Loose.join (hinv : h.Inv S L) (ht : h.Touch S x y) (hloose : h.Loose S E)
    (hy : y ∉ E) : (h.join x y).Loose (S.erase y) (E.erase x) := by
  intro z hz hzE q hq hzq
  obtain ⟨hzy, hzS⟩ := Finset.mem_erase.1 hz
  have hqS := Finset.mem_of_mem_erase hq
  rw [hinv.size_join ht]
  split
  · rename_i hzx
    have hyS : y ∈ S := ht.next ▸ hinv.mem_next ht.mem
    have hlt := hinv.lt_of_touch ht (Finset.mem_union_left L hq) (hzx ▸ hzq)
    have hne := hloose y hyS hy q hqS hlt
    have hx := ht.touch
    omega
  · rename_i hzx
    exact hloose z hzS (fun hmem => hzE (Finset.mem_erase.2 ⟨hzx, hmem⟩)) q hqS hzq

/-- Unit `u` is in a block of `S`. -/
def Has (h : Heap) (S : Finset Nat) (u : Nat) : Prop := ∃ p ∈ S, h.In p u

theorem has_link : (h.link p b).Has (insert b S) u ↔ h.In b u ∨ h.Has S u := by
  simp only [Has, In, size_link, Finset.exists_mem_insert]

theorem Inv.has_join (hinv : h.Inv S L) (ht : h.Touch S x y) :
    (h.join x y).Has (S.erase y) u ↔ h.Has S u := by
  have hx := ht.touch
  have hxy := ht.lt
  constructor
  · rintro ⟨z, hz, hle, hlt⟩
    rw [hinv.size_join ht] at hlt
    split at hlt
    · rename_i hzx
      rw [hzx] at hle
      rcases Nat.lt_or_ge u y with huy | hyu
      · exact ⟨x, ht.mem, hle, by omega⟩
      · exact ⟨y, ht.next ▸ hinv.mem_next ht.mem, hyu, by omega⟩
    · exact ⟨z, Finset.mem_of_mem_erase hz, hle, hlt⟩
  · rintro ⟨z, hz, hle, hlt⟩
    have hxmem : x ∈ S.erase y := Finset.mem_erase.2 ⟨by omega, ht.mem⟩
    by_cases hzy : z = y
    · refine ⟨x, hxmem, by omega, ?_⟩
      rw [hinv.size_join ht, if_pos rfl]
      rw [hzy] at hlt
      omega
    · refine ⟨z, Finset.mem_erase.2 ⟨hzy, hz⟩, hle, ?_⟩
      rw [hinv.size_join ht]
      split
      · rename_i hzx
        rw [hzx] at hlt
        omega
      · exact hlt

/-! ## `free` -/

theorem placed_iff : h.placed b p = true ↔ Cyclic.Between p b (h.ptr p) := by
  simp only [placed, Cyclic.Between, Bool.or_eq_true, Bool.and_eq_true, decide_eq_true_eq,
    gt_iff_lt, ge_iff_le]

theorem Inv.card_le (hinv : h.Inv S L) : S.card ≤ h.brk + 1 := by
  have hsub : S ⊆ Finset.range (h.brk + 1) := by
    intro p hp
    have hle := hinv.le_brk p (Finset.mem_union_left L hp)
    exact Finset.mem_range.2 (by omega)
  have hcard := Finset.card_le_card hsub
  rwa [Finset.card_range] at hcard

/-- **The loop of `free`** finds the place of the block. -/
theorem Inv.place (hinv : h.Inv S L) {f : Nat} (hf : h.freep = some f) (hfS : f ∈ S)
    (hb : b ∉ S) : ∃ p ∈ S, h.place b = some p ∧ Cyclic.Between p b (h.ptr p) := by
  obtain ⟨t, ht, hbetween⟩ := Cyclic.exists_between hb ⟨f, hfS⟩ hinv.next
  have hfuel : Cyclic.steps S t f ≤ h.brk + 1 :=
    Nat.le_trans (Cyclic.steps_le_card S t f) hinv.card_le
  obtain ⟨p, hrun, hp, hexit⟩ := Loop.run_total (fun p => !h.placed b p)
    (fun p => some (h.ptr p)) (· ∈ S) (Cyclic.steps S t)
    (fun q hq hcond => by
      refine ⟨h.ptr q, rfl, hinv.mem_next hq, Cyclic.steps_lt ht (hinv.next q hq) ?_⟩
      rintro rfl
      rw [placed_iff.2 hbetween] at hcond
      cases hcond) _ f hfS hfuel
  refine ⟨p, hp, ?_, placed_iff.1 ?_⟩
  · rw [Heap.place, hf]
    exact hrun
  · rwa [Bool.not_eq_false'] at hexit

/-- What `free` makes of the blocks `b` and `p`, the one it goes behind. -/
def joined (h : Heap) (p b : Nat) : Heap :=
  let h' := h.link p b
  let h' := if b + h.size b = h.ptr p then h'.join b (h.ptr p) else h'
  if p + h.size p = b then h'.join p b else h'

theorem brk_joined : (h.joined p b).brk = h.brk := by
  simp only [joined]
  split <;> split <;> rfl

theorem base_joined : (h.joined p b).base = h.base := by
  simp only [joined]
  split <;> split <;> rfl

/-- The source does not store in `p` before it knows whether `b` is joined to it. -/
theorem free_eq (hplace : h.place b = some p) (hpb : p ≠ b) (hyb : h.ptr p ≠ b)
    (hyp : b + h.size b = h.ptr p → h.ptr p ≠ p) :
    h.free (b + 1) = some { h.joined p b with freep := some p } := by
  rw [free, Nat.add_sub_cancel, hplace]
  refine congrArg some ?_
  generalize hg : (if b + h.size b = h.ptr p then h.join b (h.ptr p)
    else h.setPtr b (h.ptr p)) = g
  have hbrk : (if p + g.size p = b then g.join p b else g.setPtr p b).brk
      = (h.joined p b).brk := by
    rw [brk_joined, ← hg]
    split <;> split <;> rfl
  have hbase : (if p + g.size p = b then g.join p b else g.setPtr p b).base
      = (h.joined p b).base := by
    rw [base_joined, ← hg]
    split <;> split <;> rfl
  have hmem : (if p + g.size p = b then g.join p b else g.setPtr p b).mem
      = (h.joined p b).mem := by
    unfold joined
    apply mem_ext
    · intro x
      grind [ptr_join, ptr_link, ptr_setPtr, size_join, size_setPtr]
    · intro x
      grind [size_join, size_link, size_setPtr]
  show Heap.mk _ _ _ _ = Heap.mk _ _ _ _
  rw [hmem, hbase, hbrk]

/-- What `free` has done with block `b`. -/
structure Freed (h h' : Heap) (S S' : Finset Nat) (b : Nat) : Prop where
  has : ∀ u, h'.Has S' u ↔ h.In b u ∨ h.Has S u
  sub : S' ⊆ insert b S
  mem : ∀ x, x ∉ insert b S → h'.mem x = h.mem x
  brk : h'.brk = h.brk
  base : h'.base = h.base

/-- The block that `free` leaves in `freep`, or the one behind it, has `b`. -/
def Room (h : Heap) (n : Nat) : Prop :=
  ∃ p, h.freep = some p ∧ (n ≤ h.size p ∨ n ≤ h.size (h.ptr p))

/-- **Between two calls**: no free block touches another. -/
structure Valid (h : Heap) (S L : Finset Nat) : Prop where
  inv : h.Inv S L
  freep : ∃ p ∈ S, h.freep = some p
  loose : h.Loose S ∅

/-- Only `p` can touch the block that is put in behind it. -/
theorem Inv.not_touch (hinv : h.Inv S L) (hp : p ∈ S)
    (hbetween : Cyclic.Between p b (h.ptr p)) (hx : x ∈ S) (hxp : x ≠ p) (hxb : x < b) :
    x + h.size x ≠ b := by
  have hlt : x < p ∧ p < b := by
    obtain ⟨_, ⟨hpy, hall⟩ | ⟨hyp, hall⟩⟩ := hinv.next p hp
    · have hxy := hall x hx
      rcases hbetween with hb' | hb'
      · omega
      · omega
    · have hxy := hall x hx
      rcases hbetween with hb' | hb'
      · omega
      · omega
  have hle := hinv.apart x (Finset.mem_union_left L hx) p (Finset.mem_union_left L hp) hlt.1
  omega

theorem Loose.link (hinv : h.Inv S L) (hloose : h.Loose S ∅) (hp : p ∈ S)
    (hbetween : Cyclic.Between p b (h.ptr p)) : (h.link p b).Loose (insert b S) {p, b} := by
  intro x hx hxE q hq hxq
  rw [size_link]
  simp only [Finset.mem_insert, Finset.mem_singleton, not_or] at hxE
  have hxS := Finset.mem_of_mem_insert_of_ne hx hxE.2
  rcases Finset.mem_insert.1 hq with rfl | hq
  · exact hinv.not_touch hp hbetween hxS hxE.1 hxq
  · exact hloose x hxS (Finset.notMem_empty x) q hq hxq

/-- A block can only touch the next one. -/
theorem Inv.ptr_eq_of_touch (hinv : h.Inv S L) (hx : x ∈ S) (hq : q ∈ S) (hxq : x < q)
    (htouch : x + h.size x = q) : h.ptr x = q := by
  refine (hinv.next x hx).eq_of_lt hq hxq fun w hw => ?_
  rcases Nat.lt_or_ge x w with hlt | hge
  · exact Or.inr (htouch ▸ hinv.apart x (Finset.mem_union_left L hx) w
      (Finset.mem_union_left L hw) hlt)
  · exact Or.inl hge

/-- What is so when `x` has been joined to the next block `y`, if it touches it. -/
structure Settled (h g : Heap) (S S' L E : Finset Nat) (x y : Nat) : Prop where
  inv : g.Inv S' L
  loose : g.Loose S' (E.erase x)
  sub : S' ⊆ S
  kept : ∀ z ∈ S, (x + h.size x = y → z ≠ y) → z ∈ S'
  has : ∀ u, g.Has S' u ↔ h.Has S u
  size_le : h.size x ≤ g.size x
  join_le : x + h.size x = y → h.size y ≤ g.size x
  mem : ∀ z, z ≠ x → g.mem z = h.mem z
  brk : g.brk = h.brk
  base : g.base = h.base

theorem Inv.settle (hinv : h.Inv S L) (hloose : h.Loose S E) (hx : x ∈ S) (hxy : h.ptr x = y)
    (hlt : x + h.size x = y → x < y ∧ y ∉ E) :
    ∃ S', Settled h (if x + h.size x = y then h.join x y else h) S S' L E x y := by
  split
  · rename_i htouch
    have ht : h.Touch S x y := ⟨hx, hxy, (hlt htouch).1, htouch⟩
    refine ⟨S.erase y, hinv.join ht, hloose.join hinv ht (hlt htouch).2, Finset.erase_subset y S,
      fun z hz hne => Finset.mem_erase.2 ⟨hne htouch, hz⟩, fun u => hinv.has_join ht, ?_,
      fun _ => ?_, fun z hz => mem_join hz, rfl, rfl⟩
    · rw [hinv.size_join ht, if_pos rfl]
      exact Nat.le_add_right ..
    · rw [hinv.size_join ht, if_pos rfl]
      exact Nat.le_add_left ..
  · rename_i htouch
    refine ⟨S, hinv, fun z hz hzE q hq hzq heq => ?_, Finset.Subset.refl S,
      fun z hz _ => hz, fun _ => Iff.rfl, le_refl _, fun htouch' => absurd htouch' htouch,
      fun _ _ => rfl, rfl, rfl⟩
    by_cases hzx : z = x
    · rw [hzx] at heq hzq
      exact htouch (heq.trans ((hinv.ptr_eq_of_touch hx hq hzq heq).symm.trans hxy))
    · exact hloose z hz (fun hmem => hzE (Finset.mem_erase.2 ⟨hzx, hmem⟩)) q hq hzq heq

/-- **`free`** of a block in use returns, and the block is free. -/
theorem Valid.free (hv : h.Valid S L) (hb : b ∈ L) :
    ∃ h' S', h.free (b + 1) = some h' ∧ h'.Valid S' (L.erase b) ∧ Freed h h' S S' b
      ∧ h'.Room (h.size b) := by
  have hinv := hv.inv
  obtain ⟨f, hfS, hf⟩ := hv.freep
  have hbS := hinv.used b hb
  obtain ⟨p, hp, hplace, hbetween⟩ := hinv.place hf hfS hbS
  have hpb : p ≠ b := fun heq => hbS (heq ▸ hp)
  have hyS := hinv.mem_next hp
  have hyb : h.ptr p ≠ b := fun heq => hbS (heq ▸ hyS)
  have hbpos : 0 < h.size b :=
    hinv.pos b (Finset.mem_union_right S hb) fun heq => hbS (heq ▸ hinv.base_mem)
  have hbase := hinv.base_le b (Finset.mem_union_right S hb)
  -- `base` alone is not above the block
  have hyp : b + h.size b = h.ptr p → h.ptr p ≠ p := by
    intro htouch heq
    have hnext := hinv.next p hp
    rw [heq] at hnext
    have hS := hnext.eq_singleton
    have hbase' := hinv.base_mem
    rw [hS, Finset.mem_singleton] at hbase'
    omega
  have hlinked := hinv.link hb hp hbetween
  have hloose := hv.loose.link hinv hp hbetween
  obtain ⟨S₁, h₁⟩ := hlinked.settle hloose (Finset.mem_insert_self b S) (x := b)
    (y := h.ptr p) (by rw [ptr_link, if_neg (Ne.symm hpb), if_pos rfl]) (by
      rw [size_link]
      intro htouch
      refine ⟨by omega, ?_⟩
      simp only [Finset.mem_insert, Finset.mem_singleton, not_or]
      exact ⟨hyp htouch, hyb⟩)
  rw [size_link] at h₁
  generalize hg : (if b + h.size b = h.ptr p then (h.link p b).join b (h.ptr p)
    else h.link p b) = g at h₁
  have hpS₁ : p ∈ S₁ := h₁.kept p (Finset.mem_insert_of_mem hp) fun htouch =>
    Ne.symm (hyp (by rwa [size_link] at htouch))
  have hbS₁ : b ∈ S₁ := h₁.kept b (Finset.mem_insert_self b S) fun _ => Ne.symm hyb
  have hgp : g.ptr p = b ∧ g.size p = h.size p := by
    unfold ptr size
    rw [h₁.mem p hpb]
    exact ⟨by rw [← ptr, ptr_link, if_pos rfl], size_link⟩
  obtain ⟨S', h₂⟩ := h₁.inv.settle h₁.loose hpS₁ hgp.1 (by
    rw [hgp.2]
    exact fun htouch => ⟨by omega, Finset.notMem_erase b _⟩)
  rw [hgp.2] at h₂
  have hjoined : (if p + h.size p = b then g.join p b else g) = h.joined p b := by
    rw [← hg]
    rfl
  rw [hjoined] at h₂
  have hpS' : p ∈ S' := h₂.kept p hpS₁ fun _ => hpb
  refine ⟨{ h.joined p b with freep := some p }, S', free_eq hplace hpb hyb hyp,
    ⟨?_, ⟨p, hpS', rfl⟩, ?_⟩, ⟨fun u => ?_, h₂.sub.trans h₁.sub, fun x hx => ?_,
      brk_joined, base_joined⟩, p, rfl, ?_⟩
  · exact ⟨h₂.inv.base_mem, h₂.inv.base_size, h₂.inv.next, h₂.inv.used, h₂.inv.base_le,
      h₂.inv.pos, h₂.inv.le_brk, h₂.inv.apart, h₂.inv.brk_lt,
      h₂.inv.base_lt⟩
  · intro x hx _
    refine h₂.loose x hx fun hmem => ?_
    simp only [Finset.mem_erase, Finset.mem_insert, Finset.mem_singleton] at hmem
    exact hmem.2.2.elim hmem.1 hmem.2.1
  · exact (h₂.has u).trans ((h₁.has u).trans has_link)
  · rw [Finset.mem_insert, not_or] at hx
    have hxp : x ≠ p := fun heq => hx.2 (heq ▸ hp)
    show (h.joined p b).mem x = h.mem x
    rw [h₂.mem x hxp, h₁.mem x hx.1, Heap.link, mem_setPtr, if_neg hxp, mem_setPtr, if_neg hx.1]
  · have hsize := h₁.size_le
    rw [size_link] at hsize
    show h.size b ≤ (h.joined p b).size p ∨ h.size b ≤ (h.joined p b).size ((h.joined p b).ptr p)
    by_cases hdown : p + h.size p = b
    · exact Or.inl (Nat.le_trans hsize (h₂.join_le (by rw [hgp.2]; exact hdown)))
    · rw [if_neg hdown] at hjoined
      rw [← hjoined, hgp.1]
      exact Or.inr hsize

end Heap

end SchoolStuff.Xv6.Umalloc
