import SchoolStuff.Lib.Ends
import SchoolStuff.Xv6.Fs

/-!
# Xv6 — who holds which block

`held i k` is the address in slot `k` of inode `i`: twelve direct ones, the
indirect block, and the addresses in the indirect block. `Shape` says that
the slots of all inodes hold different data blocks, all of them in use. It
depends on the slots and the bitmap only, so a change that adds one fresh
block keeps it (`Shape.adopt`).
-/

namespace SchoolStuff.Xv6

/-! ## The layout of the disk -/

namespace SuperBlock

/-- The number of the first data block. -/
def dataStart (sb : SuperBlock) : Nat := sb.bmapstart.toNat + sb.size.toNat / BPB + 1

/-- The parts of the disk follow each other as `mkfs` lays them out: the
superblock, the log, the inode blocks, the bitmap. -/
structure Ok (sb : SuperBlock) : Prop where
  super : 1 < sb.inodestart.toNat
  inodes : sb.inodestart.toNat + sb.ninodes.toNat / IPB + 1 ≤ sb.bmapstart.toNat
  data : sb.dataStart ≤ 2 ^ 32

/-- `b` is a data block. -/
def Data (sb : SuperBlock) (b : UInt32) : Prop :=
  sb.dataStart ≤ b.toNat ∧ b.toNat < sb.size.toNat

/-- `b` is a block of the bitmap. -/
def Bitmap (sb : SuperBlock) (b : UInt32) : Prop :=
  sb.bmapstart.toNat ≤ b.toNat ∧ b.toNat < sb.dataStart

variable {sb : SuperBlock}

theorem iblock_toNat (h : sb.Ok) {i : UInt32} (hi : i.toNat < sb.ninodes.toNat) :
    (sb.iblock i).toNat = sb.inodestart.toNat + i.toNat / IPB := by
  have hdiv : i.toNat / IPB ≤ sb.ninodes.toNat / IPB := Nat.div_le_div_right (Nat.le_of_lt hi)
  have hq := Nat.zero_le (i.toNat / IPB)
  have hin := h.inodes
  have hb := sb.bmapstart.toNat_lt
  simp only [iblock, UInt32.toNat_add, UInt32.toNat_ofNat']
  omega

theorem bblock_toNat (h : sb.Ok) {b : Nat} (hb : b ≤ sb.size.toNat) :
    (sb.bblock b).toNat = sb.bmapstart.toNat + b / BPB := by
  have hdiv : b / BPB ≤ sb.size.toNat / BPB := Nat.div_le_div_right hb
  have hq := Nat.zero_le (b / BPB)
  have hdata := h.data
  unfold dataStart at hdata
  simp only [bblock, UInt32.toNat_add, UInt32.toNat_ofNat']
  omega

/-- The superblock comes before the bitmap. -/
theorem Ok.one_lt (h : sb.Ok) : (1 : UInt32).toNat < sb.bmapstart.toNat := by
  have hq := Nat.zero_le (sb.ninodes.toNat / IPB)
  have hin := h.inodes
  have hsuper := h.super
  change 1 < _
  omega

/-- Inode blocks come before the bitmap. -/
theorem iblock_lt (h : sb.Ok) {i : UInt32} (hi : i.toNat < sb.ninodes.toNat) :
    1 < (sb.iblock i).toNat ∧ (sb.iblock i).toNat < sb.bmapstart.toNat := by
  have hdiv : i.toNat / IPB ≤ sb.ninodes.toNat / IPB := Nat.div_le_div_right (Nat.le_of_lt hi)
  have hq := Nat.zero_le (i.toNat / IPB)
  have hin := h.inodes
  have hsuper := h.super
  rw [iblock_toNat h hi]
  omega

theorem bblock_bitmap (h : sb.Ok) {b : Nat} (hb : b ≤ sb.size.toNat) :
    sb.Bitmap (sb.bblock b) := by
  have hdiv : b / BPB ≤ sb.size.toNat / BPB := Nat.div_le_div_right hb
  have hq := Nat.zero_le (b / BPB)
  unfold Bitmap dataStart
  rw [bblock_toNat h hb]
  omega

/-- Two blocks have the same bit only if they are the same. -/
theorem eq_of_bit (h : sb.Ok) {b c : Nat} (hb : b ≤ sb.size.toNat)
    (hc : c ≤ sb.size.toNat) (hblock : sb.bblock b = sb.bblock c)
    (hbit : b % BPB = c % BPB) : b = c := by
  have hdiv : b / BPB = c / BPB := by
    have := bblock_toNat h hb
    rw [hblock, bblock_toNat h hc] at this
    omega
  rw [← Nat.div_add_mod b BPB, ← Nat.div_add_mod c BPB, hdiv, hbit]

theorem Data.not_bitmap {b : UInt32} (h : sb.Data b) : ¬sb.Bitmap b :=
  fun hb => absurd h.1 (by have := hb.2; omega)

theorem Data.ne_zero {b : UInt32} (h : sb.Data b) : b ≠ 0 := by
  rintro rfl
  have := h.1
  unfold dataStart at this
  simp at this

/-- Data blocks come after the blocks before the bitmap. -/
theorem Data.gt {b : UInt32} (h : sb.Data b) : sb.bmapstart.toNat ≤ b.toNat := by
  have hq := Nat.zero_le (sb.size.toNat / BPB)
  have := h.1
  unfold dataStart at this
  omega

end SuperBlock

namespace Fs

/-! ## Slots -/

/-- The slots of an inode. -/
abbrev SLOTS : Nat := MAXFILE + 1

/-- The address in slot `k` of inode `i`, or 0. -/
def held (st : Fs) (i : UInt32) (k : Nat) : UInt32 :=
  if k ≤ NDIRECT then (st.inode i).addrs (Fin.ofNat _ k)
  else
    let indirect := (st.inode i).addrs (Fin.ofNat _ NDIRECT)
    if indirect = 0 then 0 else (st.disk indirect).word (k - NDIRECT - 1)

/-- The slot of the `bn`-th block of a file. -/
def slotOf (bn : Nat) : Nat := if bn < NDIRECT then bn else bn + 1

/-- `inode` names an inode of the file system that is in use. -/
def Allocated (st : Fs) (i : UInt32) : Prop :=
  i.toNat < st.sb.ninodes.toNat ∧ (st.inode i).type ≠ 0

/-- The bitmap marks block `b` as used. -/
def used (st : Fs) (b : Nat) : Bool := (st.disk (st.sb.bblock b)).bit (b % BPB)

/-- The blocks in the slots of all inodes are different data blocks that the
bitmap marks as used, and so it marks the blocks in front of the data. -/
structure Shape (st : Fs) : Prop where
  ok : st.sb.Ok
  super : readsb st.disk = st.sb
  meta_used : ∀ b < st.sb.dataStart, b < st.sb.size.toNat → st.used b = true
  data : ∀ i k, st.Allocated i → k < SLOTS → st.held i k ≠ 0 →
    st.sb.Data (st.held i k) ∧ st.used (st.held i k).toNat = true
  inj : ∀ i j k l, st.Allocated i → st.Allocated j → k < SLOTS → l < SLOTS →
    st.held i k ≠ 0 → st.held i k = st.held j l → i = j ∧ k = l

/-- Two slots hold different blocks. -/
theorem Shape.held_ne {st : Fs} (h : st.Shape) {i j : UInt32} {k l : Nat}
    (hi : st.Allocated i) (hk : k < SLOTS) (hj : st.Allocated j) (hl : l < SLOTS)
    (hne : st.held j l ≠ 0) (hjl : ¬(j = i ∧ l = k)) : st.held j l ≠ st.held i k :=
  fun heq => hjl (h.inj j i l k hj hi hl hk hne heq)

/-- `a` is a data block in use that no slot of `st` holds. -/
structure Fresh (st st' : Fs) (a : UInt32) : Prop where
  data : st.sb.Data a
  used : st'.used a.toNat = true
  unheld : ∀ j k, st.Allocated j → k < SLOTS → st.held j k ≠ a

/-- **Adoption**: the shape stays when every slot keeps its block, or loses
it, and at most one slot gets a fresh one. -/
theorem Shape.adopt {st st' : Fs} (h : st.Shape) (hsb : st'.sb = st.sb)
    (hsuper : readsb st'.disk = readsb st.disk)
    (hused : ∀ b < st.sb.size.toNat, st.used b = true → st'.used b = true)
    (halloc : ∀ j, st'.Allocated j → st.Allocated j) (i : UInt32) (k₀ : Nat)
    (hheld : ∀ j k, st'.Allocated j → k < SLOTS → st'.held j k ≠ 0 →
      st'.held j k = st.held j k
        ∨ (j = i ∧ k = k₀ ∧ Fresh st st' (st'.held j k))) : st'.Shape := by
  refine ⟨hsb ▸ h.ok, ?_, ?_, ?_, ?_⟩
  · rw [hsuper, h.super, hsb]
  · intro b hb hsize
    rw [hsb] at hb hsize
    exact hused b hsize (h.meta_used b hb hsize)
  · intro j k hj hk hne
    rw [hsb]
    rcases hheld j k hj hk hne with heq | ⟨_, _, hfresh⟩
    · rw [heq] at hne ⊢
      have := h.data j k (halloc j hj) hk hne
      exact ⟨this.1, hused _ this.1.2 this.2⟩
    · exact ⟨hfresh.data, hfresh.used⟩
  · intro j l k m hj hl hk hm hne heq
    have hne' : st'.held l m ≠ 0 := heq ▸ hne
    rcases hheld j k hj hk hne with hold | ⟨hji, hk₀, hfresh⟩
    · rcases hheld l m hl hm hne' with hold' | ⟨_, _, hfresh'⟩
      · apply h.inj j l k m (halloc j hj) (halloc l hl) hk hm (hold ▸ hne)
        rw [← hold, ← hold', heq]
      · exact absurd (hold ▸ heq) (hfresh'.unheld j k (halloc j hj) hk)
    · rcases hheld l m hl hm hne' with hold' | ⟨hli, hm₀, _⟩
      · exact absurd (hold' ▸ heq).symm (hfresh.unheld l m (halloc l hl) hm)
      · exact ⟨hji.trans hli.symm, hk₀.trans hm₀.symm⟩

/-- The shape stays when the slots do. -/
theorem Shape.frame {st st' : Fs} (h : st.Shape) (hsb : st'.sb = st.sb)
    (hsuper : readsb st'.disk = readsb st.disk)
    (hused : ∀ b < st.sb.size.toNat, st.used b = true → st'.used b = true)
    (halloc : ∀ j, st'.Allocated j → st.Allocated j)
    (hheld : ∀ j k, st'.Allocated j → k < SLOTS → st'.held j k = st.held j k) :
    st'.Shape :=
  h.adopt hsb hsuper hused halloc 0 0 fun j k hj hk _ => Or.inl (hheld j k hj hk)

/-! ## One changed block -/

@[simp] theorem logWrite_sb (st : Fs) (b : UInt32) (f : Block → Block) :
    (st.logWrite b f).sb = st.sb := rfl

@[simp] theorem logWrite_inode (st : Fs) (b : UInt32) (f : Block → Block) :
    (st.logWrite b f).inode = st.inode := rfl

theorem logWrite_disk_self (st : Fs) (b : UInt32) (f : Block → Block) :
    (st.logWrite b f).disk b = f (st.disk b) := by
  simp only [logWrite, Function.update_self]

theorem logWrite_disk_ne (st : Fs) {b c : UInt32} (f : Block → Block) (h : c ≠ b) :
    (st.logWrite b f).disk c = st.disk c := by
  simp only [logWrite, Function.update_of_ne h]

/-- The slots of an inode depend on its addresses and on its indirect block. -/
theorem held_congr_addrs {st st' : Fs} {j : UInt32}
    (haddrs : (st'.inode j).addrs = (st.inode j).addrs)
    (hdisk : st.held j NDIRECT ≠ 0 →
      st'.disk (st.held j NDIRECT) = st.disk (st.held j NDIRECT)) (k : Nat) :
    st'.held j k = st.held j k := by
  unfold held
  rw [haddrs]
  split
  · rfl
  · by_cases hind : (st.inode j).addrs (Fin.ofNat _ NDIRECT) = 0
    · simp only [if_pos hind]
    · have hslot : st.held j NDIRECT = (st.inode j).addrs (Fin.ofNat _ NDIRECT) := by
        rw [held, if_pos (Nat.le_refl _)]
      rw [hslot] at hdisk
      simp only [if_neg hind, hdisk hind]

theorem held_congr {st st' : Fs} {j : UInt32} (hinode : st'.inode j = st.inode j)
    (hdisk : st.held j NDIRECT ≠ 0 →
      st'.disk (st.held j NDIRECT) = st.disk (st.held j NDIRECT)) (k : Nat) :
    st'.held j k = st.held j k :=
  held_congr_addrs (by rw [hinode]) hdisk k

/-- A change outside of the bitmap leaves the bitmap. -/
theorem used_logWrite {st : Fs} (hok : st.sb.Ok) {b : UInt32} (hb : ¬st.sb.Bitmap b)
    (f : Block → Block) {c : Nat} (hc : c ≤ st.sb.size.toNat) :
    (st.logWrite b f).used c = st.used c := by
  have hne : st.sb.bblock c ≠ b := fun e => hb (e ▸ SuperBlock.bblock_bitmap hok hc)
  unfold used
  rw [logWrite_sb, logWrite_disk_ne _ _ hne]

/-- The superblock is in no block that the file system writes. -/
theorem readsb_logWrite {st : Fs} {b : UInt32} (hb : 1 < b.toNat)
    (f : Block → Block) : readsb (st.logWrite b f).disk = readsb st.disk := by
  have hne : (1 : UInt32) ≠ b := by
    rintro rfl
    simp at hb
  unfold readsb
  rw [logWrite_disk_ne _ _ hne]

/-! ## `balloc` and `bfree` -/

theorem freeBlock_spec {st : Fs} {b : Nat} (h : st.freeBlock = some b) :
    b < st.sb.size.toNat ∧ st.used b = false := by
  unfold freeBlock at h
  obtain ⟨i, _, hi⟩ := List.exists_of_findSome?_eq_some h
  obtain ⟨bi, hbi, rfl⟩ := Option.map_eq_some_iff.1 hi
  have hlt : bi < BPB := List.mem_range.1 (List.mem_of_find?_eq_some hbi)
  have hfree := List.find?_some hbi
  simp only [Bool.and_eq_true, decide_eq_true_eq, Bool.not_eq_true'] at hfree
  have hdiv : (i * BPB + bi) / BPB = i := by
    rw [Nat.mul_comm, Nat.mul_add_div (by decide), Nat.div_eq_of_lt hlt, Nat.add_zero]
  have hmod : (i * BPB + bi) % BPB = bi := by
    rw [Nat.mul_comm, Nat.mul_add_mod, Nat.mod_eq_of_lt hlt]
  have hblock : st.sb.bblock (i * BPB + bi) = st.sb.bblock (i * BPB) := by
    unfold SuperBlock.bblock
    rw [hdiv, Nat.mul_div_cancel _ (by decide)]
  refine ⟨hfree.1, ?_⟩
  rw [used, hblock, hmod]
  exact hfree.2

/-- What `balloc` returns, and what it changes. -/
structure Balloced (st st' : Fs) (a : UInt32) : Prop where
  data : st.sb.Data a
  free : st.used a.toNat = false
  sb : st'.sb = st.sb
  inode : st'.inode = st.inode
  zeroed : st'.disk a = fun _ => 0
  disk : ∀ c, c ≠ a → ¬st.sb.Bitmap c → st'.disk c = st.disk c
  used : ∀ c < st.sb.size.toNat,
    st'.used c = (st.used c || decide (c = a.toNat))

/-- **`balloc`** panics, or returns a zeroed data block that was free. -/
theorem balloc_spec {st : Fs} (h : st.Shape) :
    Ends (· = .ballocOutOfBlocks) st.balloc fun r => Balloced st r.2 r.1 := by
  unfold balloc
  cases hfree : st.freeBlock with
  | none => exact rfl
  | some b =>
      obtain ⟨hsize, hbit⟩ := freeBlock_spec hfree
      have hlt : b < 2 ^ 32 := by
        have := st.sb.size.toNat_lt
        omega
      have hb : (UInt32.ofNat b).toNat = b := UInt32.toNat_ofNat_of_lt' hlt
      have hdata : st.sb.Data (UInt32.ofNat b) := by
        refine ⟨?_, by omega⟩
        by_contra hmeta
        rw [h.meta_used b (by omega) hsize] at hbit
        cases hbit
      have hbitmap := SuperBlock.bblock_bitmap h.ok (Nat.le_of_lt hsize)
      have hne : st.sb.bblock b ≠ UInt32.ofNat b := fun e =>
        hdata.not_bitmap (e ▸ hbitmap)
      let st₁ := st.logWrite (st.sb.bblock b) fun bp => bp.setBit (b % BPB)
      change Balloced st (st₁.bzero (UInt32.ofNat b)) (UInt32.ofNat b)
      refine ⟨hdata, by rw [hb]; exact hbit, rfl, rfl, ?_, ?_, ?_⟩
      · rw [bzero, logWrite_disk_self]
      · intro c hc hcb
        have hcne : c ≠ st.sb.bblock b := fun e => hcb (e ▸ hbitmap)
        rw [bzero, logWrite_disk_ne _ _ hc, logWrite_disk_ne _ _ hcne]
      · intro c hc
        have hok : st₁.sb.Ok := h.ok
        rw [hb, bzero, used_logWrite hok hdata.not_bitmap _ (Nat.le_of_lt hc)]
        unfold used
        rw [logWrite_sb]
        -- `c` may have its bit in the same block of the bitmap
        by_cases hblock : st.sb.bblock c = st.sb.bblock b
        · have hiff : c % BPB = b % BPB ↔ c = b := by
            constructor
            · exact SuperBlock.eq_of_bit h.ok (Nat.le_of_lt hc) (Nat.le_of_lt hsize)
                hblock
            · rintro rfl
              rfl
          rw [hblock, logWrite_disk_self, bit_setBit (Nat.mod_lt _ (by decide))
            (Nat.mod_lt _ (by decide))]
          simp only [hiff]
        · have hcb : c ≠ b := by
            rintro rfl
            exact hblock rfl
          rw [logWrite_disk_ne _ _ hblock, decide_eq_false hcb, Bool.or_false]

/-- What freeing the blocks `bs` changes. -/
structure Freed (st st' : Fs) (bs : List UInt32) : Prop where
  sb : st'.sb = st.sb
  inode : st'.inode = st.inode
  disk : ∀ c, ¬st.sb.Bitmap c → st'.disk c = st.disk c
  used : ∀ c : UInt32, c.toNat < st.sb.size.toNat →
    st'.used c.toNat = (st.used c.toNat && !decide (c ∈ bs))

/-- **`bfree`** of a data block in use does not panic. -/
theorem bfree_spec {st : Fs} (hok : st.sb.Ok) (hsuper : readsb st.disk = st.sb)
    {a : UInt32} (ha : st.sb.Data a) (hused : st.used a.toNat = true) :
    ∃ st', st.bfree a = .ok st' ∧ Freed st st' [a] := by
  have hsize := Nat.le_of_lt ha.2
  have hbitmap := SuperBlock.bblock_bitmap hok hsize
  have hrun : st.bfree a = .ok (st.logWrite (st.sb.bblock a.toNat)
      fun bp => bp.clearBit (a.toNat % BPB)) := by
    unfold used at hused
    simp only [bfree, hsuper, if_pos hused]
  refine ⟨_, hrun, rfl, rfl, ?_, ?_⟩
  · intro c hc
    exact logWrite_disk_ne _ _ fun e => hc (e ▸ hbitmap)
  · intro c hc
    unfold used
    rw [logWrite_sb]
    by_cases hblock : st.sb.bblock c.toNat = st.sb.bblock a.toNat
    · have hiff : c.toNat % BPB = a.toNat % BPB ↔ c ∈ [a] := by
        rw [List.mem_singleton]
        constructor
        · intro hbit
          exact UInt32.toNat_inj.1
            (SuperBlock.eq_of_bit hok (Nat.le_of_lt hc) hsize hblock hbit)
        · rintro rfl
          rfl
      rw [hblock, logWrite_disk_self, bit_clearBit (Nat.mod_lt _ (by decide))
        (Nat.mod_lt _ (by decide))]
      simp only [hiff]
    · have hca : c ∉ [a] := by
        rw [List.mem_singleton]
        rintro rfl
        exact hblock rfl
      rw [logWrite_disk_ne _ _ hblock, decide_eq_false hca, Bool.not_false,
        Bool.and_true]

end Fs

end SchoolStuff.Xv6
