import SchoolStuff.Xv6.FirstDisk

/-!
# Xv6 — whether the first disk is consistent

`mkfs` checks neither that there is an inode left, nor that the size it gives
the root directory stays below its last block. So a disk is consistent if the
inode blocks hold all inodes and the root directory does not end at the end of
a block (`mkfs_consistent_iff`).
-/

namespace SchoolStuff.Xv6.Mkfs

open Fs State
open Dirs (Name slash)

/-- The disk has the files, with a block of its own for each block of a file. -/
structure Consistent (files : List File) (d : Disk) : Prop where
  addressed : ∀ i, Made (files.length + 2) i → ∀ bn,
    bn * BSIZE < ((mount d).inode i).size.toNat →
      bn < MAXFILE ∧ (mount d).held i (slotOf bn) ≠ 0
  data : ∀ i k, Made (files.length + 2) i → k < SLOTS → (mount d).held i k ≠ 0 →
    sb.Data ((mount d).held i k) ∧ (mount d).used ((mount d).held i k).toNat = true
  distinct : ∀ i j k l, Made (files.length + 2) i → Made (files.length + 2) j →
    k < SLOTS → l < SLOTS → (mount d).held i k ≠ 0 →
    (mount d).held i k = (mount d).held j l → i = j ∧ k = l
  contents : ∀ k (hk : k < files.length),
    (mount d).content (UInt32.ofNat (k + 2)) = files[k].content
  named : ∀ k (hk : k < files.length),
    (((mount d).content ROOTINO).drop (16 * (k + 2))).take 16
      = dirent (UInt32.ofNat (k + 2)) files[k].name

/-! ## The bitmap -/

theorem bit_bitmap {used b : Nat} (hused : used ≤ BPB) (hb : b < BPB) :
    (bitmap used).bit b = decide (b < used) := by
  induction used with
  | zero => simp [bitmap, Block.bit, Block.byte]
  | succ used ih =>
      have hset : bitmap (used + 1) = (bitmap used).setBit used := by
        rw [bitmap, List.range_succ, List.foldl_append]
        rfl
      rw [hset, bit_setBit (by omega) hb, ih (by omega), Bool.eq_iff_iff, Bool.or_eq_true,
        decide_eq_true_iff, decide_eq_true_iff, decide_eq_true_iff]
      omega

variable {s s' : State} {files : List File} {d : Disk} {i : UInt32}

theorem balloc_spec (hblocks : s.blocks = FSSIZE) (hroom : s.freeblock.toNat ≤ FSSIZE) :
    s.balloc s.freeblock.toInt32 = .ok { s with
      disk := Function.update s.disk sb.bmapstart (bitmap s.freeblock.toNat) } := by
  have hsize : FSSIZE = 1000 := rfl
  have hint : s.freeblock.toInt32.toInt = s.freeblock.toNat := by
    have hlt : 2 * s.freeblock.toBitVec.toNat < 2 ^ 32 := by
      rw [UInt32.toNat_toBitVec]
      omega
    rw [Int32.toInt, UInt32.toBitVec_toInt32, BitVec.toInt_eq_toNat_of_lt hlt,
      UInt32.toNat_toBitVec]
  have hlt : s.freeblock.toInt32.toInt < BSIZE * 8 := by
    have hmax : (BSIZE : Int) * 8 = 4096 := rfl
    rw [hint, hmax]
    omega
  rw [State.balloc, if_pos hlt, hint, Int.toNat_natCast, wsect_eq hblocks (by decide)]

/-- A bit of the bitmap is in a byte that is not zero, and only set bits are. -/
theorem byte_bitmap {used : Nat} (hused : used ≤ BPB) {k : Nat} (hk : k < BSIZE) :
    (bitmap used).byte k ≠ 0 ↔ 8 * k < used := by
  have hsize : BPB = BSIZE * 8 := rfl
  have hbit : ∀ r < 8, ((bitmap used).byte k).toNat.testBit r = decide (8 * k + r < used) := by
    intro r hr
    have hdiv : (8 * k + r) / 8 = k := by omega
    have hmod : (8 * k + r) % 8 = r := by omega
    have := bit_testBit (bitmap used) (8 * k + r)
    rw [bit_bitmap hused (by omega), hdiv, hmod] at this
    exact this.symm
  constructor
  · intro hne
    have hne' : ((bitmap used).byte k).toNat ≠ 0 := fun e => hne (UInt8.toNat_inj.1 e)
    obtain ⟨r, hr⟩ := Nat.exists_testBit_of_ne_zero hne'
    have hlt : r < 8 := by
      by_contra hge
      have hbound := (bitmap used).byte k |>.toNat_lt
      have hpow : 2 ^ 8 ≤ 2 ^ r := Nat.pow_le_pow_right (by decide) (by omega)
      rw [Nat.testBit_lt_two_pow (by omega)] at hr
      cases hr
    rw [hbit r hlt] at hr
    have := of_decide_eq_true hr
    omega
  · intro hlt heq
    have := hbit 0 (by decide)
    rw [heq, decide_eq_true (by omega)] at this
    simp at this

/-! ## The last two steps -/

/-- The size that the root directory gets. -/
def rootSize (files : List File) : Nat :=
  (16 * (files.length + 2) / BSIZE + 1) * BSIZE

/-- What the last two steps of `main` change. -/
structure Written (files : List File) (s : State) (d : Disk) : Prop where
  inode : ∀ i : UInt32, i.toNat < INODES → (mount d).inode i
    = if i = ROOTINO then
        { (mount s.disk).inode ROOTINO with size := UInt32.ofNat (rootSize files) }
      else (mount s.disk).inode i
  data : ∀ c : UInt32, nmeta ≤ c.toNat → d c = s.disk c
  map : d sb.bmapstart = bitmap s.freeblock.toNat
  super : readsb d = sb

theorem finish_spec (h : Built files s) : ∃ d,
    (s.fixRoot >>= fun s => s.balloc s.freeblock.toInt32) = .ok { s with disk := d }
      ∧ Written files s d := by
  have himage := h.image
  have hroot := root_made files.length
  have hin := hroot.lt himage.inodes
  have hlen : ((mount s.disk).inode ROOTINO).size.toNat = 16 * (files.length + 2) := by
    rw [himage.size _ hroot, contents, if_pos rfl, length_rootBytes]
  obtain ⟨d, hrun, hother, hinode⟩ := winode_spec himage.blocks hin
    { (mount s.disk).inode ROOTINO with size := UInt32.ofNat (rootSize files) }
  have hfix : s.fixRoot = .ok { s with disk := d } := by
    rw [fixRoot, rinode_spec himage.blocks hin]
    change s.winode ROOTINO { (mount s.disk).inode ROOTINO with
      size := UInt32.ofNat ((((mount s.disk).inode ROOTINO).size.toNat / BSIZE + 1) * BSIZE) } = _
    rw [hlen]
    exact hrun
  have hballoc := balloc_spec (s := { s with disk := d }) himage.blocks himage.room
  have hmap : sb.bmapstart.toNat + 1 = nmeta := rfl
  have hlow : ∀ c, c ≠ sb.bmapstart →
      Function.update d sb.bmapstart (bitmap s.freeblock.toNat) c = d c :=
    fun c hc => Function.update_of_ne hc _ _
  -- the inodes and the superblock are in front of the bitmap, the data behind it
  refine ⟨Function.update d sb.bmapstart (bitmap s.freeblock.toNat), ?_, fun j hj => ?_,
    fun c hc => ?_, Function.update_self _ _ _, ?_⟩
  · rw [hfix]
    exact hballoc
  · have hne : sb.iblock j ≠ sb.bmapstart := by
      intro heq
      have := (iblock_lt hj).2
      rw [heq] at this
      omega
    rw [← hinode j hj]
    simp only [mount]
    rw [hlow _ hne]
  · have hne : c ≠ sb.bmapstart := by
      rintro rfl
      omega
    rw [hlow c hne]
    exact data_congr hin hother hc
  · have hsame : readsb (Function.update d sb.bmapstart (bitmap s.freeblock.toNat))
        = readsb d := by
      unfold readsb
      rw [hlow 1 (by decide)]
    rw [hsame, readsb_congr hin hother, himage.super]

namespace Written

variable (hw : Written files s d) (h : Built files s)

include hw h

theorem held (hi : Made (files.length + 2) i) (k : Nat) :
    (mount d).held i k = (mount s.disk).held i k := by
  refine h.image.laid.held_congr hi ?_ hw.data k
  rw [hw.inode i (hi.lt h.image.inodes)]
  by_cases hroot : i = ROOTINO
  · rw [if_pos hroot, hroot]
  · rw [if_neg hroot]

theorem size_file (hi : Made (files.length + 2) i) (hne : i ≠ ROOTINO) :
    ((mount d).inode i).size.toNat = (Mkfs.contents files i).length := by
  rw [hw.inode i (hi.lt h.image.inodes), if_neg hne]
  exact h.image.size i hi

theorem size_root : ((mount d).inode ROOTINO).size.toNat = rootSize files := by
  have hroot := root_made files.length
  have hinodes : INODES = 208 := rfl
  have hsize : BSIZE = 512 := rfl
  have hle := h.image.inodes
  rw [hw.inode _ (hroot.lt hle), if_pos rfl]
  refine Nat.mod_eq_of_lt ?_
  rw [rootSize, hsize]
  omega

/-- Every block in a slot is a data block that the bitmap marks. -/
theorem used (hi : Made (files.length + 2) i) {k : Nat} (hk : k < SLOTS)
    (hne : (mount d).held i k ≠ 0) :
    sb.Data ((mount d).held i k) ∧ (mount d).used ((mount d).held i k).toNat = true := by
  rw [hw.held h hi] at hne ⊢
  have hdata := h.image.laid.data i k hi hk hne
  have hroom := h.image.room
  have hsize : FSSIZE = 1000 := rfl
  have hbits : BPB = 4096 := rfl
  have hstart : sb.dataStart = nmeta := rfl
  have hend : sb.size.toNat = FSSIZE := rfl
  refine ⟨⟨by omega, by omega⟩, ?_⟩
  generalize (mount s.disk).held i k = b at hdata
  have hblock : sb.bblock b.toNat = sb.bmapstart := by
    have hzero : b.toNat / BPB = 0 := Nat.div_eq_of_lt (by omega)
    rw [SuperBlock.bblock, hzero]
    rfl
  have hmod : b.toNat % BPB = b.toNat := Nat.mod_eq_of_lt (by omega)
  change ((d (sb.bblock b.toNat)).bit (b.toNat % BPB)) = true
  rw [hblock, hmod, hw.map, bit_bitmap (by omega) (by omega)]
  exact decide_eq_true hdata.2

/-- The bytes of a file, and zeros after it. -/
theorem byteAt (hi : Made (files.length + 2) i) {p : Nat} (hp : p < MAXFILE * BSIZE)
    (hhas : (mount s.disk).Has i p) :
    (mount d).byteAt i p = (Mkfs.contents files i).getD p 0 := by
  have hdata := h.image.laid.data i _ hi (slotOf_div_lt hp) hhas
  rw [← h.image.laid.byte i p hi hp hhas, Fs.byteAt, Fs.byteAt, hw.held h hi]
  change (d _).byte p = _
  rw [hw.data _ hdata.1]
  rfl

theorem content_file (hi : Made (files.length + 2) i) (hne : i ≠ ROOTINO) :
    (mount d).content i = Mkfs.contents files i := by
  have hsize := hw.size_file h hi hne
  apply List.ext_getElem?
  intro p
  rw [getElem?_content, hsize]
  by_cases hp : p < (Mkfs.contents files i).length
  · have hhas := h.image.has hi hp
    rw [if_pos hp, hw.byteAt h hi hhas.1 hhas.2, List.getD_eq_getElem _ _ hp,
      List.getElem?_eq_getElem hp]
  · rw [if_neg hp, List.getElem?_eq_none (by omega)]

theorem content_root : ((mount d).content ROOTINO).take (16 * (files.length + 2))
    = rootBytes files := by
  have hroot := root_made files.length
  have hcontents : Mkfs.contents files ROOTINO = rootBytes files := if_pos rfl
  have hlen := length_rootBytes files
  have hle : 16 * (files.length + 2) ≤ rootSize files := by
    have hdiv := Nat.div_add_mod (16 * (files.length + 2)) BSIZE
    have hmod := Nat.mod_lt (16 * (files.length + 2)) (show 0 < BSIZE by decide)
    rw [rootSize, Nat.add_mul, Nat.one_mul, Nat.mul_comm _ BSIZE]
    omega
  apply List.ext_getElem?
  intro p
  rw [List.getElem?_take]
  by_cases hp : p < 16 * (files.length + 2)
  · rw [← hlen, ← hcontents] at hp
    have hhas := h.image.has hroot hp
    rw [hcontents, hlen] at hp
    rw [if_pos hp, getElem?_content, hw.size_root h, if_pos (by omega),
      hw.byteAt h hroot hhas.1 hhas.2, hcontents, List.getD_eq_getElem _ _ (by omega),
      List.getElem?_eq_getElem (by omega)]
  · rw [if_neg hp, List.getElem?_eq_none (by omega)]

end Written

/-- An entry of the root directory. -/
theorem rootBytes_entry : ∀ {files : List File} {k : Nat} (hk : k < files.length),
    ((rootBytes files).drop (16 * (k + 2))).take 16
      = dirent (UInt32.ofNat (k + 2)) files[k].name := by
  intro files
  induction files using List.reverseRecOn with
  | nil =>
      intro k hk
      exact absurd hk (Nat.not_lt_zero k)
  | append_singleton files f ih =>
      intro k hk
      have hlen := length_rootBytes files
      rw [rootBytes_concat]
      by_cases hlt : k < files.length
      · have hdrop : ((rootBytes files).drop (16 * (k + 2))).length
            = 16 * (files.length + 2) - 16 * (k + 2) := by rw [List.length_drop, hlen]
        rw [List.drop_append_of_le_length (by omega),
          List.take_append_of_le_length (by omega), ih hlt, List.getElem_append_left hlt]
      · rw [List.length_append, List.length_singleton] at hk
        have hlast : k = files.length := by omega
        subst hlast
        rw [← hlen, List.drop_left, List.take_of_length_le (Nat.le_of_eq (length_dirent _ _)),
          List.getElem_concat_length rfl]

/-! ## The disk of few files -/

/-- Every block below the size of an inode has an address, unless the entries of
the root directory end at the end of a block: the size goes one block further. -/
theorem Written.addressed_iff (hw : Written files s d) (h : Built files s) :
    (∀ i, Made (files.length + 2) i → ∀ bn,
      bn * BSIZE < ((mount d).inode i).size.toNat →
        bn < MAXFILE ∧ (mount d).held i (slotOf bn) ≠ 0)
      ↔ (files.length + 2) % 32 ≠ 0 := by
  have hsize : BSIZE = 512 := rfl
  have hroot := root_made files.length
  have hlen : (Mkfs.contents files ROOTINO).length = 16 * (files.length + 2) := by
    rw [Mkfs.contents, if_pos rfl, length_rootBytes]
  constructor
  · intro haddr hmod
    have hlast := (haddr ROOTINO hroot (16 * (files.length + 2) / BSIZE) ?_).2
    · have hmax : 16 * (files.length + 2) / BSIZE < MAXFILE := by
        have hinodes : INODES = 208 := rfl
        have hmax : MAXFILE = 140 := rfl
        have := h.image.inodes
        rw [hsize]
        omega
      rw [hw.held h hroot, h.image.filled _ _ hroot (slotOf_lt hmax), slotStart_slotOf,
        hlen, hsize] at hlast
      omega
    · rw [hw.size_root h, rootSize, hsize]
      omega
  · intro hmod i hi bn hbn
    have hlt : bn * BSIZE < (Mkfs.contents files i).length := by
      by_cases hne : i = ROOTINO
      · rw [hne, hw.size_root h, rootSize, hsize] at hbn
        rw [hne, hlen, hsize]
        omega
      · rw [hw.size_file h hi hne] at hbn
        exact hbn
    have hfits := h.image.fits i hi
    have hmax : bn < MAXFILE := Nat.lt_of_mul_lt_mul_right (Nat.lt_of_lt_of_le hlt hfits)
    refine ⟨hmax, ?_⟩
    rw [hw.held h hi]
    refine (h.image.filled i _ hi (slotOf_lt hmax)).2 ?_
    rw [slotStart_slotOf]
    exact hlt

theorem Written.consistent_iff (hw : Written files s d) (h : Built files s) :
    Consistent files d ↔ (files.length + 2) % 32 ≠ 0 := by
  rw [← hw.addressed_iff h]
  refine ⟨fun hcons => hcons.addressed, fun haddr => ⟨haddr, fun i k hi hk hne =>
    hw.used h hi hk hne, fun i j k l hi hj hk hl hne heq => ?_, fun k hk => ?_,
    fun k hk => ?_⟩⟩
  · rw [hw.held h hi] at hne heq
    rw [hw.held h hj] at heq
    exact h.image.laid.inj i j k l hi hj hk hl hne heq
  · have hinodes : INODES = 208 := rfl
    have hle := h.image.inodes
    obtain ⟨hmade, hne, hcontents⟩ := contents_file hk (by omega)
    rw [hw.content_file h hmade hne, hcontents]
  · rw [← rootBytes_entry hk, ← hw.content_root h, List.drop_take, List.take_take]
    congr 1
    omega

/-- **`mkfs`** of few files, unless they have no room. -/
theorem build_written (h : Image s 1 fun _ => []) (hf : s.freeblock.toNat = nmeta)
    (hfew : files.length + 2 ≤ INODES) :
    Ends (fun _ => ¬Fits files) (s.build files) fun s' =>
      ∃ s₁, Built files s₁ ∧ Written files s₁ s'.disk := by
  have hassoc : s.build files = (s.makeRoot >>= fun s => files.foldlM State.addFile s)
      >>= fun s => s.fixRoot >>= fun s => s.balloc s.freeblock.toInt32 := by
    rw [bind_assoc]
    rfl
  rw [hassoc]
  refine (built_spec h hf files hfew).bind fun s₁ h₁ => ?_
  obtain ⟨d, hrun, hwritten⟩ := finish_spec h₁
  rw [hrun]
  exact ⟨s₁, h₁, hwritten⟩

theorem Built.fits (h : Built files s) : Fits files := by
  refine ⟨h.names, fun f hf => ?_, ?_⟩
  · have hinodes : INODES = 208 := rfl
    have hle := h.image.inodes
    obtain ⟨k, hk, rfl⟩ := List.getElem_of_mem hf
    obtain ⟨hmade, _, hcontents⟩ := contents_file hk (by omega)
    rw [← hcontents]
    exact h.image.fits _ hmade
  · rw [← h.used]
    exact h.image.room

/-- The image is written if and only if the files have room on it. -/
theorem build_ok_iff (h : Image s 1 fun _ => []) (hf : s.freeblock.toNat = nmeta)
    (hfew : files.length + 2 ≤ INODES) : (∃ s', s.build files = .ok s') ↔ Fits files := by
  have hspec := build_written h hf hfew
  constructor
  · rintro ⟨s', hrun⟩
    obtain ⟨s₁, hbuilt, _⟩ := hspec.of_ok hrun
    exact hbuilt.fits
  · intro hfits
    obtain ⟨s', hrun, _⟩ := hspec.exists_ok fun _ hnot => absurd hfits hnot
    exact ⟨s', hrun⟩

theorem mkfs_ok_iff (hfew : files.length + 2 ≤ INODES) :
    (∃ s, mkfs files = .ok s) ↔ Fits files :=
  build_ok_iff start_image freeblock_start hfew

/-- The kernel finds the layout on the disk. -/
theorem build_super (h : Image s 1 fun _ => []) (hf : s.freeblock.toNat = nmeta)
    (hfew : files.length + 2 ≤ INODES) (hrun : s.build files = .ok s') :
    readsb s'.disk = sb := by
  have hspec := build_written h hf hfew
  obtain ⟨s₁, _, hwritten⟩ := hspec.of_ok hrun
  exact hwritten.super

theorem mkfs_super (hfew : files.length + 2 ≤ INODES) (h : mkfs files = .ok s) :
    readsb s.disk = sb :=
  build_super start_image freeblock_start hfew h

end SchoolStuff.Xv6.Mkfs
