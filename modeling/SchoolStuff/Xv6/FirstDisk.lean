import Mathlib.Data.List.Induction
import SchoolStuff.Xv6.Append

/-!
# Xv6 — the disk that `mkfs` writes

`Image s n file` is the state between two calls, with the files of the inodes
below `n` as they are so far.
-/

namespace SchoolStuff.Xv6.Mkfs

open Fs State
open Dirs (DIRSIZ Name slash dot dotdot)

/-- The inodes that the inode blocks have room for, which are more than
`NINODES`. -/
abbrev INODES : Nat := ninodeblocks * IPB

structure Image (s : State) (n : Nat) (file : UInt32 → List UInt8) : Prop where
  laid : Laid (mount s.disk) n s.freeblock.toNat file
  filled : Filled (mount s.disk) n file
  size : ∀ i, Made n i → ((mount s.disk).inode i).size.toNat = (file i).length
  fits : ∀ i, Made n i → (file i).length ≤ MAXFILE * BSIZE
  blocks : s.blocks = FSSIZE
  room : s.freeblock.toNat ≤ FSSIZE
  next : s.freeinode = UInt32.ofNat n
  inodes : n ≤ INODES
  super : readsb s.disk = sb

variable {s s' : State} {n : Nat} {file file' : UInt32 → List UInt8} {i : UInt32}

/-! ## Inodes on the image -/

theorem iblock_toNat (hi : i.toNat < INODES) :
    (sb.iblock i).toNat = 32 + i.toNat / IPB := by
  have hinodes : INODES = 208 := rfl
  have hipb : IPB = 8 := rfl
  have hstart : sb.inodestart.toNat = 32 := rfl
  rw [SuperBlock.iblock, UInt32.toNat_add, hstart, UInt32.toNat_ofNat', hipb]
  omega

/-- An inode is in a block between the superblock and the data. -/
theorem iblock_lt (hi : i.toNat < INODES) :
    1 < (sb.iblock i).toNat ∧ (sb.iblock i).toNat + 1 < nmeta := by
  have hinodes : INODES = 208 := rfl
  have hipb : IPB = 8 := rfl
  have hmeta : nmeta = 59 := rfl
  rw [iblock_toNat hi, hipb]
  omega

theorem iblock_in (hi : i.toNat < INODES) : (sb.iblock i).toNat < FSSIZE := by
  have hmeta : nmeta = 59 := rfl
  have hsize : FSSIZE = 1000 := rfl
  have := iblock_lt hi
  omega

/-- The inodes depend on the blocks before the bitmap. -/
theorem mount_inode_congr (hi : i.toNat < INODES) {d d' : Disk}
    (hlow : ∀ c : UInt32, c.toNat < nmeta → d' c = d c) :
    (mount d').inode i = (mount d).inode i := by
  have := iblock_lt hi
  simp only [mount]
  rw [hlow _ (by omega)]

theorem rinode_spec (hblocks : s.blocks = FSSIZE) (hi : i.toNat < INODES) :
    s.rinode i = .ok ((mount s.disk).inode i) := by
  rw [rinode, rsect_ok hblocks (iblock_in hi)]
  rfl

/-- **`winode`** writes one inode, and no other block. -/
theorem winode_spec (hblocks : s.blocks = FSSIZE) (hi : i.toNat < INODES) (ip : Inode) :
    ∃ d, s.winode i ip = .ok { s with disk := d }
      ∧ (∀ c, c ≠ sb.iblock i → d c = s.disk c)
      ∧ ∀ j : UInt32, j.toNat < INODES →
          (mount d).inode j = if j = i then ip else (mount s.disk).inode j := by
  have hmod : ∀ i : UInt32, i.toNat % IPB < IPB := fun i => Nat.mod_lt _ (by decide)
  refine ⟨Function.update s.disk (sb.iblock i)
    ((s.disk (sb.iblock i)).setWords (16 * (i.toNat % IPB)) ip.words), ?_,
    fun c hc => Function.update_of_ne hc _ _, fun j hj => ?_⟩
  · rw [winode, rsect_ok hblocks (iblock_in hi)]
    exact congrArg Except.ok (wsect_eq hblocks (iblock_in hi) _)
  · have hmount : (mount (Function.update s.disk (sb.iblock i)
        ((s.disk (sb.iblock i)).setWords (16 * (i.toNat % IPB)) ip.words))).inode j
        = dinode (Function.update s.disk (sb.iblock i)
            ((s.disk (sb.iblock i)).setWords (16 * (i.toNat % IPB)) ip.words)
            (sb.iblock j)) (j.toNat % IPB) := rfl
    rw [hmount]
    by_cases hblock : sb.iblock j = sb.iblock i
    · have hdiv : j.toNat / IPB = i.toNat / IPB := by
        have := iblock_toNat hj
        rw [hblock, iblock_toNat hi] at this
        omega
      rw [hblock, Function.update_self, dinode_setWords _ _ (hmod i) (hmod j)]
      simp only [slot_eq_iff hdiv]
      rw [← hblock]
      rfl
    · have hne : j ≠ i := by
        rintro rfl
        exact hblock rfl
      rw [if_neg hne, Function.update_of_ne hblock]
      rfl

theorem root_made (n : Nat) : Made (n + 2) ROOTINO := by
  refine ⟨by decide, ?_⟩
  change 1 < _
  omega

theorem Made.lt (hi : Made n i) (hn : n ≤ INODES) : i.toNat < INODES :=
  Nat.lt_of_lt_of_le hi.2 hn

/-- The superblock is in front of the inodes. -/
theorem readsb_congr {d d' : Disk} (hi : i.toNat < INODES)
    (hsame : ∀ c, c ≠ sb.iblock i → d' c = d c) : readsb d' = readsb d := by
  have hne : (1 : UInt32) ≠ sb.iblock i := by
    intro heq
    have := (iblock_lt hi).1
    rw [← heq] at this
    exact absurd this (by decide)
  unfold readsb
  rw [hsame 1 hne]

/-- The data blocks are behind the inodes. -/
theorem data_congr {d d' : Disk} (hi : i.toNat < INODES)
    (hsame : ∀ c, c ≠ sb.iblock i → d' c = d c) {c : UInt32} (hc : nmeta ≤ c.toNat) :
    d' c = d c := by
  refine hsame c fun heq => ?_
  have := (iblock_lt hi).2
  rw [heq] at hc
  omega

theorem Made.cases (hi : Made (n + 1) i) : Made n i ∨ i = UInt32.ofNat n := by
  by_cases hlt : i.toNat < n
  · exact Or.inl ⟨hi.1, hlt⟩
  · have heq : i.toNat = n := by
      have := hi.2
      omega
    rw [← heq, UInt32.ofNat_toNat]
    exact Or.inr rfl

/-- **`ialloc`** hands out an empty inode. -/
theorem ialloc_spec (h : Image s n file) (hn : n < INODES) (type : Int16) :
    ∃ s', s.ialloc type = .ok (UInt32.ofNat n, s')
      ∧ Image s' (n + 1) (Function.update file (UInt32.ofNat n) [])
      ∧ s'.freeblock = s.freeblock := by
  have hinodes : INODES = 208 := rfl
  have hnum : (UInt32.ofNat n).toNat = n := by
    rw [UInt32.toNat_ofNat', Nat.mod_eq_of_lt (by omega)]
  have hin : (UInt32.ofNat n).toNat < INODES := by omega
  obtain ⟨d, hrun, hother, hinode⟩ := winode_spec
    (s := { s with freeinode := s.freeinode + 1 }) h.blocks hin
    { type := type, major := 0, minor := 0, nlink := 1, size := 0, addrs := fun _ => 0 }
  have hself := hinode _ hin
  rw [if_pos rfl] at hself
  have hne : ∀ j, Made n j → j ≠ UInt32.ofNat n := by
    rintro j hj rfl
    have := hj.2
    omega
  have hold : ∀ j, Made n j → (mount d).inode j = (mount s.disk).inode j := by
    intro j hj
    rw [hinode j (hj.lt h.inodes), if_neg (hne j hj)]
  have hdata : ∀ c : UInt32, nmeta ≤ c.toNat → d c = s.disk c :=
    fun c hc => data_congr hin hother hc
  have hempty : ((mount d).inode (UInt32.ofNat n)).addrs = fun _ => 0 := by rw [hself]
  have hlaid : Laid (mount d) (n + 1) s.freeblock.toNat
      (Function.update file (UInt32.ofNat n) []) :=
    h.laid.make hnum (fun j hj => by rw [hold j hj]) hempty hdata
  refine ⟨{ s with disk := d, freeinode := s.freeinode + 1 }, ?_, ?_, rfl⟩
  · rw [ialloc, h.next]
    rw [h.next] at hrun
    simp only [hrun]
    rfl
  -- the inodes that were made before are as they were, and the new one is empty
  refine ⟨hlaid, fun j k hj hk => ?_, fun j hj => ?_, fun j hj => ?_, h.blocks, h.room, ?_,
    hn, (readsb_congr hin hother).trans h.super⟩
  · rcases hj.cases with hj | rfl
    · rw [h.laid.held_congr hj (by rw [hold j hj]) hdata, Function.update_of_ne (hne j hj)]
      exact h.filled j k hj hk
    · rw [held_of_empty hempty, Function.update_self]
      simp only [ne_eq, not_true, List.length_nil, Nat.not_lt_zero]
  · rcases hj.cases with hj | rfl
    · rw [hold j hj, Function.update_of_ne (hne j hj)]
      exact h.size j hj
    · rw [hself, Function.update_self]
      rfl
  · rcases hj.cases with hj | rfl
    · rw [Function.update_of_ne (hne j hj)]
      exact h.fits j hj
    · rw [Function.update_self]
      exact Nat.zero_le _
  · change s.freeinode + 1 = _
    rw [h.next, UInt32.ofNat_add]
    rfl

theorem Image.view_self (s : State) (i : UInt32) :
    view s (mount s.disk).inode i ((mount s.disk).inode i) = mount s.disk := by
  rw [view, Function.update_eq_self]
  rfl

theorem Image.opened (h : Image s n file) (i : UInt32) :
    Open s (mount s.disk).inode i ((mount s.disk).inode i) n file := by
  refine ⟨?_, ?_, h.blocks, h.room⟩
  · rw [view_self]
    exact h.laid
  · rw [view_self]
    exact h.filled

/-- **`winode` at the end of `iappend`** puts the copy on the disk, and the image
has the longer file. -/
theorem Image.appended (h : Image s n file) (hi : Made n i) {s₁ : State} {din : Inode}
    {off : Nat} {src : List UInt8} (happ : Appended s s₁ (mount s.disk).inode i
      ((mount s.disk).inode i) din n file off src) {d : Disk}
    (hother : ∀ c, c ≠ sb.iblock i → d c = s₁.disk c)
    (hinode : ∀ j, j.toNat < INODES → (mount d).inode j
      = if j = i then { din with size := UInt32.ofNat off } else (mount s₁.disk).inode j) :
    Image { s₁ with disk := d } n (Function.update file i (file i ++ src)) := by
  have hin := hi.lt h.inodes
  have hends := happ.ends
  have hfits := happ.fits
  have hnew : (Function.update file i (file i ++ src) i).length = off := by
    rw [Function.update_self, List.length_append, hends]
  have hself := hinode i hin
  rw [if_pos rfl] at hself
  have hne : ∀ j, Made n j → j ≠ i → (mount d).inode j = (mount s.disk).inode j := by
    intro j hj hji
    rw [hinode j (hj.lt h.inodes), if_neg hji,
      mount_inode_congr (hj.lt h.inodes) happ.kept.low]
  have haddrs : ∀ j, Made n j → ((mount d).inode j).addrs
      = ((view s₁ (mount s.disk).inode i din).inode j).addrs := by
    intro j hj
    by_cases hji : j = i
    · rw [hji, hself, view_inode]
    · rw [hne j hj hji, view_inode_ne hji]
  have hdata : ∀ c : UInt32, nmeta ≤ c.toNat → d c = s₁.disk c :=
    fun c hc => data_congr hin hother hc
  have hsuper : readsb s₁.disk = readsb s.disk := by
    unfold readsb
    rw [happ.kept.low 1 (by decide)]
  refine ⟨happ.opened.laid.congr (fun _ hj => hj) haddrs hdata fun _ _ => rfl,
    fun j k hj hk => ?_, fun j hj => ?_, fun j hj => ?_, happ.opened.blocks,
    happ.opened.room, happ.kept.freeinode.trans h.next, h.inodes,
    ((readsb_congr hin hother).trans hsuper).trans h.super⟩
  · rw [happ.opened.laid.held_congr hj (haddrs j hj) hdata]
    exact happ.opened.filled j k hj hk
  · by_cases hji : j = i
    · have hmax : MAXFILE * BSIZE < 2 ^ 32 := by decide
      rw [hji, hself, hnew]
      exact Nat.mod_eq_of_lt (by omega)
    · rw [hne j hj hji, Function.update_of_ne hji]
      exact h.size j hj
  · by_cases hji : j = i
    · rw [hji, hnew]
      exact hfits
    · rw [Function.update_of_ne hji]
      exact h.fits j hj

/-- **`iappend`** appends the bytes, or the image is too small. -/
theorem iappend_spec (h : Image s n file) (hi : Made n i) (src : List UInt8) :
    Ends (fun _ => Overflow s.freeblock.toNat (file i).length src.length) (s.iappend i src)
      fun s' => Image s' n (Function.update file i (file i ++ src))
        ∧ s'.freeblock.toNat + blocksOf (file i).length
          = s.freeblock.toNat + blocksOf ((file i).length + src.length) := by
  have hin := hi.lt h.inodes
  rw [iappend, rinode_spec h.blocks hin]
  change Ends _ (s.appendLoop _ _ src >>= _) _
  rw [h.size i hi]
  refine (appendLoop_spec hi _ rfl (h.opened i) rfl (h.fits i hi)).bind ?_
  rintro ⟨din, off, s₁⟩ happ
  simp only at happ ⊢
  obtain ⟨d, hrun, hother, hinode⟩ := winode_spec
    (happ.kept.blocks.trans h.blocks) hin { din with size := UInt32.ofNat off }
  rw [hrun]
  refine Ends.ok ⟨h.appended hi happ hother hinode, ?_⟩
  rw [← happ.ends]
  exact happ.count

/-- There is a block for what is in a file. -/
theorem Image.has (h : Image s n file) (hi : Made n i) {p : Nat}
    (hp : p < (file i).length) : p < MAXFILE * BSIZE ∧ (mount s.disk).Has i p := by
  have hmax := h.fits i hi
  have hlt : p < MAXFILE * BSIZE := by omega
  have hle := Nat.div_mul_le_self p BSIZE
  refine ⟨hlt, (h.filled i _ hi (slotOf_div_lt hlt)).2 ?_⟩
  rw [slotStart_slotOf]
  omega

/-! ## The files -/

/-- What `mkfs` appends to the root directory. -/
def rootBytes (files : List File) : List UInt8 :=
  dirent ROOTINO dot ++ dirent ROOTINO dotdot
    ++ (files.mapIdx fun k f => dirent (UInt32.ofNat (k + 2)) f.name).flatten

/-- What each inode gets. -/
def contents (files : List File) (i : UInt32) : List UInt8 :=
  if i = ROOTINO then rootBytes files
  else ((files[i.toNat - 2]?).map File.content).getD []

/-- The blocks of an image with these files. -/
def blocksUsed (files : List File) : Nat :=
  nmeta + blocksOf (16 * (files.length + 2))
    + (files.map fun f => blocksOf f.content.length).sum

/-- The files have room on the image, and names without a `/`. -/
structure Fits (files : List File) : Prop where
  names : ∀ f ∈ files, slash ∉ f.arg
  sizes : ∀ f ∈ files, f.content.length ≤ MAXFILE * BSIZE
  used : blocksUsed files ≤ FSSIZE

theorem length_dirent (inum : UInt32) (name : Name) : (dirent inum name).length = 16 := by
  have hsiz : DIRSIZ = 14 := rfl
  simp only [dirent, strncpy, List.length_cons, List.length_append, List.length_take,
    List.length_replicate]
  omega

/-- The inode of a file. -/
theorem contents_file {files : List File} {k : Nat} (hk : k < files.length)
    (hroom : files.length ≤ INODES) : Made (files.length + 2) (UInt32.ofNat (k + 2))
      ∧ UInt32.ofNat (k + 2) ≠ ROOTINO
      ∧ contents files (UInt32.ofNat (k + 2)) = files[k].content := by
  have hinodes : INODES = 208 := rfl
  have hnum : (UInt32.ofNat (k + 2)).toNat = k + 2 := by
    rw [UInt32.toNat_ofNat', Nat.mod_eq_of_lt (by omega)]
  have hne : UInt32.ofNat (k + 2) ≠ ROOTINO := by
    intro heq
    rw [heq] at hnum
    change 1 = _ at hnum
    omega
  refine ⟨⟨by omega, by omega⟩, hne, ?_⟩
  rw [contents, if_neg hne, hnum, Nat.add_sub_cancel, List.getElem?_eq_getElem hk]
  rfl

theorem rootBytes_concat (files : List File) (f : File) : rootBytes (files ++ [f])
    = rootBytes files ++ dirent (UInt32.ofNat (files.length + 2)) f.name := by
  simp only [rootBytes, List.mapIdx_append, List.mapIdx_cons, List.mapIdx_nil,
    List.flatten_append, List.flatten_cons, List.flatten_nil, List.append_nil,
    List.append_assoc, Nat.zero_add]

theorem length_rootBytes (files : List File) :
    (rootBytes files).length = 16 * (files.length + 2) := by
  induction files using List.reverseRecOn with
  | nil => simp only [rootBytes, List.mapIdx_nil, List.flatten_nil, List.append_nil,
      List.length_append, length_dirent, List.length_nil]
  | append_singleton files f ih =>
      rw [rootBytes_concat, List.length_append, ih, length_dirent, List.length_append,
        List.length_singleton]
      omega

theorem Fits.of_append {files rest : List File} (h : Fits (files ++ rest)) : Fits files := by
  refine ⟨fun f hf => h.names f (List.mem_append_left _ hf),
    fun f hf => h.sizes f (List.mem_append_left _ hf), ?_⟩
  have hused := h.used
  unfold blocksUsed at hused ⊢
  rw [List.map_append, List.sum_append, List.length_append] at hused
  have := blocksOf_mono (show 16 * (files.length + 2) ≤ 16 * (files.length + rest.length + 2)
    by omega)
  omega

/-! ## `main` -/

/-- **The state between two turns** of the loop over the arguments. -/
structure Built (files : List File) (s : State) : Prop where
  image : Image s (files.length + 2) (contents files)
  used : s.freeblock.toNat = blocksUsed files
  names : ∀ f ∈ files, slash ∉ f.arg

theorem Image.congr (h : Image s n file) (hfile : ∀ i, Made n i → file' i = file i) :
    Image s n file' := by
  refine ⟨h.laid.congr (fun _ hi => hi) (fun _ _ => rfl) (fun _ _ => rfl) hfile,
    fun i k hi hk => ?_, fun i hi => ?_, fun i hi => ?_, h.blocks, h.room, h.next,
    h.inodes, h.super⟩
  · rw [hfile i hi]
    exact h.filled i k hi hk
  · rw [hfile i hi]
    exact h.size i hi
  · rw [hfile i hi]
    exact h.fits i hi

/-- The first loop leaves an empty disk. -/
theorem zeroed {s : State} (hdisk : s.disk = fun _ _ => 0) (hblocks : s.blocks = 0)
    {m : Nat} (hm : m ≤ FSSIZE) :
    (List.range m).foldl (fun s i => s.wsect (UInt32.ofNat i) fun _ => 0) s
      = { s with blocks := m } := by
  have hsize : FSSIZE = 1000 := rfl
  induction m with
  | zero => rw [List.range_zero, List.foldl_nil, ← hblocks]
  | succ m ih =>
      have hnum : (UInt32.ofNat m).toNat = m := by
        rw [UInt32.toNat_ofNat', Nat.mod_eq_of_lt (by omega)]
      rw [List.range_succ, List.foldl_append, ih (by omega), List.foldl_cons,
        List.foldl_nil, wsect, sector_eq (by omega), hnum, hdisk,
        Function.update_eq_self_iff.2 rfl, Nat.max_eq_right (Nat.le_succ m)]

theorem start_eq : State.start
    = { disk := Function.update (fun _ _ => 0) 1 (Block.setWords (fun _ => 0) 0 (words sb))
        blocks := FSSIZE, freeinode := 1, freeblock := UInt32.ofNat nmeta } := by
  have hzero := zeroed
    (s := { disk := fun _ _ => 0, blocks := 0, freeinode := 1, freeblock := UInt32.ofNat nmeta })
    rfl rfl (Nat.le_refl FSSIZE)
  simp only [State.start, hzero]
  exact wsect_eq rfl (by decide) _

theorem freeblock_start : State.start.freeblock.toNat = nmeta := by
  rw [start_eq]
  rfl

theorem readsb_start : readsb State.start.disk = sb := by
  have hword : ∀ i < 7, (Block.setWords (fun _ => 0) 0 (words sb)).word i
      = (words sb).getD i 0 := by
    intro i hi
    have hlen : (words sb).length = 7 := rfl
    have hsize : BSIZE = 512 := rfl
    rw [word_setWords (by decide) (by omega), hlen, if_pos (by omega), Nat.sub_zero]
  rw [start_eq]
  unfold readsb
  simp only [Function.update_self, hword _ (show 0 < 7 by decide),
    hword _ (show 1 < 7 by decide), hword _ (show 2 < 7 by decide),
    hword _ (show 3 < 7 by decide), hword _ (show 4 < 7 by decide),
    hword _ (show 5 < 7 by decide), hword _ (show 6 < 7 by decide)]
  rfl

theorem start_image : Image State.start 1 fun _ => [] := by
  have hnone : ∀ i, ¬Made 1 i := fun i hi => by
    have := hi.1
    have := hi.2
    omega
  refine ⟨⟨?_, fun i _ hi => absurd hi (hnone i), fun i _ _ _ hi => absurd hi (hnone i),
    fun i _ hi => absurd hi (hnone i), fun c hc => ?_⟩, fun i _ hi => absurd hi (hnone i),
    fun i hi => absurd hi (hnone i), fun i hi => absurd hi (hnone i), ?_, ?_, ?_,
    by decide, readsb_start⟩
  all_goals rw [start_eq]
  · exact Nat.le_refl _
  · have hne : c ≠ 1 := by
      rintro rfl
      rw [start_eq] at hc
      exact absurd hc (by decide)
    exact Function.update_of_ne hne (Block.setWords (fun _ => 0) 0 (words sb))
      (fun _ _ => 0 : Disk)
  · exact (by decide : nmeta ≤ FSSIZE)
  · rfl

/-- **The root directory** with its two entries. -/
theorem makeRoot_spec (h : Image s 1 fun _ => []) (hf : s.freeblock.toNat = nmeta) :
    ∃ s', s.makeRoot = .ok s' ∧ Built [] s' := by
  obtain ⟨s₁, halloc, himage₁, hfree₁⟩ := ialloc_spec h (by decide) T_DIR
  have hmade := root_made 0
  have hempty : Function.update (fun _ => []) (UInt32.ofNat 1) ([] : List UInt8) ROOTINO
      = [] := Function.update_self _ _ _
  have hdot := iappend_spec himage₁ hmade (dirent ROOTINO dot)
  rw [hempty, hfree₁, hf, length_dirent, List.nil_append] at hdot
  obtain ⟨s₂, hrun₂, himage₂, hcount₂⟩ := hdot.exists_ok fun _ hfull =>
    absurd hfull (by decide : ¬Overflow nmeta 0 16)
  have hnext : s₂.freeblock.toNat = nmeta + 1 := hcount₂
  have hdotdot := iappend_spec himage₂ hmade (dirent ROOTINO dotdot)
  rw [Function.update_self, length_dirent, length_dirent, hnext] at hdotdot
  obtain ⟨s₃, hrun₃, himage₃, hcount₃⟩ := hdotdot.exists_ok fun _ hfull =>
    absurd hfull (by decide : ¬Overflow (nmeta + 1) 16 16)
  have hone : blocksOf 16 = 1 ∧ blocksOf (16 + 16) = 1 ∧ blocksUsed [] = nmeta + 1 :=
    ⟨rfl, rfl, rfl⟩
  refine ⟨s₃, ?_, himage₃.congr fun j hj => ?_, by omega, fun f hf => ?_⟩
  · unfold makeRoot
    rw [halloc]
    change (s₁.iappend ROOTINO (dirent ROOTINO dot) >>= fun s =>
      s.iappend ROOTINO (dirent ROOTINO dotdot)) = _
    rw [hrun₂]
    exact hrun₃
  · have hroot : j = ROOTINO := by
      have h₁ := hj.1
      have h₂ : j.toNat < 2 := hj.2
      apply UInt32.toNat_inj.1
      change j.toNat = 1
      omega
    rw [hroot, Function.update_self, contents, if_pos rfl]
    simp only [rootBytes, List.mapIdx_nil, List.flatten_nil, List.append_nil]
  · exact absurd hf List.not_mem_nil

/-- The loop over the bytes of a file. -/
theorem chunks_spec (hi : Made n i) (chunks : List (List UInt8)) :
    ∀ {s : State} {file : UInt32 → List UInt8}, Image s n file →
      Ends (fun _ => Overflow s.freeblock.toNat (file i).length chunks.flatten.length)
        (chunks.foldlM (fun s buf => s.iappend i buf) s) fun s' =>
          Image s' n (Function.update file i (file i ++ chunks.flatten))
            ∧ s'.freeblock.toNat + blocksOf (file i).length
              = s.freeblock.toNat + blocksOf ((file i).length + chunks.flatten.length) := by
  induction chunks with
  | nil =>
      intro s file h
      rw [List.foldlM_nil, List.flatten_nil, List.append_nil, Function.update_eq_self]
      exact ⟨h, rfl⟩
  | cons buf chunks ih =>
      intro s file h
      rw [List.foldlM_cons, List.flatten_cons, List.length_append]
      have hmono := blocksOf_mono (show (file i).length + buf.length
        ≤ (file i).length + (buf.length + chunks.flatten.length) by omega)
      refine ((iappend_spec h hi buf).allow fun _ hfull => ?_).bind
        fun s₁ ⟨h₁, hcount₁⟩ => ?_
      · unfold Overflow at hfull ⊢
        omega
      have hrec := ih h₁
      have hassoc := Nat.add_assoc (file i).length buf.length chunks.flatten.length
      rw [Function.update_self, Function.update_idem, List.length_append, List.append_assoc]
        at hrec
      refine (hrec.allow fun _ hfull => ?_).mono fun s₂ ⟨h₂, hcount₂⟩ => ⟨h₂, ?_⟩
      · unfold Overflow at hfull ⊢
        rw [hassoc] at hfull
        omega
      · rw [hassoc] at hcount₂
        omega

theorem blocksUsed_concat (files : List File) (f : File) : blocksUsed (files ++ [f])
    = nmeta + blocksOf (16 * (files.length + 2) + 16)
      + ((files.map fun f => blocksOf f.content.length).sum + blocksOf f.content.length) := by
  have hlen : 16 * (files.length + 1 + 2) = 16 * (files.length + 2) + 16 := by omega
  rw [blocksUsed, List.length_append, List.length_singleton, hlen, List.map_append,
    List.sum_append, List.map_singleton, List.sum_singleton]

/-- One more file, and its entry. -/
theorem contents_concat {files : List File} {f : File} (hi : Made (files.length + 2 + 1) i)
    {m : UInt32} (hm : m.toNat = files.length + 2) : contents (files ++ [f]) i
      = Function.update (Function.update (Function.update (contents files) m []) ROOTINO
          (rootBytes files ++ dirent (UInt32.ofNat (files.length + 2)) f.name)) m f.content i := by
  by_cases hlast : i = m
  · have hne : i ≠ ROOTINO := by
      rintro rfl
      rw [← hlast] at hm
      change 1 = _ at hm
      omega
    have hidx : i.toNat - 2 = files.length := by
      rw [hlast]
      omega
    rw [contents, if_neg hne, hidx, List.getElem?_concat_length, ← hlast, Function.update_self]
    rfl
  · rw [Function.update_of_ne hlast]
    by_cases hroot : i = ROOTINO
    · rw [hroot, Function.update_self, contents, if_pos rfl, rootBytes_concat]
    · have hne : i.toNat ≠ 1 := fun e => hroot (UInt32.toNat_inj.1 e)
      have hne' : i.toNat ≠ files.length + 2 := fun e =>
        hlast (UInt32.toNat_inj.1 (e.trans hm.symm))
      have h₁ := hi.1
      have h₂ := hi.2
      rw [Function.update_of_ne hroot, Function.update_of_ne hlast, contents, contents,
        if_neg hroot, if_neg hroot, List.getElem?_append_left (by omega)]

/-- **A turn** of the loop over the arguments. -/
theorem addFile_spec {files : List File} (h : Built files s)
    (hroom : files.length + 2 < INODES) (f : File) :
    Ends (fun _ => ¬Fits (files ++ [f])) (s.addFile f) (Built (files ++ [f])) := by
  unfold addFile
  by_cases hslash : slash ∈ f.arg
  · rw [if_pos hslash]
    exact fun hfits => hfits.names f (List.mem_append_right _ (List.mem_singleton.2 rfl)) hslash
  rw [if_neg hslash]
  obtain ⟨s₁, halloc, himage₁, hfree₁⟩ := ialloc_spec h.image hroom T_FILE
  rw [halloc]
  have hn : (UInt32.ofNat (files.length + 2)).toNat = files.length + 2 := by
    have hinodes : INODES = 208 := rfl
    rw [UInt32.toNat_ofNat', Nat.mod_eq_of_lt (by omega)]
  have hroot := root_made (files.length + 1)
  have hmade : Made (files.length + 2 + 1) (UInt32.ofNat (files.length + 2)) :=
    ⟨by omega, by omega⟩
  have hne : ROOTINO ≠ UInt32.ofNat (files.length + 2) := by
    intro heq
    rw [← heq] at hn
    change 1 = _ at hn
    omega
  have hbytes : Function.update (contents files) (UInt32.ofNat (files.length + 2)) [] ROOTINO
      = rootBytes files := by
    rw [Function.update_of_ne hne, contents, if_pos rfl]
  -- the entry in the root directory, and then the bytes of the file
  have hentry := iappend_spec himage₁ hroot
    (dirent (UInt32.ofNat (files.length + 2)) f.name)
  rw [hbytes, hfree₁, h.used, length_dirent, length_rootBytes] at hentry
  have hused := blocksUsed_concat files f
  have hold : blocksUsed files = nmeta + blocksOf (16 * (files.length + 2))
    + (files.map fun f => blocksOf f.content.length).sum := rfl
  have hmax : MAXFILE * BSIZE = 71680 := rfl
  have hinodes : INODES = 208 := rfl
  refine (hentry.allow fun _ hfull hfits => ?_).bind fun s₂ ⟨himage₂, hcount₂⟩ => ?_
  · have := hfits.used
    unfold Overflow at hfull
    omega
  have hchunks := chunks_spec hmade f.chunks himage₂
  have hzero : blocksOf 0 = 0 := rfl
  have hcontent : f.chunks.flatten = f.content := rfl
  rw [hcontent, Function.update_of_ne hne.symm, Function.update_self, List.length_nil, Nat.zero_add,
    List.nil_append] at hchunks
  refine (hchunks.allow fun _ hfull hfits => ?_).mono fun s₃ ⟨himage₃, hcount₃⟩ =>
    ⟨?_, ?_, fun g hg => ?_⟩
  · have h₁ := hfits.used
    have h₂ := hfits.sizes f (List.mem_append_right _ (List.mem_singleton.2 rfl))
    rw [Overflow, Nat.zero_add] at hfull
    omega
  · rw [List.length_append]
    exact himage₃.congr fun j hj => contents_concat hj hn
  · omega
  · rcases List.mem_append.1 hg with hg | hg
    · exact h.names g hg
    · rw [List.mem_singleton.1 hg]
      exact hslash

/-- **The loop over the arguments**, as long as there are inodes. -/
theorem addFiles_spec (rest : List File) : ∀ {done : List File} {s : State}, Built done s →
    done.length + rest.length + 2 ≤ INODES →
    Ends (fun _ => ¬Fits (done ++ rest)) (rest.foldlM State.addFile s)
      (Built (done ++ rest)) := by
  induction rest with
  | nil =>
      intro done s h _
      rw [List.append_nil]
      exact h
  | cons f rest ih =>
      intro done s h hroom
      have happ : done ++ f :: rest = done ++ [f] ++ rest := by
        rw [List.append_assoc, List.singleton_append]
      rw [List.length_cons] at hroom
      rw [List.foldlM_cons, happ]
      refine ((addFile_spec h (by omega) f).allow fun _ hnot hfits =>
        hnot hfits.of_append).bind fun s' h' => ih h' ?_
      rw [List.length_append, List.length_singleton]
      omega

/-- **The image before the last two steps** of `main`. -/
theorem built_spec (h : Image s 1 fun _ => []) (hf : s.freeblock.toNat = nmeta)
    (files : List File) (hroom : files.length + 2 ≤ INODES) :
    Ends (fun _ => ¬Fits files) (s.makeRoot >>= fun s => files.foldlM State.addFile s)
      (Built files) := by
  obtain ⟨s₁, hrun, hbuilt⟩ := makeRoot_spec h hf
  rw [hrun]
  refine addFiles_spec files hbuilt ?_
  rw [List.length_nil, Nat.zero_add]
  exact hroom

end SchoolStuff.Xv6.Mkfs
