import SchoolStuff.Xv6.Consistent

/-!
# Xv6 — the first disk with too many files

Past the last inode block `ialloc` goes on into the bitmap and the data. What
the image is then like is open, up to `Steady`: it keeps its length, and blocks
are only ever taken. The bitmap is written last, over the inode that is in it.
-/

namespace SchoolStuff.Xv6.Mkfs

open Fs State

/-- The image has its length, and at least `b` of its blocks are taken. -/
structure Steady (b : Nat) (s : State) : Prop where
  blocks : s.blocks = FSSIZE
  taken : b ≤ s.freeblock.toNat
  room : s.freeblock.toNat ≤ FSSIZE

/-- Block `x` may be the first one that the image has not. -/
structure Late (b : Nat) (s : State) (x : UInt32) : Prop where
  blocks : s.blocks = FSSIZE
  taken : b ≤ s.freeblock.toNat
  room : s.freeblock.toNat ≤ FSSIZE ∨ x.toNat = FSSIZE

variable {b : Nat} {s : State} {x : UInt32}

theorem Steady.late (h : Steady b s) (x : UInt32) : Late b s x :=
  ⟨h.blocks, h.taken, Or.inl h.room⟩

/-! ## Sectors -/

/-- A block that was read is in the image. -/
theorem rsect_in (h : Late b s x) : Ends (fun _ => True) (s.rsect x) fun _ =>
    Steady b s ∧ (sector x).toNat < FSSIZE := by
  have hsize : FSSIZE = 1000 := rfl
  unfold rsect
  by_cases hin : (sector x).toNat < s.blocks
  · rw [if_pos hin]
    rw [h.blocks] at hin
    refine ⟨⟨h.blocks, h.taken, h.room.resolve_right fun heq => ?_⟩, hin⟩
    rw [sector_eq (by omega)] at hin
    omega
  · rw [if_neg hin]
    exact trivial

theorem wsect_steady (h : Steady b s) (hin : (sector x).toNat < FSSIZE) (buf : Block) :
    Steady b (s.wsect x buf) := by
  refine ⟨?_, h.taken, h.room⟩
  have hblocks := h.blocks
  change max s.blocks ((sector x).toNat + 1) = FSSIZE
  omega

theorem winode_steady (h : Steady b s) (i : UInt32) (ip : Inode) :
    Ends (fun _ => True) (s.winode i ip) (Steady b) :=
  (rsect_in (h.late _)).bind fun _ ⟨_, hin⟩ => wsect_steady h hin _

theorem ialloc_steady (h : Steady b s) (type : Int16) :
    Ends (fun _ => True) (s.ialloc type) fun r => Steady b r.2 := by
  have hnext : Steady b { s with freeinode := s.freeinode + 1 } :=
    ⟨h.blocks, h.taken, h.room⟩
  exact (winode_steady hnext _ _).bind fun s' h' => h'

/-! ## `iappend` -/

theorem succ_late (h : Steady b s) :
    Late b { s with freeblock := s.freeblock + 1 } s.freeblock := by
  have hsize : FSSIZE = 1000 := rfl
  have hroom := h.room
  have htaken := h.taken
  have hnext := toNat_succ (f := s.freeblock) (by omega)
  refine ⟨h.blocks, ?_, ?_⟩
  · change b ≤ (s.freeblock + 1).toNat
    omega
  · change (s.freeblock + 1).toNat ≤ FSSIZE ∨ _
    omega

theorem addr_late (h : Steady b s) (din : Inode) (k : Fin (NDIRECT + 1)) :
    Late b (s.addr din k).2 ((s.addr din k).1.addrs k) := by
  unfold State.addr
  split
  · simp only [Function.update_self]
    exact succ_late h
  · exact h.late _

theorem indirectAddr_late {ind : UInt32} (h : Late b s ind) (k : Nat) :
    Ends (fun _ => True) (s.indirectAddr ind k) fun r => Late b r.2 r.1 := by
  refine (rsect_in h).bind fun buf ⟨hs, hin⟩ => ?_
  by_cases hzero : buf.word k = 0
  · rw [if_pos hzero]
    have hlate := succ_late hs
    refine ⟨?_, hlate.taken, hlate.room⟩
    have hblocks := hs.blocks
    change max s.blocks ((sector ind).toNat + 1) = FSSIZE
    omega
  · rw [if_neg hzero]
    exact hs.late _

theorem appendBlock_late (h : Steady b s) (din : Inode) (fbn : Nat) :
    Ends (fun _ => True) (s.appendBlock din fbn) fun r => Late b r.2.2 r.1 := by
  unfold appendBlock
  split
  · exact addr_late h din _
  · exact (indirectAddr_late (addr_late h din _) _).bind fun r hr => hr

theorem appendLoop_steady : ∀ (m : Nat) {src : List UInt8}, src.length = m →
    ∀ {s : State} (din : Inode) (off : Nat), Steady b s →
      Ends (fun _ => True) (s.appendLoop din off src) fun r => Steady b r.2.2 := by
  intro m
  induction m using Nat.strongRecOn with
  | ind m ih =>
      intro src hm s din off h
      rw [appendLoop]
      split
      · exact h
      · rename_i hnil
        by_cases hfbn : off / BSIZE < MAXFILE
        · simp only [if_pos hfbn]
          refine (appendBlock_late h din _).bind fun r hr => ?_
          refine (rsect_in hr).bind fun buf hbuf => ?_
          rcases hbuf with ⟨hs, hin⟩
          have hmod := Nat.mod_lt off (show 0 < BSIZE by decide)
          have hrest := block_rest off
          exact ih _ (by omega) (List.length_drop ..) _ _ (wsect_steady hs hin _)
        · simp only [if_neg hfbn]
          exact trivial

theorem iappend_steady (h : Steady b s) (i : UInt32) (src : List UInt8) :
    Ends (fun _ => True) (s.iappend i src) (Steady b) := by
  refine Ends.bind (P := fun _ => True) ?_ fun din _ =>
    (appendLoop_steady _ rfl din _ h).bind fun r hr => winode_steady hr _ _
  exact (rsect_in (h.late _)).bind fun _ _ => trivial

/-! ## `main` -/

theorem addFile_steady (h : Steady b s) (f : File) :
    Ends (fun _ => True) (s.addFile f) (Steady b) := by
  unfold addFile
  split
  · exact trivial
  · refine (ialloc_steady h T_FILE).bind fun r hr => ?_
    refine (iappend_steady hr ROOTINO _).bind fun s₁ h₁ => ?_
    exact Ends.foldlM (fun _ => Steady b) (fun buf _ _ hs => iappend_steady hs r.1 buf) h₁

theorem fixRoot_steady (h : Steady b s) : Ends (fun _ => True) s.fixRoot (Steady b) := by
  refine Ends.bind (P := fun _ => True) ?_ fun din _ => winode_steady h ROOTINO _
  exact (rsect_in (h.late _)).bind fun _ _ => trivial

/-- **Too many files**: the bitmap ends up over the inodes that do not fit. -/
theorem overrun_spec (h : Image s 1 fun _ => []) (hf : s.freeblock.toNat = nmeta)
    {files : List File} (hmany : INODES < files.length + 2) :
    Ends (fun _ => True) (s.build files) fun s' =>
      ∃ used, 66 ≤ used ∧ used ≤ FSSIZE ∧ s'.disk sb.bmapstart = bitmap used := by
  have hinodes : INODES = 208 := rfl
  -- up to the last inode block the image is as it should be
  have hlen : (files.take 206).length = 206 := by
    rw [List.length_take]
    omega
  have hfirst := built_spec h hf (files.take 206) (by omega)
  have hrest : Ends (fun _ => True)
      (s.makeRoot >>= fun s => files.foldlM State.addFile s) (Steady 66) := by
    have hsplit : (s.makeRoot >>= fun s => files.foldlM State.addFile s)
        = (s.makeRoot >>= fun s => (files.take 206).foldlM State.addFile s)
          >>= fun s => (files.drop 206).foldlM State.addFile s := by
      rw [bind_assoc]
      congr 1
      funext s
      rw [← List.foldlM_append, List.take_append_drop]
    rw [hsplit]
    refine (hfirst.allow fun _ _ => trivial).bind fun s₁ h₁ => ?_
    refine Ends.foldlM (fun _ => Steady 66) (fun f _ _ hs => addFile_steady hs f)
      ⟨h₁.image.blocks, ?_, h₁.image.room⟩
    have hseven : blocksOf (16 * 208) = 7 := rfl
    have hmeta : nmeta = 59 := rfl
    have hused := h₁.used
    rw [blocksUsed, hlen, hseven] at hused
    omega
  have hlast := hrest.bind (f := fun s => s.fixRoot >>= fun s => s.balloc s.freeblock.toInt32)
    (R := fun s' => ∃ used, 66 ≤ used ∧ used ≤ FSSIZE ∧ s'.disk sb.bmapstart = bitmap used)
    fun s₁ h₁ => (fixRoot_steady h₁).bind fun s₂ h₂ => ?_
  · rw [bind_assoc] at hlast
    exact hlast
  · rw [balloc_spec h₂.blocks h₂.room]
    exact ⟨_, h₂.taken, h₂.room, Function.update_self sb.bmapstart (bitmap _) s₂.disk⟩

/-! ## The inode under the bitmap -/

theorem byte_le_word (b : Block) (j : Nat) :
    (b.byte (4 * j)).toNat ≤ (b.word j).toNat
      ∧ 256 ^ 3 * (b.byte (4 * j + 3)).toNat ≤ (b.word j).toNat := by
  rw [Block.word, toNat_ofBytes]
  omega

theorem byte_of_word {b : Block} {j : Nat} (h : b.word j ≠ 0) :
    ∃ r < 4, b.byte (4 * j + r) ≠ 0 := by
  by_contra hnone
  simp only [not_exists, not_and, not_not] at hnone
  refine h ?_
  have hzero := hnone 0 (by decide)
  rw [Nat.add_zero] at hzero
  rw [Block.word, hzero, hnone 1 (by decide), hnone 2 (by decide), hnone 3 (by decide)]
  rfl

/-- The first inode past the inode blocks has a size, but not the blocks. -/
theorem not_addressed {d : Disk} {used : Nat} (hfirst : 66 ≤ used) (hused : used ≤ FSSIZE)
    (hmap : d sb.bmapstart = bitmap used) :
    ¬∀ bn, bn * BSIZE < ((mount d).inode (UInt32.ofNat INODES)).size.toNat →
      bn < MAXFILE ∧ (mount d).held (UInt32.ofNat INODES) (slotOf bn) ≠ 0 := by
  intro haddr
  have hbits : BPB = 4096 := rfl
  have hsize : FSSIZE = 1000 := rfl
  have hbsize : BSIZE = 512 := rfl
  have hinode : (mount d).inode (UInt32.ofNat INODES) = dinode (bitmap used) 0 := by
    have hblock : sb.iblock (UInt32.ofNat INODES) = sb.bmapstart := by decide
    simp only [mount]
    rw [hblock, hmap]
    rfl
  have hword : (dinode (bitmap used) 0).size = (bitmap used).word 2 := rfl
  rw [hinode, hword] at haddr
  have hbyte : ∀ {k : Nat}, k < BSIZE → ((bitmap used).byte k ≠ 0 ↔ 8 * k < used) :=
    fun hk => byte_bitmap (by omega) hk
  have h₈ := (hbyte (show 8 < BSIZE by decide)).2 (by omega)
  have hle := byte_le_word (bitmap used) 2
  have hpos : 0 < ((bitmap used).byte (4 * 2)).toNat :=
    Nat.pos_of_ne_zero fun e => h₈ (UInt8.toNat_inj.1 e)
  -- its first block is missing, or its size is too large
  have hheld : (mount d).held (UInt32.ofNat INODES) (slotOf 0) = (bitmap used).word 3 := by
    rw [slotOf, if_pos (by decide), held_direct _ _ (by decide), hinode]
    rfl
  have hne := (haddr 0 (by omega)).2
  rw [hheld] at hne
  obtain ⟨r, hr, hset⟩ := byte_of_word hne
  have hmany := (hbyte (show 4 * 3 + r < BSIZE by omega)).1 hset
  have h₁₁ := (hbyte (show 11 < BSIZE by decide)).2 (by omega)
  have hlarge : 0 < ((bitmap used).byte (4 * 2 + 3)).toNat :=
    Nat.pos_of_ne_zero fun e => h₁₁ (UInt8.toNat_inj.1 e)
  have hmax : MAXFILE * BSIZE = 71680 := rfl
  exact Nat.lt_irrefl MAXFILE (haddr MAXFILE (by omega)).1

/-! ## The disk of any files -/

theorem build_spec (h : Image s 1 fun _ => []) (hf : s.freeblock.toNat = nmeta)
    (files : List File) : Ends (fun _ => True) (s.build files) fun s' =>
      Consistent files s'.disk ↔ files.length ≤ 206 ∧ (files.length + 2) % 32 ≠ 0 := by
  have hinodes : INODES = 208 := rfl
  by_cases hfew : files.length ≤ 206
  · refine ((build_written h hf (by omega)).allow fun _ _ => trivial).mono
      fun s' ⟨s₁, h₁, hwritten⟩ => ?_
    exact (hwritten.consistent_iff h₁).trans (and_iff_right hfew).symm
  · refine (overrun_spec h hf (by omega)).mono fun s' ⟨used, hfirst, hused, hmap⟩ => ?_
    refine iff_of_false (fun hcons => ?_) fun hin => hfew hin.1
    refine not_addressed hfirst hused hmap (hcons.addressed _ ⟨by decide, ?_⟩)
    change 208 < _
    omega

theorem build_consistent_iff {s₀ : State} (h₀ : Image s₀ 1 fun _ => [])
    (hf : s₀.freeblock.toNat = nmeta) {files : List File} (h : s₀.build files = .ok s) :
    Consistent files s.disk ↔ files.length ≤ 206 ∧ (files.length + 2) % 32 ≠ 0 := by
  have hspec := build_spec h₀ hf files
  exact hspec.of_ok h

/-- **The disk is consistent** if and only if there is an inode block for every
inode, and the entries of the root directory do not end at the end of a block. -/
theorem mkfs_consistent_iff {files : List File} {s : State} (h : mkfs files = .ok s) :
    Consistent files s.disk ↔ files.length ≤ 206 ∧ (files.length + 2) % 32 ≠ 0 :=
  build_consistent_iff start_image freeblock_start h

/-- A file of three bytes. -/
def oneFile : List File := [⟨[97], [[1, 2, 3]], by decide, by decide⟩]

theorem mkfs_consistent_iff_one :
    ∃ s, mkfs oneFile = .ok s ∧ Consistent oneFile s.disk := by
  have hfits : Fits oneFile := ⟨by decide, by decide, by decide⟩
  obtain ⟨s, hrun⟩ := (mkfs_ok_iff (by decide)).2 hfits
  exact ⟨s, hrun, (mkfs_consistent_iff hrun).2 (by decide)⟩

/-- Thirty empty files, whose entries fill the first block of the root directory. -/
def thirtyFiles : List File := (List.finRange 30).map fun k : Fin 30 =>
  ⟨[UInt8.ofNat (97 + k.val)], [], by revert k; decide, by simp⟩

/-- The root directory then has a second block, at address 0. -/
theorem thirty_inconsistent :
    ∃ s, mkfs thirtyFiles = .ok s ∧ ¬Consistent thirtyFiles s.disk := by
  have hfits : Fits thirtyFiles := ⟨by decide +kernel, by decide +kernel, by decide +kernel⟩
  obtain ⟨s, hrun⟩ := (mkfs_ok_iff (by decide +kernel)).2 hfits
  refine ⟨s, hrun, fun hcons => ?_⟩
  have hmod := ((build_consistent_iff start_image freeblock_start hrun).1 hcons).2
  exact hmod (by decide +kernel)

end SchoolStuff.Xv6.Mkfs
