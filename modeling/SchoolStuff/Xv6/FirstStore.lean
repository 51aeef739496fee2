import SchoolStuff.Xv6.DirentRuns
import SchoolStuff.Xv6.FileRuns
import SchoolStuff.Xv6.Overrun

/-!
# Xv6 — what the kernel finds on the first disk

`mkfs` and the kernel lay out inodes, blocks and directories in the same way:
the disk holds a store with a root directory, which is the one that `Dirs`
starts with, and the input files.
-/

namespace SchoolStuff.Xv6.Mkfs

open Fs State Dirents
open Dirs (NINODES DIRSIZ Inum Name dot dotdot)

variable {s : State} {n : Nat} {file : UInt32 → List UInt8} {i : UInt32}

/-! ## The types of the inodes -/

instance (n : Nat) (i : UInt32) : Decidable (Made n i) :=
  inferInstanceAs (Decidable (_ ∧ _))

/-- The types of the inodes on an image, `n` being the next one. -/
def Typed (n : Nat) (d : Disk) : Prop :=
  ∀ j : UInt32, j.toNat < INODES → ((mount d).inode j).type
    = if j = ROOTINO ∧ 1 < n then T_DIR else if 0 < j.toNat ∧ j.toNat < n then T_FILE else 0

/-- An image whose inodes have their types. -/
def Kinds (n : Nat) (s : State) : Prop := ∃ file, Image s n file ∧ Typed n s.disk

theorem ialloc_typed (h : Kinds n s) (hn : n < INODES) {type : Int16}
    (htype : type = if n = 1 then T_DIR else T_FILE) (hpos : 0 < n) :
    Ends (fun _ => True) (s.ialloc type) fun r =>
      r.1 = UInt32.ofNat n ∧ Kinds (n + 1) r.2 := by
  obtain ⟨file, himage, htyped⟩ := h
  have hinodes : INODES = 208 := rfl
  have hnum : (UInt32.ofNat n).toNat = n := by
    rw [UInt32.toNat_ofNat', Nat.mod_eq_of_lt (by omega)]
  obtain ⟨s', hrun, himage', _⟩ := ialloc_spec himage hn type
  obtain ⟨d, hwrite, _, hinode⟩ := winode_spec
    (s := { s with freeinode := s.freeinode + 1 }) himage.blocks
    (show (UInt32.ofNat n).toNat < INODES by omega)
    { type := type, major := 0, minor := 0, nlink := 1, size := 0, addrs := fun _ => 0 }
  have hdisk : s'.disk = d := by
    rw [ialloc, himage.next] at hrun
    rw [himage.next] at hwrite
    simp only [hwrite] at hrun
    cases hrun
    rfl
  rw [hrun]
  refine ⟨rfl, _, himage', fun j hj => ?_⟩
  rw [hdisk, hinode j hj]
  have hroot : ROOTINO.toNat = 1 := rfl
  by_cases hjn : j = UInt32.ofNat n
  · rw [if_pos hjn, hjn, hnum]
    change type = _
    rw [htype]
    by_cases hone : n = 1
    · subst hone
      rfl
    · have hne : UInt32.ofNat n ≠ ROOTINO := by
        intro heq
        rw [heq] at hnum
        omega
      rw [if_neg hone, if_neg (hne ·.1), if_pos (by omega)]
  · have hjn' : j.toNat ≠ n := fun heq => hjn (by rw [← heq, UInt32.ofNat_toNat])
    rw [if_neg hjn]
    refine (htyped j hj).trans ?_
    have hlt : 0 < j.toNat ∧ j.toNat < n ↔ 0 < j.toNat ∧ j.toNat < n + 1 := by omega
    have hdir : (j = ROOTINO ∧ 1 < n) ↔ (j = ROOTINO ∧ 1 < n + 1) := by
      refine and_congr_right fun hj => ?_
      rw [hj, hroot] at hjn'
      omega
    simp only [hlt, hdir]

theorem iappend_typed (h : Kinds n s) (hi : Made n i) (src : List UInt8) :
    Ends (fun _ => True) (s.iappend i src) (Kinds n) := by
  obtain ⟨file, himage, htyped⟩ := h
  have hin := hi.lt himage.inodes
  rw [iappend, rinode_spec himage.blocks hin]
  change Ends _ (s.appendLoop _ _ src >>= _) _
  rw [himage.size i hi]
  refine ((appendLoop_spec hi _ rfl (himage.opened i) rfl (himage.fits i hi)).allow
    fun _ _ => trivial).bind ?_
  rintro ⟨din, off, s₁⟩ happ
  simp only at happ ⊢
  obtain ⟨d, hrun, hother, hinode⟩ := winode_spec
    (happ.kept.blocks.trans himage.blocks) hin { din with size := UInt32.ofNat off }
  rw [hrun]
  refine ⟨_, himage.appended hi happ hother hinode, fun j hj => ?_⟩
  rw [← htyped j hj, hinode j hj]
  by_cases hji : j = i
  · rw [if_pos hji, hji]
    change din.type = _
    rw [happ.kept.din]
  · rw [if_neg hji, mount_inode_congr hj happ.kept.low]

theorem makeRoot_typed (h : Kinds 1 s) : Ends (fun _ => True) s.makeRoot (Kinds 2) := by
  unfold makeRoot
  refine (ialloc_typed h (by decide) rfl (by decide)).bind ?_
  rintro ⟨r, s₁⟩ ⟨(hr : r = _), h₁⟩
  change Ends _ (if r = ROOTINO then _ else _) _
  split
  · rename_i hroot
    rw [hroot]
    exact (iappend_typed h₁ (root_made 0) _).bind fun s₂ h₂ =>
      iappend_typed h₂ (root_made 0) _
  · trivial

theorem addFile_typed (h : Kinds (n + 2) s) (hn : n + 2 < INODES) (f : File) :
    Ends (fun _ => True) (s.addFile f) (Kinds (n + 3)) := by
  have hinodes : INODES = 208 := rfl
  have hnum : (UInt32.ofNat (n + 2)).toNat = n + 2 := by
    rw [UInt32.toNat_ofNat', Nat.mod_eq_of_lt (by omega)]
  unfold addFile
  split
  · trivial
  refine (ialloc_typed h hn (if_neg (by omega)).symm (by omega)).bind ?_
  rintro ⟨r, s₁⟩ ⟨(rfl : r = _), h₁⟩
  have hmade : Made (n + 3) (UInt32.ofNat (n + 2)) := ⟨by omega, by omega⟩
  refine (iappend_typed h₁ (root_made (n + 1)) _).bind fun s₂ h₂ => ?_
  exact Ends.foldlM (fun _ => Kinds (n + 3)) (fun _ _ _ h => iappend_typed h hmade _) h₂

/-- **The image before the last two steps** has its types as well. -/
theorem built_typed (h : Kinds 1 s) (files : List File) (hroom : files.length + 2 ≤ INODES) :
    Ends (fun _ => True) (s.makeRoot >>= fun s => files.foldlM State.addFile s)
      (Kinds (files.length + 2)) := by
  refine (makeRoot_typed h).bind fun s h => ?_
  -- as many files are done as are not left
  have hfold : Ends (fun _ => True) (files.foldlM State.addFile s) fun s' =>
      ∃ m, m + ([] : List File).length = files.length ∧ Kinds (m + 2) s' := by
    refine Ends.foldlM (fun rest s => ∃ m, m + rest.length = files.length ∧ Kinds (m + 2) s)
      ?_ ⟨0, Nat.zero_add _, h⟩
    rintro f rest s ⟨m, hm, hs⟩
    rw [List.length_cons] at hm
    exact (addFile_typed hs (by omega) f).mono fun s' hs' => ⟨m + 1, by omega, hs'⟩
  refine hfold.mono fun s' ⟨m, hm, hs'⟩ => ?_
  rw [List.length_nil, Nat.add_zero] at hm
  rwa [hm] at hs'

theorem start_typed : Kinds 1 State.start := by
  refine ⟨_, start_image, fun j hj => ?_⟩
  have hblock := iblock_lt hj
  have hne : sb.iblock j ≠ 1 := by
    intro heq
    rw [heq] at hblock
    exact absurd hblock.1 (by decide)
  have hword : ∀ k, Block.word (fun _ => 0) k = 0 := fun _ => rfl
  have hzero : ((mount State.start.disk).inode j).type = 0 := by
    simp only [mount, start_eq]
    rw [Function.update_of_ne hne]
    simp only [Xv6.dinode, hword]
    decide
  rw [hzero, if_neg (by omega), if_neg (by omega)]

/-! ## The file system -/

/-- The file system of the kernel on a disk: of the inodes that there are not,
nothing is in the cache. -/
def boot (d : Disk) : Fs :=
  { disk := d
    sb := readsb d
    inode := fun i =>
      if i.toNat < NINODES then (mount d).inode i else ⟨0, 0, 0, 0, 0, fun _ => 0⟩ }

/-- What is written when `mkfs` ends. -/
structure Finished (files : List File) (d : Disk) : Prop where
  written : ∃ s, Built files s ∧ Written files s d
  typed : Typed (files.length + 2) d

theorem build_finished {s' : State} {files : List File} (h : Image s 1 fun _ => [])
    (hf : s.freeblock.toNat = nmeta) (ht : Kinds 1 s) (hroom : files.length + 2 ≤ INODES)
    (hrun : s.build files = .ok s') : Finished files s'.disk := by
  have hassoc : s.build files = (s.makeRoot >>= fun s => files.foldlM State.addFile s)
      >>= fun s => s.fixRoot >>= fun s => s.balloc s.freeblock.toInt32 := by
    rw [bind_assoc]
    rfl
  have hbuilt := built_spec h hf files hroom
  have htyped := built_typed ht files hroom
  rw [hassoc] at hrun
  cases hs : (s.makeRoot >>= fun s => files.foldlM State.addFile s) with
  | error e =>
      rw [hs] at hrun
      cases hrun
  | ok s₁ =>
      rw [hs] at hrun hbuilt htyped
      obtain ⟨d, hfinish, hwritten⟩ := finish_spec hbuilt
      change (s₁.fixRoot >>= fun s => s.balloc s.freeblock.toInt32) = _ at hrun
      rw [hfinish] at hrun
      cases hrun
      refine ⟨⟨s₁, hbuilt, hwritten⟩, fun j hj => ?_⟩
      obtain ⟨file, _, htypes⟩ := htyped
      rw [← htypes j hj, hwritten.inode j hj]
      split
      · rename_i hroot
        rw [hroot]
      · rfl

theorem mkfs_finished {files : List File} (hroom : files.length + 2 ≤ INODES)
    (hrun : mkfs files = .ok s) : Finished files s.disk :=
  build_finished start_image freeblock_start start_typed hroom hrun

theorem boot_inode {d : Disk} (hi : i.toNat < NINODES) :
    (boot d).inode i = (mount d).inode i := if_pos hi

theorem boot_held {d : Disk} (hi : i.toNat < NINODES) (k : Nat) :
    (boot d).held i k = (mount d).held i k := by
  unfold Fs.held
  rw [boot_inode hi]
  rfl

theorem boot_byteAt {d : Disk} (hi : i.toNat < NINODES) (p : Nat) :
    (boot d).byteAt i p = (mount d).byteAt i p := by
  unfold Fs.byteAt
  rw [boot_held hi]
  rfl

theorem boot_content {d : Disk} (hi : i.toNat < NINODES) :
    (boot d).content i = (mount d).content i :=
  content_congr (by rw [boot_inode hi]) fun p _ => boot_byteAt hi p

namespace Finished

variable {files : List File} {d : Disk}

theorem boot_sb (h : Finished files d) : (boot d).sb = sb := by
  obtain ⟨s, _, hwritten⟩ := h.written
  exact hwritten.super

theorem type (h : Finished files d) (hi : i.toNat < NINODES) : ((boot d).inode i).type
    = if i = ROOTINO then T_DIR else if Made (files.length + 2) i then T_FILE else 0 := by
  have hinodes : INODES = 208 := rfl
  have hnum : NINODES = 200 := rfl
  have htype := h.typed i (by omega)
  rw [boot_inode hi, htype]
  simp only [show 1 < files.length + 2 by omega, and_true, Made]
  rfl

theorem allocated_iff (h : Finished files d) (hfew : files.length + 2 ≤ NINODES) (i : UInt32) :
    (boot d).Allocated i ↔ Made (files.length + 2) i := by
  have hinodes : sb.ninodes.toNat = NINODES := rfl
  unfold Fs.Allocated
  rw [h.boot_sb, hinodes]
  constructor
  · rintro ⟨hi, htype⟩
    rw [h.type hi] at htype
    split at htype
    · rename_i hroot
      rw [hroot]
      exact root_made _
    · split at htype
      · assumption
      · exact absurd rfl htype
  · intro hi
    have hlt := Nat.lt_of_lt_of_le hi.2 hfew
    refine ⟨hlt, ?_⟩
    rw [h.type hlt]
    split <;> decide

/-- **The kernel finds the file system in order**, if the root directory does not
end at the end of a block. -/
theorem owned (h : Finished files d) (hfew : files.length + 2 ≤ NINODES)
    (hlast : (files.length + 2) % 32 ≠ 0) : (boot d).Owned := by
  obtain ⟨s, hbuilt, hwritten⟩ := h.written
  have hsb := h.boot_sb
  have hlt : ∀ {i}, (boot d).Allocated i → Made (files.length + 2) i ∧ i.toNat < NINODES := by
    intro i hi
    have hmade := (h.allocated_iff hfew i).1 hi
    exact ⟨hmade, Nat.lt_of_lt_of_le hmade.2 hfew⟩
  have haddr := (hwritten.addressed_iff hbuilt).2 hlast
  refine ⟨⟨?_, rfl, ?_, ?_, ?_⟩, ?_, ?_⟩
  · rw [hsb]
    exact ⟨by decide, by decide, by decide⟩
  · intro b hb _
    have hstart : sb.dataStart = nmeta := rfl
    have hmeta : nmeta = 59 := rfl
    have hbits : BPB = 4096 := rfl
    have hsize : FSSIZE = 1000 := rfl
    have hfirst := hbuilt.image.laid.first
    have hroom := hbuilt.image.room
    rw [hsb, hstart] at hb
    have hzero : b / BPB = 0 := Nat.div_eq_of_lt (by omega)
    have hblock : sb.bblock b = sb.bmapstart := by
      rw [SuperBlock.bblock, hzero]
      rfl
    have hmod : b % BPB = b := Nat.mod_eq_of_lt (by omega)
    unfold Fs.used
    rw [hsb, hblock, hmod]
    change (d sb.bmapstart).bit b = true
    rw [hwritten.map, bit_bitmap (by omega) (by omega)]
    exact decide_eq_true (by omega)
  · intro i k hi hk hne
    obtain ⟨hmade, hin⟩ := hlt hi
    rw [boot_held hin] at hne ⊢
    rw [hsb]
    obtain ⟨hdata, hused⟩ := hwritten.used hbuilt hmade hk hne
    refine ⟨hdata, ?_⟩
    unfold Fs.used at hused ⊢
    rw [hsb]
    exact hused
  · intro i j k l hi hj hk hl hne heq
    obtain ⟨hmade, hin⟩ := hlt hi
    obtain ⟨hmade', hin'⟩ := hlt hj
    rw [boot_held hin, hwritten.held hbuilt hmade] at hne heq
    rw [boot_held hin', hwritten.held hbuilt hmade'] at heq
    exact hbuilt.image.laid.inj i j k l hmade hmade' hk hl hne heq
  · intro i hi
    rw [hsb] at hi
    unfold Fs.Cached Fs.dinode
    rw [boot_inode hi, hsb]
    rfl
  · intro i hi p hp
    obtain ⟨hmade, hin⟩ := hlt hi
    rw [boot_inode hin] at hp
    have hdiv : p / BSIZE * BSIZE ≤ p := Nat.div_mul_le_self p BSIZE
    obtain ⟨hmax, hne⟩ := haddr i hmade (p / BSIZE) (Nat.lt_of_le_of_lt hdiv hp)
    refine ⟨?_, ?_⟩
    · have := Nat.div_lt_iff_lt_mul (show 0 < BSIZE by decide) |>.1 hmax
      exact this
    · unfold Fs.Has
      rw [boot_held hin]
      exact hne

end Finished

/-! ## The root directory -/

theorem entryName_eq {name : List UInt8} (h : 0 ∉ name) :
    entryName name = name.take DIRSIZ := by
  have hall : ∀ c ∈ name, decide (c ≠ 0) = true := by
    intro c hc
    refine decide_eq_true ?_
    rintro rfl
    exact h hc
  rw [entryName, List.takeWhile_eq_self_iff.2 hall]

theorem strncpy_eq {name : List UInt8} (h : 0 ∉ name) (n : Nat) :
    Dirents.strncpy name n = Mkfs.strncpy name n := by
  induction n generalizing name with
  | zero => rw [Dirents.strncpy, Mkfs.strncpy, List.take_zero, Nat.zero_sub]; rfl
  | succ n ih =>
      unfold Dirents.strncpy Mkfs.strncpy
      cases name with
      | nil => rfl
      | cons c name =>
          obtain ⟨hc, hname⟩ := not_or.1 (mt List.mem_cons.2 h)
          rw [List.headD_cons, if_pos (Ne.symm hc), List.tail_cons, ih hname,
            List.take_succ_cons, List.length_cons, Nat.add_sub_add_right]
          rfl

/-- `mkfs` and the kernel have the same bytes for an entry. -/
theorem dirent_eq (inum : Inum) {name : List UInt8} (h : 0 ∉ name) :
    dirent (UInt32.ofNat inum.val) name
      = (Dirent.ofEntry ⟨inum, entryName name⟩).bytes := by
  have hlt := inum.isLt
  have h16 : (UInt16.ofNat inum.val).toNat = inum.val :=
    UInt16.toNat_ofNat_of_lt' (Nat.lt_trans hlt (by decide))
  have h32 : (UInt32.ofNat inum.val).toNat = inum.val :=
    UInt32.toNat_ofNat_of_lt' (Nat.lt_trans hlt (by decide))
  rw [Dirent.ofEntry_entryName, strncpy_eq h]
  unfold dirent Dirent.bytes byteOf
  simp only [h16, h32, Nat.pow_zero, Nat.pow_one, Nat.div_one]

theorem name_nul (f : File) : 0 ∉ f.name := by
  unfold File.name
  split
  · exact fun hmem => f.arg_nul (List.mem_of_mem_tail hmem)
  · exact f.arg_nul

theorem fileName_eq (f : File) : Dirs.fileName f.arg = entryName f.name := by
  rw [entryName_eq (name_nul f)]
  rfl

theorem dirBytes_append (des des' : List Dirs.Dirent) :
    dirBytes (des ++ des') = dirBytes des ++ dirBytes des' := List.flatMap_append

theorem dirBytes_free (n : Nat) :
    dirBytes (List.replicate n ⟨0, []⟩) = List.replicate (n * 16) 0 := by
  have hfree : (Dirent.ofEntry ⟨0, []⟩).bytes = List.replicate 16 0 := by decide
  rw [dirBytes, List.flatMap_replicate, hfree, List.flatten_replicate_replicate]

theorem rootBytes_eq {files : List File} (hfew : files.length + 2 ≤ NINODES) :
    rootBytes files = dirBytes (Dirs.rootDirents (files.map (·.arg))) := by
  have hnum : NINODES = 200 := rfl
  have hrest : (files.mapIdx fun k f => dirent (UInt32.ofNat (k + 2)) f.name)
      = ((files.map (·.arg)).mapIdx fun k arg =>
          (⟨Fin.ofNat NINODES (k + 2), Dirs.fileName arg⟩ : Dirs.Dirent)).map
            fun de => (Dirent.ofEntry de).bytes := by
    refine List.ext_getElem (by simp only [List.length_mapIdx, List.length_map]) fun k hk _ => ?_
    rw [List.length_mapIdx] at hk
    have hval : (Fin.ofNat NINODES (k + 2)).val = k + 2 := Nat.mod_eq_of_lt (by omega)
    have hdirent := dirent_eq (Fin.ofNat NINODES (k + 2)) (name_nul files[k])
    rw [hval] at hdirent
    simp only [List.getElem_mapIdx, List.getElem_map, fileName_eq]
    exact hdirent
  rw [rootBytes, hrest, ← List.flatMap_def, List.append_assoc]
  rfl

/-! ## The store -/

/-- The root directory that `Dirs` starts with, and the input files. -/
def firstStore (files : List File) : Store := fun i =>
  if i = ROOTINO then
    some (.dir (Dirs.mkfs (files.map (·.arg)) Dirs.ROOTINO).dirents)
  else if Made (files.length + 2) i then some (.file (contents files i))
  else none

namespace Finished

variable {files : List File} {d : Disk}

/-- Behind the entries the root directory is zeros. -/
theorem content_root (h : Finished files d) (hfew : files.length + 2 ≤ NINODES)
    (hlast : (files.length + 2) % 32 ≠ 0) : (boot d).content ROOTINO
      = rootBytes files ++ List.replicate (rootSize files - 16 * (files.length + 2)) 0 := by
  obtain ⟨s, hbuilt, hwritten⟩ := h.written
  have hroot := root_made files.length
  have hin : ROOTINO.toNat < NINODES := by decide
  have howned := h.owned hfew hlast
  have halloc := (h.allocated_iff hfew ROOTINO).2 hroot
  have hsize : ((boot d).inode ROOTINO).size.toNat = rootSize files := by
    rw [boot_inode hin, hwritten.size_root hbuilt]
  have hcontents : Mkfs.contents files ROOTINO = rootBytes files := if_pos rfl
  have hlen := length_rootBytes files
  have hle : 16 * (files.length + 2) ≤ rootSize files := by
    rw [rootSize, show BSIZE = 512 from rfl]
    omega
  apply List.ext_getElem?
  intro p
  rw [getElem?_content, hsize]
  by_cases hp : p < rootSize files
  · have hhas := howned.sized ROOTINO halloc p (hsize ▸ hp)
    have hhas' : (mount s.disk).Has ROOTINO p := by
      have := hhas.2
      unfold Fs.Has at this ⊢
      rwa [boot_held hin, hwritten.held hbuilt hroot] at this
    rw [if_pos hp, boot_byteAt hin, hwritten.byteAt hbuilt hroot hhas.1 hhas', hcontents]
    by_cases hlt : p < (rootBytes files).length
    · rw [List.getElem?_append_left hlt, List.getD_eq_getElem _ _ hlt,
        List.getElem?_eq_getElem hlt]
    · rw [List.getElem?_append_right (by omega), List.getD_eq_default _ _ (by omega),
        List.getElem?_replicate, if_pos (by omega)]
  · rw [if_neg hp, List.getElem?_eq_none]
    rw [List.length_append, List.length_replicate]
    omega

theorem length_rootDirents (files : List File) :
    (Dirs.rootDirents (files.map (·.arg))).length = files.length + 2 := by
  simp only [Dirs.rootDirents, List.length_cons, List.length_mapIdx, List.length_map]

/-- The entry of an input file. -/
theorem rootDirents_file {files : List File} {k : Nat} (hk : k < files.length) :
    (Dirs.rootDirents (files.map (·.arg)))[k + 2]?
      = some ⟨Fin.ofNat NINODES (k + 2), entryName files[k].name⟩ := by
  simp [Dirs.rootDirents, hk, fileName_eq]

theorem rootDirents_names {files : List File} {de : Dirs.Dirent}
    (hde : de ∈ Dirs.rootDirents (files.map (·.arg))) : entryName de.name = de.name := by
  rcases List.mem_cons.1 hde with rfl | hde
  · rfl
  rcases List.mem_cons.1 hde with rfl | hde
  · rfl
  obtain ⟨k, hk, rfl⟩ := List.mem_mapIdx.1 hde
  rw [List.getElem_map, fileName_eq]
  exact cstring_cstring _ _

theorem root_dirents (files : List File) :
    (Dirs.mkfs (files.map (·.arg)) Dirs.ROOTINO).dirents
      = Dirs.rootDirents (files.map (·.arg))
        ++ List.replicate (rootSize files / 16 - (files.length + 2)) ⟨0, []⟩ := by
  unfold Dirs.mkfs
  rw [if_pos rfl]
  simp only [length_rootDirents, rootSize]

/-- **The first disk holds a store**: the root directory that `Dirs` starts with,
and each input file. -/
theorem holds (h : Finished files d) (hfew : files.length + 2 ≤ NINODES)
    (hlast : (files.length + 2) % 32 ≠ 0) : Holds (boot d) (firstStore files) := by
  obtain ⟨s, hbuilt, hwritten⟩ := h.written
  have hbsize : BSIZE = 512 := rfl
  constructor
  · intro i c hi
    unfold firstStore at hi
    split at hi
    · rename_i hroot
      cases hi
      rw [hroot]
      have hin : ROOTINO.toNat < NINODES := by decide
      refine ⟨(h.allocated_iff hfew ROOTINO).2 (root_made _), ?_, ?_, ?_⟩
      · rw [h.type hin, if_pos rfl]
      · rw [h.content_root hfew hlast, root_dirents, dirBytes_append, dirBytes_free,
          rootBytes_eq hfew]
        congr 2
        rw [rootSize, hbsize]
        omega
      · intro de hde
        rw [root_dirents] at hde
        rcases List.mem_append.1 hde with hde | hde
        · exact rootDirents_names hde
        · rw [List.eq_of_mem_replicate hde]
          rfl
    · rename_i hroot
      split at hi
      · rename_i hmade
        cases hi
        have hin := Nat.lt_of_lt_of_le hmade.2 hfew
        refine ⟨(h.allocated_iff hfew i).2 hmade, ?_, ?_⟩
        · rw [h.type hin, if_neg hroot, if_pos hmade]
        · rw [boot_content hin, hwritten.content_file hbuilt hmade hroot]
      · cases hi
  · intro i htype
    by_cases hin : i.toNat < NINODES
    · rw [h.type hin] at htype
      split at htype
      · rename_i hroot
        exact ⟨_, if_pos hroot⟩
      · split at htype <;> exact absurd htype (by decide)
    · have hnone : (boot d).inode i = ⟨0, 0, 0, 0, 0, fun _ => 0⟩ := if_neg hin
      rw [hnone] at htype
      exact absurd htype (by decide)

/-- The kernel finds an input file under its name, if no other one comes before. -/
theorem find_file {files : List File} {k : Nat} (hk : k < files.length)
    (hfew : files.length + 2 ≤ NINODES) (hdot : entryName files[k].name ≠ dot)
    (hdotdot : entryName files[k].name ≠ dotdot)
    (hfirst : ∀ j (_ : j < k), entryName files[j].name ≠ entryName files[k].name) :
    Store.find (Dirs.mkfs (files.map (·.arg)) Dirs.ROOTINO).dirents files[k].name
      = some (UInt32.ofNat (k + 2), 16 * (k + 2)) := by
  have hnum : NINODES = 200 := rfl
  have hval : (Fin.ofNat NINODES (k + 2)).val = k + 2 := Nat.mod_eq_of_lt (by omega)
  generalize hdes : (Dirs.mkfs (files.map (·.arg)) Dirs.ROOTINO).dirents = des
  have hget : ∀ j, j < files.length + 2 →
      des[j]? = (Dirs.rootDirents (files.map (·.arg)))[j]? := by
    intro j hj
    rw [← hdes, root_dirents, List.getElem?_append_left (by rwa [length_rootDirents])]
  have hfile : ∀ j (hj : j < files.length),
      des[j + 2]? = some ⟨Fin.ofNat NINODES (j + 2), entryName files[j].name⟩ := by
    intro j hj
    rw [hget _ (by omega), rootDirents_file hj]
  obtain ⟨hlt, hentry⟩ := List.getElem?_eq_some_iff.1 (hfile k hk)
  have hlookup : Dirs.lookup des (entryName files[k].name) = some (des[k + 2], k + 2) :=
    lookup_of_first hlt ?_ ?_
  · rw [Store.find, hlookup, hentry]
    simp only [Option.map_some, hval]
  · rw [hentry]
    refine ⟨fun hzero => ?_, rfl⟩
    rw [← Fin.val_eq_zero_iff, hval] at hzero
    omega
  · rintro j hj ⟨_, hname⟩
    rcases j with _ | _ | j
    · have hzero : des[0]? = some ⟨Dirs.ROOTINO, dot⟩ := hget 0 (by omega)
      rw [(List.getElem?_eq_some_iff.1 hzero).2] at hname
      exact hdot hname.symm
    · have hone : des[1]? = some ⟨Dirs.ROOTINO, dotdot⟩ := hget 1 (by omega)
      rw [(List.getElem?_eq_some_iff.1 hone).2] at hname
      exact hdotdot hname.symm
    · have hj' := hfile j (by omega)
      rw [(List.getElem?_eq_some_iff.1 hj').2] at hname
      exact hfirst j (by omega) hname

end Finished

/-- **The kernel finds what `mkfs` has written**: the disk holds the store that
the input files make, in a file system in order. Each file is found under its
name, as far as an entry has it, and read as it was. -/
theorem first_disk {files : List File} (hfew : files.length + 2 ≤ NINODES)
    (hlast : (files.length + 2) % 32 ≠ 0) (hrun : mkfs files = .ok s) :
    (boot s.disk).Owned ∧ Holds (boot s.disk) (firstStore files)
      ∧ ∀ k (hk : k < files.length), entryName files[k].name ≠ dot →
        entryName files[k].name ≠ dotdot →
        (∀ j (_ : j < k), entryName files[j].name ≠ entryName files[k].name) →
        dirlookup (boot s.disk) ROOTINO files[k].name
            = .ok (some (UInt32.ofNat (k + 2), 16 * (k + 2)), boot s.disk)
          ∧ (boot s.disk).readi (UInt32.ofNat (k + 2)) 0 (UInt32.ofNat (MAXFILE * BSIZE))
            = .ok (some files[k].content, boot s.disk) := by
  have hinodes : INODES = 208 := rfl
  have hnum : NINODES = 200 := rfl
  have hfinished := mkfs_finished (by omega) hrun
  have howned := hfinished.owned hfew hlast
  have hholds := hfinished.holds hfew hlast
  refine ⟨howned, hholds, fun k hk hdot hdotdot hfirst => ⟨?_, ?_⟩⟩
  · rw [dirlookup_spec howned hholds rfl, Finished.find_file hk hfew hdot hdotdot hfirst]
  · obtain ⟨hmade, hne, hcontents⟩ := contents_file hk (by omega)
    have hstore : firstStore files (UInt32.ofNat (k + 2)) = some (.file files[k].content) := by
      rw [firstStore, if_neg hne, if_pos hmade, hcontents]
    obtain ⟨halloc, htype, hcontent⟩ := hholds.content hstore
    have hfile : MAXFILE * BSIZE = 71680 := rfl
    have hlen := FileIO.length_content_le howned halloc
    rw [hcontent] at hlen
    have hcount : (UInt32.ofNat (MAXFILE * BSIZE)).toNat = MAXFILE * BSIZE :=
      UInt32.toNat_ofNat_of_lt' (by decide)
    rw [Fs.readi_spec howned halloc (by rw [htype]; decide), hcontent, Fs.flatRead, hcount,
      UInt32.toNat_zero, if_neg (by omega), List.drop_zero, List.take_of_length_le hlen]

theorem first_disk_one : ∃ s, mkfs oneFile = .ok s
    ∧ dirlookup (boot s.disk) ROOTINO [97] = .ok (some (2, 32), boot s.disk)
    ∧ (boot s.disk).readi 2 0 (UInt32.ofNat (MAXFILE * BSIZE))
      = .ok (some [1, 2, 3], boot s.disk) := by
  have hfits : Fits oneFile := ⟨by decide, by decide, by decide⟩
  obtain ⟨s, hrun⟩ := (mkfs_ok_iff (by decide)).2 hfits
  obtain ⟨_, _, hfind⟩ := first_disk (by decide) (by decide) hrun
  obtain ⟨hlookup, hread⟩ := hfind 0 (by decide) (by decide) (by decide) (fun j hj => by omega)
  exact ⟨s, hrun, hlookup, hread⟩

end SchoolStuff.Xv6.Mkfs
