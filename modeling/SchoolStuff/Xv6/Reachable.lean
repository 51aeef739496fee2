import Mathlib.Data.List.Nodup
import SchoolStuff.Lib.CText
import SchoolStuff.Xv6.LinkCounts

/-!
# Xv6 — every inode is reachable, and its link count is exact

The disk of `mkfs` is a `Tree` (`mkfs_tree`). In a state where no file is
open and every process is in the root directory, `Inv` leaves no inode without
links, and what has links is reachable (`links_exact`). The run of
`removed_directory_leaks` makes a file in a removed directory, and leaks it.
-/

namespace SchoolStuff.Xv6.Dirs

/-- The inodes that the entries of a directory name. -/
def entries (t : Table) (d : Inum) : List Inum :=
  if (t d).type = T_DIR then ((t d).dirents.map Dirent.inum).filter (· ≠ 0) else []

/-- Inode `i` is reachable from the root directory. -/
def Reachable (t : Table) (i : Inum) : Prop := Reach (entries t) ROOTINO i

open Classical in
/-- The entries other than `.` that name inode `i` from reachable directories,
and for the root directory from the other ones. -/
noncomputable def links (t : Table) (i : Inum) : Nat :=
  ∑ d, if Reachable t d ∧ (t d).type = T_DIR ∧ ¬(d = ROOTINO ∧ i = ROOTINO) then
    (t d).dirents.countP fun de => de.inum = i ∧ de.name ≠ dot
  else 0

/-- No file is open, and every process is in the root directory. -/
def Kernel.Idle {n : Nat} (st : Kernel n) : Prop :=
  ∀ p pr, st.proc p = some pr → pr.cwd = ROOTINO ∧ ∀ fd, pr.ofile fd = none

/-! ## The disk of `mkfs` -/

section Mkfs

variable {args : List Path} {i : Inum}

theorem mkfs_root (args : List Path) : ∃ m, mkfs args ROOTINO
    = ⟨T_DIR, 1, rootDirents args ++ List.replicate m ⟨0, []⟩⟩ := ⟨_, if_pos rfl⟩

theorem mkfs_file (hi : i ≠ ROOTINO) : mkfs args i
    = if 2 ≤ i.val ∧ i.val < args.length + 2 then ⟨T_FILE, 1, []⟩ else ⟨0, 0, []⟩ :=
  if_neg hi

theorem mkfs_dir (h : (mkfs args i).type = T_DIR) : i = ROOTINO := by
  by_contra hne
  rw [mkfs_file hne] at h
  split at h <;> exact absurd h (by decide)

theorem mkfs_live (d : Inum) : Live (mkfs args) d ↔ d = ROOTINO := by
  constructor
  · exact fun hd => mkfs_dir hd.1
  · rintro rfl
    obtain ⟨m, hroot⟩ := mkfs_root args
    rw [Live, hroot]
    exact ⟨rfl, Int.one_ne_zero⟩

/-- The inodes of the files, one after the other. -/
theorem rootDirents_inums (args : List Path) :
    ((rootDirents args).drop 2).map Dirent.inum
      = (List.range args.length).map fun k => Fin.ofNat NINODES (k + 2) := by
  apply List.ext_getElem?
  intro k
  simp only [rootDirents, List.drop_succ_cons, List.drop_zero, List.getElem?_map,
    List.getElem?_mapIdx, Option.map_map]
  by_cases hk : k < args.length
  · rw [List.getElem?_range hk, List.getElem?_eq_getElem hk]
    rfl
  · rw [List.getElem?_eq_none (by omega), List.getElem?_eq_none (by simpa using hk)]
    rfl

theorem kids_mkfs (hlen : args.length + 2 ≤ NINODES) (hi : i ≠ 0) :
    (kids (mkfs args ROOTINO)).count i
      = if 2 ≤ i.val ∧ i.val < args.length + 2 then 1 else 0 := by
  have hval : ∀ k < args.length, (Fin.ofNat NINODES (k + 2)).val = k + 2 := by
    intro k hk
    rw [Fin.val_ofNat, Nat.mod_eq_of_lt (by omega)]
  have hnodup : ((List.range args.length).map fun k => Fin.ofNat NINODES (k + 2)).Nodup := by
    apply List.Nodup.map_on _ List.nodup_range
    intro k hk l hl heq
    rw [List.mem_range] at hk hl
    have := congrArg Fin.val heq
    rw [hval k hk, hval l hl] at this
    omega
  have hmem : i ∈ (List.range args.length).map (fun k => Fin.ofNat NINODES (k + 2))
      ↔ 2 ≤ i.val ∧ i.val < args.length + 2 := by
    rw [List.mem_map]
    constructor
    · rintro ⟨k, hk, rfl⟩
      rw [List.mem_range] at hk
      rw [hval k hk]
      omega
    · intro h
      refine ⟨i.val - 2, List.mem_range.2 (by omega), ?_⟩
      apply Fin.ext
      rw [hval _ (by omega)]
      omega
  obtain ⟨m, hroot⟩ := mkfs_root args
  have hdrop : (rootDirents args ++ List.replicate m (⟨0, []⟩ : Dirent)).drop 2
      = (rootDirents args).drop 2 ++ List.replicate m ⟨0, []⟩ := rfl
  have hzeros : ((List.replicate m (⟨0, []⟩ : Dirent)).map Dirent.inum).count i = 0 := by
    rw [List.map_replicate, List.count_replicate, if_neg (by simpa using hi.symm)]
  rw [count_kids hi, hroot]
  simp only [hdrop, List.map_append, List.count_append, hzeros, rootDirents_inums,
    Nat.add_zero]
  split
  · rename_i h
    exact List.count_eq_one_of_mem hnodup (hmem.2 h)
  · rename_i h
    exact List.count_eq_zero_of_not_mem (mt hmem.1 h)

theorem mkfs_dots (hargs : ∀ arg ∈ args, fileName arg ≠ dot) :
    Dots (mkfs args ROOTINO) ROOTINO := by
  obtain ⟨m, hroot⟩ := mkfs_root args
  rw [hroot]
  refine ⟨ROOTINO, _, rfl, by decide, fun de hde hne => ?_⟩
  rcases List.mem_append.1 hde with hde | hde
  · obtain ⟨k, hk, rfl⟩ := List.mem_mapIdx.1 hde
    exact hargs _ (List.getElem_mem hk)
  · rw [List.eq_of_mem_replicate hde] at hne
    exact absurd rfl hne

/-- **The disk of `mkfs`** is a tree. -/
theorem mkfs_tree (hargs : ∀ arg ∈ args, fileName arg ≠ dot)
    (hlen : args.length + 2 ≤ NINODES) : Tree (mkfs args) := by
  obtain ⟨m, hroot⟩ := mkfs_root args
  have hlive : Live (mkfs args) ROOTINO := (mkfs_live _).2 rfl
  have hdown : ∀ i, i ≠ 0 → named (down (mkfs args)) i
      = if 2 ≤ i.val ∧ i.val < args.length + 2 then 1 else 0 := by
    intro i hi
    have honly : ∀ d, d ≠ ROOTINO → down (mkfs args) d = [] := fun d hd =>
      down_of_not_live (mt (mkfs_live d).1 hd)
    rw [named_only honly, down, if_pos hlive, kids_mkfs hlen hi]
  -- the only `..` is the root's own, which is not counted
  have hup : ∀ i, named (up (mkfs args)) i = 0 := by
    intro i
    rw [named_eq_zero]
    intro d hd
    exact (mem_up.1 hd).2.1 ((mkfs_live d).1 (mem_up.1 hd).1)
  refine ⟨rfl, hlive, ?_, fun d hd => ?_, fun d hd hzero => ?_, fun i hi => ?_,
    fun d i hi => ?_, fun d hd hne => absurd ((mkfs_live d).1 hd) hne,
    ⟨fun _ => 0, fun d hd hne => absurd ((mkfs_live d).1 hd) hne⟩⟩
  · rw [hroot]
    rfl
  · rw [mkfs_dir hd]
    exact mkfs_dots hargs
  · rw [mkfs_dir hd, hroot] at hzero
    exact absurd hzero Int.one_ne_zero
  · have hi0 : i ≠ 0 := by
      rintro rfl
      exact hi rfl
    rw [hup, hdown i hi0]
    by_cases hir : i = ROOTINO
    · rw [hir, hroot]
      rfl
    · rw [mkfs_file hir] at hi ⊢
      split
      · rfl
      · rename_i hfree
        rw [if_neg hfree] at hi
        exact absurd rfl hi
  · have hmem := (mem_down.1 hi).2
    rw [(mkfs_live d).1 (mem_down.1 hi).1] at hmem
    have hpos := List.count_pos_iff.2 hmem
    rw [kids_mkfs hlen (kids_ne_zero hmem)] at hpos
    have hfile : 2 ≤ i.val ∧ i.val < args.length + 2 := by
      by_contra hno
      rw [if_neg hno] at hpos
      exact Nat.lt_irrefl 0 hpos
    have hir : i ≠ ROOTINO := by
      rintro rfl
      exact absurd hfile.1 (by decide)
    rw [mkfs_file hir, if_pos hfile]
    exact ⟨by decide, hir⟩

end Mkfs

namespace Kernel

variable {n : Nat} {st : Kernel n}

/-- **The first state**: the references are the processes' to the root. -/
theorem boot_inv {args : List Path} (hargs : ∀ arg ∈ args, fileName arg ≠ dot)
    (hlen : args.length + 2 ≤ NINODES) : (boot n args).Inv := by
  have hopens : ∀ i, named (boot n args).opens i = 0 := fun i =>
    named_eq_zero.2 fun f hf => List.not_mem_nil hf
  have hcwds : ∀ i, named (boot n args).cwds i = if i = ROOTINO then n else 0 := by
    intro i
    have hsum : named (boot n args).cwds i = n * [ROOTINO].count i := by
      have hconst : ∀ p ∈ (Finset.univ : Finset (Fin n)),
          ((boot n args).cwds p).count i = [ROOTINO].count i := fun p _ => rfl
      rw [named, Finset.sum_const_nat hconst, Finset.card_univ, Fintype.card_fin]
    rw [hsum, List.count_singleton]
    simp only [beq_iff_eq, eq_comm (a := ROOTINO)]
    split
    · rw [Nat.mul_one]
    · rw [Nat.mul_zero]
  refine ⟨mkfs_tree hargs hlen, ⟨fun i => ?_, fun i _ hvalid => ?_, fun i hi hlink => ?_⟩,
    fun f => ?_, fun _ _ => rfl⟩
  · rw [users, hcwds, hopens]
    rfl
  · cases hvalid
  · exfalso
    change (mkfs args i).nlink = 0 at hlink
    change (mkfs args i).type ≠ 0 at hi
    obtain ⟨m, hroot⟩ := mkfs_root args
    by_cases hir : i = ROOTINO
    · rw [hir, hroot] at hlink
      exact Int.one_ne_zero hlink
    · rw [mkfs_file hir] at hi hlink
      split at hlink
      · exact Int.one_ne_zero hlink
      · rename_i hfree
        rw [if_neg hfree] at hi
        exact hi rfl
  · exact (named_eq_zero.2 fun x hx => List.not_mem_nil hx).symm

/-! ## Idle states -/

/-- When no file is open and every process is in the root directory, nothing
else has references. -/
theorem Inv.users_of_idle (h : st.Inv) (hidle : st.Idle) {i : Inum} (hi : i ≠ ROOTINO) :
    st.users i = 0 := by
  have hopens : named st.opens i = 0 := by
    rw [named_eq_zero]
    intro f hf
    have hfds : named st.fds f = 0 := by
      rw [named_eq_zero]
      rintro ⟨p, fd⟩ hmem
      cases hp : st.proc p with
      | none =>
          simp only [fds, hp, Option.bind_none] at hmem
          exact List.not_mem_nil hmem
      | some pr =>
          simp only [fds, hp, Option.bind_some, (hidle p pr hp).2 fd] at hmem
          exact List.not_mem_nil hmem
    rw [← h.files.ref] at hfds
    rw [opens, h.files.free f hfds] at hf
    exact List.not_mem_nil hf
  have hcwds : named st.cwds i = 0 := by
    rw [named_eq_zero]
    intro p hmem
    cases hp : st.proc p with
    | none =>
        simp only [cwds, hp] at hmem
        exact List.not_mem_nil hmem
    | some pr =>
        rw [cwds_eq hp, List.mem_singleton, (hidle p pr hp).1] at hmem
        exact hi hmem
  rw [users, hopens, hcwds]

/-- No inode is without links then. -/
theorem Inv.nlink_of_idle (h : st.Inv) (hidle : st.Idle) {i : Inum}
    (hi : (st.inode i).type ≠ 0) : (st.inode i).nlink ≠ 0 := by
  intro hzero
  by_cases hir : i = ROOTINO
  · exact h.tree.root.2 (hir ▸ hzero)
  · have := h.refs.settled i hi hzero
    rw [h.users_of_idle hidle hir] at this
    exact Nat.lt_irrefl 0 this

end Kernel

section Tree

variable {t : Table} {d i : Inum}

theorem kids_subset_entries (hd : (t d).type = T_DIR) (hi : i ∈ kids (t d)) :
    i ∈ entries t d := by
  rw [entries, if_pos hd]
  rw [kids, List.mem_filter, List.mem_map] at hi
  obtain ⟨⟨de, hde, rfl⟩, hne⟩ := hi
  exact List.mem_filter.2 ⟨List.mem_map.2 ⟨de, List.mem_of_mem_drop hde, rfl⟩, hne⟩

/-- Every live directory is reachable, through its parents. -/
theorem Tree.reachable_live (h : Tree t) (hd : Live t d) : Reachable t d := by
  obtain ⟨rank, hrank⟩ := h.rank
  apply Reach.of_rank (P := Live t) rank _ hd
  intro d hd hroot
  obtain ⟨hlive, hmem⟩ := h.parent_live hd hroot
  exact ⟨parent (t d), hlive, kids_subset_entries hlive.1 hmem, hrank d hd hroot⟩

/-- **What has links is reachable.** -/
theorem Tree.reachable (h : Tree t) (hi : (t i).type ≠ 0) (hlink : (t i).nlink ≠ 0) :
    Reachable t i := by
  by_cases hdir : (t i).type = T_DIR
  · exact h.reachable_live ⟨hdir, hlink⟩
  · rw [h.nlink_of_file hdir hi] at hlink
    have hpos : 0 < named (down t) i := by omega
    obtain ⟨d, hd⟩ := named_pos.1 hpos
    obtain ⟨hlive, hmem⟩ := mem_down.1 hd
    exact .link (h.reachable_live hlive) (kids_subset_entries hlive.1 hmem)

/-- The entries of a live directory that name `i`, without its `.`. -/
theorem Tree.countP_dirents (h : Tree t) (hd : (t d).type = T_DIR) (hi : i ≠ 0) :
    (t d).dirents.countP (fun de => de.inum = i ∧ de.name ≠ dot)
      = (kids (t d)).count i + if i = parent (t d) then 1 else 0 := by
  obtain ⟨p, rest, hdir, hp, hrest⟩ := h.dots d hd
  have hparent : parent (t d) = p := by
    unfold parent
    rw [hdir]
    rfl
  have hkids : (kids (t d)).count i = (rest.map Dirent.inum).count i := by
    rw [count_kids hi, hdir]
    rfl
  have hcount : rest.countP (fun de => de.inum = i ∧ de.name ≠ dot)
      = (rest.map Dirent.inum).count i := by
    rw [List.count, List.countP_map]
    apply List.countP_congr
    intro de hde
    rw [decide_eq_true_iff, Function.comp_apply, beq_iff_eq]
    constructor
    · exact fun hand => hand.1
    · intro heq
      exact ⟨heq, hrest de hde (heq ▸ hi)⟩
  have hdotdot : dotdot ≠ dot := by decide
  rw [hdir, hkids, hparent, List.countP_cons, List.countP_cons, hcount]
  simp only [ne_eq, not_true_eq_false, and_false, decide_false, hdotdot, not_false_eq_true,
    and_true, Bool.false_eq_true, if_false, decide_eq_true_iff, Nat.add_zero,
    eq_comm (a := p)]

/-- **Links are counted**, when no directory is without links. -/
theorem Tree.nlink_eq_links (h : Tree t)
    (hall : ∀ i, (t i).type ≠ 0 → (t i).nlink ≠ 0) (hi : (t i).type ≠ 0) :
    (t i).nlink = links t i + if i = ROOTINO then 1 else 0 := by
  have hi0 : i ≠ 0 := by
    rintro rfl
    exact hi h.zero
  have hlinks : links t i = named (down t) i + named (up t) i := by
    rw [named, named, ← Finset.sum_add_distrib]
    apply Finset.sum_congr rfl
    intro d _
    by_cases hdir : (t d).type = T_DIR
    · have hlive : Live t d := ⟨hdir, hall d (hdir ▸ T_DIR_ne_zero)⟩
      have hreach := h.reachable_live hlive
      have hcountP := h.countP_dirents hdir hi0
      have hdown : down t d = kids (t d) := if_pos hlive
      rw [hdown]
      by_cases hd : d = ROOTINO
      · have hup : up t d = [] := if_neg fun hand => hand.2 hd
        rw [hup, List.count_nil, Nat.add_zero]
        by_cases hir : i = ROOTINO
        · have hnone : i ∉ kids (t d) := fun hmem =>
            (h.kid d i (hdown ▸ hmem)).2 hir
          rw [if_neg fun hand => hand.2.2 ⟨hd, hir⟩, List.count_eq_zero.2 hnone]
        · have hparent : i ≠ parent (t d) := by
            rw [hd, h.top]
            exact hir
          rw [if_neg hparent, Nat.add_zero] at hcountP
          rw [if_pos ⟨hreach, hdir, fun hand => hir hand.2⟩, hcountP]
      · have hup : up t d = [parent (t d)] := if_pos ⟨hlive, hd⟩
        rw [if_pos ⟨hreach, hdir, fun hand => hd hand.1⟩, hcountP, hup,
          List.count_singleton]
        simp only [beq_iff_eq, eq_comm (a := i)]
    · rw [if_neg fun hand => hdir hand.2.1, down_of_file hdir,
        up_of_not_live fun hl => hdir hl.1]
      rfl
  rw [h.count i hi, hlinks]
  split <;> rfl

end Tree

/-- **Link counts are exact**: after a run that adds no entry to a directory
without links, in a state where no file is open and every process is in the
root directory, every inode in use is reachable, and its link count is the
number of entries that name it. -/
theorem Kernel.links_exact {n : Nat} {args : List Path}
    (hargs : ∀ arg ∈ args, fileName arg ≠ dot) (hlen : args.length + 2 ≤ NINODES)
    {cs : List (Fin n × Call)} (hcs : (boot n args).LinkedRun cs) {st : Kernel n}
    (hrun : (boot n args).run cs = .ok st) (hidle : st.Idle) {i : Inum}
    (hi : (st.inode i).type ≠ 0) :
    Reachable st.inode i ∧ (st.inode i).nlink
      = links st.inode i + if i = ROOTINO then (mkfs args i).nlink else 0 := by
  have hspec := run_spec (boot_inv hargs hlen) hcs
  rw [hrun] at hspec
  have hinv : st.Inv := hspec
  have hall : ∀ j, (st.inode j).type ≠ 0 → (st.inode j).nlink ≠ 0 := fun j hj =>
    hinv.nlink_of_idle hidle hj
  refine ⟨hinv.tree.reachable hi (hall i hi), ?_⟩
  rw [hinv.tree.nlink_eq_links hall hi]
  by_cases hir : i = ROOTINO
  · rw [if_pos hir, if_pos hir, hir]
    rfl
  · rw [if_neg hir, if_neg hir]

/-! ## `fs.img` -/

/-- The arguments of `mkfs` in the `Makefile`. -/
def fsImg : List Path :=
  ["README", "_cat", "_echo", "_forktest", "_grep", "_init", "_kill", "_ln", "_ls",
    "_mkdir", "_rm", "_sh", "_stressfs", "_usertests", "_wc", "_zombie",
    "_shutdown2"].map CText.ascii

theorem links_exact_mkdir :
    ∃ st : Kernel 1, (boot 1 fsImg).run
        [(0, .mkdir (CText.ascii "a")), (0, .chdir (CText.ascii "a")),
          (0, .chdir (CText.ascii "/"))] = .ok st
      ∧ ∀ i, (st.inode i).type ≠ 0 → Reachable st.inode i ∧ (st.inode i).nlink
        = links st.inode i + if i = ROOTINO then (mkfs fsImg i).nlink else 0 := by
  have hcheck : ∃ st : Kernel 1, (boot 1 fsImg).run
        [(0, .mkdir (CText.ascii "a")), (0, .chdir (CText.ascii "a")),
          (0, .chdir (CText.ascii "/"))] = .ok st
      ∧ ∀ p, ((st.proc p).all fun pr => pr.cwd = ROOTINO ∧ ∀ fd, pr.ofile fd = none)
        = true := by
    apply Ends.exists_of_check
    decide +kernel
  have hroot : addsTo (mkfs fsImg) ROOTINO (.mkdir (CText.ascii "a")) = some ROOTINO := by
    decide +kernel
  have hlinked : (boot 1 fsImg).LinkedRun [(0, .mkdir (CText.ascii "a")),
      (0, .chdir (CText.ascii "a")), (0, .chdir (CText.ascii "/"))] := by
    refine ⟨fun pr d hp hd => ?_, fun st _ => ⟨fun pr d _ hd => ?_, fun st _ =>
      ⟨fun pr d _ hd => ?_, fun st _ => trivial⟩⟩⟩
    · cases hp
      change addsTo (mkfs fsImg) ROOTINO _ = some d at hd
      rw [hroot] at hd
      cases hd
      exact Int.one_ne_zero
    · cases hd
    · cases hd
  obtain ⟨st, hrun, hidle⟩ := hcheck
  have hst : st.Idle := by
    intro p pr hp
    have := hidle p
    rwa [hp, Option.all_some, decide_eq_true_iff] at this
  exact ⟨st, hrun, fun i hi => Kernel.links_exact (by decide +kernel) (by decide) hlinked
    hrun hst hi⟩

/-- A process makes a directory, enters it, removes it, makes a file in it,
and leaves it. The file stays allocated, and nothing names it. -/
theorem removed_directory_leaks :
    ∃ st : Kernel 1, (boot 1 fsImg).run
        [(0, .mkdir (CText.ascii "a")), (0, .chdir (CText.ascii "a")),
          (0, .unlink (CText.ascii "/a")), (0, .openCreate (CText.ascii "f")),
          (0, .close 0), (0, .chdir (CText.ascii "/"))] = .ok st
      ∧ st.Idle ∧ (st.inode 20).type ≠ 0 ∧ ¬Reachable st.inode 20 := by
  have hcheck : ∃ st : Kernel 1, (boot 1 fsImg).run
        [(0, .mkdir (CText.ascii "a")), (0, .chdir (CText.ascii "a")),
          (0, .unlink (CText.ascii "/a")), (0, .openCreate (CText.ascii "f")),
          (0, .close 0), (0, .chdir (CText.ascii "/"))] = .ok st
      ∧ (∀ p, ((st.proc p).all fun pr => pr.cwd = ROOTINO ∧ ∀ fd, pr.ofile fd = none)
        = true)
      ∧ (st.inode 20).type ≠ 0 ∧ ∀ d, d ≠ 20 → 20 ∉ entries st.inode d := by
    apply Ends.exists_of_check
    decide +kernel
  obtain ⟨st, hrun, hidle, htype, hnone⟩ := hcheck
  refine ⟨st, hrun, fun p pr hp => ?_, htype, fun hreach => ?_⟩
  · have := hidle p
    rwa [hp, Option.all_some, decide_eq_true_iff] at this
  · -- what is reachable is not 20, and names no 20
    have hnot : ∀ i, Reachable st.inode i → i ≠ 20 := by
      intro i hi
      induction hi with
      | root => decide
      | link _ hmem ih =>
          rintro rfl
          exact hnone _ ih hmem
    exact hnot 20 hreach rfl

end SchoolStuff.Xv6.Dirs
