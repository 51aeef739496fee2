import SchoolStuff.Lib.Links
import SchoolStuff.Xv6.Dirs

/-!
# Xv6 — the directory tree

`Tree` says what the inodes of a disk are: every live directory but the root
is named once, by the directory that its `..` names, and `nlink` counts the
entries of live directories. A directory with link count 0 is one that has
been removed. It is empty, and it stays a `Tree` as long as no entry is added
to it. There is a theorem for each change that a system call makes.
-/

namespace SchoolStuff.Xv6.Dirs

/-- The inodes of a disk. -/
abbrev Table := Inum → Inode

/-- A directory that has links. -/
def Live (t : Table) (d : Inum) : Prop := (t d).type = T_DIR ∧ (t d).nlink ≠ 0

instance (t : Table) (d : Inum) : Decidable (Live t d) := by
  unfold Live
  infer_instance

/-- The inodes that a directory names after `.` and `..`. -/
def kids (ip : Inode) : List Inum :=
  ((ip.dirents.drop 2).map Dirent.inum).filter (· ≠ 0)

/-- The inode that `..` names. -/
def parent (ip : Inode) : Inum := ((ip.dirents[1]?).map Dirent.inum).getD 0

/-- The entries of live directories, without `.` and `..`. -/
def down (t : Table) (d : Inum) : List Inum := if Live t d then kids (t d) else []

/-- The `..` of live directories, without the root's. -/
def up (t : Table) (d : Inum) : List Inum :=
  if Live t d ∧ d ≠ ROOTINO then [parent (t d)] else []

/-- The entries of directory `d` begin with `.` and `..`. -/
def Dots (ip : Inode) (d : Inum) : Prop :=
  ∃ p rest, ip.dirents = ⟨d, dot⟩ :: ⟨p, dotdot⟩ :: rest ∧ p ≠ 0
    ∧ ∀ de ∈ rest, de.inum ≠ 0 → de.name ≠ dot

structure Tree (t : Table) : Prop where
  zero : (t 0).type = 0
  root : Live t ROOTINO
  /-- The `..` of the root directory is itself. -/
  top : parent (t ROOTINO) = ROOTINO
  dots : ∀ d, (t d).type = T_DIR → Dots (t d) d
  /-- A removed directory is empty. -/
  dead : ∀ d, (t d).type = T_DIR → (t d).nlink = 0 → kids (t d) = []
  count : ∀ i, (t i).type ≠ 0 → (t i).nlink
    = named (down t) i + named (up t) i + if i = ROOTINO then 1 else 0
  kid : ∀ d i, i ∈ down t d → (t i).type ≠ 0 ∧ i ≠ ROOTINO
  once : ∀ d, Live t d → d ≠ ROOTINO →
    named (down t) d = 1 ∧ d ∈ down t (parent (t d))
  rank : ∃ rank : Inum → Nat, ∀ d, Live t d → d ≠ ROOTINO →
    rank (parent (t d)) < rank d

/-! ## What a tree says -/

variable {t t' : Table} {d dp i : Inum}

theorem T_DIR_ne_zero : T_DIR ≠ 0 := by decide

/-- A directory with links is not a free inode. -/
theorem Live.ne_of_free (h : Live t d) (hfree : (t i).type = 0) : d ≠ i := by
  rintro rfl
  exact T_DIR_ne_zero (h.1.symm.trans hfree)

theorem mem_down : i ∈ down t d ↔ Live t d ∧ i ∈ kids (t d) := by
  unfold down
  split
  · simp only [*, true_and]
  · simp only [*, List.not_mem_nil, false_and]

theorem mem_up : i ∈ up t d ↔ Live t d ∧ d ≠ ROOTINO ∧ i = parent (t d) := by
  unfold up
  split <;> rename_i h
  · simp only [h.1, h.2, List.mem_singleton, ne_eq, not_false_eq_true, true_and]
  · rw [← and_assoc]
    simp only [h, List.not_mem_nil, false_and]

theorem kids_ne_zero {ip : Inode} (h : i ∈ kids ip) : i ≠ 0 := by
  have := (List.mem_filter.1 h).2
  simpa using this

theorem count_kids_zero (ip : Inode) : (kids ip).count 0 = 0 :=
  List.count_eq_zero.2 fun h => kids_ne_zero h rfl

/-- The counts of `kids`, without the free entries. -/
theorem count_kids {ip : Inode} (hi : i ≠ 0) :
    (kids ip).count i = ((ip.dirents.drop 2).map Dirent.inum).count i := by
  unfold kids
  exact List.count_filter (by simpa using hi)

namespace Tree

/-- The parent of a live directory is a live directory that names it. -/
theorem parent_live (h : Tree t) (hd : Live t d) (hroot : d ≠ ROOTINO) :
    Live t (parent (t d)) ∧ d ∈ kids (t (parent (t d))) :=
  mem_down.1 (h.once d hd hroot).2

/-- What has a parent or an entry in a live directory is in use. -/
theorem not_up_of_free (h : Tree t) (hi : ¬Live t i) : named (up t) i = 0 := by
  rw [named_eq_zero]
  intro d hmem
  obtain ⟨hd, hroot, rfl⟩ := mem_up.1 hmem
  exact hi (h.parent_live hd hroot).1

theorem not_down_of_free (h : Tree t) (hi : (t i).type = 0) : named (down t) i = 0 := by
  rw [named_eq_zero]
  intro d hmem
  exact (h.kid d i hmem).1 hi

theorem nlink_nonneg (h : Tree t) (hi : (t i).type ≠ 0) : 0 ≤ (t i).nlink := by
  rw [h.count i hi]
  split <;> omega

/-- An empty directory has one link. -/
theorem nlink_of_empty (h : Tree t) (hi : Live t i) (hroot : i ≠ ROOTINO)
    (hempty : kids (t i) = []) : named (up t) i = 0 ∧ (t i).nlink = 1 := by
  have hup : named (up t) i = 0 := by
    rw [named_eq_zero]
    intro d hmem
    obtain ⟨hd, hdroot, rfl⟩ := mem_up.1 hmem
    have := (h.parent_live hd hdroot).2
    rw [hempty] at this
    exact List.not_mem_nil this
  refine ⟨hup, ?_⟩
  rw [h.count i (hi.1 ▸ T_DIR_ne_zero), (h.once i hi hroot).1, hup, if_neg hroot]
  rfl

end Tree

/-! ## Changes of an entry -/

/-- Directory `dp` has other entries, and inode `i` has changed with them. -/
structure Change (t t' : Table) (dp i : Inum) : Prop where
  ne : dp ≠ i
  nonzero : i ≠ 0
  others : ∀ d, d ≠ dp → d ≠ i → t' d = t d
  live : Live t dp
  live' : Live t' dp
  dots : Dots (t' dp) dp
  parent : parent (t' dp) = parent (t dp)
  kids : ∀ j, j ≠ i → (kids (t' dp)).count j = (kids (t dp)).count j

namespace Change

theorem type (hc : Change t t' dp i) {j : Inum} (hj : j ≠ i) :
    (t' j).type = (t j).type := by
  by_cases hdp : j = dp
  · rw [hdp, hc.live.1, hc.live'.1]
  · rw [hc.others j hdp hj]

theorem live_iff (hc : Change t t' dp i) {d : Inum} (hd : d ≠ i) :
    Live t' d ↔ Live t d := by
  by_cases hdp : d = dp
  · rw [hdp]
    exact iff_of_true hc.live' hc.live
  · unfold Live
    rw [hc.others d hdp hd]

theorem parent_eq (hc : Change t t' dp i) {d : Inum} (hd : d ≠ i) :
    Dirs.parent (t' d) = Dirs.parent (t d) := by
  by_cases hdp : d = dp
  · rw [hdp, hc.parent]
  · rw [hc.others d hdp hd]

theorem up_eq (hc : Change t t' dp i) {d : Inum} (hd : d ≠ i) : up t' d = up t d := by
  simp only [up, hc.live_iff hd, hc.parent_eq hd]

theorem down_eq (hc : Change t t' dp i) {d : Inum} (hdp : d ≠ dp) (hd : d ≠ i) :
    down t' d = down t d := by
  simp only [down, hc.live_iff hd, hc.others d hdp hd]

theorem down_dp (hc : Change t t' dp i) :
    down t dp = Dirs.kids (t dp) ∧ down t' dp = Dirs.kids (t' dp) :=
  ⟨if_pos hc.live, if_pos hc.live'⟩

/-- Entries that name another inode are still there. -/
theorem mem_kids (hc : Change t t' dp i) {j : Inum} (hj : j ≠ i) :
    j ∈ Dirs.kids (t' dp) ↔ j ∈ Dirs.kids (t dp) := by
  rw [← List.count_pos_iff, ← List.count_pos_iff, hc.kids j hj]

theorem mem_down (hc : Change t t' dp i) (hdown : down t' i = down t i) {d j : Inum}
    (hj : j ≠ i) : j ∈ down t' d ↔ j ∈ down t d := by
  by_cases hdp : d = dp
  · rw [hdp, hc.down_dp.1, hc.down_dp.2, hc.mem_kids hj]
  · by_cases hd : d = i
    · rw [hd, hdown]
    · rw [hc.down_eq hdp hd]

/-- What names `i` has changed with the entries of `dp`, if inode `i` itself
names what it did. -/
theorem named_down (hc : Change t t' dp i) (hdown : down t' i = down t i) (j : Inum) :
    named (down t') j + (Dirs.kids (t dp)).count j
      = named (down t) j + (Dirs.kids (t' dp)).count j := by
  rw [← hc.down_dp.1, ← hc.down_dp.2]
  apply named_off
  intro d hdp
  by_cases hd : d = i
  · rw [hd, hdown]
  · exact hc.down_eq hdp hd

theorem named_down_ne (hc : Change t t' dp i) (hdown : down t' i = down t i) {j : Inum}
    (hj : j ≠ i) : named (down t') j = named (down t) j := by
  have := hc.named_down hdown j
  have := hc.kids j hj
  omega

/-- The entries of `..` have changed with those of inode `i`. -/
theorem named_up (hc : Change t t' dp i) (j : Inum) :
    named (up t') j + (up t i).count j = named (up t) j + (up t' i).count j :=
  named_off (fun _ hd => hc.up_eq hd) j

/-- The ranks of the parents are what they were, but for `i`. -/
theorem rank_lt (hc : Change t t' dp i) {rank : Inum → Nat}
    (hrank : ∀ d, Live t d → d ≠ ROOTINO → rank (Dirs.parent (t d)) < rank d)
    {d : Inum} (hdi : d ≠ i) (hd : Live t' d) (hroot : d ≠ ROOTINO) :
    rank (Dirs.parent (t' d)) < rank d := by
  rw [hc.live_iff hdi] at hd
  rw [hc.parent_eq hdi]
  exact hrank d hd hroot

/-- **A change keeps the tree** if inode `i` is right after it, and `dp` has
`k` links more, which are the `..` of `i`. -/
theorem tree (h : Tree t) (hc : Change t t' dp i) (hroot : i ≠ ROOTINO)
    (hdown : down t' i = down t i) {k : Int}
    (hnlink : (t' dp).nlink = (t dp).nlink + k)
    (hup : ∀ j, j ≠ i →
      (named (up t') j : Int) = named (up t) j + if j = dp then k else 0)
    (hdots : (t' i).type = T_DIR → Dots (t' i) i)
    (hdead : (t' i).type = T_DIR → (t' i).nlink = 0 → Dirs.kids (t' i) = [])
    (hcount : (t' i).type ≠ 0 → (t' i).nlink = named (down t') i + named (up t') i)
    (hkid : named (down t') i ≠ 0 → (t' i).type ≠ 0)
    (honce : Live t' i → named (down t') i = 1 ∧ i ∈ down t' (Dirs.parent (t' i)))
    (hrank : ∃ rank : Inum → Nat, ∀ d, Live t' d → d ≠ ROOTINO →
      rank (Dirs.parent (t' d)) < rank d) : Tree t' := by
  refine ⟨?_, (hc.live_iff hroot.symm).2 h.root, ?_, fun d hd => ?_, fun d hd hzero => ?_,
    fun j hj => ?_, fun d j hj => ?_, fun d hd hdroot => ?_, hrank⟩
  · rw [hc.type hc.nonzero.symm, h.zero]
  · rw [hc.parent_eq hroot.symm, h.top]
  · by_cases hdi : d = i
    · rw [hdi] at hd ⊢
      exact hdots hd
    · by_cases hdp : d = dp
      · rw [hdp]
        exact hc.dots
      · rw [hc.others d hdp hdi] at hd ⊢
        exact h.dots d hd
  · by_cases hdi : d = i
    · rw [hdi] at hd hzero ⊢
      exact hdead hd hzero
    · by_cases hdp : d = dp
      · rw [hdp] at hzero
        exact absurd hzero hc.live'.2
      · rw [hc.others d hdp hdi] at hd hzero ⊢
        exact h.dead d hd hzero
  · by_cases hji : j = i
    · rw [hji] at hj ⊢
      rw [hcount hj, if_neg hroot, Int.add_zero]
    · rw [hc.type hji] at hj
      have hold := h.count j hj
      rw [hc.named_down_ne hdown hji, hup j hji]
      by_cases hdp : j = dp
      · rw [if_pos hdp, hdp, hnlink, ← hdp, hold]
        omega
      · rw [if_neg hdp, hc.others j hdp hji, Int.add_zero, hold]
  · by_cases hji : j = i
    · rw [hji] at hj ⊢
      exact ⟨hkid (Nat.ne_of_gt (named_pos.2 ⟨d, hj⟩)), hroot⟩
    · rw [hc.type hji]
      exact h.kid d j ((hc.mem_down hdown hji).1 hj)
  · by_cases hdi : d = i
    · rw [hdi] at hd ⊢
      exact honce hd
    · rw [hc.live_iff hdi] at hd
      rw [hc.named_down_ne hdown hdi, hc.parent_eq hdi, hc.mem_down hdown hdi]
      exact h.once d hd hdroot

end Change

theorem down_of_not_live (h : ¬Live t d) : down t d = [] := if_neg h

theorem up_of_not_live (h : ¬Live t d) : up t d = [] := if_neg fun hd => h hd.1

/-- The `..` of a live directory, counted. -/
theorem count_up (hd : Live t d) (hroot : d ≠ ROOTINO) (j : Inum) :
    (up t d).count j = if j = parent (t d) then 1 else 0 := by
  rw [up, if_pos ⟨hd, hroot⟩, List.count_singleton]
  simp only [beq_iff_eq, eq_comm (a := j)]

theorem Tree.ne_root (h : Tree t) (hd : ¬Live t d) : d ≠ ROOTINO := by
  rintro rfl
  exact hd h.root

/-- **A file** gets an entry, or loses one. -/
theorem Tree.change_file (h : Tree t) (hc : Change t t' dp i)
    (hnlink : (t' dp).nlink = (t dp).nlink) (hfile : (t i).type ≠ T_DIR)
    (hfile' : (t' i).type ≠ T_DIR) (hfree : (t' i).type ≠ 0)
    (hcount : (t' i).nlink = named (down t') i + named (up t) i) : Tree t' := by
  have hlive : ¬Live t i := fun hi => hfile hi.1
  have hlive' : ¬Live t' i := fun hi => hfile' hi.1
  have hdown : down t' i = down t i := by
    rw [down_of_not_live hlive, down_of_not_live hlive']
  have hup : ∀ j, named (up t') j = named (up t) j := by
    intro j
    have hsum := hc.named_up j
    rwa [up_of_not_live hlive, up_of_not_live hlive', Nat.add_right_cancel_iff] at hsum
  have hnlink' : (t' dp).nlink = (t dp).nlink + 0 := by rw [hnlink, Int.add_zero]
  refine hc.tree h (h.ne_root hlive) hdown hnlink' (fun j _ => ?_) (absurd · hfile')
    (fun hi _ => absurd hi hfile') (fun _ => ?_) (fun _ => hfree) (absurd · hlive') ?_
  · rw [hup, ite_self, Int.add_zero]
  · rw [hup, hcount]
  · obtain ⟨rank, hrank⟩ := h.rank
    refine ⟨rank, fun d hd => hc.rank_lt hrank ?_ hd⟩
    rintro rfl
    exact hlive' hd

/-- **A new directory** `i`, of which `dp` gets the entry. -/
theorem Tree.change_mkdir (h : Tree t) (hc : Change t t' dp i)
    (hnlink : (t' dp).nlink = (t dp).nlink + 1) (hold : (t i).type = 0)
    (hkids : (kids (t' dp)).count i = (kids (t dp)).count i + 1)
    (hlive : Live t' i) (hone : (t' i).nlink = 1) (hdots : Dots (t' i) i)
    (hparent : parent (t' i) = dp) (hempty : kids (t' i) = []) : Tree t' := by
  have hdead : ¬Live t i := fun hi => hi.ne_of_free hold rfl
  have hroot := h.ne_root hdead
  have hdown : down t' i = down t i := by
    rw [down_of_not_live hdead]
    simp only [down, hempty, ite_self]
  -- the new directory is the only one with a `..` that was not there
  have hup : ∀ j, named (up t') j = named (up t) j + if j = dp then 1 else 0 := by
    intro j
    have hsum := hc.named_up j
    rwa [up_of_not_live hdead, count_up hlive hroot, hparent, List.count_nil,
      Nat.add_zero] at hsum
  have hdowni : named (down t') i = 1 := by
    have := hc.named_down hdown i
    rw [hkids, h.not_down_of_free hold] at this
    omega
  have hmemi : i ∈ kids (t' dp) := by
    rw [← List.count_pos_iff, hkids]
    exact Nat.succ_pos _
  refine hc.tree h hroot hdown hnlink (fun j _ => ?_) (fun _ => hdots) (fun _ _ => hempty)
    (fun _ => ?_) (fun _ => hlive.1 ▸ T_DIR_ne_zero) (fun _ => ?_) ?_
  · rw [hup]
    split <;> rfl
  · rw [hone, hdowni, hup, h.not_up_of_free hdead, if_neg hc.ne.symm]
    rfl
  · rw [hparent, hc.down_dp.2]
    exact ⟨hdowni, hmemi⟩
  · -- the new directory is below its parent
    obtain ⟨rank, hrank⟩ := h.rank
    refine ⟨Function.update rank i (rank dp + 1), fun d hd hdroot => ?_⟩
    by_cases hdi : d = i
    · rw [hdi, hparent, Function.update_self, Function.update_of_ne hc.ne]
      exact Nat.lt_succ_self _
    · have hlt := hc.rank_lt hrank hdi hd hdroot
      have hpi : parent (t' d) ≠ i := by
        rw [hc.live_iff hdi] at hd
        rw [hc.parent_eq hdi]
        exact fun hp => hdead (hp ▸ (h.parent_live hd hdroot).1)
      rwa [Function.update_of_ne hpi, Function.update_of_ne hdi]

/-- The entry of an empty directory is in its parent. -/
theorem Tree.parent_eq (h : Tree t) (hi : Live t i) (hroot : i ≠ ROOTINO)
    (hdp : Live t dp) (hmem : i ∈ kids (t dp)) : parent (t i) = dp := by
  have honce := h.once i hi hroot
  exact eq_of_named_eq_one honce.1 honce.2 (mem_down.2 ⟨hdp, hmem⟩)

/-- A directory with a subdirectory has two links at least. -/
theorem Tree.nlink_gt_one (h : Tree t) (hi : Live t i) (hroot : i ≠ ROOTINO) :
    1 < (t (parent (t i))).nlink := by
  have hp := (h.parent_live hi hroot).1
  have hcount := h.count _ (hp.1 ▸ T_DIR_ne_zero)
  have hup : 0 < named (up t) (parent (t i)) :=
    named_pos.2 ⟨i, mem_up.2 ⟨hi, hroot, rfl⟩⟩
  by_cases hproot : parent (t i) = ROOTINO
  · rw [if_pos hproot] at hcount
    omega
  · rw [(h.once _ hp hproot).1, if_neg hproot] at hcount
    omega

/-- **An empty directory** `i` is removed from `dp`. -/
theorem Tree.change_rmdir (h : Tree t) (hc : Change t t' dp i)
    (hnlink : (t' dp).nlink = (t dp).nlink - 1) (hlive : Live t i)
    (hroot : i ≠ ROOTINO) (hempty : kids (t i) = [])
    (hkids : (kids (t' dp)).count i + 1 = (kids (t dp)).count i)
    (hi : t' i = { t i with nlink := (t i).nlink - 1 }) : Tree t' := by
  have hmem : i ∈ kids (t dp) := by
    rw [← List.count_pos_iff]
    omega
  -- an empty live directory stands in its parent once, and `dp` names it
  have hparent := h.parent_eq hlive hroot hc.live hmem
  obtain ⟨hupi, hone⟩ := h.nlink_of_empty hlive hroot hempty
  have hzero : (t' i).nlink = 0 := by
    rw [hi, hone]
    rfl
  have hdead : ¬Live t' i := fun hd => hd.2 hzero
  have hdown : down t' i = down t i := by
    rw [down_of_not_live hdead]
    simp only [down, hempty, ite_self]
  have hup : ∀ j, named (up t') j + (if j = dp then 1 else 0) = named (up t) j := by
    intro j
    have hsum := hc.named_up j
    rwa [up_of_not_live hdead, count_up hlive hroot, hparent, List.count_nil,
      Nat.add_zero] at hsum
  have hdowni : named (down t') i = 0 := by
    have := hc.named_down hdown i
    have := (h.once i hlive hroot).1
    omega
  have hupi' : named (up t') i = 0 := by
    have := hup i
    rwa [if_neg hc.ne.symm, hupi, Nat.add_zero] at this
  have hnlink' : (t' dp).nlink = (t dp).nlink + -1 := hnlink
  refine hc.tree h hroot hdown hnlink' (fun j _ => ?_) (fun _ => ?_) (fun _ _ => ?_)
    (fun _ => ?_) (absurd hdowni) (absurd · hdead) ?_
  · rw [← hup j]
    split <;> omega
  · rw [hi]
    exact h.dots i hlive.1
  · rw [hi]
    exact hempty
  · rw [hzero, hdowni, hupi']
    rfl
  · obtain ⟨rank, hrank⟩ := h.rank
    refine ⟨rank, fun d hd => hc.rank_lt hrank ?_ hd⟩
    rintro rfl
    exact hdead hd

/-- **An inode without links** is freed. -/
theorem Tree.free (h : Tree t) (hzero : (t i).nlink = 0) :
    Tree (Function.update t i { t i with type := 0, dirents := [] }) := by
  generalize ht' : Function.update t i { t i with type := 0, dirents := [] } = t'
  have hself : t' i = { t i with type := 0, dirents := [] } := by
    rw [← ht', Function.update_self]
  have hne : ∀ j, j ≠ i → t' j = t j := fun j hj => by
    rw [← ht', Function.update_of_ne hj]
  have hdead : ¬Live t i := fun hi => hi.2 hzero
  have hdead' : ¬Live t' i := fun hi => by
    rw [Live, hself] at hi
    exact hi.2 hzero
  have hiff : ∀ d, Live t' d ↔ Live t d := by
    intro d
    by_cases hd : d = i
    · rw [hd]
      exact iff_of_false hdead' hdead
    · rw [Live, hne d hd]
      exact Iff.rfl
  have hold : ∀ d, Live t d → t' d = t d := fun d hd => hne d fun hdi => hdead (hdi ▸ hd)
  have hused : ∀ j, (t' j).type ≠ 0 → j ≠ i := by
    rintro j hj rfl
    rw [hself] at hj
    exact hj rfl
  have hdown : down t' = down t := by
    funext d
    by_cases hd : Live t d
    · simp only [down, hiff, hold d hd]
    · rw [down_of_not_live hd, down_of_not_live (mt (hiff d).1 hd)]
  have hup : up t' = up t := by
    funext d
    by_cases hd : Live t d
    · simp only [up, hiff, hold d hd]
    · rw [up_of_not_live hd, up_of_not_live (mt (hiff d).1 hd)]
  -- no entry names `i`, which has no links
  have hnamed : ∀ d j, j ∈ down t d → (t j).type ≠ 0 → j ≠ i := by
    rintro d j hj hjt rfl
    have hpos : 0 < named (down t) j := named_pos.2 ⟨d, hj⟩
    have := h.count j hjt
    rw [hzero] at this
    split at this <;> omega
  refine ⟨?_, (hiff _).2 h.root, ?_, fun d hd => ?_, fun d hd hz => ?_, fun j hj => ?_,
    fun d j hj => ?_, fun d hd hdroot => ?_, ?_⟩
  · by_cases hi : 0 = i
    · rw [hi, hself]
    · rw [hne 0 hi, h.zero]
  · rw [hold ROOTINO h.root, h.top]
  · have hdi := hused d (hd ▸ T_DIR_ne_zero)
    rw [hne d hdi] at hd ⊢
    exact h.dots d hd
  · have hdi := hused d (hd ▸ T_DIR_ne_zero)
    rw [hne d hdi] at hd hz ⊢
    exact h.dead d hd hz
  · have hji := hused j hj
    rw [hne j hji] at hj ⊢
    rw [hdown, hup]
    exact h.count j hj
  · rw [hdown] at hj
    have hkid := h.kid d j hj
    rw [hne j (hnamed d j hj hkid.1)]
    exact hkid
  · rw [hiff] at hd
    rw [hdown, hold d hd]
    exact h.once d hd hdroot
  · obtain ⟨rank, hrank⟩ := h.rank
    refine ⟨rank, fun d hd hdroot => ?_⟩
    rw [hiff] at hd
    rw [hold d hd]
    exact hrank d hd hdroot

end SchoolStuff.Xv6.Dirs
