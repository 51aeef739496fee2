import SchoolStuff.Xv6.Tree

/-!
# Xv6 — writing a directory entry

`lookup` finds entries, `writeDirent` writes them, and `kids` counts what
they name. After `.` and `..` an entry goes into a free slot (`link_dirents`),
or is cleared (`unlink_dirents`).
-/

namespace SchoolStuff.Xv6.Dirs

variable {des : List Dirent} {name : Name} {de : Dirent} {off : Nat}

/-! ## Lookup -/

theorem lookup_some (h : lookup des name = some (de, off)) :
    des[off]? = some de ∧ de.inum ≠ 0 ∧ de.name = name := by
  have hmem := List.mem_of_find?_eq_some h
  have hprop := List.find?_some h
  rw [decide_eq_true_iff] at hprop
  exact ⟨List.mem_zipIdx_iff_getElem?.1 hmem, hprop⟩

theorem lookup_none (h : lookup des name = none) :
    ∀ de ∈ des, de.inum ≠ 0 → de.name ≠ name := by
  intro de hmem hne hname
  obtain ⟨k, hk⟩ := List.mem_iff_getElem?.1 hmem
  have := List.find?_eq_none.1 h (de, k) (List.mem_zipIdx_iff_getElem?.2 hk)
  rw [decide_eq_true_iff] at this
  exact this ⟨hne, hname⟩

/-! ## Entries after the dots -/

theorem writeDirent_cons (a : Dirent) (des : List Dirent) (off : Nat) (de : Dirent) :
    writeDirent (a :: des) (off + 1) de = a :: writeDirent des off de := by
  unfold writeDirent
  by_cases h : off < des.length
  · rw [if_pos h, if_pos (by rw [List.length_cons]; omega), List.set_cons_succ]
  · rw [if_neg h, if_neg (by rw [List.length_cons]; omega), List.cons_append]

theorem mem_writeDirent {x : Dirent} (h : x ∈ writeDirent des off de) :
    x = de ∨ x ∈ des := by
  unfold writeDirent at h
  split at h
  · exact (List.mem_or_eq_of_mem_set h).symm
  · rcases List.mem_append.1 h with h | h
    · exact Or.inr h
    · exact Or.inl (List.mem_singleton.1 h)

/-- Writing over an entry, or after the last one. -/
theorem count_writeDirent (des : List Dirent) (off : Nat) (de : Dirent) (j : Inum) :
    ((writeDirent des off de).map Dirent.inum).count j
        + (if (des[off]?).map Dirent.inum = some j then 1 else 0)
      = (des.map Dirent.inum).count j + if j = de.inum then 1 else 0 := by
  induction des generalizing off with
  | nil =>
      have h : writeDirent [] off de = [de] := rfl
      rw [h]
      simp only [List.map_cons, List.map_nil, List.count_singleton, List.count_nil,
        List.getElem?_nil, Option.map_none, reduceCtorEq, if_false, beq_iff_eq,
        eq_comm (a := j)]
      omega
  | cons a des ih =>
      cases off with
      | zero =>
          have h : writeDirent (a :: des) 0 de = de :: des := rfl
          rw [h]
          simp only [List.map_cons, List.count_cons, List.getElem?_cons_zero,
            Option.map_some, Option.some.injEq, beq_iff_eq, eq_comm (a := j)]
          omega
      | succ off =>
          have := ih off
          rw [writeDirent_cons, List.map_cons, List.map_cons, List.count_cons,
            List.count_cons, List.getElem?_cons_succ]
          omega

/-- **An entry is written** after `.` and `..`. -/
theorem write_dirents (de : Dirent) {ip : Inode} {d : Inum} (h : Dots ip d) (hoff : 2 ≤ off)
    (hde : de.inum ≠ 0 → de.name ≠ dot) :
    Dots { ip with dirents := writeDirent ip.dirents off de } d
      ∧ parent { ip with dirents := writeDirent ip.dirents off de } = parent ip
      ∧ ∀ j, j ≠ 0 →
        (kids { ip with dirents := writeDirent ip.dirents off de }).count j
            + (if (ip.dirents[off]?).map Dirent.inum = some j then 1 else 0)
          = (kids ip).count j + if j = de.inum then 1 else 0 := by
  obtain ⟨p, rest, hdir, hp, hrest⟩ := h
  obtain ⟨k, rfl⟩ : ∃ k, off = k + 1 + 1 := ⟨off - 2, by omega⟩
  have hwrite : writeDirent ip.dirents (k + 1 + 1) de
      = ⟨d, dot⟩ :: ⟨p, dotdot⟩ :: writeDirent rest k de := by
    rw [hdir, writeDirent_cons, writeDirent_cons]
  rw [hwrite]
  refine ⟨⟨p, _, rfl, hp, fun x hx => ?_⟩, ?_, fun j hj => ?_⟩
  · rcases mem_writeDirent hx with rfl | hx
    · exact hde
    · exact hrest x hx
  · unfold parent
    rw [hdir]
    rfl
  · rw [count_kids hj, count_kids hj, hdir]
    exact count_writeDirent rest k de j

/-- The first two entries are not free. -/
theorem Dots.slot {ip : Inode} {d : Inum} (h : Dots ip d) (hd : d ≠ 0) :
    2 ≤ slot ip.dirents
      ∧ ∀ j, j ≠ 0 → (ip.dirents[slot ip.dirents]?).map Dirent.inum ≠ some j := by
  obtain ⟨p, rest, hdir, hp, _⟩ := h
  constructor
  · unfold Dirs.slot
    rw [hdir, List.findIdx_cons, List.findIdx_cons]
    simp only [hd, hp, decide_false, cond_false]
    omega
  · intro j hj hsome
    obtain ⟨de, hde, rfl⟩ := Option.map_eq_some_iff.1 hsome
    obtain ⟨hlt, heq⟩ := List.getElem?_eq_some_iff.1 hde
    have hfree : decide ((ip.dirents[Dirs.slot ip.dirents]).inum = 0) = true :=
      List.findIdx_getElem (p := fun de : Dirent => decide (de.inum = 0)) (w := hlt)
    rw [heq, decide_eq_true_iff] at hfree
    exact hj hfree

/-- `.` and `..` are names in every directory. -/
theorem Dots.lookup_none {ip : Inode} {d : Inum} (h : Dots ip d) (hd : d ≠ 0)
    (hnone : lookup ip.dirents name = none) : name ≠ dot ∧ name ≠ dotdot := by
  obtain ⟨p, rest, hdir, hp, _⟩ := h
  have hno := Dirs.lookup_none hnone
  rw [hdir] at hno
  constructor
  · exact (hno ⟨d, dot⟩ List.mem_cons_self hd).symm
  · exact (hno ⟨p, dotdot⟩ (List.mem_cons_of_mem _ List.mem_cons_self) hp).symm

/-- An entry of another name comes after `.` and `..`. -/
theorem Dots.lookup_some {ip : Inode} {d : Inum} (h : Dots ip d)
    (hsome : lookup ip.dirents name = some (de, off)) (hdot : name ≠ dot)
    (hdotdot : name ≠ dotdot) : 2 ≤ off := by
  obtain ⟨p, rest, hdir, _, _⟩ := h
  obtain ⟨hget, _, hname⟩ := Dirs.lookup_some hsome
  rw [hdir] at hget
  match off, hget with
  | 0, hget =>
      cases hget
      exact absurd hname.symm hdot
  | 1, hget =>
      cases hget
      exact absurd hname.symm hdotdot
  | _ + 2, _ => omega

/-- **`dirlink`** adds one entry to what a directory names. -/
theorem link_dirents {ip : Inode} {d i : Inum} (h : Dots ip d) (hd : d ≠ 0) (hi : i ≠ 0)
    (hnone : lookup ip.dirents name = none) {ip' : Inode}
    (hip' : ip'.dirents = writeDirent ip.dirents (slot ip.dirents) ⟨i, name⟩) :
    Dots ip' d ∧ parent ip' = parent ip
      ∧ ∀ j, (kids ip').count j = (kids ip).count j + if j = i then 1 else 0 := by
  obtain ⟨hslot, hfree⟩ := h.slot hd
  obtain ⟨hdots, hparent, hkids⟩ :=
    write_dirents ⟨i, name⟩ h hslot fun _ => (h.lookup_none hd hnone).1
  have hsame : kids ip' = kids { ip with
      dirents := writeDirent ip.dirents (slot ip.dirents) ⟨i, name⟩ } := by
    unfold kids
    rw [hip']
  unfold Dots parent at *
  rw [hip', hsame]
  refine ⟨hdots, hparent, fun j => ?_⟩
  by_cases hj : j = 0
  · rw [hj, count_kids_zero, count_kids_zero, if_neg hi.symm]
  · have := hkids j hj
    rw [if_neg (hfree j hj)] at this
    exact this

/-- **`unlink`** takes one entry from what a directory names. -/
theorem unlink_dirents {ip : Inode} {d : Inum} (h : Dots ip d)
    (hsome : lookup ip.dirents name = some (de, off)) (hdot : name ≠ dot)
    (hdotdot : name ≠ dotdot) {ip' : Inode}
    (hip' : ip'.dirents = writeDirent ip.dirents off ⟨0, []⟩) :
    Dots ip' d ∧ parent ip' = parent ip
      ∧ ∀ j, (kids ip').count j + (if j = de.inum then 1 else 0)
        = (kids ip).count j := by
  obtain ⟨hget, hne, _⟩ := Dirs.lookup_some hsome
  obtain ⟨hdots, hparent, hkids⟩ :=
    write_dirents ⟨0, []⟩ h (h.lookup_some hsome hdot hdotdot)
      fun hzero => absurd rfl hzero
  have hsame : kids ip' = kids { ip with
      dirents := writeDirent ip.dirents off ⟨0, []⟩ } := by
    unfold kids
    rw [hip']
  unfold Dots parent at *
  rw [hip', hsame]
  refine ⟨hdots, hparent, fun j => ?_⟩
  by_cases hj : j = 0
  · rw [hj, count_kids_zero, count_kids_zero, if_neg hne.symm]
  · have := hkids j hj
    rw [if_neg hj, hget, Option.map_some, Nat.add_zero] at this
    simpa only [Option.some.injEq, eq_comm (a := j)] using this

/-! ## Trees with another entry -/

variable {t t' : Table} {dp i : Inum}

theorem Live.ne_zero (ht : Tree t) (hdp : Live t dp) : dp ≠ 0 :=
  hdp.ne_of_free ht.zero

/-- `dirlink` of `i` in `dp`, as a change of the table. -/
theorem Change.link (ht : Tree t) (hdp : Live t dp) (hne : dp ≠ i) (hi : i ≠ 0)
    (hnone : lookup (t dp).dirents name = none)
    (hothers : ∀ d, d ≠ dp → d ≠ i → t' d = t d) {k : Int} (hk : k ≠ 0)
    (hself : t' dp = ⟨(t dp).type, k,
      writeDirent (t dp).dirents (slot (t dp).dirents) ⟨i, name⟩⟩) :
    Change t t' dp i
      ∧ (Dirs.kids (t' dp)).count i = (Dirs.kids (t dp)).count i + 1 := by
  obtain ⟨hdots, hparent, hkids⟩ := link_dirents (ht.dots dp hdp.1) (hdp.ne_zero ht) hi hnone
    (congrArg Inode.dirents hself)
  refine ⟨⟨hne, hi, hothers, hdp, ?_, hdots, hparent, fun j hj => ?_⟩, ?_⟩
  · rw [Live, hself]
    exact ⟨hdp.1, hk⟩
  · rw [hkids, if_neg hj, Nat.add_zero]
  · rw [hkids, if_pos rfl]

/-- `sys_unlink` of `i` in `dp`. -/
theorem Change.unlink (ht : Tree t) (hdp : Live t dp) (hne : dp ≠ de.inum)
    (hsome : lookup (t dp).dirents name = some (de, off)) (hdot : name ≠ dot)
    (hdotdot : name ≠ dotdot) (hothers : ∀ d, d ≠ dp → d ≠ de.inum → t' d = t d)
    {k : Int} (hk : k ≠ 0)
    (hself : t' dp = ⟨(t dp).type, k, writeDirent (t dp).dirents off ⟨0, []⟩⟩) :
    Change t t' dp de.inum
      ∧ (Dirs.kids (t' dp)).count de.inum + 1 = (Dirs.kids (t dp)).count de.inum := by
  obtain ⟨hdots, hparent, hkids⟩ := unlink_dirents (ht.dots dp hdp.1) hsome hdot hdotdot
    (congrArg Inode.dirents hself)
  refine ⟨⟨hne, (lookup_some hsome).2.1, hothers, hdp, ?_, hdots, hparent,
    fun j hj => ?_⟩, ?_⟩
  · rw [Live, hself]
    exact ⟨hdp.1, hk⟩
  · have := hkids j
    rwa [if_neg hj, Nat.add_zero] at this
  · have := hkids de.inum
    rwa [if_pos rfl] at this

/-- A file has no entries, before and after. -/
theorem down_of_file (hi : (t i).type ≠ T_DIR) : down t i = [] :=
  down_of_not_live fun hl => hi hl.1

theorem Tree.nlink_of_file (ht : Tree t) (hi : (t i).type ≠ T_DIR) (hused : (t i).type ≠ 0) :
    (t i).nlink = named (down t) i := by
  have hdead : ¬Live t i := fun hl => hi hl.1
  rw [ht.count i hused, ht.not_up_of_free hdead, if_neg (ht.ne_root hdead)]
  omega

/-- **A file** with one link more, in directory `dp`. -/
theorem Tree.link (ht : Tree t) (hdp : Live t dp) (hi : i ≠ 0) (htype : (t i).type ≠ T_DIR)
    (hnone : lookup (t dp).dirents name = none)
    (hothers : ∀ d, d ≠ dp → d ≠ i → t' d = t d)
    (hself : t' dp = ⟨(t dp).type, (t dp).nlink,
      writeDirent (t dp).dirents (slot (t dp).dirents) ⟨i, name⟩⟩)
    (htype' : (t' i).type ≠ T_DIR) (hused' : (t' i).type ≠ 0)
    (hnlink : (t' i).nlink = named (down t) i + 1) : Tree t' := by
  have hne : dp ≠ i := by
    rintro rfl
    exact htype hdp.1
  obtain ⟨hc, hkids⟩ := Change.link ht hdp hne hi hnone hothers hdp.2 hself
  refine ht.change_file hc (by rw [hself]) htype htype' hused' ?_
  have hnamed := hc.named_down ((down_of_file htype').trans (down_of_file htype).symm) i
  have hup := ht.not_up_of_free fun hl => htype hl.1
  omega

/-- **A new directory** in directory `dp`. -/
theorem Tree.mkdir (ht : Tree t) (hdp : Live t dp) (hi : i ≠ 0) (hfree : (t i).type = 0)
    (hnone : lookup (t dp).dirents name = none)
    (hothers : ∀ d, d ≠ dp → d ≠ i → t' d = t d)
    (hself : t' dp = ⟨(t dp).type, (t dp).nlink + 1,
      writeDirent (t dp).dirents (slot (t dp).dirents) ⟨i, name⟩⟩)
    (hnew : t' i = ⟨T_DIR, 1, [⟨i, dot⟩, ⟨dp, dotdot⟩]⟩) : Tree t' := by
  have hne : dp ≠ i := hdp.ne_of_free hfree
  have hplus : (t dp).nlink + 1 ≠ 0 := by
    have := ht.nlink_nonneg (hdp.1 ▸ T_DIR_ne_zero)
    omega
  obtain ⟨hc, hkids⟩ := Change.link ht hdp hne hi hnone hothers hplus hself
  have hlive : Live t' i := by
    rw [Live, hnew]
    exact ⟨rfl, Int.one_ne_zero⟩
  have hdots : Dots (t' i) i := by
    rw [hnew]
    exact ⟨dp, [], rfl, hdp.ne_zero ht, fun de hde => absurd hde List.not_mem_nil⟩
  refine ht.change_mkdir hc ?_ hfree hkids hlive ?_ hdots ?_ ?_
  · rw [hself]
  · rw [hnew]
  · rw [hnew]
    rfl
  · rw [hnew]
    rfl

/-- **A file** with one link less. -/
theorem Tree.unlink (ht : Tree t) (hdp : Live t dp)
    (hsome : lookup (t dp).dirents name = some (de, off)) (hdot : name ≠ dot)
    (hdotdot : name ≠ dotdot) (hused : (t de.inum).type ≠ 0)
    (htype : (t de.inum).type ≠ T_DIR)
    (hothers : ∀ d, d ≠ dp → d ≠ de.inum → t' d = t d)
    (hself : t' dp = ⟨(t dp).type, (t dp).nlink, writeDirent (t dp).dirents off ⟨0, []⟩⟩)
    (hfile : t' de.inum = { t de.inum with nlink := (t de.inum).nlink - 1 }) :
    Tree t' := by
  have hne : dp ≠ de.inum := by
    intro heq
    exact htype (heq ▸ hdp.1)
  obtain ⟨hc, hkids⟩ := Change.unlink ht hdp hne hsome hdot hdotdot hothers hdp.2 hself
  have htype' : (t' de.inum).type ≠ T_DIR := by
    rw [hfile]
    exact htype
  refine ht.change_file hc (by rw [hself]) htype htype' ?_ ?_
  · rw [hfile]
    exact hused
  · have hnamed := hc.named_down ((down_of_file htype').trans (down_of_file htype).symm)
      de.inum
    have hup := ht.not_up_of_free fun hl => htype hl.1
    have hnlink := ht.nlink_of_file htype hused
    rw [hfile]
    change (t de.inum).nlink - 1 = _
    omega

/-- What `isdirempty` checks. -/
theorem kids_of_isdirempty {ip : Inode} (h : isdirempty ip = true) : kids ip = [] := by
  unfold kids
  rw [List.filter_eq_nil_iff]
  intro i hi
  obtain ⟨de, hde, rfl⟩ := List.mem_map.1 hi
  have := List.all_eq_true.1 h de hde
  simpa using this

/-- **An empty directory** without its entry in directory `dp`. -/
theorem Tree.rmdir (ht : Tree t) (hdp : Live t dp)
    (hsome : lookup (t dp).dirents name = some (de, off)) (hdot : name ≠ dot)
    (hdotdot : name ≠ dotdot) (hlive : Live t de.inum)
    (hempty : kids (t de.inum) = []) (hmem : de.inum ∈ kids (t dp))
    (hothers : ∀ d, d ≠ dp → d ≠ de.inum → t' d = t d)
    (hself : t' dp = ⟨(t dp).type, (t dp).nlink - 1,
      writeDirent (t dp).dirents off ⟨0, []⟩⟩)
    (hdir : t' de.inum = { t de.inum with nlink := (t de.inum).nlink - 1 }) :
    Tree t' := by
  have hroot : de.inum ≠ ROOTINO := (ht.kid dp _ (mem_down.2 ⟨hdp, hmem⟩)).2
  have hne : dp ≠ de.inum := by
    intro heq
    rw [heq, hempty] at hmem
    exact List.not_mem_nil hmem
  have hnlink : (t dp).nlink - 1 ≠ 0 := by
    have := ht.nlink_gt_one hlive hroot
    rw [ht.parent_eq hlive hroot hdp hmem] at this
    omega
  obtain ⟨hc, hkids⟩ := Change.unlink ht hdp hne hsome hdot hdotdot hothers hnlink hself
  exact ht.change_rmdir hc (by rw [hself]) hlive hroot hempty hkids hdir

/-- What an entry after `.` and `..` names. -/
theorem Tree.lookup (ht : Tree t) (hdir : (t dp).type = T_DIR)
    (hsome : Dirs.lookup (t dp).dirents name = some (de, off)) (hdot : name ≠ dot)
    (hdotdot : name ≠ dotdot) :
    Live t dp ∧ de.inum ∈ kids (t dp) ∧ (t de.inum).type ≠ 0 := by
  obtain ⟨hget, hne, _⟩ := lookup_some hsome
  have hoff := (ht.dots dp hdir).lookup_some hsome hdot hdotdot
  have hmem : de.inum ∈ kids (t dp) := by
    have hdrop : ((t dp).dirents.drop 2)[off - 2]? = some de := by
      rw [List.getElem?_drop, Nat.add_sub_cancel' hoff]
      exact hget
    refine List.mem_filter.2 ⟨List.mem_map.2 ⟨de, List.mem_of_getElem? hdrop, rfl⟩, ?_⟩
    simpa using hne
  have hlive : Live t dp := by
    refine ⟨hdir, fun hzero => ?_⟩
    rw [ht.dead dp hdir hzero] at hmem
    exact List.not_mem_nil hmem
  exact ⟨hlive, hmem, (ht.kid dp _ (mem_down.2 ⟨hlive, hmem⟩)).1⟩

end SchoolStuff.Xv6.Dirs
