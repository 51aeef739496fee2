import SchoolStuff.Xv6.Entries
import SchoolStuff.Xv6.Icache

/-!
# Xv6 — calls that change links

`Inv` holds between two calls. `link`, `unlink`, `mkdir` and `open` keep it if
they add no entry to a directory without links (`sysLink_spec`,
`sysUnlink_spec`, `create_spec`).
-/

namespace SchoolStuff.Xv6.Dirs

variable {n : Nat}

/-- The directory in which `create` makes a new entry. -/
def createsIn (t : Table) (cwd : Inum) (path : Path) : Option Inum :=
  match walkFrom t cwd path true with
  | none => none
  | some (dp, name) => if lookup (t dp).dirents name = none then some dp else none

/-- The directory in which `sys_link` makes a new entry. -/
def linksIn (t : Table) (cwd : Inum) (old new : Path) : Option Inum :=
  match walkFrom t cwd old false with
  | none => none
  | some (ip, _) => if (t ip).type = T_DIR then none else createsIn t cwd new

namespace Kernel

variable {st st' : Kernel n} {held : List Inum} {i dp ip : Inum} {name : Name}
  {pr : Proc} {p : Fin n}

/-! ## Changes of an inode -/

/-- A change of an inode in use, which stays in use. -/
theorem Refs.setInode (h : st.Refs held) {ip' : Inode}
    (htype : ip'.type = (st.inode i).type)
    (hkept : ip'.type ≠ 0 → ip'.nlink = 0 → 0 < st.ref i ∧ st.valid i = true) :
    (st.setInode i ip').Refs held := by
  have htypes : ∀ j, ((st.setInode i ip').inode j).type = (st.inode j).type := by
    intro j
    change (Function.update st.inode i ip' j).type = _
    by_cases hj : j = i
    · rw [hj, Function.update_self, htype]
    · rw [Function.update_of_ne hj]
  refine ⟨h.ref, fun j hj hvalid => ?_, fun j hj hlink => ?_⟩
  · rw [htypes]
    exact h.copy j hj hvalid
  · change (Function.update st.inode i ip' j).type ≠ 0 at hj
    change (Function.update st.inode i ip' j).nlink = 0 at hlink
    by_cases hji : j = i
    · rw [hji, Function.update_self] at hj hlink
      rw [hji]
      exact hkept hj hlink
    · rw [Function.update_of_ne hji] at hj hlink
      exact h.kept j hj hlink

/-- A change of an inode that has links leaves the others settled. -/
theorem Settled.setInode (hs : st.Settled) {ip' : Inode}
    (hlink : ip'.type ≠ 0 → ip'.nlink = 0 → 0 < st.users i) :
    (st.setInode i ip').Settled := by
  intro j hj hl
  change (Function.update st.inode i ip' j).type ≠ 0 at hj
  change (Function.update st.inode i ip' j).nlink = 0 at hl
  change 0 < st.users j
  by_cases hji : j = i
  · rw [hji, Function.update_self] at hj hl
    rw [hji]
    exact hlink hj hl
  · rw [Function.update_of_ne hji] at hj hl
    exact hs j hj hl

theorem Refs.setDirents (h : st.Refs held) (dp : Inum) (des : List Dirent) :
    (st.setDirents dp des).Refs held :=
  h.setInode rfl (h.kept dp)

theorem Settled.setDirents (hs : st.Settled) (dp : Inum) (des : List Dirent) :
    (st.setDirents dp des).Settled :=
  hs.setInode (hs dp)

/-- **`dirlink`** writes an entry in the free slot, unless the name is there. -/
theorem dirlink_spec (h : st.Refs held) (hs : st.Settled) (dp : Inum) (name : Name)
    (inum : Inum) :
    Returns (st.dirlink dp name inum) fun r => (st.inode dp).type = T_DIR
      ∧ r.2.Refs held
      ∧ ((r.1 = false ∧ Same st r.2)
        ∨ (r.1 = true ∧ lookup (st.inode dp).dirents name = none
          ∧ Same (st.setDirents dp (writeDirent (st.inode dp).dirents
            (slot (st.inode dp).dirents) ⟨inum, name⟩)) r.2)) := by
  refine dirlookup_bind h dp name (fun hdir hlook => ?_)
    fun hdir de off st₁ hsame h₁ hlook => ?_
  · change Ends _ (if _ then _ else _) _
    split
    · trivial
    · exact ⟨hdir, h.setDirents _ _, Or.inr ⟨rfl, hlook, Same.refl _⟩⟩
  · apply (iput_keep h₁ (hsame.settled hs _)).bind
    rintro st₂ ⟨hsame₂, h₂, _⟩
    exact ⟨hdir, h₂, Or.inl ⟨rfl, hsame.trans hsame₂⟩⟩

/-- A current directory is in the cache. -/
theorem Refs.cwd_pos (h : st.Refs held) (hp : st.proc p = some pr) :
    0 < st.ref pr.cwd := by
  have hcwd : 0 < named st.cwds pr.cwd := by
    rw [named_pos]
    refine ⟨p, ?_⟩
    unfold cwds
    rw [hp]
    exact List.mem_singleton.2 rfl
  rw [h.ref, users]
  omega

/-- The rule for `namei`, as `namex_bind`. -/
theorem namei_bind {α : Type} {P : α → Prop} (h : st.Refs held) (hs : st.Settled)
    (hp : st.proc p = some pr) (path : Path) {k : Option Inum × Kernel n → Except Stop α}
    (hnone : ∀ st₁, Same st st₁ → st₁.Refs held →
      walkFrom st.inode pr.cwd path false = none → Returns (k (none, st₁)) P)
    (hsome : ∀ ip name st₁, Same st st₁ → st₁.Refs (ip :: held) →
      walkFrom st.inode pr.cwd path false = some (ip, name) →
      Returns (k (some ip, st₁)) P) :
    Returns (st.namei pr.cwd path >>= k) P := by
  unfold namei
  rw [bind_assoc]
  exact namex_bind h hs (h.cwd_pos hp) path false hnone hsome

/-! ## `sys_link` -/

/-- Inode `ip` with another link count. -/
theorem addNlink_inode (st : Kernel n) (ip : Inum) (k : Int) :
    (st.addNlink ip k).inode
      = Function.update st.inode ip { st.inode ip with nlink := (st.inode ip).nlink + k } :=
  rfl

/-- `bad:` takes the link back that `sys_link` counted. -/
theorem linkBad_spec {t : Table} (ht : Tree t) (h : st.Refs [ip])
    (hinode : st.inode = Function.update t ip { t ip with nlink := (t ip).nlink + 1 }) :
    Returns (st.linkBad ip) fun r => Keeps st r.2 [] := by
  apply (ilock_spec h ip).bind
  rintro st₁ ⟨hsame, h₁, _, hvalid⟩
  have hback : (st₁.addNlink ip (-1)).inode = t := by
    rw [addNlink_inode, hsame.inode, hinode, Function.update_self, Function.update_idem,
      Int.add_neg_cancel_right]
    exact Function.update_eq_self ip t
  have h₂ : (st₁.addNlink ip (-1)).Refs [ip] :=
    h₁.setInode rfl fun _ _ => ⟨h₁.pos, hvalid⟩
  apply (iunlockput_spec h₂ (hback ▸ ht)).bind
  exact fun st₃ hk => hk.trans hsame.file hsame.proc

/-- The table after `sys_link`. -/
theorem linked_tree {t : Table} (ht : Tree t) (hlive : Live t dp)
    (hused : (t ip).type ≠ 0) (hfile : (t ip).type ≠ T_DIR)
    (hnone : lookup (t dp).dirents name = none) :
    Tree (Function.update
      (Function.update t ip { t ip with nlink := (t ip).nlink + 1 }) dp
      ⟨(t dp).type, (t dp).nlink, writeDirent (t dp).dirents (slot (t dp).dirents)
        ⟨ip, name⟩⟩) := by
  have hne : ip ≠ dp := by
    rintro rfl
    exact hfile hlive.1
  have hip : ip ≠ 0 := by
    rintro rfl
    exact hused ht.zero
  apply ht.link (i := ip) hlive hip hfile hnone
  · intro d hd hdi
    rw [Function.update_of_ne hd, Function.update_of_ne hdi]
  · rw [Function.update_self]
  · rw [Function.update_of_ne hne, Function.update_self]
    exact hfile
  · rw [Function.update_of_ne hne, Function.update_self]
    exact hused
  · rw [Function.update_of_ne hne, Function.update_self, ← ht.nlink_of_file hfile hused]

theorem linkFile_spec {st : Kernel n} (ht : Tree st.inode) (h : st.Refs [ip])
    (hs : st.Settled) (hp : st.proc p = some pr) (hvalid : st.valid ip = true)
    (hused : (st.inode ip).type ≠ 0) (hfile : (st.inode ip).type ≠ T_DIR) {new : Path}
    (hadd : ∀ d, createsIn st.inode pr.cwd new = some d → (st.inode d).nlink ≠ 0) :
    Returns (st.linkFile pr ip new) fun r => Keeps st r.2 [] := by
  have hkept : 0 < st.ref ip ∧ st.valid ip = true := ⟨h.pos, hvalid⟩
  have hpos : 0 ≤ (st.inode ip).nlink := ht.nlink_nonneg hused
  have hplus : (st.inode ip).nlink + 1 ≠ 0 := by omega
  have h₁ : (st.addNlink ip 1).Refs [ip] := h.setInode rfl fun _ _ => hkept
  have hs₁ : (st.addNlink ip 1).Settled := hs.setInode fun _ hzero => absurd hzero hplus
  apply (iunlock_spec h₁ ip).bind
  rintro st₂ ⟨hsame₂, h₂, _⟩
  have hp₂ : st₂.proc p = some pr := by
    rw [hsame₂.proc]
    exact hp
  have hs₂ := hsame₂.settled hs₁
  refine namex_bind h₂ hs₂ (h₂.cwd_pos hp₂) new true (fun st₃ hsame₃ h₃ _ => ?_)
    fun dp name st₃ hsame₃ h₃ hnew => ?_
  · -- no directory to put the entry into: the link is taken back
    have hsame := hsame₂.trans hsame₃
    apply (linkBad_spec ht h₃ hsame.inode).mono
    exact fun r hk => hk.trans hsame.file hsame.proc
  rw [hsame₂.inode, addNlink_inode, walkFrom_addNlink] at hnew
  apply (ilock_spec h₃ dp).bind
  rintro st₄ ⟨hsame₄, h₄, _, _⟩
  have hsame := (hsame₂.trans hsame₃).trans hsame₄
  have hs₄ := hsame.settled hs₁
  apply (dirlink_spec h₄ hs₄ dp name ip).bind
  rintro ⟨linked, st₅⟩ ⟨hdir, h₅, ⟨rfl, hsame₅⟩ | ⟨rfl, hnone, hsame₅⟩⟩
  · -- the name is there already: the link is taken back
    have hsame₁₅ := hsame.trans hsame₅
    apply (iunlockput_keep h₅ (hsame₁₅.settled hs₁ dp)).bind
    rintro st₆ ⟨hsame₆, h₆, _⟩
    have hsame₀ := hsame₁₅.trans hsame₆
    exact (linkBad_spec ht h₆ hsame₀.inode).mono fun r hk => hk.trans hsame₀.file hsame₀.proc
  · -- the entry is written; a file links no entry into itself
    have hs₅ : st₅.Settled := hsame₅.settled (hs₄.setDirents dp _)
    apply (iunlockput_keep h₅ (hs₅ dp)).bind
    rintro st₆ ⟨hsame₆, h₆, _⟩
    have hne : dp ≠ ip := by
      rintro rfl
      rw [hsame.inode, addNlink_inode, Function.update_self] at hdir
      exact hfile hdir
    have hdp : st₄.inode dp = st.inode dp := by
      rw [hsame.inode, addNlink_inode, Function.update_of_ne hne]
    rw [hdp] at hdir hnone
    have hlive : Live st.inode dp := by
      refine ⟨hdir, hadd dp ?_⟩
      unfold createsIn
      rw [hnew]
      simp only [hnone, if_true]
    have htree : Tree st₆.inode := by
      rw [hsame₆.inode, hsame₅.inode]
      simp only [setDirents, setInode, hdp, hsame.inode, addNlink_inode]
      exact linked_tree ht hlive hused hfile hnone
    apply (iput_spec h₆ htree).bind
    rintro st₇ hk
    exact hk.trans (hsame₆.file.trans (hsame₅.file.trans hsame.file))
      (hsame₆.proc.trans (hsame₅.proc.trans hsame.proc))

/-- **`sys_link`** keeps the tree, if it adds no entry to a removed directory. -/
theorem sysLink_spec (ht : Tree st.inode) (h : st.Refs []) (hp : st.proc p = some pr)
    {old new : Path} (hadd : ∀ d, linksIn st.inode pr.cwd old new = some d →
      (st.inode d).nlink ≠ 0) :
    Returns (st.sysLink pr old new) fun r => Keeps st r.2 [] := by
  refine namei_bind h h.settled hp old (fun st₁ hsame₁ h₁ _ => hsame₁.keeps ht h₁)
    fun ip last st₁ hsame₁ h₁ hold => ?_
  apply (ilock_spec h₁ ip).bind
  rintro st₂ ⟨hsame₂, h₂, hused, hvalid⟩
  have hsame := hsame₁.trans hsame₂
  have hs₂ := hsame.settled h.settled
  change Ends _ (if _ then _ else _) _
  split
  · apply (iunlockput_keep h₂ (hs₂ ip)).bind
    rintro st₃ ⟨hsame₃, h₃, _⟩
    exact (hsame.trans hsame₃).keeps ht h₃
  rename_i hfile
  have hp₂ : st₂.proc p = some pr := by
    rw [hsame.proc]
    exact hp
  rw [← hsame₂.inode] at hused
  apply (linkFile_spec (hsame.inode ▸ ht) h₂ hs₂ hp₂ hvalid hused hfile _).mono
  · exact fun r hk => hk.trans hsame.file hsame.proc
  · rw [hsame.inode] at hfile ⊢
    intro d hd
    apply hadd
    unfold linksIn
    rw [hold]
    simp only [if_neg hfile]
    exact hd

/-! ## `sys_unlink` -/

/-- The end of `sys_unlink`, when directory `dp` has changed. -/
theorem unlinkEnd_spec {st : Kernel n} (h : st.Refs [ip, dp]) (hs : st.Settled)
    (hne : dp ≠ ip) (hvalid : st.valid ip = true) {dir : Inode}
    (htree : Tree (Function.update (Function.update st.inode dp dir) ip
      { st.inode ip with nlink := (st.inode ip).nlink - 1 }))
    (htype : dir.type = (st.inode dp).type) (hlink : dir.nlink ≠ 0) :
    Returns (do
      let st ← (st.setInode dp dir).iunlockput dp
      let st ← (st.addNlink ip (-1)).iunlockput ip
      .ok ((0 : Int), st)) fun r => Keeps st r.2 [] := by
  have h₁ : (st.setInode dp dir).Refs [dp, ip] :=
    (h.setInode htype fun _ hzero => absurd hzero hlink).perm (List.Perm.swap _ _ _)
  have hs₁ : (st.setInode dp dir).Settled := hs.setInode fun _ hzero => absurd hzero hlink
  apply (iunlockput_keep h₁ (hs₁ dp)).bind
  rintro st₂ ⟨hsame₂, h₂, hvalid₂⟩
  have hip : st₂.inode ip = st.inode ip := by
    rw [hsame₂.inode]
    exact Function.update_of_ne hne.symm _ _
  have h₃ : (st₂.addNlink ip (-1)).Refs [ip] :=
    h₂.setInode rfl fun _ _ => ⟨h₂.pos, (congrFun hvalid₂ ip).trans hvalid⟩
  have hinode : (st₂.addNlink ip (-1)).inode = Function.update
      (Function.update st.inode dp dir) ip
      { st.inode ip with nlink := (st.inode ip).nlink - 1 } := by
    rw [addNlink_inode, hip, hsame₂.inode]
    rfl
  apply (iunlockput_spec h₃ (hinode ▸ htree)).bind
  exact fun st₄ hk => hk.trans hsame₂.file hsame₂.proc

theorem unlinkEntry_spec {st : Kernel n} (ht : Tree st.inode) {de : Dirent} {off : Nat}
    (h : st.Refs [de.inum, dp]) (hs : st.Settled) (hdir : (st.inode dp).type = T_DIR)
    (hsome : lookup (st.inode dp).dirents name = some (de, off)) (hdot : name ≠ dot)
    (hdotdot : name ≠ dotdot) :
    Returns (st.unlinkEntry dp de.inum off) fun r => Keeps st r.2 [] := by
  obtain ⟨hdp, hmem, _⟩ := ht.lookup hdir hsome hdot hdotdot
  apply (ilock_spec h de.inum).bind
  rintro st₁ ⟨hsame₁, h₁, hused, hvalid⟩
  have hs₁ := hsame₁.settled hs
  rw [hsame₁.inode]
  split
  · trivial
  rename_i hlinks
  have hnlink : (st.inode de.inum).nlink ≠ 0 := by omega
  split
  · apply (iunlockput_keep h₁ (hs₁ de.inum)).bind
    rintro st₂ ⟨hsame₂, h₂, _⟩
    have hsame := hsame₁.trans hsame₂
    apply (iunlockput_keep h₂ (hsame.settled hs dp)).bind
    rintro st₃ ⟨hsame₃, h₃, _⟩
    exact (hsame.trans hsame₃).keeps ht h₃
  rename_i hempty
  rw [not_and, not_not] at hempty
  -- `dp` has an entry, so it is not the directory that must be empty
  have hne : dp ≠ de.inum := by
    intro heq
    rw [← heq] at hempty hmem
    rw [kids_of_isdirempty (hempty hdir)] at hmem
    exact List.not_mem_nil hmem
  have hinode : ∀ dir : Inode, ∀ d, d ≠ dp → d ≠ de.inum →
      Function.update (Function.update st.inode dp dir) de.inum
        { st.inode de.inum with nlink := (st.inode de.inum).nlink - 1 } d = st.inode d := by
    intro dir d hd hdi
    rw [Function.update_of_ne hdi, Function.update_of_ne hd]
  have hself : ∀ dir : Inode, Function.update (Function.update st.inode dp dir) de.inum
      { st.inode de.inum with nlink := (st.inode de.inum).nlink - 1 } dp = dir := by
    intro dir
    rw [Function.update_of_ne hne, Function.update_self]
  have htypes : ∀ des, ((st₁.setDirents dp des).inode de.inum).type
      = (st.inode de.inum).type := by
    intro des
    change (Function.update st₁.inode dp _ de.inum).type = _
    rw [Function.update_of_ne hne.symm, hsame₁.inode]
  simp only [htypes]
  by_cases htype : (st.inode de.inum).type = T_DIR
  · -- a directory: its `..` was a link to `dp`, which loses it
    have hlive : Live st.inode de.inum := ⟨htype, hnlink⟩
    have hkids := kids_of_isdirempty (hempty htype)
    have hroot := (ht.kid dp _ (mem_down.2 ⟨hdp, hmem⟩)).2
    have hlink : (st.inode dp).nlink - 1 ≠ 0 := by
      have := ht.nlink_gt_one hlive hroot
      rw [ht.parent_eq hlive hroot hdp hmem] at this
      omega
    have htree := ht.rmdir hdp hsome hdot hdotdot hlive hkids hmem (hinode _) (hself _)
      (Function.update_self _ _ _)
    have hstate : ∀ des, (st₁.setDirents dp des).addNlink dp (-1)
        = st₁.setInode dp ⟨(st₁.inode dp).type, (st₁.inode dp).nlink - 1, des⟩ := by
      intro des
      simp only [addNlink, setDirents, setInode, Function.update_self, Function.update_idem]
      rfl
    simp only [if_pos htype, hstate]
    rw [← hsame₁.inode] at hlink htree
    rw [← hsame₁.inode]
    apply (unlinkEnd_spec h₁ hs₁ hne hvalid htree rfl hlink).mono
    exact fun r hk => hk.trans hsame₁.file hsame₁.proc
  · -- a file: only the entry goes
    have htree := ht.unlink hdp hsome hdot hdotdot hused htype (hinode _) (hself _)
      (Function.update_self _ _ _)
    simp only [if_neg htype]
    have hlink := hdp.2
    rw [← hsame₁.inode] at hlink htree
    rw [← hsame₁.inode]
    apply (unlinkEnd_spec h₁ hs₁ hne hvalid htree rfl hlink).mono
    exact fun r hk => hk.trans hsame₁.file hsame₁.proc

/-- **`sys_unlink`** keeps the tree. -/
theorem sysUnlink_spec (ht : Tree st.inode) (h : st.Refs []) (hp : st.proc p = some pr)
    (path : Path) : Returns (st.sysUnlink pr path) fun r => Keeps st r.2 [] := by
  refine namex_bind h h.settled (h.cwd_pos hp) path true
    (fun st₁ hsame₁ h₁ _ => hsame₁.keeps ht h₁) fun dp name st₁ hsame₁ h₁ _ => ?_
  apply (ilock_spec h₁ dp).bind
  rintro st₂ ⟨hsame₂, h₂, _, _⟩
  have hsame := hsame₁.trans hsame₂
  have hs₂ := hsame.settled h.settled
  -- `goto bad`
  have hbad : Returns (do
      let st ← st₂.iunlockput dp
      .ok ((-1 : Int), st)) fun r => Keeps st r.2 [] := by
    apply (iunlockput_keep h₂ (hs₂ dp)).bind
    rintro st₃ ⟨hsame₃, h₃, _⟩
    exact (hsame.trans hsame₃).keeps ht h₃
  change Ends _ (if _ then _ else _) _
  split
  · exact hbad
  rename_i hname
  rw [not_or] at hname
  refine dirlookup_bind h₂ dp name (fun _ _ => hbad) fun hdir de off st₃ hsame₃ h₃ hlook => ?_
  have hsame' := hsame.trans hsame₃
  rw [← hsame₃.inode] at hdir hlook
  apply (unlinkEntry_spec (hsame'.inode ▸ ht) h₃ (hsame'.settled h.settled) hdir hlook
    hname.1 hname.2).mono
  exact fun r hk => hk.trans hsame'.file hsame'.proc

/-! ## `create` -/

/-- `ialloc` takes a free inode, and a reference to it. -/
theorem ialloc_got (st : Kernel n) (type : Int16) :
    Returns (st.ialloc type) fun r => r.1 ≠ 0 ∧ (st.inode r.1).type = 0
      ∧ Got (st.setInode r.1 ⟨type, 0, []⟩) r.2 r.1 := by
  unfold ialloc
  split
  · trivial
  · rename_i i hfind
    have hi := List.find?_some hfind
    rw [decide_eq_true_iff] at hi
    apply (iget_got (st.setInode i ⟨type, 0, []⟩) i).bind
    exact fun st₁ hgot => ⟨hi.1, hi.2, hgot⟩

/-- What `ilock` does to the cache. -/
theorem ilock_valid (st : Kernel n) (i : Inum) :
    Returns (st.ilock i) fun st' => Same st st' ∧ st'.ref = st.ref
      ∧ ∀ j, j ≠ i → st'.valid j = st.valid j := by
  unfold ilock
  split
  · trivial
  split
  · trivial
  split
  · trivial
  exact ⟨⟨rfl, rfl, rfl⟩, rfl, fun j hj => Function.update_of_ne hj _ _⟩

/-- A reference to an inode that was free, and has a link now. -/
theorem Refs.alloc (h : st.Refs held) {ip' : Inode}
    (htype : ip'.type ≠ 0) (hlink : ip'.nlink ≠ 0)
    (hsame : Same (st.setInode i ip') st')
    (href : ∀ j, st'.ref j = st.ref j + if j = i then 1 else 0)
    (hvalid : ∀ j, j ≠ i → st'.valid j = st.valid j) : st'.Refs (i :: held) := by
  have hself : st'.inode i = ip' := by
    rw [hsame.inode]
    exact Function.update_self _ _ _
  have hne : ∀ j, j ≠ i → st'.inode j = st.inode j := by
    intro j hj
    rw [hsame.inode]
    exact Function.update_of_ne hj _ _
  refine ⟨fun j => ?_, fun j hj hv => ?_, fun j hj hl => ?_⟩
  · rw [href, h.ref, hsame.users, count_cons]
    change st.users j + held.count j + _ = st.users j + _
    omega
  · by_cases hji : j = i
    · rw [hji, hself]
      exact htype
    · rw [href, if_neg hji] at hj
      rw [hvalid j hji] at hv
      rw [hne j hji]
      exact h.copy j hj hv
  · have hji : j ≠ i := by
      rintro rfl
      rw [hself] at hl
      exact hlink hl
    rw [hne j hji] at hj hl
    rw [href, if_neg hji, hvalid j hji]
    exact h.kept j hj hl

theorem createDots_spec {st : Kernel n} (h : st.Refs held) (hs : st.Settled)
    (hne : dp ≠ ip) (hip : ip ≠ 0) (hnew : st.inode ip = ⟨T_DIR, 1, []⟩)
    (hplus : (st.inode dp).nlink + 1 ≠ 0) :
    Returns (st.createDots dp ip) fun st' => st'.Refs held ∧ st'.Settled
      ∧ Same ((st.addNlink dp 1).setInode ip ⟨T_DIR, 1, [⟨ip, dot⟩, ⟨dp, dotdot⟩]⟩) st' := by
  have h₁ : (st.addNlink dp 1).Refs held := h.setInode rfl fun _ hzero => absurd hzero hplus
  have hs₁ : (st.addNlink dp 1).Settled := hs.setInode fun _ hzero => absurd hzero hplus
  have hnew₁ : (st.addNlink dp 1).inode ip = ⟨T_DIR, 1, []⟩ := by
    rw [addNlink_inode, Function.update_of_ne hne.symm, hnew]
  apply (dirlink_spec h₁ hs₁ ip dot ip).bind
  rintro ⟨linked, st₂⟩ ⟨_, h₂, ⟨rfl, _⟩ | ⟨rfl, _, (hsame₂ : Same _ st₂)⟩⟩
  · trivial
  have hs₂ : st₂.Settled := hsame₂.settled (hs₁.setDirents ip _)
  have hinode₂ : st₂.inode = Function.update (st.addNlink dp 1).inode ip
      ⟨T_DIR, 1, [⟨ip, dot⟩]⟩ := by
    rw [hsame₂.inode]
    simp only [setDirents, setInode, hnew₁]
    rfl
  have hnew₂ : st₂.inode ip = ⟨T_DIR, 1, [⟨ip, dot⟩]⟩ := by
    rw [hinode₂, Function.update_self]
  apply (dirlink_spec h₂ hs₂ ip dotdot dp).bind
  rintro ⟨linked, st₃⟩ ⟨_, h₃, ⟨rfl, _⟩ | ⟨rfl, _, (hsame₃ : Same _ st₃)⟩⟩
  · trivial
  refine ⟨h₃, hsame₃.settled (hs₂.setDirents ip _), ?_, hsame₃.file.trans hsame₂.file,
    hsame₃.proc.trans hsame₂.proc⟩
  have hslot : slot [(⟨ip, dot⟩ : Dirent)] = 1 := by
    unfold slot
    rw [List.findIdx_cons, decide_eq_false hip]
    rfl
  rw [hsame₃.inode]
  simp only [setDirents, setInode, hnew₂, hinode₂, hslot, Function.update_idem]
  rfl

/-- The end of `create`: the entry in directory `dp`. -/
theorem createEnd_spec {st : Kernel n} (h : st.Refs [ip, dp]) (hs : st.Settled)
    (name : Name) :
    Returns (do
      let (linked, st) ← st.dirlink dp name ip
      if linked then do
        let st ← st.iunlockput dp
        .ok (some ip, st)
      else .error .createDirlink) fun r => r.1 = some ip ∧ r.2.Refs [ip]
        ∧ Same (st.setDirents dp (writeDirent (st.inode dp).dirents
          (slot (st.inode dp).dirents) ⟨ip, name⟩)) r.2 := by
  apply (dirlink_spec h hs dp name ip).bind
  rintro ⟨linked, st₁⟩ ⟨_, h₁, ⟨rfl, _⟩ | ⟨rfl, _, (hsame₁ : Same _ st₁)⟩⟩
  · trivial
  have hs₁ : st₁.Settled := hsame₁.settled (hs.setDirents dp _)
  have h₁' : st₁.Refs [dp, ip] := Refs.perm h₁ (List.Perm.swap _ _ _)
  apply (iunlockput_keep h₁' (hs₁ dp)).bind
  rintro st₂ ⟨hsame₂, h₂, _⟩
  exact ⟨rfl, h₂, hsame₁.trans hsame₂⟩

/-- The new inode of `create`, once it has its link. -/
theorem Refs.created {st₁ st₂ : Kernel n} (h : st.Refs held) {type : Int16}
    (htype : type ≠ 0) (hgot : Got (st.setInode ip ⟨type, 0, []⟩) st₁ ip)
    (hsame₂ : Same st₁ st₂) (href₂ : st₂.ref = st₁.ref)
    (hvalid₂ : ∀ j, j ≠ ip → st₂.valid j = st₁.valid j) :
    Same (st.setInode ip ⟨type, 1, []⟩)
        (st₂.setInode ip { st₂.inode ip with nlink := 1 })
      ∧ (st₂.setInode ip { st₂.inode ip with nlink := 1 }).Refs (ip :: held) := by
  have hsame : Same (st.setInode ip ⟨type, 1, []⟩)
      (st₂.setInode ip { st₂.inode ip with nlink := 1 }) := by
    refine ⟨?_, hsame₂.file.trans hgot.file, hsame₂.proc.trans hgot.proc⟩
    simp only [Kernel.setInode, hsame₂.inode, hgot.inode, Function.update_self,
      Function.update_idem]
  refine ⟨hsame, h.alloc htype Int.one_ne_zero hsame (fun j => ?_) fun j hj => ?_⟩
  · change st₂.ref j = _
    rw [href₂, hgot.ref]
    rfl
  · change st₂.valid j = _
    rw [hvalid₂ j hj, hgot.valid j (Or.inl hj)]
    rfl

section Created

variable {st st₃ st₄ st₅ : Kernel n} {type : Int16}

/-- **A new file** has its entry. -/
theorem file_created (ht : Tree st.inode) (hdp : Live st.inode dp)
    (hnone : lookup (st.inode dp).dirents name = none) (hip : ip ≠ 0)
    (hfree : (st.inode ip).type = 0) (htype : type ≠ 0) (hfile : type ≠ T_DIR)
    (hsame : Same (st.setInode ip ⟨type, 1, []⟩) st₃)
    (hsame₅ : Same (st₃.setDirents dp (writeDirent (st₃.inode dp).dirents
      (slot (st₃.inode dp).dirents) ⟨ip, name⟩)) st₅) (h₅ : st₅.Refs [ip]) :
    Keeps st st₅ [ip] := by
  have hne : dp ≠ ip := hdp.ne_of_free hfree
  have hdp₃ : st₃.inode dp = st.inode dp := by
    rw [hsame.inode]
    exact Function.update_of_ne hne _ _
  have hinode : st₅.inode = Function.update st₃.inode dp ⟨(st.inode dp).type,
      (st.inode dp).nlink, writeDirent (st.inode dp).dirents
        (slot (st.inode dp).dirents) ⟨ip, name⟩⟩ := by
    rw [hsame₅.inode]
    simp only [setDirents, setInode, hdp₃]
  have hnew : st₅.inode ip = ⟨type, 1, []⟩ := by
    rw [hinode, Function.update_of_ne hne.symm, hsame.inode]
    exact Function.update_self _ _ _
  have hold : (st.inode ip).type ≠ T_DIR := fun hdir => T_DIR_ne_zero (hdir.symm.trans hfree)
  refine ⟨?_, h₅, hsame₅.file.trans hsame.file, hsame₅.proc.trans hsame.proc⟩
  apply ht.link hdp hip hold hnone
  · intro d hd hdi
    rw [hinode, Function.update_of_ne hd, hsame.inode]
    exact Function.update_of_ne hdi _ _
  · rw [hinode, Function.update_self]
  · rw [hnew]
    exact hfile
  · rw [hnew]
    exact htype
  · rw [hnew, ht.not_down_of_free hfree]
    rfl

/-- **A new directory** has its entries and its entry. -/
theorem dir_created (ht : Tree st.inode) (hdp : Live st.inode dp)
    (hnone : lookup (st.inode dp).dirents name = none) (hip : ip ≠ 0)
    (hfree : (st.inode ip).type = 0)
    (hsame : Same (st.setInode ip ⟨T_DIR, 1, []⟩) st₃)
    (hsame₄ : Same ((st₃.addNlink dp 1).setInode ip
      ⟨T_DIR, 1, [⟨ip, dot⟩, ⟨dp, dotdot⟩]⟩) st₄)
    (hsame₅ : Same (st₄.setDirents dp (writeDirent (st₄.inode dp).dirents
      (slot (st₄.inode dp).dirents) ⟨ip, name⟩)) st₅) (h₅ : st₅.Refs [ip]) :
    Keeps st st₅ [ip] := by
  have hne : dp ≠ ip := hdp.ne_of_free hfree
  have hdp₃ : st₃.inode dp = st.inode dp := by
    rw [hsame.inode]
    exact Function.update_of_ne hne _ _
  have hdp₄ : st₄.inode dp = ⟨(st.inode dp).type, (st.inode dp).nlink + 1,
      (st.inode dp).dirents⟩ := by
    rw [hsame₄.inode]
    simp only [setInode, addNlink, Function.update_of_ne hne, Function.update_self, hdp₃]
  have hinode : st₅.inode = Function.update st₄.inode dp ⟨(st.inode dp).type,
      (st.inode dp).nlink + 1, writeDirent (st.inode dp).dirents
        (slot (st.inode dp).dirents) ⟨ip, name⟩⟩ := by
    rw [hsame₅.inode]
    simp only [setDirents, setInode, hdp₄]
  refine ⟨?_, h₅, hsame₅.file.trans (hsame₄.file.trans hsame.file),
    hsame₅.proc.trans (hsame₄.proc.trans hsame.proc)⟩
  apply ht.mkdir hdp hip hfree hnone
  · intro d hd hdi
    rw [hinode, Function.update_of_ne hd, hsame₄.inode]
    simp only [setInode, addNlink, Function.update_of_ne hd, Function.update_of_ne hdi,
      hsame.inode]
  · rw [hinode, Function.update_self]
  · rw [hinode, Function.update_of_ne hne.symm, hsame₄.inode]
    exact Function.update_self _ _ _

end Created

/-- **`create`** of a file or a directory, in a directory that has links. -/
theorem createNew_spec {st : Kernel n} (ht : Tree st.inode) (h : st.Refs [dp])
    (hs : st.Settled) (hdp : Live st.inode dp)
    (hnone : lookup (st.inode dp).dirents name = none) {type : Int16}
    (htype : type = T_DIR ∨ type = T_FILE) :
    Returns (st.createNew dp name type) fun r =>
      ∃ ip, r.1 = some ip ∧ Keeps st r.2 [ip] := by
  have htype0 : type ≠ 0 := by
    rcases htype with rfl | rfl <;> decide
  apply (ialloc_got st type).bind
  rintro ⟨ip, st₁⟩ ⟨(hip : ip ≠ 0), (hfree : (st.inode ip).type = 0),
    (hgot : Got (st.setInode ip ⟨type, 0, []⟩) st₁ ip)⟩
  apply (ilock_valid st₁ ip).bind
  rintro st₂ ⟨hsame₂, href₂, hvalid₂⟩
  obtain ⟨hsame, h₃⟩ := h.created htype0 hgot hsame₂ href₂ hvalid₂
  generalize hst₃ : st₂.setInode ip { st₂.inode ip with nlink := 1 } = st₃ at hsame h₃
  have hs₃ : st₃.Settled :=
    hsame.settled (hs.setInode fun _ hzero => absurd hzero Int.one_ne_zero)
  by_cases hmkdir : type = T_DIR
  · subst hmkdir
    have hne : dp ≠ ip := hdp.ne_of_free hfree
    have hplus : (st₃.inode dp).nlink + 1 ≠ 0 := by
      have hdp₃ : st₃.inode dp = st.inode dp := by
        rw [hsame.inode]
        exact Function.update_of_ne hne _ _
      have := ht.nlink_nonneg (hdp.1 ▸ T_DIR_ne_zero)
      rw [hdp₃]
      omega
    have hip₃ : st₃.inode ip = ⟨T_DIR, 1, []⟩ := by
      rw [hsame.inode]
      exact Function.update_self _ _ _
    rw [if_pos rfl]
    apply (createDots_spec h₃ hs₃ hne hip hip₃ hplus).bind
    rintro st₄ ⟨h₄, hs₄, hsame₄⟩
    apply (createEnd_spec h₄ hs₄ name).mono
    rintro ⟨r, st₅⟩ ⟨(rfl : r = some ip), h₅, hsame₅⟩
    exact ⟨ip, rfl, dir_created ht hdp hnone hip hfree hsame hsame₄ hsame₅ h₅⟩
  · rw [if_neg hmkdir]
    apply (createEnd_spec h₃ hs₃ name).mono
    rintro ⟨r, st₅⟩ ⟨(rfl : r = some ip), h₅, hsame₅⟩
    exact ⟨ip, rfl, file_created ht hdp hnone hip hfree htype0 hmkdir hsame hsame₅ h₅⟩

/-- **`create`** keeps the tree, if it adds no entry to a removed directory. -/
theorem create_spec (ht : Tree st.inode) (h : st.Refs []) (hp : st.proc p = some pr)
    {path : Path} {type : Int16} (htype : type = T_DIR ∨ type = T_FILE)
    (hadd : ∀ d, createsIn st.inode pr.cwd path = some d → (st.inode d).nlink ≠ 0) :
    Returns (st.create pr.cwd path type) fun r => Keeps st r.2 r.1.toList := by
  refine namex_bind h h.settled (h.cwd_pos hp) path true
    (fun st₁ hsame₁ h₁ _ => hsame₁.keeps ht h₁) fun dp name st₁ hsame₁ h₁ hnew => ?_
  apply (ilock_spec h₁ dp).bind
  rintro st₂ ⟨hsame₂, h₂, _, _⟩
  have hsame := hsame₁.trans hsame₂
  refine dirlookup_bind h₂ dp name (fun hdir hlook => ?_)
    fun _ de off st₃ hsame₃ h₃ _ => ?_
  · have hlive : Live st₂.inode dp := by
      refine ⟨hdir, ?_⟩
      rw [hsame.inode] at hlook ⊢
      apply hadd
      unfold createsIn
      rw [hnew]
      simp only [hlook, if_true]
    apply (createNew_spec (hsame.inode ▸ ht) h₂ (hsame.settled h.settled) hlive hlook
      htype).mono
    rintro ⟨r, st₃⟩ ⟨ip, (rfl : r = some ip), hk⟩
    exact hk.trans hsame.file hsame.proc
  · have hsame' := hsame.trans hsame₃
    have h₃' : st₃.Refs [dp, de.inum] := Refs.perm h₃ (List.Perm.swap _ _ _)
    apply (iunlockput_keep h₃' (hsame'.settled h.settled dp)).bind
    rintro st₄ ⟨hsame₄, h₄, _⟩
    apply (ilock_spec h₄ de.inum).bind
    rintro st₅ ⟨hsame₅, h₅, _, _⟩
    have hsame'' := (hsame'.trans hsame₄).trans hsame₅
    change Ends _ (if _ then _ else _) _
    split
    · exact hsame''.keeps ht h₅
    · apply (iunlockput_keep h₅ (hsame''.settled h.settled _)).bind
      rintro st₆ ⟨hsame₆, h₆, _⟩
      exact (hsame''.trans hsame₆).keeps ht h₆

end Kernel

end SchoolStuff.Xv6.Dirs
