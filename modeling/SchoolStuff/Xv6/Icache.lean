import SchoolStuff.Lib.Ends
import SchoolStuff.Xv6.Tree

/-!
# Xv6 — references to inodes

`Refs st held` says that the reference counts are exact: each is the number
of current directories and open files that are the inode, and of references
in `held`, which the running call has. An inode without links is kept as long
as it has references. `namex` then frees no inode, and finds what `walk`
finds (`namexLoop_spec`).
-/

namespace SchoolStuff.Xv6.Dirs

variable {n : Nat}

/-- What holds of the result of a call that returns. -/
abbrev Returns {α : Type} (x : Except Stop α) (P : α → Prop) : Prop :=
  Ends (fun _ => True) x P

namespace Kernel

/-! ## Counting references -/

/-- The current directory of each process. -/
def cwds (st : Kernel n) (p : Fin n) : List Inum := (st.proc p).toList.map Proc.cwd

/-- The inode of each open file. -/
def opens (st : Kernel n) (f : Fin NFILE) : List Inum := (st.file f).ip.toList

/-- The current directories and open files that are inode `i`. -/
def users (st : Kernel n) (i : Inum) : Nat := named st.cwds i + named st.opens i

/-- A call may change the inode cache, but no inode, file or process. -/
structure Same (st st' : Kernel n) : Prop where
  inode : st'.inode = st.inode
  file : st'.file = st.file
  proc : st'.proc = st.proc

structure Refs (st : Kernel n) (held : List Inum) : Prop where
  ref : ∀ i, st.ref i = st.users i + held.count i
  /-- A valid copy is of an inode in use. -/
  copy : ∀ i, 0 < st.ref i → st.valid i = true → (st.inode i).type ≠ 0
  kept : ∀ i, (st.inode i).type ≠ 0 → (st.inode i).nlink = 0 →
    0 < st.ref i ∧ st.valid i = true

/-- What a call has kept when it holds the references `held`. -/
structure Keeps (st st' : Kernel n) (held : List Inum) : Prop where
  tree : Tree st'.inode
  refs : st'.Refs held
  file : st'.file = st.file
  proc : st'.proc = st.proc

theorem Same.keeps {st st' : Kernel n} {held : List Inum} (hsame : Same st st')
    (ht : Tree st.inode) (h : st'.Refs held) : Keeps st st' held :=
  ⟨hsame.inode ▸ ht, h, hsame.file, hsame.proc⟩

theorem Keeps.trans {st st' st'' : Kernel n} {held : List Inum} (hk : Keeps st' st'' held)
    (hfile : st'.file = st.file) (hproc : st'.proc = st.proc) : Keeps st st'' held :=
  ⟨hk.tree, hk.refs, hk.file.trans hfile, hk.proc.trans hproc⟩

/-- Inodes without links are current directories or open files. -/
def Settled (st : Kernel n) : Prop :=
  ∀ i, (st.inode i).type ≠ 0 → (st.inode i).nlink = 0 → 0 < st.users i

variable {st st' st'' : Kernel n} {held : List Inum} {i : Inum}

theorem Same.refl (st : Kernel n) : Same st st := ⟨rfl, rfl, rfl⟩

theorem Same.trans (h : Same st st') (h' : Same st' st'') : Same st st'' :=
  ⟨h'.inode.trans h.inode, h'.file.trans h.file, h'.proc.trans h.proc⟩

theorem users_congr (hfile : st'.file = st.file) (hproc : st'.proc = st.proc) :
    st'.users i = st.users i := by
  simp only [users, named, cwds, opens, hfile, hproc]

theorem Same.users (h : Same st st') : st'.users i = st.users i :=
  users_congr h.file h.proc

theorem Same.settled (h : Same st st') (hs : st.Settled) : st'.Settled := by
  intro i
  rw [h.inode, h.users]
  exact hs i

theorem Refs.settled (h : st.Refs []) : st.Settled := by
  intro i htype hlink
  have hpos := (h.kept i htype hlink).1
  rwa [h.ref, List.count_nil, Nat.add_zero] at hpos

/-- A reference more in the cache and in the count. -/
theorem count_cons (held : List Inum) (i j : Inum) :
    (i :: held).count j = held.count j + if j = i then 1 else 0 := by
  rw [List.count_cons]
  simp only [beq_iff_eq, eq_comm (a := i)]

theorem Refs.perm {held' : List Inum} (h : st.Refs held) (hp : held.Perm held') :
    st.Refs held' :=
  ⟨fun i => by rw [h.ref, hp.count_eq], h.copy, h.kept⟩

theorem Refs.pos (h : st.Refs (i :: held)) : 0 < st.ref i := by
  rw [h.ref, count_cons, if_pos rfl]
  omega

/-! ## The functions of the cache -/

/-- `iget` and `idup` add a reference. -/
structure Got (st st' : Kernel n) (i : Inum) : Prop extends Same st st' where
  ref : ∀ j, st'.ref j = st.ref j + if j = i then 1 else 0
  valid : ∀ j, j ≠ i ∨ 0 < st.ref i → st'.valid j = st.valid j
  fresh : st.ref i = 0 → st'.valid i = false

theorem iget_got (st : Kernel n) (i : Inum) : Returns (st.iget i) (Got st · i) := by
  unfold iget
  split
  · rename_i hpos
    refine ⟨⟨rfl, rfl, rfl⟩, fun j => ?_, fun _ _ => rfl, fun hzero => absurd hzero (by omega)⟩
    by_cases hj : j = i
    · simp only [hj, Function.update_self, if_true]
    · simp only [Function.update_of_ne hj, if_neg hj, Nat.add_zero]
  rename_i hzero
  split
  · refine ⟨⟨rfl, rfl, rfl⟩, fun j => ?_, fun j hj => ?_, fun _ => Function.update_self _ _ _⟩
    · by_cases hj : j = i
      · simp only [hj, Function.update_self, if_true]
        omega
      · simp only [Function.update_of_ne hj, if_neg hj, Nat.add_zero]
    · exact Function.update_of_ne (hj.resolve_right hzero) _ _
  · trivial

theorem Refs.got (h : st.Refs held) (hg : Got st st' i) : st'.Refs (i :: held) := by
  refine ⟨fun j => ?_, fun j hpos hvalid => ?_, fun j htype hlink => ?_⟩
  · rw [hg.ref, h.ref, hg.users, count_cons]
    omega
  · rw [hg.inode]
    by_cases hj : j ≠ i ∨ 0 < st.ref i
    · rw [hg.valid j hj] at hvalid
      rw [hg.ref] at hpos
      apply h.copy j _ hvalid
      rcases hj with hj | hj
      · rwa [if_neg hj, Nat.add_zero] at hpos
      · by_cases hji : j = i
        · rwa [hji]
        · rwa [if_neg hji, Nat.add_zero] at hpos
    · rw [not_or, not_not, Nat.not_lt, Nat.le_zero] at hj
      rw [hj.1, hg.fresh hj.2] at hvalid
      cases hvalid
  · rw [hg.inode] at htype hlink
    obtain ⟨hpos, hvalid⟩ := h.kept j htype hlink
    have hj : j ≠ i ∨ 0 < st.ref i := by
      by_cases hji : j = i
      · exact Or.inr (hji ▸ hpos)
      · exact Or.inl hji
    rw [hg.ref, hg.valid j hj]
    exact ⟨Nat.add_pos_left hpos _, hvalid⟩

theorem idup_got (st : Kernel n) (hpos : 0 < st.ref i) : Got st (st.idup i) i := by
  refine ⟨⟨rfl, rfl, rfl⟩, fun j => ?_, fun _ _ => rfl, fun hzero => absurd hzero (by omega)⟩
  by_cases hj : j = i
  · simp only [idup, hj, Function.update_self, if_true]
  · simp only [idup, Function.update_of_ne hj, if_neg hj, Nat.add_zero]

theorem iget_spec (h : st.Refs held) (i : Inum) :
    Returns (st.iget i) fun st' => Same st st' ∧ st'.Refs (i :: held) :=
  (iget_got st i).mono fun _ hg => ⟨hg.toSame, h.got hg⟩

/-- `ilock` makes the copy valid, of an inode in use. -/
theorem ilock_spec (h : st.Refs held) (i : Inum) :
    Returns (st.ilock i) fun st' =>
      Same st st' ∧ st'.Refs held ∧ (st.inode i).type ≠ 0 ∧ st'.valid i = true := by
  unfold ilock
  split
  · trivial
  rename_i hpos
  split
  · trivial
  split
  · trivial
  rename_i hcopy
  have htype : (st.inode i).type ≠ 0 := by
    intro hzero
    by_cases hvalid : st.valid i = true
    · exact h.copy i (by omega) hvalid hzero
    · exact hcopy ⟨hvalid, hzero⟩
  refine ⟨⟨rfl, rfl, rfl⟩, ⟨h.ref, fun j hj hvalid => ?_, fun j hj hlink => ?_⟩, htype,
    Function.update_self _ _ _⟩
  · by_cases hji : j = i
    · rw [hji]
      exact htype
    · simp only [Function.update_of_ne hji] at hvalid
      exact h.copy j hj hvalid
  · refine ⟨(h.kept j hj hlink).1, ?_⟩
    by_cases hji : j = i
    · simp only [hji, Function.update_self]
    · simp only [Function.update_of_ne hji]
      exact (h.kept j hj hlink).2

theorem iunlock_spec (h : st.Refs held) (i : Inum) :
    Returns (st.iunlock i) fun st' =>
      Same st st' ∧ st'.Refs held ∧ st'.valid = st.valid := by
  unfold iunlock
  split
  · trivial
  · exact ⟨⟨rfl, rfl, rfl⟩, ⟨h.ref, h.copy, h.kept⟩, rfl⟩

/-- What `iput` does to an inode that stays. -/
theorem Refs.put (h : st.Refs (i :: held))
    (hkeep : (st.inode i).type ≠ 0 → (st.inode i).nlink = 0 → 1 < st.ref i) :
    Refs { st with ref := Function.update st.ref i (st.ref i - 1) } held := by
  have hpos := h.pos
  refine ⟨fun j => ?_, fun j hj hvalid => ?_, fun j htype hlink => ?_⟩
  · have href := h.ref j
    rw [count_cons] at href
    change Function.update st.ref i (st.ref i - 1) j = st.users j + held.count j
    by_cases hji : j = i
    · rw [hji] at href ⊢
      rw [Function.update_self]
      rw [if_pos rfl] at href
      omega
    · rw [Function.update_of_ne hji]
      rwa [if_neg hji, Nat.add_zero] at href
  · apply h.copy j _ hvalid
    by_cases hji : j = i
    · rw [hji]
      exact hpos
    · simpa only [Function.update_of_ne hji] using hj
  · refine ⟨?_, (h.kept j htype hlink).2⟩
    by_cases hji : j = i
    · subst hji
      have := hkeep htype hlink
      simp only [Function.update_self]
      omega
    · simp only [Function.update_of_ne hji]
      exact (h.kept j htype hlink).1

/-- `iput` of an inode with links, or with other references. -/
theorem iput_keep (h : st.Refs (i :: held))
    (hkeep : (st.inode i).type ≠ 0 → (st.inode i).nlink = 0 → 0 < st.users i) :
    Returns (st.iput i) fun st' => Same st st' ∧ st'.Refs held ∧ st'.valid = st.valid := by
  have hkeep' : (st.inode i).type ≠ 0 → (st.inode i).nlink = 0 → 1 < st.ref i := by
    intro htype hlink
    have := hkeep htype hlink
    rw [h.ref, count_cons, if_pos rfl]
    omega
  have hstay : ¬(st.valid i = true ∧ (st.inode i).nlink = 0 ∧ st.ref i = 1) := by
    rintro ⟨hvalid, hlink, hone⟩
    have := hkeep' (h.copy i h.pos hvalid) hlink
    omega
  unfold iput
  split
  · trivial
  · exact ⟨⟨rfl, rfl, rfl⟩, h.put hkeep', rfl⟩

/-- **`iput`** keeps the tree and the counts, also when it frees the inode. -/
theorem iput_spec (h : st.Refs (i :: held)) (ht : Tree st.inode) :
    Returns (st.iput i) (Keeps st · held) := by
  unfold iput
  split
  · trivial
  by_cases hfree : st.valid i = true ∧ (st.inode i).nlink = 0 ∧ st.ref i = 1
  · -- the last hold on an inode without links: it is freed
    simp only [if_pos hfree]
    obtain ⟨_, hlink, hone⟩ := hfree
    have href := h.ref i
    rw [count_cons, if_pos rfl, hone] at href
    have hself : (st.ifree i).inode i = { st.inode i with type := 0, dirents := [] } :=
      Function.update_self _ _ _
    have hne : ∀ j, j ≠ i → (st.ifree i).inode j = st.inode j := fun j hj =>
      Function.update_of_ne hj _ _
    refine ⟨ht.free hlink, ⟨fun j => ?_, fun j hj hvalid => ?_, fun j htype hl => ?_⟩,
      rfl, rfl⟩
    · change Function.update st.ref i (st.ref i - 1) j = st.users j + held.count j
      by_cases hji : j = i
      · rw [hji, Function.update_self]
        omega
      · rw [Function.update_of_ne hji, h.ref, count_cons, if_neg hji, Nat.add_zero]
    · change Function.update st.valid i false j = true at hvalid
      change 0 < Function.update st.ref i (st.ref i - 1) j at hj
      have hji : j ≠ i := by
        rintro rfl
        rw [Function.update_self] at hvalid
        cases hvalid
      rw [Function.update_of_ne hji] at hvalid hj
      change ((st.ifree i).inode j).type ≠ 0
      rw [hne j hji]
      exact h.copy j hj hvalid
    · change ((st.ifree i).inode j).type ≠ 0 at htype
      change ((st.ifree i).inode j).nlink = 0 at hl
      have hji : j ≠ i := by
        rintro rfl
        rw [hself] at htype
        exact htype rfl
      rw [hne j hji] at htype hl
      have hkept := h.kept j htype hl
      change 0 < Function.update st.ref i (st.ref i - 1) j
        ∧ Function.update st.valid i false j = true
      rw [Function.update_of_ne hji, Function.update_of_ne hji]
      exact hkept
  · simp only [if_neg hfree]
    refine ⟨ht, h.put fun htype hlink => ?_, rfl, rfl⟩
    -- without links its copy is valid, so what kept it is another hold
    have hpos := h.pos
    have hvalid := (h.kept i htype hlink).2
    by_contra hle
    exact hfree ⟨hvalid, hlink, by omega⟩

/-- `iunlockput`, as `iput_keep`. -/
theorem iunlockput_keep (h : st.Refs (i :: held))
    (hkeep : (st.inode i).type ≠ 0 → (st.inode i).nlink = 0 → 0 < st.users i) :
    Returns (st.iunlockput i) fun st' =>
      Same st st' ∧ st'.Refs held ∧ st'.valid = st.valid := by
  apply (iunlock_spec h i).bind
  rintro st₁ ⟨hsame, h₁, hvalid⟩
  have hkeep₁ : (st₁.inode i).type ≠ 0 → (st₁.inode i).nlink = 0 → 0 < st₁.users i := by
    rw [hsame.inode, hsame.users]
    exact hkeep
  apply (iput_keep h₁ hkeep₁).mono
  exact fun _ h₂ => ⟨hsame.trans h₂.1, h₂.2.1, h₂.2.2.trans hvalid⟩

/-- `iunlockput`, as `iput_spec`. -/
theorem iunlockput_spec (h : st.Refs (i :: held)) (ht : Tree st.inode) :
    Returns (st.iunlockput i) (Keeps st · held) := by
  apply (iunlock_spec h i).bind
  rintro st₁ ⟨hsame, h₁, _⟩
  rw [← hsame.inode] at ht
  exact (iput_spec h₁ ht).mono fun _ hk => hk.trans hsame.file hsame.proc

/-! ## Directories -/

/-- The rule for `dirlookup`: what follows it, where `lookup` finds nothing and
where it finds an entry. -/
theorem dirlookup_bind {α : Type} {P : α → Prop} (h : st.Refs held) (dp : Inum)
    (name : Name) {k : Option (Inum × Nat) × Kernel n → Except Stop α}
    (hnone : (st.inode dp).type = T_DIR → lookup (st.inode dp).dirents name = none →
      Returns (k (none, st)) P)
    (hsome : (st.inode dp).type = T_DIR → ∀ de off st₁, Same st st₁ →
      st₁.Refs (de.inum :: held) → lookup (st.inode dp).dirents name = some (de, off) →
      Returns (k (some (de.inum, off), st₁)) P) :
    Returns (st.dirlookup dp name >>= k) P := by
  unfold dirlookup
  split
  · trivial
  rename_i hdir
  rw [ne_eq, not_not] at hdir
  split
  · rename_i hlook
    exact hnone hdir hlook
  · rename_i de off hlook
    rw [bind_assoc]
    apply (iget_spec h de.inum).bind
    exact fun st₁ h₁ => hsome hdir de off st₁ h₁.1 h₁.2 hlook

end Kernel

/-! ## Paths in a table -/

/-- The inode that a path leads to from `ip`, or with `nameiparent` the one
before the last name, and the last name. -/
def walk (t : Table) (ip : Inum) (path : Path) (nameiparent : Bool) (name : Name) :
    Option (Inum × Name) :=
  match _ : skipelem path with
  | none => if nameiparent then none else some (ip, name)
  | some (name, path) =>
      if (t ip).type ≠ T_DIR then none
      else if nameiparent ∧ path = [] then some (ip, name)
      else (lookup (t ip).dirents name).bind fun x =>
        walk t x.1.inum path nameiparent name
termination_by path.length
decreasing_by exact skipelem_length ‹_›

/-- `walk` from the root directory or from `cwd`. -/
def walkFrom (t : Table) (cwd : Inum) (path : Path) (nameiparent : Bool) :
    Option (Inum × Name) :=
  walk t (if path.head? = some slash then ROOTINO else cwd) path nameiparent []

theorem walk_end {t : Table} {ip : Inum} {path : Path} {nameiparent : Bool} {name : Name}
    (h : skipelem path = none) :
    walk t ip path nameiparent name = if nameiparent then none else some (ip, name) := by
  rw [walk]
  split
  · rfl
  · rename_i h'
    rw [h] at h'
    cases h'

theorem walk_elem {t : Table} {ip : Inum} {path rest : Path} {nameiparent : Bool}
    {name elem : Name} (h : skipelem path = some (elem, rest)) :
    walk t ip path nameiparent name =
      if (t ip).type ≠ T_DIR then none
      else if nameiparent ∧ rest = [] then some (ip, elem)
      else (lookup (t ip).dirents elem).bind fun x =>
        walk t x.1.inum rest nameiparent elem := by
  rw [walk]
  split
  · rename_i h'
    rw [h] at h'
    cases h'
  · rename_i h'
    rw [h] at h'
    cases h'
    rfl

/-- `walk` looks at types and entries only. -/
theorem walk_congr {t t' : Table}
    (h : ∀ i, (t' i).type = (t i).type ∧ (t' i).dirents = (t i).dirents) (ip : Inum)
    (path : Path) (nameiparent : Bool) (name : Name) :
    walk t' ip path nameiparent name = walk t ip path nameiparent name := by
  induction hlen : path.length using Nat.strongRecOn generalizing ip path name with
  | ind m ih =>
      subst hlen
      cases helem : skipelem path with
      | none => rw [walk_end helem, walk_end helem]
      | some x =>
          have hrec : ∀ y : Dirent × Nat, walk t' y.1.inum x.2 nameiparent x.1
              = walk t y.1.inum x.2 nameiparent x.1 := fun y =>
            ih x.2.length (skipelem_length helem) y.1.inum x.2 x.1 rfl
          rw [walk_elem helem, walk_elem helem, (h ip).1, (h ip).2]
          simp only [hrec]

theorem walkFrom_congr {t t' : Table}
    (h : ∀ i, (t' i).type = (t i).type ∧ (t' i).dirents = (t i).dirents) (cwd : Inum)
    (path : Path) (nameiparent : Bool) :
    walkFrom t' cwd path nameiparent = walkFrom t cwd path nameiparent :=
  walk_congr h _ _ _ _

/-- Link counts do not matter to a path. -/
theorem walkFrom_addNlink {t : Table} (ip : Inum) (k : Int) (cwd : Inum) (path : Path)
    (nameiparent : Bool) :
    walkFrom (Function.update t ip { t ip with nlink := (t ip).nlink + k }) cwd path
      nameiparent = walkFrom t cwd path nameiparent := by
  apply walkFrom_congr
  intro i
  by_cases hi : i = ip
  · rw [hi, Function.update_self]
    exact ⟨rfl, rfl⟩
  · rw [Function.update_of_ne hi]
    exact ⟨rfl, rfl⟩

namespace Kernel

variable {st : Kernel n} {held : List Inum}

/-- **`namex`** finds what `walk` finds, and holds a reference to it. -/
theorem namexLoop_spec (hs : st.Settled) {ip : Inum} (h : st.Refs (ip :: held))
    (path : Path) (nameiparent : Bool) (name : Name) :
    Returns (st.namexLoop ip path nameiparent name) fun r => Same st r.2
      ∧ r.1 = walk st.inode ip path nameiparent name
      ∧ r.2.Refs (r.1.toList.map Prod.fst ++ held) := by
  induction hlen : path.length using Nat.strongRecOn generalizing st ip path name with
  | ind m ih =>
      subst hlen
      rw [namexLoop]
      split
      · rename_i hend
        rw [walk_end hend]
        by_cases hparent : nameiparent = true
        · rw [if_pos hparent, if_pos hparent]
          apply (iput_keep h (hs ip)).bind
          rintro st₁ ⟨hsame, h₁, _⟩
          exact ⟨hsame, rfl, h₁⟩
        · rw [if_neg hparent, if_neg hparent]
          exact ⟨Same.refl _, rfl, h⟩
      rename_i elem rest helem
      rw [walk_elem helem]
      apply (ilock_spec h ip).bind
      rintro st₁ ⟨hsame₁, h₁, _⟩
      have hs₁ := hsame₁.settled hs
      rw [hsame₁.inode]
      by_cases hdir : (st.inode ip).type ≠ T_DIR
      · rw [if_pos hdir, if_pos hdir]
        apply (iunlockput_keep h₁ (hs₁ ip)).bind
        rintro st₂ ⟨hsame₂, h₂, _⟩
        exact ⟨hsame₁.trans hsame₂, rfl, h₂⟩
      rw [if_neg hdir, if_neg hdir]
      by_cases hlast : nameiparent = true ∧ rest = []
      · rw [if_pos hlast, if_pos hlast]
        apply (iunlock_spec h₁ ip).bind
        rintro st₂ ⟨hsame₂, h₂, _⟩
        exact ⟨hsame₁.trans hsame₂, rfl, h₂⟩
      rw [if_neg hlast, if_neg hlast]
      rw [← hsame₁.inode]
      refine dirlookup_bind h₁ ip elem (fun _ hlook => ?_)
        fun _ de off st₂ hsame₂ h₂ hlook => ?_
      · rw [hlook]
        apply (iunlockput_keep h₁ (hs₁ ip)).bind
        rintro st₂ ⟨hsame₂, h₂, _⟩
        exact ⟨hsame₁.trans hsame₂, rfl, h₂⟩
      · rw [hlook]
        have hsame₁₂ := hsame₁.trans hsame₂
        -- the entry's inode is held before the directory is put
        have h₂' : st₂.Refs (ip :: de.inum :: held) := h₂.perm (List.Perm.swap _ _ _)
        apply (iunlockput_keep h₂' (hsame₁₂.settled hs ip)).bind
        rintro st₃ ⟨hsame₃, h₃, _⟩
        have hsame := hsame₁₂.trans hsame₃
        have hrest := ih rest.length (skipelem_length helem) (hsame.settled hs) h₃ rest
          elem rfl
        apply hrest.mono
        rintro r ⟨hsame₄, hwalk, h₄⟩
        rw [hsame.inode, ← hsame₁.inode] at hwalk
        exact ⟨hsame.trans hsame₄, hwalk, h₄⟩

/-- `namex` with the references that it takes. -/
theorem namex_spec (h : st.Refs held) (hs : st.Settled) {cwd : Inum}
    (hcwd : 0 < st.ref cwd) (path : Path) (nameiparent : Bool) :
    Returns (st.namex cwd path nameiparent) fun r => Same st r.2
      ∧ r.1 = walkFrom st.inode cwd path nameiparent
      ∧ r.2.Refs (r.1.toList.map Prod.fst ++ held) := by
  unfold namex walkFrom
  by_cases hslash : path.head? = some slash
  · rw [if_pos hslash, if_pos hslash]
    apply (iget_spec h ROOTINO).bind
    rintro st₁ ⟨hsame, h₁⟩
    rw [← hsame.inode]
    apply (namexLoop_spec (hsame.settled hs) h₁ path nameiparent []).mono
    exact fun r hr => ⟨hsame.trans hr.1, hr.2⟩
  · rw [if_neg hslash, if_neg hslash]
    have hgot := idup_got st hcwd
    apply (namexLoop_spec (hgot.toSame.settled hs) (h.got hgot) path nameiparent []).mono
    exact fun r hr => ⟨hgot.toSame.trans hr.1, hr.2⟩

/-- The rule for `namex`: what follows it, where `walk` finds nothing and where
it finds an inode. -/
theorem namex_bind {α : Type} {P : α → Prop} (h : st.Refs held) (hs : st.Settled)
    {cwd : Inum} (hcwd : 0 < st.ref cwd) (path : Path) (nameiparent : Bool)
    {k : Option (Inum × Name) × Kernel n → Except Stop α}
    (hnone : ∀ st₁, Same st st₁ → st₁.Refs held →
      walkFrom st.inode cwd path nameiparent = none → Returns (k (none, st₁)) P)
    (hsome : ∀ ip name st₁, Same st st₁ → st₁.Refs (ip :: held) →
      walkFrom st.inode cwd path nameiparent = some (ip, name) →
      Returns (k (some (ip, name), st₁)) P) :
    Returns (st.namex cwd path nameiparent >>= k) P := by
  apply (namex_spec h hs hcwd path nameiparent).bind
  rintro ⟨found, st₁⟩ ⟨hsame, hfound, h₁⟩
  cases found with
  | none => exact hnone st₁ hsame h₁ hfound.symm
  | some x => exact hsome x.1 x.2 st₁ hsame h₁ hfound.symm

end Kernel

end SchoolStuff.Xv6.Dirs
