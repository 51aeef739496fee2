import SchoolStuff.Xv6.Links

/-!
# Xv6 — link counts over a run

`Inv` holds between two calls: the inodes are a `Tree`, and the reference
counts of inodes and files are exact. Every call keeps it that adds no entry
to a directory without links (`step_spec`). When no file is open and every
process is in the root directory, no inode has references, so every inode has
links (`links_exact`). An entry in a removed directory is lost with it
(`removed_directory_leaks`).
-/

namespace SchoolStuff.Xv6.Dirs

variable {n : Nat}

/-- The directory in which a call makes a new entry. -/
def addsTo (t : Table) (cwd : Inum) : Call → Option Inum
  | .mkdir path => createsIn t cwd path
  | .openCreate path => createsIn t cwd path
  | .link old new => linksIn t cwd old new
  | _ => none

namespace Kernel

/-- The call adds no entry to a directory without links. -/
def AddsToLinked (st : Kernel n) (p : Fin n) (c : Call) : Prop :=
  ∀ pr d, st.proc p = some pr → addsTo st.inode pr.cwd c = some d →
    (st.inode d).nlink ≠ 0

/-- No call of the run adds an entry to a directory without links. -/
def LinkedRun (st : Kernel n) : List (Fin n × Call) → Prop
  | [] => True
  | (p, c) :: cs => st.AddsToLinked p c ∧ ∀ st', st.step p c = .ok st' → st'.LinkedRun cs

/-! ## References to files -/

/-- The file that a descriptor is. -/
def fds (st : Kernel n) (x : Fin n × Fin NOFILE) : List (Fin NFILE) :=
  ((st.proc x.1).bind fun pr => pr.ofile x.2).toList

structure FileRefs (st : Kernel n) : Prop where
  ref : ∀ f, (st.file f).ref = named st.fds f
  free : ∀ f, (st.file f).ref = 0 → (st.file f).ip = none

structure Inv (st : Kernel n) : Prop where
  tree : Tree st.inode
  refs : st.Refs []
  files : st.FileRefs

variable {st st' : Kernel n} {held held' : List Inum} {p : Fin n} {pr pr' : Proc}

theorem FileRefs.congr (h : st.FileRefs) (hfile : st'.file = st.file)
    (hproc : st'.proc = st.proc) : st'.FileRefs := by
  have hfds : st'.fds = st.fds := by
    funext x
    simp only [fds, hproc]
  refine ⟨fun f => ?_, fun f => ?_⟩
  · rw [hfile, hfds, h.ref]
  · rw [hfile]
    exact h.free f

theorem Keeps.inv (hk : Keeps st st' []) (h : st.FileRefs) : st'.Inv :=
  ⟨hk.tree, hk.refs, h.congr hk.file hk.proc⟩

/-- References that move between the call, the processes and the files. -/
theorem Refs.move (h : st.Refs held) (hinode : st'.inode = st.inode) (href : st'.ref = st.ref)
    (hvalid : st'.valid = st.valid)
    (hcount : ∀ i, st'.users i + held'.count i = st.users i + held.count i) :
    st'.Refs held' := by
  refine ⟨fun i => ?_, ?_, ?_⟩
  · rw [hcount, href]
    exact h.ref i
  · rw [hinode, href, hvalid]
    exact h.copy
  · rw [hinode, href, hvalid]
    exact h.kept

/-- The references of one process have changed. -/
theorem users_setProc (st : Kernel n) (p : Fin n) (x : Option Proc) (i : Inum) :
    (st.setProc p x).users i + (st.cwds p).count i
      = st.users i + (x.toList.map Proc.cwd).count i := by
  have hoff : named (st.setProc p x).cwds i + (st.cwds p).count i
      = named st.cwds i + ((st.setProc p x).cwds p).count i :=
    named_off (fun q hq => by simp only [cwds, setProc, Function.update_of_ne hq]) i
  have hself : (st.setProc p x).cwds p = x.toList.map Proc.cwd := by
    simp only [cwds, setProc, Function.update_self]
  have hopens : (st.setProc p x).opens = st.opens := rfl
  rw [hself] at hoff
  simp only [users, hopens]
  omega

theorem cwds_eq (hp : st.proc p = some pr) : st.cwds p = [pr.cwd] := by
  simp only [cwds, hp, Option.toList_some, List.map_cons, List.map_nil]

/-- The references of one file have changed. -/
theorem users_setFile (st : Kernel n) (f : Fin NFILE) (fp : File) (i : Inum) :
    (st.setFile f fp).users i + (st.file f).ip.toList.count i
      = st.users i + fp.ip.toList.count i := by
  have hoff : named (st.setFile f fp).opens i + (st.opens f).count i
      = named st.opens i + ((st.setFile f fp).opens f).count i :=
    named_off (fun g hg => by simp only [opens, setFile, Function.update_of_ne hg]) i
  have hself : (st.setFile f fp).opens f = fp.ip.toList := by
    simp only [opens, setFile, Function.update_self]
  have hcwds : (st.setFile f fp).cwds = st.cwds := rfl
  rw [hself] at hoff
  unfold opens at hoff
  simp only [users, hcwds]
  unfold opens
  omega

/-- One descriptor has changed. -/
theorem named_fds (hproc : st.proc p = some pr) (fd : Fin NOFILE) (x : Option (Fin NFILE))
    (f : Fin NFILE) :
    named (st.setProc p (some { pr with ofile := Function.update pr.ofile fd x })).fds f
        + (pr.ofile fd).toList.count f
      = named st.fds f + x.toList.count f := by
  have hoff : named (st.setProc p (some { pr with
        ofile := Function.update pr.ofile fd x })).fds f + (st.fds (p, fd)).count f
      = named st.fds f + ((st.setProc p (some { pr with
        ofile := Function.update pr.ofile fd x })).fds (p, fd)).count f := by
    apply named_off
    rintro ⟨q, g⟩ hne
    by_cases hq : q = p
    · have hg : g ≠ fd := fun hg => hne (by rw [hq, hg])
      simp only [fds, setProc, hq, Function.update_self, hproc, Option.bind_some,
        Function.update_of_ne hg]
    · simp only [fds, setProc, Function.update_of_ne hq]
  have hold : st.fds (p, fd) = (pr.ofile fd).toList := by
    simp only [fds, hproc, Option.bind_some]
  have hnew : (st.setProc p (some { pr with
      ofile := Function.update pr.ofile fd x })).fds (p, fd) = x.toList := by
    simp only [fds, setProc, Function.update_self, Option.bind_some]
  rw [hold, hnew] at hoff
  exact hoff

/-! ## Calls on files -/

/-- `iput` does not look at processes. -/
theorem iput_setProc (st : Kernel n) (p : Fin n) (x : Option Proc) (i : Inum) :
    (st.setProc p x).iput i = (st.iput i).map (·.setProc p x) := by
  have hlock : (st.setProc p x).locked i = st.locked i := rfl
  have hsame : ((st.setProc p x).valid i = true ∧ ((st.setProc p x).inode i).nlink = 0
      ∧ (st.setProc p x).ref i = 1)
      = (st.valid i = true ∧ (st.inode i).nlink = 0 ∧ st.ref i = 1) := rfl
  unfold iput
  rw [hlock]
  split
  · rfl
  · by_cases hfree : st.valid i = true ∧ (st.inode i).nlink = 0 ∧ st.ref i = 1
    · simp only [hsame, if_pos hfree]
      rfl
    · simp only [hsame, if_neg hfree]
      rfl

/-- `fileclose` does not look at processes. -/
theorem fileclose_setProc (st : Kernel n) (p : Fin n) (x : Option Proc) (f : Fin NFILE) :
    (st.setProc p x).fileclose f = (st.fileclose f).map (·.setProc p x) := by
  have hfile : (st.setProc p x).file f = st.file f := rfl
  have hset : ∀ fp, (st.setProc p x).setFile f fp = (st.setFile f fp).setProc p x :=
    fun _ => rfl
  unfold fileclose
  simp only [hfile, hset]
  split
  · rfl
  split
  · rfl
  cases (st.file f).ip with
  | none => rfl
  | some ip => exact iput_setProc _ p x ip

/-- **`fileclose`** of a file that one descriptor less is than its count says. -/
theorem fileclose_spec {f : Fin NFILE} (h : st.Refs []) (ht : Tree st.inode)
    (href : ∀ g, (st.file g).ref = named st.fds g + if g = f then 1 else 0)
    (hfree : ∀ g, (st.file g).ref = 0 → (st.file g).ip = none) :
    Returns (st.fileclose f) fun st' => st'.Inv ∧ st'.proc = st.proc := by
  have hfiles : ∀ fp : File, fp.ref = named st.fds f → (fp.ref = 0 → fp.ip = none) →
      (st.setFile f fp).FileRefs := by
    intro fp hfp hip
    refine ⟨fun g => ?_, fun g hg => ?_⟩
    · change (Function.update st.file f fp g).ref = named st.fds g
      by_cases hgf : g = f
      · rw [hgf, Function.update_self, hfp]
      · rw [Function.update_of_ne hgf, href, if_neg hgf, Nat.add_zero]
    · change (Function.update st.file f fp g).ref = 0 at hg
      change (Function.update st.file f fp g).ip = none
      by_cases hgf : g = f
      · rw [hgf, Function.update_self] at hg ⊢
        exact hip hg
      · rw [Function.update_of_ne hgf] at hg ⊢
        exact hfree g hg
  have hf := href f
  rw [if_pos rfl] at hf
  unfold fileclose
  simp only
  split
  · trivial
  split
  · -- another descriptor is left
    refine ⟨⟨ht, h.move rfl rfl rfl fun i => ?_, hfiles _ ?_ ?_⟩, rfl⟩
    · have hsame := users_setFile st f { st.file f with ref := (st.file f).ref - 1 } i
      rw [Nat.add_right_cancel hsame]
    · change (st.file f).ref - 1 = _
      omega
    · intro hzero
      change (st.file f).ref - 1 = 0 at hzero
      omega
  · -- it was the last one: the inode is put back
    have hclosed : (st.setFile f ⟨0, none⟩).FileRefs := by
      apply hfiles
      · change 0 = _
        omega
      · exact fun _ => rfl
    have hmove : (st.setFile f ⟨0, none⟩).Refs (st.file f).ip.toList := by
      refine h.move rfl rfl rfl fun i => ?_
      have := users_setFile st f ⟨0, none⟩ i
      simp only [Option.toList_none, List.count_nil] at this ⊢
      omega
    cases hip : (st.file f).ip with
    | none =>
        rw [hip] at hmove
        exact ⟨⟨ht, hmove, hclosed⟩, rfl⟩
    | some ip =>
        rw [hip] at hmove
        apply (iput_spec hmove ht).mono
        exact fun st' hk => ⟨hk.inv hclosed, hk.proc⟩

/-- One descriptor is closed. -/
theorem close_spec (h : st.Inv) (hp : st.proc p = some pr) {fd : Fin NOFILE}
    {f : Fin NFILE} (hopen : pr.ofile fd = some f) :
    Returns ((st.setProc p (some { pr with
        ofile := Function.update pr.ofile fd none })).fileclose f) fun st' =>
      st'.Inv ∧ st'.proc p = some { pr with ofile := Function.update pr.ofile fd none } := by
  have hrefs : (st.setProc p (some { pr with
      ofile := Function.update pr.ofile fd none })).Refs [] := by
    refine h.refs.move rfl rfl rfl fun i => ?_
    have hmove := users_setProc st p (some { pr with
      ofile := Function.update pr.ofile fd none }) i
    rw [cwds_eq hp] at hmove
    rw [Nat.add_right_cancel hmove]
  have href : ∀ g, (st.file g).ref = named (st.setProc p (some { pr with
      ofile := Function.update pr.ofile fd none })).fds g + if g = f then 1 else 0 := by
    intro g
    have hcount := named_fds hp fd none g
    rw [hopen] at hcount
    simp only [Option.toList_some, Option.toList_none, List.count_nil, List.count_singleton,
      beq_iff_eq, eq_comm (a := f)] at hcount
    rw [h.files.ref]
    omega
  apply (fileclose_spec hrefs h.tree href h.files.free).mono
  rintro st' ⟨hinv, hproc⟩
  refine ⟨hinv, ?_⟩
  rw [hproc]
  exact Function.update_self _ _ _

/-- **`close`**. -/
theorem sysClose_spec (h : st.Inv) (hp : st.proc p = some pr) (fd : Int) :
    Returns (st.sysClose p pr fd) fun r => r.2.Inv := by
  unfold sysClose
  cases hfd : argfd pr fd with
  | none => exact h
  | some x =>
      obtain ⟨fd', f⟩ := x
      have hopen : pr.ofile fd' = some f := by
        unfold argfd at hfd
        split at hfd
        · cases hfd
        · obtain ⟨g, hg, heq⟩ := Option.map_eq_some_iff.1 hfd
          cases heq
          exact hg
      apply (close_spec h hp hopen).bind
      exact fun st' hclose => hclose.1

/-- A turn of the loop of `exit`. -/
theorem closeFd_spec {s : Proc × Kernel n} (h : s.2.Inv) (hp : s.2.proc p = some s.1)
    (fd : Fin NOFILE) :
    Returns (closeFd p s fd) fun s' => s'.2.Inv ∧ s'.2.proc p = some s'.1
      ∧ s'.1.ofile = Function.update s.1.ofile fd none := by
  obtain ⟨pr, st⟩ := s
  unfold closeFd
  cases hopen : pr.ofile fd with
  | none =>
      refine ⟨h, hp, ?_⟩
      rw [← hopen]
      exact (Function.update_eq_self fd pr.ofile).symm
  | some f =>
      -- the descriptor is cleared after the file, as well as before it
      have hclose := close_spec h hp hopen
      rw [fileclose_setProc] at hclose
      change Ends _ (st.fileclose f >>= _) _
      cases hrun : st.fileclose f with
      | error e => trivial
      | ok st' =>
          rw [hrun] at hclose
          exact ⟨hclose.1, hclose.2, rfl⟩

/-- A process leaves its directory, for another one or for good. -/
theorem leave_spec {x : Option Proc} (ht : Tree st.inode)
    (h : st.Refs (x.toList.map Proc.cwd)) (hfiles : st.FileRefs) (hp : st.proc p = some pr)
    (hopen : ∀ fd, (x.bind fun pr => pr.ofile fd) = pr.ofile fd) :
    Returns (st.iput pr.cwd) fun st' => (st'.setProc p x).Inv := by
  have hrefs : (st.setProc p x).Refs [pr.cwd] := by
    refine h.move rfl rfl rfl fun i => ?_
    rw [← cwds_eq hp]
    exact users_setProc st p x i
  have hfds : (st.setProc p x).fds = st.fds := by
    funext ⟨q, fd⟩
    by_cases hq : q = p
    · simp only [fds, setProc, hq, Function.update_self, hp, hopen, Option.bind_some]
    · simp only [fds, setProc, Function.update_of_ne hq]
  have hfiles' : (st.setProc p x).FileRefs := by
    refine ⟨fun f => ?_, hfiles.free⟩
    rw [hfds]
    exact hfiles.ref f
  have hput := iput_spec hrefs ht
  rw [iput_setProc] at hput
  cases hrun : st.iput pr.cwd with
  | error e => trivial
  | ok st' =>
      rw [hrun] at hput
      exact hput.inv hfiles'

/-- **`exit`** closes the files that are open, and leaves the directory. -/
theorem exit_spec (h : st.Inv) (hp : st.proc p = some pr) :
    Returns (st.exit p pr) Inv := by
  unfold exit
  split
  · trivial
  have hloop : Returns ((List.finRange NOFILE).foldlM (closeFd p) (pr, st)) fun s =>
      s.2.Inv ∧ s.2.proc p = some s.1 ∧ ∀ fd, s.1.ofile fd ≠ none → fd ∈ ([] : List _) := by
    apply Ends.foldlM fun rest (s : Proc × Kernel n) => s.2.Inv ∧ s.2.proc p = some s.1
      ∧ ∀ fd, s.1.ofile fd ≠ none → fd ∈ rest
    · rintro fd rest s ⟨h, hp, hrest⟩
      apply (closeFd_spec h hp fd).mono
      rintro s' ⟨h', hp', hofile⟩
      refine ⟨h', hp', fun g hg => ?_⟩
      rw [hofile] at hg
      by_cases hgf : g = fd
      · rw [hgf, Function.update_self] at hg
        exact absurd rfl hg
      · rw [Function.update_of_ne hgf] at hg
        exact (List.mem_cons.1 (hrest g hg)).resolve_left hgf
    · exact ⟨h, hp, fun fd _ => List.mem_finRange fd⟩
  apply hloop.bind
  rintro ⟨pr, st⟩ ⟨(h : st.Inv), (hp : st.proc p = some pr), hclosed⟩
  have hnone : ∀ fd, ((none : Option Proc).bind fun pr => pr.ofile fd) = pr.ofile fd := by
    intro fd
    by_contra hne
    exact List.not_mem_nil (hclosed fd (Ne.symm hne))
  apply (leave_spec (x := none) h.tree h.refs h.files hp hnone).bind
  exact fun st' h' => h'

/-- **`chdir`** moves the reference of a process. -/
theorem sysChdir_spec (h : st.Inv) (hp : st.proc p = some pr) (path : Path) :
    Returns (st.sysChdir p pr path) fun r => r.2.Inv := by
  refine namei_bind h.refs h.refs.settled hp path
    (fun st₁ hsame₁ h₁ _ => (hsame₁.keeps h.tree h₁).inv h.files)
    fun ip _ st₁ hsame₁ h₁ _ => ?_
  apply (ilock_spec h₁ ip).bind
  rintro st₂ ⟨hsame₂, h₂, _, _⟩
  have hsame := hsame₁.trans hsame₂
  change Ends _ (if _ then _ else _) _
  split
  · apply (iunlockput_keep h₂ (hsame.settled h.refs.settled ip)).bind
    rintro st₃ ⟨hsame₃, h₃, _⟩
    exact ((hsame.trans hsame₃).keeps h.tree h₃).inv h.files
  apply (iunlock_spec h₂ ip).bind
  rintro st₃ ⟨hsame₃, h₃, _⟩
  have hsame' := hsame.trans hsame₃
  have htree : Tree st₃.inode := by
    rw [hsame'.inode]
    exact h.tree
  have hp₃ : st₃.proc p = some pr := by
    rw [hsame'.proc]
    exact hp
  have hleave := leave_spec (x := some { pr with cwd := ip }) htree h₃
    (h.files.congr hsame'.file hsame'.proc) hp₃ fun _ => rfl
  apply hleave.bind
  exact fun st' h' => h'

/-- **`mkdir`**. -/
theorem sysMkdir_spec (h : st.Inv) (hp : st.proc p = some pr) {path : Path}
    (hadd : ∀ d, createsIn st.inode pr.cwd path = some d → (st.inode d).nlink ≠ 0) :
    Returns (st.sysMkdir pr path) fun r => r.2.Inv := by
  apply (create_spec h.tree h.refs hp (Or.inl rfl) hadd).bind
  rintro ⟨r, st₁⟩ hk
  cases r with
  | none => exact hk.inv h.files
  | some ip =>
      apply (iunlockput_spec hk.refs hk.tree).bind
      exact fun st₂ hk₂ => (hk₂.trans hk.file hk.proc).inv h.files

/-- File `f` becomes inode `ip`, and descriptor `fd` the file. -/
theorem openFd_spec {ip : Inum} {f : Fin NFILE} {fd : Fin NOFILE} (ht : Tree st.inode)
    (h : st.Refs [ip]) (hfiles : st.FileRefs) (hp : st.proc p = some pr)
    (hold : st.file f = ⟨0, none⟩) (hnone : pr.ofile fd = none) :
    Returns (do
      let st := (st.setFile f { st.file f with ref := 1 }).setProc p (some { pr with
        ofile := Function.update pr.ofile fd (some f) })
      let st ← st.iunlock ip
      .ok ((fd.val : Int), st.setFile f { st.file f with ip := some ip })) fun r =>
        r.2.Inv := by
  generalize hst₁ : (st.setFile f { st.file f with ref := 1 }).setProc p (some { pr with
    ofile := Function.update pr.ofile fd (some f) }) = st₁
  have hfile₁ : st₁.file = Function.update st.file f ⟨1, none⟩ := by
    rw [← hst₁, hold]
    rfl
  have h₁ : st₁.Refs [ip] := by
    rw [← hst₁]
    refine h.move rfl rfl rfl fun i => ?_
    have hf := users_setFile st f { st.file f with ref := 1 } i
    have hpr := users_setProc (st.setFile f { st.file f with ref := 1 }) p (some { pr with
      ofile := Function.update pr.ofile fd (some f) }) i
    have hcwds : (st.setFile f { st.file f with ref := 1 }).cwds p = [pr.cwd] := cwds_eq hp
    rw [hcwds] at hpr
    rw [Nat.add_right_cancel hpr, Nat.add_right_cancel hf]
  -- the descriptor is in place, and the file has no inode yet
  have hcount : ∀ g, named st₁.fds g = named st.fds g + if g = f then 1 else 0 := by
    intro g
    have hp' : (st.setFile f { st.file f with ref := 1 }).proc p = some pr := hp
    have hfds := named_fds hp' fd (some f) g
    rw [hst₁, hnone] at hfds
    simp only [Option.toList_some, Option.toList_none, List.count_nil, List.count_singleton,
      beq_iff_eq, eq_comm (a := f), Nat.add_zero] at hfds
    exact hfds
  have hinode₁ : st₁.inode = st.inode := by
    rw [← hst₁]
    rfl
  apply (iunlock_spec h₁ ip).bind
  rintro st₂ ⟨hsame₂, h₂, _⟩
  have hfile₂ : st₂.file f = ⟨1, none⟩ := by
    rw [hsame₂.file, hfile₁, Function.update_self]
  have hfds₂ : (st₂.setFile f { st₂.file f with ip := some ip }).fds = st₁.fds := by
    funext x
    simp only [fds, setFile, hsame₂.proc]
  -- the hold on `ip` passes from the caller to the file
  refine ⟨?_, ?_, fun g => ?_, fun g hg => ?_⟩
  · change Tree st₂.inode
    rw [hsame₂.inode, hinode₁]
    exact ht
  · refine h₂.move rfl rfl rfl fun i => ?_
    have := users_setFile st₂ f { st₂.file f with ip := some ip } i
    simp only [hfile₂] at this ⊢
    exact this
  · rw [hfds₂, hcount]
    change (Function.update st₂.file f _ g).ref = _
    by_cases hgf : g = f
    · have hzero : named st.fds f = 0 := by
        rw [← hfiles.ref, hold]
      rw [hgf, Function.update_self, hfile₂, if_pos rfl, hzero]
    · rw [Function.update_of_ne hgf, if_neg hgf, hsame₂.file, hfile₁,
        Function.update_of_ne hgf, hfiles.ref]
      rfl
  · change (Function.update st₂.file f _ g).ref = 0 at hg
    change (Function.update st₂.file f _ g).ip = none
    by_cases hgf : g = f
    · rw [hgf, Function.update_self, hfile₂] at hg
      cases hg
    · rw [Function.update_of_ne hgf, hsame₂.file, hfile₁, Function.update_of_ne hgf] at hg ⊢
      exact hfiles.free g hg

/-- `open`, once there is an inode for it. -/
theorem openInode_spec {ip : Inum} (ht : Tree st.inode) (h : st.Refs [ip])
    (hfiles : st.FileRefs) (hp : st.proc p = some pr) :
    Returns (st.openInode p pr ip) fun r => r.2.Inv := by
  unfold openInode
  cases hfree : st.freeFile with
  | none =>
      apply (iunlockput_spec h ht).bind
      exact fun st₁ hk => hk.inv hfiles
  | some f =>
      have hzero : (st.file f).ref = 0 := by
        have := List.find?_some hfree
        rwa [decide_eq_true_iff] at this
      have hold : st.file f = ⟨0, none⟩ := by
        rw [← hfiles.free f hzero, ← hzero]
      cases hfd : freeFd pr with
      | none =>
          have hclose : (st.setFile f { st.file f with ref := 1 }).fileclose f = .ok st := by
            have hback : (st.setFile f { st.file f with ref := 1 }).setFile f ⟨0, none⟩
                = st := by
              rw [← hold]
              simp only [setFile, Function.update_idem, Function.update_eq_self]
            have hopen : (st.setFile f { st.file f with ref := 1 }).file f = ⟨1, none⟩ := by
              rw [hold]
              exact Function.update_self _ _ _
            unfold fileclose
            simp only [hopen, hback]
            rfl
          simp only
          rw [hclose]
          apply (iunlockput_spec h ht).bind
          exact fun st₁ hk => hk.inv hfiles
      | some fd =>
          have hnone : pr.ofile fd = none := by
            have := List.find?_some hfd
            rwa [decide_eq_true_iff] at this
          exact openFd_spec ht h hfiles hp hold hnone

/-- **`open`** with `O_CREATE`. -/
theorem sysOpen_spec (h : st.Inv) (hp : st.proc p = some pr) {path : Path}
    (hadd : ∀ d, createsIn st.inode pr.cwd path = some d → (st.inode d).nlink ≠ 0) :
    Returns (st.sysOpen p pr path) fun r => r.2.Inv := by
  apply (create_spec h.tree h.refs hp (Or.inr rfl) hadd).bind
  rintro ⟨r, st₁⟩ hk
  cases r with
  | none => exact hk.inv h.files
  | some ip =>
      apply openInode_spec hk.tree hk.refs (h.files.congr hk.file hk.proc)
      rw [show st₁.proc = _ from hk.proc]
      exact hp

/-! ## Runs -/

/-- **A call** that adds no entry to a directory without links. -/
theorem step_spec (h : st.Inv) {c : Call} (hadd : st.AddsToLinked p c) :
    Returns (st.step p c) Inv := by
  unfold step
  cases hp : st.proc p with
  | none => trivial
  | some pr =>
      have hadd' := fun d => hadd pr d hp
      have hcall : Returns (st.syscall p pr c) fun r => r.2.Inv := by
        cases c with
        | mkdir path => exact sysMkdir_spec h hp hadd'
        | openCreate path => exact sysOpen_spec h hp hadd'
        | link old new =>
            exact (sysLink_spec h.tree h.refs hp hadd').mono fun r hk => hk.inv h.files
        | unlink path =>
            exact (sysUnlink_spec h.tree h.refs hp path).mono fun r hk => hk.inv h.files
        | chdir path => exact sysChdir_spec h hp path
        | close fd => exact sysClose_spec h hp fd
        | exit => exact (exit_spec h hp).bind fun st₁ h₁ => h₁
      exact hcall.bind fun r hr => hr

/-- **A run** of such calls. -/
theorem run_spec (h : st.Inv) {cs : List (Fin n × Call)} (hcs : st.LinkedRun cs) :
    Returns (st.run cs) Inv := by
  induction cs generalizing st with
  | nil => exact h
  | cons x cs ih =>
      obtain ⟨p, c⟩ := x
      have hstep := step_spec h hcs.1
      unfold run
      cases hrun : st.step p c with
      | error e => trivial
      | ok st' =>
          rw [hrun] at hstep
          exact ih hstep (hcs.2 st' hrun)

end Kernel

end SchoolStuff.Xv6.Dirs
