import SchoolStuff.Xv6.Procs
import SchoolStuff.Lib.Ends
import SchoolStuff.Lib.Links

/-!
# Xv6 — references to open files

The references to files are a multiset: what the processes have in `ofile`, and
in the middle of a call also what the call has got (`Files`). A call that fails
halfway closes what it has got, and the references are those of before. A pipe
has an end open for each of its two files, so its page is freed with the last
reference to the second.
-/

namespace SchoolStuff.Xv6.Procs

open Dirs (NOFILE NFILE)

/-- An end of the pipe on a page. -/
structure PipeEnd where
  page : Nat
  writable : Bool
  deriving DecidableEq

/-- The end of a pipe that a file is. -/
def File.ends (fp : File) : List PipeEnd :=
  if fp.type = .pipe then [⟨fp.pipe, fp.writable⟩] else []

/-- An end of a pipe is open. -/
def Page.openEnd (page : Page) (writable : Bool) : Bool :=
  if writable then page.pipe.writeopen else page.pipe.readopen

/-- 1 for an end that is open. -/
def openEnds (pages : List Page) (e : PipeEnd) : Nat :=
  match pages[e.page]? with
  | none => 0
  | some page => (page.openEnd e.writable).toNat

/-- A page is freed once, with its second end. -/
def Page.FreedOnce (page : Page) : Prop := page.frees = if page.pipe.Freed then 1 else 0

/-- The file table when `m` are the references. -/
structure Files (file : Fin NFILE → File) (pages : List Page)
    (m : Multiset (Fin NFILE)) : Prop where
  ref : ∀ f, (file f).ref = m.count f
  free : ∀ f, (file f).ref = 0 → (file f).type = .none
  /-- An open end is one file, a closed one none. -/
  ends : ∀ e, named (fun f => (file f).ends) e = openEnds pages e
  frees : ∀ page ∈ pages, page.FreedOnce

/-- How a call may stop: all that `exit` of the first process, or `fork` after
2^31 - 3 processes, can do. The panics of `filedup` and `fileclose` are not
among them. -/
def Refused : Stop → Prop
  | .initExiting => True
  | .nextpid => True
  | .notTaken => True
  | _ => False

abbrev Stays {α : Type} (x : Except Stop α) (P : α → Prop) : Prop := Ends Refused x P

theorem openEnd_closeEnd (p : Pipe) (w w' : Bool) (frees frees' : Nat) :
    Page.openEnd ⟨p.closeEnd w, frees⟩ w'
      = if w' = w then false else Page.openEnd ⟨p, frees'⟩ w' := by
  cases w <;> cases w' <;> rfl

/-- A pipe with an end open has not been freed. -/
theorem not_freed_of_openEnd {page : Page} {w : Bool} (h : page.openEnd w = true) :
    ¬page.pipe.Freed := by
  rintro ⟨hread, hwrite⟩
  cases w
  · exact Bool.false_ne_true (hread.symm.trans h)
  · exact Bool.false_ne_true (hwrite.symm.trans h)

/-- An end that is counted is one of a page. -/
theorem openEnd_of_pos {pages : List Page} {e : PipeEnd} (h : 0 < openEnds pages e) :
    ∃ page, pages[e.page]? = some page ∧ page.openEnd e.writable = true := by
  unfold openEnds at h
  cases hpage : pages[e.page]? with
  | none =>
      rw [hpage] at h
      exact absurd h (Nat.lt_irrefl 0)
  | some page =>
      rw [hpage] at h
      refine ⟨page, rfl, ?_⟩
      by_contra hfalse
      simp only [Bool.eq_false_of_not_eq_true hfalse, Bool.toNat_false] at h
      exact absurd h (Nat.lt_irrefl 0)

/-- `pipeclose` shuts one end. -/
theorem openEnds_closeEnd {pages : List Page} {page : Page} {k : Nat} (w : Bool)
    (hpage : pages[k]? = some page) (frees : Nat) (e : PipeEnd) :
    openEnds (pages.set k ⟨page.pipe.closeEnd w, frees⟩) e
      = if e = ⟨k, w⟩ then 0 else openEnds pages e := by
  obtain ⟨k', w'⟩ := e
  unfold openEnds
  simp only
  by_cases hk : k' = k
  · subst hk
    rw [List.getElem?_set_self (List.getElem?_eq_some_iff.1 hpage).1, hpage]
    simp only
    rw [openEnd_closeEnd _ _ _ _ page.frees]
    by_cases hw : w' = w
    · rw [if_pos hw, if_pos (by rw [hw])]
      rfl
    · rw [if_neg hw, if_neg fun heq => hw (congrArg PipeEnd.writable heq)]
  · rw [List.getElem?_set_ne (Ne.symm hk), if_neg fun heq => hk (congrArg PipeEnd.page heq)]

/-- Both ends of a new pipe are open. -/
theorem openEnds_append (pages : List Page) (data : Fin PIPESIZE → UInt8) (e : PipeEnd) :
    openEnds (pages ++ [⟨Pipe.alloc data, 0⟩]) e = openEnds pages e
      + [(⟨pages.length, false⟩ : PipeEnd)].count e
      + [(⟨pages.length, true⟩ : PipeEnd)].count e := by
  obtain ⟨k, w⟩ := e
  unfold openEnds
  simp only
  by_cases hk : k = pages.length
  · subst hk
    rw [List.getElem?_concat_length, List.getElem?_eq_none (Nat.le_refl _)]
    cases w
    · rw [List.count_singleton_self, List.count_eq_zero_of_not_mem (by simp)]
      rfl
    · rw [List.count_singleton_self, List.count_eq_zero_of_not_mem (by simp)]
      rfl
  · have hnot : ∀ w', [(⟨pages.length, w'⟩ : PipeEnd)].count ⟨k, w⟩ = 0 := by
      intro w'
      apply List.count_eq_zero_of_not_mem
      intro hmem
      exact hk (congrArg PipeEnd.page (List.mem_singleton.1 hmem))
    simp only [hnot, Nat.add_zero]
    rcases Nat.lt_or_gt_of_ne hk with hlt | hgt
    · rw [List.getElem?_append_left hlt]
    · rw [List.getElem?_eq_none (Nat.le_of_lt hgt), List.getElem?_eq_none]
      rw [List.length_append]
      exact hgt

theorem freedOnce_of_zero {frees : Nat} (h : frees = 0) (pipe : Pipe) :
    Page.FreedOnce ⟨pipe, if pipe.Freed then frees + 1 else frees⟩ := by
  unfold Page.FreedOnce
  rw [h]

theorem forall_mem_set {α : Type} {P : α → Prop} {l : List α} (h : ∀ x ∈ l, P x) {y : α}
    (hy : P y) (i : Nat) : ∀ x ∈ l.set i y, P x := by
  intro x hx
  rcases List.mem_or_eq_of_mem_set hx with hold | rfl
  · exact h x hold
  · exact hy

theorem File.ends_of_not_pipe {fp : File} (h : fp.type ≠ .pipe) : fp.ends = [] := if_neg h

theorem File.ends_of_pipe {fp : File} (h : fp.type = .pipe) :
    fp.ends = [⟨fp.pipe, fp.writable⟩] := if_pos h

namespace Files

variable {file : Fin NFILE → File} {pages : List Page} {m m' : Multiset (Fin NFILE)}
  {f : Fin NFILE} {fp : File}

theorem mem_iff (h : Files file pages m) : f ∈ m ↔ 0 < (file f).ref := by
  rw [h.ref, Multiset.count_pos]

/-- The new contents of a file, and what is the same in all others. -/
theorem ref_update (h : Files file pages m) (href : fp.ref = m'.count f)
    (hother : ∀ g, g ≠ f → m'.count g = m.count g) (g : Fin NFILE) :
    (Function.update file f fp g).ref = m'.count g := by
  by_cases hgf : g = f
  · rw [hgf, Function.update_self]
    exact href
  · rw [Function.update_of_ne hgf, hother g hgf]
    exact h.ref g

theorem free_update (h : Files file pages m) (hfree : fp.ref = 0 → fp.type = .none)
    (g : Fin NFILE) :
    (Function.update file f fp g).ref = 0 → (Function.update file f fp g).type = .none := by
  by_cases hgf : g = f
  · rw [hgf, Function.update_self]
    exact hfree
  · rw [Function.update_of_ne hgf]
    exact h.free g

/-- A file that is the same end, or none, as before. -/
theorem update (h : Files file pages m) (href : fp.ref = m'.count f)
    (hother : ∀ g, g ≠ f → m'.count g = m.count g)
    (hfree : fp.ref = 0 → fp.type = .none) (hends : fp.ends = (file f).ends) :
    Files (Function.update file f fp) pages m' := by
  refine ⟨h.ref_update href hother, h.free_update hfree, fun e => ?_, h.frees⟩
  have := named_update File.ends file f fp e
  rw [hends, h.ends e] at this
  omega

/-- One more reference. -/
theorem cons (h : Files file pages m) (href : fp.ref = (file f).ref + 1)
    (hends : fp.ends = (file f).ends) :
    Files (Function.update file f fp) pages (f ::ₘ m) := by
  apply h.update
  · rw [href, h.ref, Multiset.count_cons_self]
  · exact fun g hg => Multiset.count_cons_of_ne hg m
  · intro hzero
    omega
  · exact hends

/-- One reference less, of a file that keeps others or is no pipe. -/
theorem erase (h : Files file pages (f ::ₘ m)) (href : fp.ref + 1 = (file f).ref)
    (hfree : fp.ref = 0 → fp.type = .none) (hends : fp.ends = (file f).ends) :
    Files (Function.update file f fp) pages m := by
  apply h.update
  · rw [h.ref, Multiset.count_cons_self] at href
    omega
  · exact fun g hg => (Multiset.count_cons_of_ne hg m).symm
  · exact hfree
  · exact hends

/-- The last reference to an end of a pipe. It is open, and this was its only
file. -/
theorem closeEnd (h : Files file pages (f ::ₘ m)) (hpipe : (file f).type = .pipe)
    (hlast : (file f).ref = 1) (href : fp.ref = 0) (htype : fp.type = .none) :
    ∃ page, pages[(file f).pipe]? = some page ∧
      Files (Function.update file f fp) (pages.set (file f).pipe
        ⟨page.pipe.closeEnd (file f).writable,
          if (page.pipe.closeEnd (file f).writable).Freed then page.frees + 1
          else page.frees⟩) m := by
  have hnamed := named_update File.ends file f fp
  have hnot : fp.type ≠ .pipe := by
    rw [htype]
    decide
  rw [File.ends_of_pipe hpipe, File.ends_of_not_pipe hnot] at hnamed
  have hopen := h.ends ⟨(file f).pipe, (file f).writable⟩
  have hself := hnamed ⟨(file f).pipe, (file f).writable⟩
  rw [List.count_singleton_self, List.count_nil] at hself
  -- the end was open, and this was its only file
  have hpos : 0 < openEnds pages ⟨(file f).pipe, (file f).writable⟩ := by omega
  obtain ⟨page, hpage, htrue⟩ := openEnd_of_pos hpos
  unfold openEnds at hopen
  simp only [hpage, htrue, Bool.toNat_true] at hopen
  have hcount := h.ref f
  rw [hlast, Multiset.count_cons_self] at hcount
  refine ⟨page, hpage, h.ref_update ?_ ?_, h.free_update fun _ => htype, ?_, ?_⟩
  · omega
  · exact fun g hg => (Multiset.count_cons_of_ne hg m).symm
  · intro e
    rw [openEnds_closeEnd _ hpage, ← h.ends e]
    have he := hnamed e
    by_cases heq : e = ⟨(file f).pipe, (file f).writable⟩
    · rw [if_pos heq, heq]
      omega
    · rw [if_neg heq]
      rw [List.count_nil, List.count_eq_zero_of_not_mem fun hmem =>
        heq (List.mem_singleton.1 hmem)] at he
      omega
  · -- so the page had not been freed before
    have hzero := h.frees page (List.mem_of_getElem? hpage)
    rw [Page.FreedOnce, if_neg (not_freed_of_openEnd htrue)] at hzero
    exact forall_mem_set h.frees (freedOnce_of_zero hzero _) _

/-- Two files without a type become the ends of a new pipe. -/
theorem newPipe (h : Files file pages m) {f0 f1 : Fin NFILE} (hne : f1 ≠ f0)
    (hm0 : f0 ∈ m) (hm1 : f1 ∈ m) (hnone0 : (file f0).type = .none)
    (hnone1 : (file f1).type = .none) {fp0 fp1 : File}
    (href0 : fp0.ref = (file f0).ref) (href1 : fp1.ref = (file f1).ref)
    (hends0 : fp0.ends = [⟨pages.length, false⟩]) (hends1 : fp1.ends = [⟨pages.length, true⟩])
    (data : Fin PIPESIZE → UInt8) :
    Files (Function.update (Function.update file f0 fp0) f1 fp1)
      (pages ++ [⟨Pipe.alloc data, 0⟩]) m := by
  have hpos0 := h.mem_iff.1 hm0
  have hpos1 := h.mem_iff.1 hm1
  refine ⟨fun g => ?_, fun g => ?_, fun e => ?_, fun page hmem => ?_⟩
  · rw [← h.ref g]
    by_cases hg1 : g = f1
    · rw [hg1, Function.update_self, href1]
    rw [Function.update_of_ne hg1]
    by_cases hg0 : g = f0
    · rw [hg0, Function.update_self, href0]
    · rw [Function.update_of_ne hg0]
  · by_cases hg1 : g = f1
    · rw [hg1, Function.update_self]
      omega
    rw [Function.update_of_ne hg1]
    by_cases hg0 : g = f0
    · rw [hg0, Function.update_self]
      omega
    · rw [Function.update_of_ne hg0]
      exact h.free g
  · have he0 := named_update File.ends file f0 fp0 e
    have he1 := named_update File.ends (Function.update file f0 fp0) f1 fp1 e
    have hnot0 : (file f0).type ≠ .pipe := by
      rw [hnone0]
      decide
    have hnot1 : (file f1).type ≠ .pipe := by
      rw [hnone1]
      decide
    rw [Function.update_of_ne hne, File.ends_of_not_pipe hnot1, hends1] at he1
    rw [File.ends_of_not_pipe hnot0, hends0] at he0
    rw [List.count_nil] at he0 he1
    rw [openEnds_append, ← h.ends e]
    omega
  · rcases List.mem_append.1 hmem with hold | hnew
    · exact h.frees page hold
    · rw [List.mem_singleton.1 hnew]
      rfl

end Files

/-! ## The operations on files -/

/-- A process that is not there, or has exited. -/
def ProcState.Gone (state : ProcState) : Prop := state = .unused ∨ state = .zombie

namespace Kernel

variable {st st' : Kernel} {m : Multiset (Fin NFILE)} {p q : Fin NPROC} {f : Fin NFILE}

/-- The files are those of the references `m`. -/
def Holds (st : Kernel) (m : Multiset (Fin NFILE)) : Prop := Files st.file st.pages m

theorem setFd_ofile (st : Kernel) (p : Fin NPROC) (fd : Fin NOFILE) (x : Option (Fin NFILE)) :
    ((st.setFd p fd x).proc p).ofile = Function.update (st.proc p).ofile fd x := by
  rw [setFd, setProc_self]

/-- What the processes have open is the same. -/
def Same (st st' : Kernel) : Prop :=
  ∀ q, (st'.proc q).ofile = (st.proc q).ofile
    ∧ ((st'.proc q).state.Gone ↔ (st.proc q).state.Gone)

theorem Same.refl (st : Kernel) : st.Same st := fun _ => ⟨rfl, Iff.rfl⟩

theorem Same.trans {st₁ st₂ st₃ : Kernel} (h : st₁.Same st₂) (h' : st₂.Same st₃) :
    st₁.Same st₃ :=
  fun q => ⟨(h' q).1.trans (h q).1, (h' q).2.trans (h q).2⟩

theorem same_setProc {pr : Proc} (hofile : pr.ofile = (st.proc p).ofile)
    (hgone : pr.state.Gone ↔ (st.proc p).state.Gone) : st.Same (st.setProc p pr) := by
  intro q
  by_cases hqp : q = p
  · rw [hqp, setProc_self]
    exact ⟨hofile, hgone⟩
  · rw [setProc_ne _ _ hqp]
    exact ⟨rfl, Iff.rfl⟩

theorem same_wakeup1 (st : Kernel) (chan : Chan) : st.Same (st.wakeup1 chan) := by
  intro q
  change ((st.proc q).wake chan).ofile = _ ∧ (((st.proc q).wake chan).state.Gone ↔ _)
  unfold Proc.wake
  split
  · rename_i h
    refine ⟨rfl, ?_⟩
    rw [h.1]
    exact iff_of_false nofun nofun
  · exact ⟨rfl, Iff.rfl⟩

theorem filealloc_spec (h : st.Holds m) (halloc : st.filealloc = some (f, st')) :
    f ∉ m ∧ st'.proc = st.proc ∧ (∀ g, g ≠ f → st'.file g = st.file g)
      ∧ (st'.file f).type = .none ∧ st'.Holds (f ::ₘ m) := by
  obtain ⟨_, hfind, heq⟩ := Option.map_eq_some_iff.1 halloc
  cases heq
  have hzero : (st.file f).ref = 0 := by
    have := List.find?_some hfind
    simpa using this
  refine ⟨fun hmem => ?_, rfl, fun g hg => setFile_ne _ _ hg, ?_, h.cons ?_ rfl⟩
  · exact Nat.ne_of_gt (h.mem_iff.1 hmem) hzero
  · rw [setFile_self]
    exact h.free f hzero
  · rw [hzero]

theorem filedup_spec (h : st.Holds m) (hf : f ∈ m) :
    Stays (st.filedup f) fun st' => st'.proc = st.proc ∧ st'.Holds (f ::ₘ m) := by
  unfold filedup
  rw [if_neg (Nat.not_lt.2 (h.mem_iff.1 hf))]
  exact ⟨rfl, h.cons rfl rfl⟩

/-- `fileclose` gives up one reference. -/
theorem fileclose_spec (h : st.Holds (f ::ₘ m)) :
    Stays (st.fileclose f) fun st' => st.Same st' ∧ st'.Holds m := by
  have hpos : 0 < (st.file f).ref := h.mem_iff.1 (Multiset.mem_cons_self f m)
  unfold fileclose
  simp only
  rw [if_neg (Nat.not_lt.2 hpos)]
  split
  · rename_i hmore
    refine ⟨Same.refl st, h.erase (Nat.sub_add_cancel hpos) (fun hzero => ?_) rfl⟩
    exact absurd hzero (Nat.ne_of_gt hmore)
  rename_i hlast
  have hone : (st.file f).ref = 1 := by omega
  have hends (hne : (st.file f).type ≠ .pipe) :
      { st.file f with ref := 0, type := .none }.ends = (st.file f).ends := by
    rw [File.ends_of_not_pipe hne]
    rfl
  cases htype : (st.file f).type with
  | none =>
      exact ⟨Same.refl st, h.erase (by rw [hone]) (fun _ => rfl) (hends (by rw [htype]; nofun))⟩
  | inode =>
      exact ⟨Same.refl st, h.erase (by rw [hone]) (fun _ => rfl) (hends (by rw [htype]; nofun))⟩
  | pipe =>
      obtain ⟨page, hpage, hclose⟩ := @Files.closeEnd _ _ _ _
        { st.file f with ref := 0, type := .none } h htype hone rfl rfl
      simp only
      unfold pipeclose
      change Stays (match st.pages[(st.file f).pipe]? with | none => _ | some page => _) _
      rw [hpage]
      exact ⟨same_wakeup1 st _, hclose⟩

/-- Two files are closed, and a call returns. -/
theorem fileclose_two {g : Fin NFILE} (h : st.Holds (f ::ₘ g ::ₘ m)) {α : Type} (a : α) :
    Stays (do
      let st ← st.fileclose f
      let st ← st.fileclose g
      .ok (a, st)) fun r => r.1 = a ∧ st.Same r.2 ∧ r.2.Holds m := by
  apply (fileclose_spec h).bind
  rintro st₁ ⟨hs₁, h₁⟩
  apply (fileclose_spec h₁).bind
  rintro st₂ ⟨hs₂, h₂⟩
  exact ⟨rfl, hs₁.trans hs₂, h₂⟩

theorem same_of_proc (h : st'.proc = st.proc) : st.Same st' := by
  intro q
  rw [h]
  exact ⟨rfl, Iff.rfl⟩

/-- `pipealloc` gets two files, or none. -/
theorem pipealloc_spec (h : st.Holds m) (page : Option (Fin PIPESIZE → UInt8)) :
    Stays (st.pipealloc page) fun r => st.Same r.2 ∧
      match r.1 with
      | none => r.2.Holds m
      | some (rf, wf) => r.2.Holds (rf ::ₘ wf ::ₘ m) := by
  unfold pipealloc
  cases h₀ : st.filealloc with
  | none => exact ⟨Same.refl st, h⟩
  | some r₀ =>
      obtain ⟨f0, st₀⟩ := r₀
      obtain ⟨_, hp₀, _, htype₀, hh₀⟩ := filealloc_spec h h₀
      simp only
      cases h₁ : st₀.filealloc with
      | none =>
          apply (fileclose_spec hh₀).bind
          rintro st' ⟨hs', hh'⟩
          exact ⟨(same_of_proc hp₀).trans hs', hh'⟩
      | some r₁ =>
          obtain ⟨f1, st₁⟩ := r₁
          obtain ⟨hnew, hp₁, hother, htype₁, hh₁⟩ := filealloc_spec hh₀ h₁
          simp only
          have hs₁ : st.Same st₁ := same_of_proc (hp₁.trans hp₀)
          rw [Multiset.cons_swap] at hh₁
          -- both files are there; without a page they are closed again
          cases page with
          | none =>
              apply (fileclose_two hh₁ none).mono
              rintro ⟨_, st'⟩ ⟨rfl, hs', hh'⟩
              exact ⟨hs₁.trans hs', hh'⟩
          | some data =>
              have hne : f1 ≠ f0 := fun heq => hnew (heq ▸ Multiset.mem_cons_self f0 m)
              have htype₀' : (st₁.file f0).type = .none := by
                rw [hother f0 (Ne.symm hne)]
                exact htype₀
              have hmem₁ : f1 ∈ f0 ::ₘ f1 ::ₘ m :=
                Multiset.mem_cons_of_mem (Multiset.mem_cons_self f1 m)
              refine ⟨hs₁, ?_⟩
              change Files _ _ _
              apply Files.newPipe hh₁ hne (Multiset.mem_cons_self f0 _) hmem₁ htype₀' htype₁
              · rfl
              · change (Function.update st₁.file f0 _ f1).ref = _
                rw [Function.update_of_ne hne]
              · rfl
              · rfl

theorem fdalloc_spec {fd : Fin NOFILE} (h : st.fdalloc p f = some (fd, st')) :
    (st.proc p).ofile fd = none ∧ st' = st.setFd p fd (some f) := by
  obtain ⟨_, hfind, heq⟩ := Option.map_eq_some_iff.1 h
  cases heq
  have := List.find?_some hfind
  exact ⟨Option.isNone_iff_eq_none.1 this, rfl⟩

theorem argfd_spec {pr : Proc} {fd : Int} {x : Fin NOFILE × Fin NFILE}
    (h : argfd pr fd = some x) : pr.ofile x.1 = some x.2 := by
  unfold argfd at h
  split at h
  · cases h
  · obtain ⟨f, hf, rfl⟩ := Option.map_eq_some_iff.1 h
    exact hf

/-! ## What the processes have open -/

def opens (st : Kernel) (x : Fin NPROC × Fin NOFILE) : List (Fin NFILE) :=
  ((st.proc x.1).ofile x.2).toList

/-- The descriptors of all processes. -/
def fds (st : Kernel) : Multiset (Fin NFILE) :=
  ∑ x : Fin NPROC × Fin NOFILE, (st.opens x : Multiset (Fin NFILE))

theorem count_fds (st : Kernel) (f : Fin NFILE) : st.fds.count f = named st.opens f := by
  unfold fds named
  rw [Multiset.count_sum']
  simp only [Multiset.coe_count]

theorem mem_fds {fd : Fin NOFILE} (h : (st.proc p).ofile fd = some f) : f ∈ st.fds := by
  rw [← Multiset.count_pos, count_fds, named_pos]
  refine ⟨(p, fd), ?_⟩
  rw [opens, h]
  exact List.mem_singleton_self f

theorem Same.fds (h : st.Same st') : st'.fds = st.fds := by
  unfold Kernel.fds opens
  apply Finset.sum_congr rfl
  intro x _
  rw [(h x.1).1]

/-- A descriptor is set, in place of what it was. -/
theorem fds_setFd (st : Kernel) (p : Fin NPROC) (fd : Fin NOFILE) (x : Option (Fin NFILE)) :
    (st.setFd p fd x).fds + (((st.proc p).ofile fd).toList : Multiset (Fin NFILE))
      = st.fds + (x.toList : Multiset (Fin NFILE)) := by
  ext g
  have hother : ∀ y, y ≠ (p, fd) → (st.setFd p fd x).opens y = st.opens y := by
    rintro ⟨q, fd'⟩ hy
    simp only [opens, setFd]
    by_cases hqp : q = p
    · subst hqp
      have hfd : fd' ≠ fd := fun heq => hy (by rw [heq])
      rw [setProc_self]
      exact congrArg Option.toList (Function.update_of_ne hfd _ _)
    · rw [setProc_ne _ _ hqp]
  have hoff := named_off hother g
  have hself : (st.setFd p fd x).opens (p, fd) = x.toList := by
    simp only [opens, setFd, setProc_self, Function.update_self]
  rw [hself] at hoff
  simp only [Multiset.count_add, Multiset.coe_count, count_fds]
  exact hoff

theorem fds_setFd_some {fd : Fin NOFILE} (h : (st.proc p).ofile fd = none) (f : Fin NFILE) :
    (st.setFd p fd (some f)).fds = f ::ₘ st.fds := by
  have := fds_setFd st p fd (some f)
  rw [h] at this
  simpa [Multiset.add_comm st.fds] using this

theorem fds_setFd_none {fd : Fin NOFILE} (h : (st.proc p).ofile fd = some f) :
    st.fds = f ::ₘ (st.setFd p fd none).fds := by
  have := fds_setFd st p fd none
  rw [h] at this
  simpa [Multiset.add_comm _ {f}] using this.symm

attribute [irreducible] fds

/-- Only a process that is there has files open. -/
def Closed (st : Kernel) : Prop :=
  ∀ q, (st.proc q).state.Gone → ∀ fd, (st.proc q).ofile fd = none

/-- What holds between calls. -/
structure Good (st : Kernel) : Prop where
  holds : st.Holds st.fds
  closed : st.Closed

theorem Closed.of_same (h : st.Closed) (hs : st.Same st') : st'.Closed := by
  intro q hgone fd
  rw [(hs q).1]
  exact h q ((hs q).2.1 hgone) fd

theorem Good.of_same (h : st.Good) (hs : st.Same st') (hh : st'.Holds st.fds) : st'.Good := by
  refine ⟨?_, h.closed.of_same hs⟩
  rw [hs.fds]
  exact hh

theorem Same.gone (hs : st.Same st') (hp : ¬(st.proc p).state.Gone) :
    ¬(st'.proc p).state.Gone :=
  fun hgone => hp ((hs p).2.1 hgone)

/-- A process that is there gets other descriptors. -/
theorem Closed.setFd (h : st.Closed) (hp : ¬(st.proc p).state.Gone) (fd : Fin NOFILE)
    (x : Option (Fin NFILE)) : (st.setFd p fd x).Closed := by
  intro q hgone fd'
  unfold Kernel.setFd at hgone ⊢
  by_cases hqp : q = p
  · rw [hqp, setProc_self] at hgone
    exact absurd hgone hp
  · rw [setProc_ne _ _ hqp] at hgone ⊢
    exact h q hgone fd'

theorem not_gone_setFd (hp : ¬(st.proc p).state.Gone) (q : Fin NPROC) (fd : Fin NOFILE)
    (x : Option (Fin NFILE)) : ¬((st.setFd q fd x).proc p).state.Gone := by
  unfold setFd
  by_cases hpq : p = q
  · rw [hpq] at hp ⊢
    rw [setProc_self]
    exact hp
  · rw [setProc_ne _ _ hpq]
    exact hp

/-- A reference that a call has got becomes a descriptor. -/
theorem Closed.good_setFd (h : st.Closed) (hh : st.Holds (f ::ₘ st.fds))
    (hp : ¬(st.proc p).state.Gone) {fd : Fin NOFILE} (hnone : (st.proc p).ofile fd = none) :
    (st.setFd p fd (some f)).Good := by
  refine ⟨?_, h.setFd hp fd (some f)⟩
  rw [fds_setFd_some hnone]
  exact hh

/-- A process changes and keeps its descriptors. -/
theorem Good.setProc (h : st.Good) {pr : Proc} (hofile : pr.ofile = (st.proc p).ofile)
    (hgone : pr.state.Gone → ∀ fd, (st.proc p).ofile fd = none) : (st.setProc p pr).Good := by
  have hsame : ∀ q, ((st.setProc p pr).proc q).ofile = (st.proc q).ofile := by
    intro q
    by_cases hqp : q = p
    · rw [hqp, setProc_self, hofile]
    · rw [setProc_ne _ _ hqp]
  constructor
  · have hfds : (st.setProc p pr).fds = st.fds := by
      unfold fds opens
      simp only [hsame]
    rw [hfds]
    exact h.holds
  · intro q hq fd
    rw [hsame]
    by_cases hqp : q = p
    · rw [hqp, setProc_self] at hq
      rw [hqp]
      exact hgone hq fd
    · rw [setProc_ne _ _ hqp] at hq
      exact h.closed q hq fd

/-- A file that is open gets its type. -/
theorem Good.setFile (h : st.Good) (hf : f ∈ st.fds) {fp : File}
    (href : fp.ref = (st.file f).ref) (hends : fp.ends = (st.file f).ends) :
    (st.setFile f fp).Good := by
  have hpos := h.holds.mem_iff.1 hf
  have hh : Files (Function.update st.file f fp) st.pages st.fds :=
    h.holds.update (href.trans (h.holds.ref f)) (fun _ _ => rfl) (fun hzero => by omega) hends
  refine ⟨?_, h.closed⟩
  have hsame : st.Same (st.setFile f fp) := same_of_proc rfl
  rw [hsame.fds]
  exact hh

theorem sysDup_good (h : st.Good) (hp : ¬(st.proc p).state.Gone) (fd : Int) :
    Stays (st.sysDup p fd) fun r => r.2.Good := by
  unfold sysDup
  cases harg : argfd (st.proc p) fd with
  | none => exact h
  | some x =>
      obtain ⟨fd, f⟩ := x
      simp only
      cases hfd : st.fdalloc p f with
      | none => exact h
      | some r =>
          obtain ⟨fd', st₁⟩ := r
          obtain ⟨hnone, rfl⟩ := fdalloc_spec hfd
          -- for a moment there is a descriptor more than references
          have hh₁ : (st.setFd p fd' (some f)).Holds st.fds := h.holds
          apply (filedup_spec hh₁ (mem_fds (argfd_spec harg))).bind
          rintro st₂ ⟨hp₂, hh₂⟩
          rw [← fds_setFd_some hnone] at hh₂
          refine ⟨?_, (h.closed.setFd hp fd' (some f)).of_same (same_of_proc hp₂)⟩
          rw [(same_of_proc hp₂).fds]
          exact hh₂

theorem sysClose_good (h : st.Good) (hp : ¬(st.proc p).state.Gone) (fd : Int) :
    Stays (st.sysClose p fd) fun r => r.2.Good := by
  unfold sysClose
  cases harg : argfd (st.proc p) fd with
  | none => exact h
  | some x =>
      obtain ⟨fd, f⟩ := x
      have hh : (st.setFd p fd none).Holds (f ::ₘ (st.setFd p fd none).fds) := by
        rw [← fds_setFd_none (argfd_spec harg)]
        exact h.holds
      apply (fileclose_spec hh).bind
      rintro st₁ ⟨hs₁, hh₁⟩
      refine ⟨?_, (h.closed.setFd hp fd none).of_same hs₁⟩
      rw [hs₁.fds]
      exact hh₁

theorem sysOpen_good (h : st.Good) (hp : ¬(st.proc p).state.Gone) (ip : Bool)
    (omode : UInt32) : Stays (st.sysOpen p ip omode) fun r => r.2.Good := by
  unfold sysOpen
  split
  · exact h
  cases halloc : st.filealloc with
  | none => exact h
  | some r =>
      obtain ⟨f, st₁⟩ := r
      obtain ⟨_, hp₁, _, htype₁, hh₁⟩ := filealloc_spec h.holds halloc
      simp only
      have hs₁ := same_of_proc hp₁
      cases hfd : st₁.fdalloc p f with
      | none =>
          apply (fileclose_spec hh₁).bind
          rintro st₂ ⟨hs₂, hh₂⟩
          exact h.of_same (hs₁.trans hs₂) hh₂
      | some r =>
          obtain ⟨fd, st₂⟩ := r
          obtain ⟨hnone, rfl⟩ := fdalloc_spec hfd
          rw [← hs₁.fds] at hh₁
          have hgood := (h.closed.of_same hs₁).good_setFd hh₁ (hs₁.gone hp) hnone
          have hmem : f ∈ (st₁.setFd p fd (some f)).fds := by
            rw [fds_setFd_some hnone]
            exact Multiset.mem_cons_self f _
          change Good _
          apply hgood.setFile hmem
          · rfl
          · have hnone' : (st₁.file f).ends = [] :=
              File.ends_of_not_pipe (by rw [htype₁]; nofun)
            exact hnone'.symm

/-- Where `sys_pipe` has no second descriptor it gives the first up again. -/
theorem sysPipe_good (h : st.Good) (hp : ¬(st.proc p).state.Gone)
    (page : Option (Fin PIPESIZE → UInt8)) :
    Stays (st.sysPipe p page) fun r => r.2.Good := by
  apply (pipealloc_spec h.holds page).bind
  rintro ⟨files, st₁⟩ ⟨hs₁ : st.Same st₁, hh₁⟩
  cases files with
  | none => exact h.of_same hs₁ hh₁
  | some files =>
      obtain ⟨rf, wf⟩ := files
      simp only at hh₁ ⊢
      have hclosed := h.closed.of_same hs₁
      have hp₁ := hs₁.gone hp
      cases h₀ : st₁.fdalloc p rf with
      | none =>
          apply (fileclose_two hh₁ _).mono
          rintro r ⟨_, hs₂, hh₂⟩
          exact h.of_same (hs₁.trans hs₂) hh₂
      | some r₀ =>
          obtain ⟨fd0, st₂⟩ := r₀
          obtain ⟨hnone₀, rfl⟩ := fdalloc_spec h₀
          simp only
          cases hw : (st₁.setFd p fd0 (some rf)).fdalloc p wf with
          | none =>
              -- the first descriptor is taken back, and both files are closed
              have hsome : ((st₁.setFd p fd0 (some rf)).proc p).ofile fd0 = some rf := by
                rw [setFd_ofile, Function.update_self]
              have hfds := fds_setFd_none hsome
              rw [fds_setFd_some hnone₀, Multiset.cons_inj_right, hs₁.fds] at hfds
              generalize hst₃ : (st₁.setFd p fd0 (some rf)).setFd p fd0 none = st₃ at hfds
              have hclosed₃ : st₃.Closed := by
                rw [← hst₃]
                exact (hclosed.setFd hp₁ fd0 (some rf)).setFd
                  (not_gone_setFd hp₁ p fd0 _) fd0 none
              have hh₃ : st₃.Holds (rf ::ₘ wf ::ₘ st.fds) := by
                rw [← hst₃]
                exact hh₁
              apply (fileclose_two hh₃ _).mono
              rintro r ⟨_, hs₄, hh₄⟩
              refine ⟨?_, hclosed₃.of_same hs₄⟩
              rw [hs₄.fds, ← hfds]
              exact hh₄
          | some r₁ =>
              obtain ⟨fd1, st₃⟩ := r₁
              obtain ⟨hnone₁, rfl⟩ := fdalloc_spec hw
              apply (hclosed.setFd hp₁ fd0 (some rf)).good_setFd
              · rw [fds_setFd_some hnone₀, Multiset.cons_swap, hs₁.fds]
                exact hh₁
              · exact not_gone_setFd hp₁ p fd0 _
              · exact hnone₁

/-! ## Processes -/

/-- The slot that `allocproc` takes has no files. -/
theorem allocproc_spec (h : st.Good) (kstack : Bool) :
    Stays (st.allocproc kstack) fun r => r.2.Good ∧ ∀ np, r.1 = some np →
      ¬(r.2.proc np).state.Gone ∧ ∀ fd, (r.2.proc np).ofile fd = none := by
  unfold allocproc
  cases hfind : (List.finRange NPROC).find? fun q => (st.proc q).state = .unused with
  | none => exact ⟨h, nofun⟩
  | some np =>
      have hunused : (st.proc np).state = .unused := by
        have := List.find?_some hfind
        simpa using this
      have hnone := h.closed np (Or.inl hunused)
      simp only
      split
      · trivial
      generalize hst₁ : ({ st.setProc np { st.proc np with
        state := .embryo, pid := st.nextpid } with nextpid := st.nextpid + 1 } : Kernel) = st₁
      have hproc₁ : st₁.proc np = { st.proc np with state := .embryo, pid := st.nextpid } := by
        rw [← hst₁]
        exact setProc_self st np _
      have hnone₁ : ∀ fd, (st₁.proc np).ofile fd = none := by
        rw [hproc₁]
        exact hnone
      have hgood₁ : st₁.Good := by
        have : (st.setProc np { st.proc np with
            state := .embryo, pid := st.nextpid }).Good := h.setProc rfl fun _ => hnone
        refine Good.of_same this (same_of_proc ?_) ?_
        · rw [← hst₁]
        · rw [← hst₁]
          exact this.holds
      split
      · refine ⟨hgood₁, fun np' heq => ?_⟩
        cases heq
        refine ⟨?_, hnone₁⟩
        rw [hproc₁]
        nofun
      · exact ⟨hgood₁.setProc rfl fun _ => hnone₁, nofun⟩

/-- `fork` gives a reference to the child for each descriptor of the parent. -/
theorem dupFds_good (p np : Fin NPROC) (h : st.Good) (hnp : ¬(st.proc np).state.Gone)
    (hnone : ∀ fd, (st.proc np).ofile fd = none) :
    Stays ((List.finRange NOFILE).foldlM (dupFd p np) st) Good := by
  have hloop : Stays ((List.finRange NOFILE).foldlM (dupFd p np) st) fun st' =>
      st'.Good ∧ ¬(st'.proc np).state.Gone ∧ List.Nodup ([] : List (Fin NOFILE))
        ∧ ∀ fd ∈ [], (st'.proc np).ofile fd = none := by
    refine Ends.foldlM (fun (rest : List (Fin NOFILE)) (st' : Kernel) =>
      st'.Good ∧ ¬(st'.proc np).state.Gone ∧ rest.Nodup
        ∧ ∀ fd ∈ rest, (st'.proc np).ofile fd = none) ?_
      ⟨h, hnp, List.nodup_finRange NOFILE, fun fd _ => hnone fd⟩
    rintro fd rest st₁ ⟨h₁, hnp₁, hnodup, hnone₁⟩
    obtain ⟨hnot, hrest⟩ := List.nodup_cons.1 hnodup
    unfold dupFd
    cases hfd : (st₁.proc p).ofile fd with
    | none => exact ⟨h₁, hnp₁, hrest, fun fd' hmem => hnone₁ fd' (List.mem_cons_of_mem fd hmem)⟩
    | some f =>
        apply (filedup_spec h₁.holds (mem_fds hfd)).bind
        rintro st₂ ⟨hp₂, hh₂⟩
        have hs₂ := same_of_proc hp₂
        rw [← hs₂.fds] at hh₂
        have hfree : (st₂.proc np).ofile fd = none := by
          rw [hp₂]
          exact hnone₁ fd (List.mem_cons_self ..)
        have hnp₂ := hs₂.gone hnp₁
        refine ⟨(h₁.closed.of_same hs₂).good_setFd hh₂ hnp₂ hfree,
          not_gone_setFd hnp₂ np fd _, hrest, fun fd' hmem => ?_⟩
        have hne : fd' ≠ fd := fun heq => hnot (heq ▸ hmem)
        rw [setFd_ofile, Function.update_of_ne hne, hp₂]
        exact hnone₁ fd' (List.mem_cons_of_mem fd hmem)
  exact hloop.mono fun _ hend => hend.1

theorem fork_good (h : st.Good) (p : Fin NPROC) (kstack pgdir : Bool) :
    Stays (st.fork p kstack pgdir) fun r => r.2.Good := by
  apply (allocproc_spec h kstack).bind
  rintro ⟨np, st₁⟩ ⟨h₁ : st₁.Good, hnew⟩
  cases np with
  | none => exact h₁
  | some np =>
      obtain ⟨hnp, hnone⟩ := hnew np rfl
      simp only at hnp hnone ⊢
      split
      · generalize hst₂ : st₁.setProc np { st₁.proc np with parent := some p } = st₂
        have hproc : st₂.proc np = { st₁.proc np with parent := some p } := by
          rw [← hst₂, setProc_self]
        have h₂ : st₂.Good := by
          rw [← hst₂]
          exact h₁.setProc rfl fun hgone => absurd hgone hnp
        apply (dupFds_good p np h₂ (by rw [hproc]; exact hnp) (by rw [hproc]; exact hnone)).bind
        intro st₃ h₃
        exact h₃.setProc rfl nofun
      · exact h₁.setProc rfl fun _ => hnone

/-- `exit` drains the descriptors. -/
theorem closeFds_good (h : st.Good) (hp : ¬(st.proc p).state.Gone) :
    Stays ((List.finRange NOFILE).foldlM (closeFd p) st) fun st' =>
      st'.Good ∧ ∀ fd, (st'.proc p).ofile fd = none := by
  have hloop : Stays ((List.finRange NOFILE).foldlM (closeFd p) st) fun st' =>
      st'.Good ∧ ¬(st'.proc p).state.Gone
        ∧ ∀ fd, fd ∉ ([] : List (Fin NOFILE)) → (st'.proc p).ofile fd = none := by
    refine Ends.foldlM (fun (rest : List (Fin NOFILE)) (st' : Kernel) =>
      st'.Good ∧ ¬(st'.proc p).state.Gone
        ∧ ∀ fd, fd ∉ rest → (st'.proc p).ofile fd = none) ?_
      ⟨h, hp, fun fd hnot => absurd (List.mem_finRange fd) hnot⟩
    rintro fd rest st₁ ⟨h₁, hp₁, hnone₁⟩
    unfold closeFd
    cases hfd : (st₁.proc p).ofile fd with
    | none =>
        refine ⟨h₁, hp₁, fun fd' hnot => ?_⟩
        by_cases heq : fd' = fd
        · rw [heq, hfd]
        · exact hnone₁ fd' (List.not_mem_cons_of_ne_of_not_mem heq hnot)
    | some f =>
        have hh := h₁.holds
        rw [fds_setFd_none hfd] at hh
        apply (fileclose_spec hh).bind
        rintro st₂ ⟨hs₂, hh₂⟩
        have hfd₂ : (st₂.proc p).ofile fd = some f := by
          rw [(hs₂ p).1, hfd]
        have hp₂ := hs₂.gone hp₁
        have hfds : (st₁.setFd p fd none).fds = (st₂.setFd p fd none).fds := by
          have := hs₂.fds
          rw [fds_setFd_none hfd, fds_setFd_none hfd₂, Multiset.cons_inj_right] at this
          exact this.symm
        rw [hfds] at hh₂
        refine ⟨⟨hh₂, (h₁.closed.of_same hs₂).setFd hp₂ fd none⟩,
          not_gone_setFd hp₂ p fd none, fun fd' hnot => ?_⟩
        rw [setFd_ofile]
        by_cases heq : fd' = fd
        · rw [heq, Function.update_self]
        · rw [Function.update_of_ne heq, (hs₂ p).1]
          exact hnone₁ fd' (List.not_mem_cons_of_ne_of_not_mem heq hnot)
  exact hloop.mono fun _ hend => ⟨hend.1, fun fd => hend.2.2 fd List.not_mem_nil⟩

/-- A wakeup, and what else leaves the descriptors alone. -/
theorem wakeup1_good (h : st.Good) (chan : Chan) : (st.wakeup1 chan).Good :=
  h.of_same (same_wakeup1 st chan) h.holds

theorem wakeParent_spec (h : st.Good) (p : Fin NPROC) :
    (st.wakeParent p).Good ∧ st.Same (st.wakeParent p) := by
  unfold wakeParent
  cases (st.proc p).parent with
  | none => exact ⟨h, Same.refl st⟩
  | some parent => exact ⟨wakeup1_good h _, same_wakeup1 st _⟩

theorem abandon_spec (h : st.Good) (p q : Fin NPROC) :
    (abandon p st q).Good ∧ st.Same (abandon p st q) := by
  unfold abandon
  split
  · have hs : st.Same (st.setProc q { st.proc q with parent := some initproc }) :=
      same_setProc rfl Iff.rfl
    have hgood := h.of_same hs h.holds
    simp only
    split
    · exact ⟨wakeup1_good hgood _, hs.trans (same_wakeup1 _ _)⟩
    · exact ⟨hgood, hs⟩
  · exact ⟨h, Same.refl st⟩

theorem abandons_spec (h : st.Good) (p : Fin NPROC) (l : List (Fin NPROC)) :
    (l.foldl (abandon p) st).Good ∧ st.Same (l.foldl (abandon p) st) := by
  induction l generalizing st with
  | nil => exact ⟨h, Same.refl st⟩
  | cons q l ih =>
      obtain ⟨hq, hs⟩ := abandon_spec h p q
      obtain ⟨hl, hs'⟩ := ih hq
      exact ⟨hl, hs.trans hs'⟩

theorem exit_good (h : st.Good) (hp : ¬(st.proc p).state.Gone) :
    Stays (st.exit p) Good := by
  unfold exit
  split
  · trivial
  apply (closeFds_good h hp).bind
  rintro st₁ ⟨h₁, hnone₁⟩
  obtain ⟨h₂, hs₂⟩ := wakeParent_spec h₁ p
  obtain ⟨h₃, hs₃⟩ := abandons_spec h₂ p (List.finRange NPROC)
  change Good (((List.finRange NPROC).foldl (abandon p) (st₁.wakeParent p)).setState p .zombie)
  generalize (List.finRange NPROC).foldl (abandon p) (st₁.wakeParent p) = st₃ at h₃ hs₃ ⊢
  refine h₃.setProc rfl fun _ fd => ?_
  rw [((hs₂.trans hs₃) p).1]
  exact hnone₁ fd

theorem wait_good (h : st.Good) (p : Fin NPROC) : (st.wait p).2.Good := by
  unfold wait
  cases hfind : (List.finRange NPROC).find? fun q =>
      (st.proc q).parent = some p ∧ (st.proc q).state = .zombie with
  | some q =>
      have hzombie : (st.proc q).parent = some p ∧ (st.proc q).state = .zombie := by
        have := List.find?_some hfind
        simpa using this
      exact h.setProc rfl fun _ => h.closed q (Or.inr hzombie.2)
  | none =>
      simp only
      split
      · exact h
      · exact h.setProc rfl nofun

theorem kill_good (h : st.Good) (pid : Int) : (st.kill pid).2.Good := by
  unfold kill
  cases (List.finRange NPROC).find? fun q => (st.proc q).pid = pid with
  | none => exact h
  | some q =>
      refine h.setProc rfl fun hgone => ?_
      apply h.closed q
      simp only at hgone
      split at hgone
      · cases hgone <;> contradiction
      · exact hgone

/-! ## Steps -/

theorem syscall_good (h : st.Good) (hp : ¬(st.proc p).state.Gone) (c : Call) :
    Stays (st.syscall p c) fun r => r.2.Good := by
  cases c with
  | fork kstack pgdir => exact Ends.map (fork_good h p kstack pgdir)
  | exit => exact Ends.map (exit_good h hp)
  | wait => exact wait_good h p
  | kill pid => exact kill_good h pid
  | openInode ip omode => exact Ends.map (sysOpen_good h hp ip omode)
  | dup fd => exact Ends.map (sysDup_good h hp fd)
  | pipe page => exact Ends.map (sysPipe_good h hp page)
  | close fd => exact Ends.map (sysClose_good h hp fd)
  | yield => exact h.setProc rfl nofun
  | sleep chan => exact h.setProc rfl nofun

/-- **Step lemma** for the references. -/
theorem step_good (h : st.Good) (e : Event) : Stays (st.step e) fun r => r.2.Good := by
  cases e with
  | call p c =>
      unfold step
      simp only
      split
      · rename_i hrunning
        refine syscall_good h ?_ c
        rw [hrunning]
        nofun
      · trivial
  | scheduler p =>
      unfold step
      simp only
      split
      · exact h.setProc rfl nofun
      · trivial
  | wakeup chan => exact wakeup1_good h chan

theorem run_good (h : st.Good) (es : List Event) : Stays (st.run es) Good := by
  induction es generalizing st with
  | nil => exact h
  | cons e es ih => exact (step_good h e).bind fun r hr => ih hr

end Kernel

theorem boot_good : boot.Good := by
  have hofile : ∀ q fd, (boot.proc q).ofile fd = none := by
    intro q fd
    unfold boot
    by_cases hq : q = initproc
    · rw [hq]
      rfl
    · simp only [Function.update_of_ne hq]
      rfl
  have hfds : boot.fds = 0 := by
    unfold Kernel.fds Kernel.opens
    simp only [hofile]
    exact Finset.sum_eq_zero fun x _ => rfl
  refine ⟨?_, fun q _ fd => hofile q fd⟩
  rw [hfds]
  refine ⟨fun f => rfl, fun f _ => rfl, fun e => ?_, fun page hmem => nomatch hmem⟩
  exact named_eq_zero.2 fun f => List.not_mem_nil

/-! ## The law -/

/-- The descriptors that name a file. -/
def Kernel.descriptors (st : Kernel) (f : Fin NFILE) : Finset (Fin NPROC × Fin NOFILE) :=
  Finset.univ.filter fun x => (st.proc x.1).ofile x.2 = some f

/-- Some descriptor is an end of the pipe on page `k`. -/
def Kernel.PipeOpen (st : Kernel) (k : Nat) : Prop :=
  ∃ p fd f, (st.proc p).ofile fd = some f ∧ (st.file f).type = .pipe ∧ (st.file f).pipe = k

theorem Kernel.count_fds_eq_card (st : Kernel) (f : Fin NFILE) :
    st.fds.count f = (st.descriptors f).card := by
  have honce : ∀ x, (st.opens x).Nodup := fun x => by
    unfold opens
    cases (st.proc x.1).ofile x.2 with
    | none => exact List.nodup_nil
    | some g => exact List.nodup_singleton g
  rw [count_fds, named_eq_card honce, descriptors]
  simp only [opens, Option.mem_toList]

theorem File.mem_ends {fp : File} {e : PipeEnd} :
    e ∈ fp.ends ↔ fp.type = .pipe ∧ fp.pipe = e.page ∧ fp.writable = e.writable := by
  unfold File.ends
  split
  · rename_i htype
    rw [List.mem_singleton, PipeEnd.mk.injEq, eq_comm (a := e.page), eq_comm (a := e.writable)]
    exact (and_iff_right htype).symm
  · rename_i htype
    exact iff_of_false List.not_mem_nil fun h => htype h.1

/-- An end is open if and only if there is a file for it. -/
theorem Files.openEnd_iff {file : Fin NFILE → File} {pages : List Page}
    {m : Multiset (Fin NFILE)} (h : Files file pages m) {k : Nat} {page : Page}
    (hpage : pages[k]? = some page) (w : Bool) : page.openEnd w = true ↔
      ∃ f, (file f).type = .pipe ∧ (file f).pipe = k ∧ (file f).writable = w := by
  have hends := h.ends ⟨k, w⟩
  unfold openEnds at hends
  simp only [hpage] at hends
  have hpos : page.openEnd w = true ↔ 0 < named (fun f => (file f).ends) ⟨k, w⟩ := by
    rw [hends]
    cases page.openEnd w <;> decide
  rw [hpos, named_pos]
  exact exists_congr fun f => File.mem_ends

theorem not_freed_iff (page : Page) :
    ¬page.pipe.Freed ↔ page.openEnd false = true ∨ page.openEnd true = true := by
  rw [Pipe.Freed, not_and_or, Bool.not_eq_false, Bool.not_eq_false]
  rfl

/-- A page has been freed when no descriptor is an end of its pipe. -/
theorem Kernel.Good.pipeOpen_iff {st : Kernel} (h : st.Good) {k : Nat} {page : Page}
    (hpage : st.pages[k]? = some page) : st.PipeOpen k ↔ ¬page.pipe.Freed := by
  rw [not_freed_iff, Files.openEnd_iff h.holds hpage, Files.openEnd_iff h.holds hpage]
  constructor
  · rintro ⟨p, fd, f, _, htype, hpipe⟩
    cases hw : (st.file f).writable with
    | false => exact Or.inl ⟨f, htype, hpipe, hw⟩
    | true => exact Or.inr ⟨f, htype, hpipe, hw⟩
  · intro hfile
    obtain ⟨f, htype, hpipe⟩ : ∃ f, (st.file f).type = .pipe ∧ (st.file f).pipe = k := by
      rcases hfile with ⟨f, htype, hpipe, _⟩ | ⟨f, htype, hpipe, _⟩
      · exact ⟨f, htype, hpipe⟩
      · exact ⟨f, htype, hpipe⟩
    -- a file with a type is not free, so there is a descriptor for it
    have hused : (st.file f).ref ≠ 0 := fun hzero => by
      rw [h.holds.free f hzero] at htype
      cases htype
    have hpos : 0 < named st.opens f := by
      rw [← count_fds, ← h.holds.ref f]
      exact Nat.pos_of_ne_zero hused
    obtain ⟨⟨p, fd⟩, hmem⟩ := named_pos.1 hpos
    exact ⟨p, fd, f, Option.mem_toList.1 hmem, htype, hpipe⟩

/-- **References to open files.** No run of the kernel panics in `filedup` or
`fileclose`. Between calls `ref` of a file is the number of descriptors that
name it, and a free one has no type. The page of a pipe has not been freed
while a descriptor names an end of the pipe, and has been freed once when none
does. -/
theorem openFiles_counted (es : List Event) :
    Stays (boot.run es) fun st =>
      (∀ f, (st.file f).ref = (st.descriptors f).card)
      ∧ (∀ f, (st.file f).ref = 0 → (st.file f).type = .none)
      ∧ ∀ k page, st.pages[k]? = some page →
          (st.PipeOpen k → page.frees = 0) ∧ (¬st.PipeOpen k → page.frees = 1) := by
  apply (Kernel.run_good boot_good es).mono
  intro st h
  refine ⟨fun f => ?_, h.holds.free, fun k page hpage => ?_⟩
  · rw [← st.count_fds_eq_card f]
    exact h.holds.ref f
  · have hfrees : page.FreedOnce := h.holds.frees page (List.mem_of_getElem? hpage)
    rw [h.pipeOpen_iff hpage, hfrees]
    exact ⟨fun hnot => if_neg hnot, fun hfreed => if_pos (not_not.1 hfreed)⟩

/-- A child inherits the ends of a pipe: the page is freed when both processes
have closed them. -/
example : ∃ st, boot.run [.scheduler 0, .call 0 (.pipe (some fun _ => 0)),
      .call 0 (.fork true true), .call 0 (.close 0), .call 0 (.close 1), .scheduler 1,
      .call 1 .exit] = .ok st ∧ (st.pages.map Page.frees) = [1] :=
  Ends.exists_of_check (by decide +kernel)

end SchoolStuff.Xv6.Procs
