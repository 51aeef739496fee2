import SchoolStuff.Xv6.RuncmdSpots

/-!
# Xv6 — every run of a command

The steps that a process of a command can make, one lemma for each kind, and from
them that every run keeps the invariant.
-/

namespace SchoolStuff.Xv6.Sh

open Regions (Under Apart)
open World

variable {ι : Type} [DecidableEq ι] {c : Cmd Text} {io : Fds} {first : Nat} {w w' : World ι}
  {g g' : ι → Spot} {p q : ι} {pr pr' : Proc ι}

/-! ## The shell makes a step -/

theorem parent_set (w : World ι) {p q : ι} (pr : Option (Proc ι)) (hq : q ≠ p) :
    (w.set p pr).parent q = w.parent q := by
  rw [World.parent, World.parent, set_ne w pr hq]

/-- The processes have the parents that they had. -/
theorem parent_set_same (hp : w.proc p = some pr) (hparent : pr'.parent = pr.parent) (q : ι) :
    (w.set p (some pr')).parent q = w.parent q := by
  by_cases hq : q = p
  · rw [hq, parent_of (set_self _ _ _), parent_of hp, hparent]
  · exact parent_set w _ hq

theorem kids_set_same {n : Nat} (h : w.Kids q n) (hp : w.proc p = some pr)
    (hparent : pr'.parent = pr.parent) : World.Kids (w.set p (some pr')) q n :=
  h.congr fun r => by rw [parent_set_same hp hparent]

variable {prog prog' : Prog} {fds : Fds}

/-- The shell makes a step. -/
theorem Runs.shell (h : Runs c io first w g) (hp : w.proc p = some pr)
    (hcode : pr.code = .sh prog)
    (hp' : w'.proc p = some { pr with fds := fds, code := .sh prog' }) (hext : Extends w w')
    (spot : Spot) (hspot : g' p = spot) (hg : ∀ r, r ≠ p → w.proc r ≠ none → g' r = g r)
    (hother : ∀ r, r ≠ p → Beside c io w w' g' p r)
    (hdown : Down c (g p).node spot.node)
    (hstage : Stage c io w'.pipelines spot.node prog' fds spot.os spot.kids spot.live)
    (hkids : w'.Kids p spot.kids)
    (hstays : w'.lost = false → (g p).live = true → 0 < (g p).kids → 0 < spot.kids →
      spot.node = (g p).node ∧ spot.live = true)
    (haccount : Account c io first w' g') : Runs c io first w' g' := by
  subst hspot
  obtain ⟨hnode, _, hkids₀⟩ := (h.fine p pr hp).shell prog hcode
  refine h.move hp hp' rfl rfl hext hg hother (fun prog'' hprog => ?_)
    (fun n hn => ?_) (fun hz => ?_) (fun _ => .inl ⟨prog, hcode⟩)
    (fun r _ hr hr' _ hlive hlost => ?_) haccount
  · cases hprog
    exact ⟨⟨prog, hcode⟩, hnode.trans hdown, hstage, hkids⟩
  · exact hn.elim nofun nofun
  · cases hz
  · obtain ⟨ha, hlive'⟩ := hstays hlost hlive (hkids₀.pos hr) (hkids.pos hr')
    exact ⟨prog', rfl, ha, hlive'⟩

/-- A call that leaves all other processes as they are. -/
theorem Runs.goes (h : Runs c io first w g) (hp : w.proc p = some pr) (hcode : pr.code = .sh prog)
    (hgoes : Goes c io w.pipelines (g p).node prog' fds (g p).os (g p).kids (g p).live) :
    ∃ g', Runs c io first (w.set p (some { pr with fds := fds, code := .sh prog' })) g' := by
  obtain ⟨a, os, live, hdown, hstage, hsub, hstays⟩ := hgoes
  obtain ⟨_, _, hkids⟩ := (h.fine p pr hp).shell prog hcode
  refine ⟨_, h.shell hp hcode (set_self w p _) (.same rfl rfl rfl id)
    ⟨a, os, (g p).kids, live⟩ (Function.update_self _ _ _)
    (fun r hr _ => Function.update_of_ne hr _ g) (fun r hr => .inl (set_ne w _ hr)) hdown hstage
    (kids_set_same hkids hp rfl) (fun _ hlive _ => hstays hlive)
    (h.account.keep _ _ _ rfl rfl (le_refl _) hsub)⟩

/-- `wait` returns, and a child is gone. -/
theorem Runs.waits (h : Runs c io first w g) (hp : w.proc p = some pr)
    (hcode : pr.code = .sh prog) {q : ι} {child : Proc ι} (hq : w.proc q = some child)
    (hparent : child.parent = some p) (hzombie : child.code = .zombie) {n : Nat}
    (hn : (g p).kids = n + 1)
    (hgoes : Goes c io w.pipelines (g p).node prog' pr.fds (g p).os n (g p).live) :
    ∃ g', Runs c io first ((w.set q none).set p (some { pr with code := .sh prog' })) g' := by
  obtain ⟨a, os, live, hdown, hstage, hsub, hstays⟩ := hgoes
  obtain ⟨_, _, hkids⟩ := (h.fine p pr hp).shell prog hcode
  have hqp : p ≠ q := by
    rintro rfl
    rw [hp, Option.some.injEq] at hq
    rw [hq, hzombie] at hcode
    cases hcode
  rw [hn] at hkids
  have hp' : (w.set q none).proc p = some pr := (set_ne w none hqp).trans hp
  refine ⟨_, h.shell hp hcode (set_self (w.set q none) p _) (.same rfl rfl rfl id)
    ⟨a, os, n, live⟩ (Function.update_self _ _ _)
    (fun r hr _ => Function.update_of_ne hr _ g) (fun r hr => ?_) hdown hstage
    (kids_set_same (hkids.erase ((parent_of hq).trans hparent) fun r => ?_) hp' rfl)
    (fun _ hlive _ => hstays hlive)
    (h.account.keep _ _ _ rfl rfl (le_refl _) hsub)⟩
  · unfold Beside
    rw [set_ne _ _ hr]
    by_cases hrq : r = q
    · rw [hrq, set_self]
      exact .inr (.inl ⟨rfl, child, hq, hparent, hzombie⟩)
    · exact .inl (set_ne w none hrq)
  · by_cases hrq : r = q
    · rw [hrq, World.parent, set_self, Option.bind_none]
      exact iff_of_false (Option.some_ne_none p).symm fun hne => hne.1 rfl
    · rw [parent_set w none hrq]
      exact (and_iff_right hrq).symm

/-- A pipeline makes its pipe. -/
theorem Runs.pipes (h : Runs c io first w g) (hp : w.proc p = some pr)
    (hcode : pr.code = .sh prog) {k : Nat} (hk : w.pipes ≤ k) (hos : (g p).os = [(g p).node])
    (hn : (g p).kids = 0)
    (hstage : Stage c io (w.pipelines ++ [(k, (g p).node)]) (g p).node prog' fds
      [.left :: (g p).node, .right :: (g p).node] 0 true) :
    ∃ g', Runs c io first
      (({ w with pipes := k + 1, pipelines := w.pipelines ++ [(k, (g p).node)] } : World ι).set p
        (some { pr with fds := fds, code := .sh prog' })) g' := by
  obtain ⟨_, _, hkids⟩ := (h.fine p pr hp).shell prog hcode
  rw [hn] at hkids
  generalize hw₁ : ({ w with pipes := k + 1, pipelines := w.pipelines ++ [(k, (g p).node)] } :
    World ι) = w₁
  have hproc : w₁.proc = w.proc := hw₁ ▸ rfl
  have hext : Extends w (w₁.set p (some { pr with fds := fds, code := .sh prog' })) := by
    subst hw₁
    refine ⟨List.subset_append_left _ _, fun x hx => ?_, hk.trans (Nat.le_succ k),
      fun _ _ hs => hs, id⟩
    rcases List.mem_append.1 hx with hx | hx
    · exact .inl hx
    · rw [List.mem_singleton.1 hx]
      exact .inr hk
  have hp₁ : w₁.proc p = some pr := hproc ▸ hp
  refine ⟨_, h.shell hp hcode (set_self w₁ p _) hext
    ⟨(g p).node, [.left :: (g p).node, .right :: (g p).node], 0, true⟩
    (Function.update_self _ _ _) (fun r hr _ => Function.update_of_ne hr _ g)
    (fun r hr => .inl ((set_ne w₁ _ hr).trans (congrFun hproc r))) .refl (hw₁ ▸ hstage)
    (kids_set_same (hkids.congr fun q => ?_) hp₁ rfl)
    (fun _ _ _ hpos => absurd hpos (Nat.lt_irrefl 0))
    (h.account.pipe hk hos (hw₁ ▸ rfl) (hw₁ ▸ rfl) (hw₁ ▸ rfl) rfl)⟩
  rw [World.parent, World.parent, hproc]

/-- A program is started. -/
theorem Runs.execs (h : Runs c io first w g) (hp : w.proc p = some pr)
    (hcode : pr.code = .sh prog) {argv : List Text} {src : Sources}
    (hos : (g p).os = [(g p).node]) (hn : (g p).kids = 0)
    (hat : locate c (g p).node = some (.exec argv, src))
    (hfds : Matches io w.pipelines pr.fds src) :
    ∃ g', Runs c io first
      { w.set p (some { pr with code := .program w.starts.length }) with
        starts := w.starts ++ [⟨(g p).node, argv, pr.fds⟩] } g' := by
  obtain ⟨hdown, _, hkids⟩ := (h.fine p pr hp).shell prog hcode
  rw [hn] at hkids
  generalize hw' : ({ w.set p (some { pr with code := .program w.starts.length }) with
    starts := w.starts ++ [⟨(g p).node, argv, pr.fds⟩] } : World ι) = w'
  have hstarts : w'.starts = w.starts ++ [⟨(g p).node, argv, pr.fds⟩] := hw' ▸ rfl
  have hproc : w'.proc = (w.set p (some { pr with code := .program w.starts.length })).proc :=
    hw' ▸ rfl
  have hext : Extends w w' := by
    subst hw'
    refine ⟨List.Subset.refl _, fun _ hx => .inl hx, le_refl _, fun n s hs => ?_, id⟩
    rw [List.getElem?_append_left (List.getElem?_eq_some_iff.1 hs).1]
    exact hs
  have hp' : w'.proc p = some { pr with code := .program w.starts.length } :=
    hproc ▸ set_self w p _
  refine ⟨_, h.move hp hp' rfl rfl hext
    (fun r hr _ => Function.update_of_ne hr ⟨(g p).node, [], 0, false⟩ g)
    (fun r hr => .inl ?_) nofun (fun n hcode' => ?_) nofun (fun _ => .inl ⟨prog, hcode⟩)
    (fun r _ hr _ _ _ _ => ?_)
    (h.account.exec ⟨src, hat, hfds⟩ hos hstarts (hw' ▸ rfl) (hw' ▸ rfl) rfl)⟩
  · rw [hproc]
    exact set_ne w _ hr
  · have hlen : n = w.starts.length := by
      rcases hcode' with hcode' | hcode' <;> cases hcode'
      rfl
    refine ⟨⟨(g p).node, argv, pr.fds⟩, ?_, hdown, fun fd o ho => .inl ⟨fd, ho⟩⟩
    rw [hstarts, hlen, List.getElem?_concat_length]
  · exact absurd (hkids.pos hr) (Nat.lt_irrefl 0)

/-! ### Forks -/

section Fork

variable {place : Place} {code code' : Code}

theorem fork_child (w : World ι) (p : ι) (pr : Proc ι) (q : ι) (place : Place)
    (code code' : Code) : (w.fork p pr q place code code').proc q
      = some { pr with parent := some p, place := place, code := code' } := set_self _ _ _

theorem fork_parent (w : World ι) (pr : Proc ι) (place : Place) (code code' : Code) (hne : p ≠ q) :
    (w.fork p pr q place code code').proc p = some { pr with code := code } := by
  unfold World.fork
  rw [set_ne _ _ hne, set_self]

theorem fork_other (w : World ι) (pr : Proc ι) (place : Place) (code code' : Code) {r : ι}
    (hrp : r ≠ p) (hrq : r ≠ q) : (w.fork p pr q place code code').proc r = w.proc r := by
  unfold World.fork
  rw [set_ne _ _ hrq, set_ne _ _ hrp]

omit [DecidableEq ι] in
theorem ne_of_free (hp : w.proc p = some pr) (hq : w.proc q = none) : p ≠ q := by
  rintro rfl
  rw [hp] at hq
  cases hq

theorem parent_fork (hp : w.proc p = some pr) (hq : w.proc q = none) (r : ι) :
    (w.fork p pr q place code code').parent r = if r = q then some p else w.parent r := by
  by_cases hrq : r = q
  · rw [if_pos hrq, hrq, parent_of (fork_child w p pr q place code code')]
  rw [if_neg hrq]
  by_cases hrp : r = p
  · rw [hrp, parent_of (fork_parent w pr place code code' (ne_of_free hp hq)), parent_of hp]
  · rw [World.parent, World.parent, fork_other w pr place code code' hrp hrq]

omit [DecidableEq ι] in
/-- A free slot is nobody's parent. -/
theorem Runs.childless (h : Runs c io first w g) (hq : w.proc q = none) (r : ι) :
    w.parent r ≠ some q := by
  intro hr
  obtain ⟨prr, hw, hparent⟩ := of_parent hr
  obtain ⟨parent, hsome, _⟩ := (h.fine r prr hw).parent q hparent
  rw [hq] at hsome
  cases hsome

theorem kids_fork (hp : w.proc p = some pr) (hq : w.proc q = none) {n : Nat} (h : w.Kids p n) :
    (w.fork p pr q place code code').Kids p (n + 1) := by
  have hnone : w.parent q ≠ some p := by
    rw [World.parent, hq, Option.bind_none]
    exact (Option.some_ne_none p).symm
  refine h.cons hnone fun r => ?_
  rw [parent_fork hp hq]
  by_cases hrq : r = q
  · rw [if_pos hrq]
    exact iff_of_true rfl (.inl hrq)
  · rw [if_neg hrq]
    exact (or_iff_right hrq).symm

theorem Runs.kids_child (h : Runs c io first w g) (hp : w.proc p = some pr)
    (hq : w.proc q = none) : (w.fork p pr q place code code').Kids q 0 := by
  refine kids_zero fun r => ?_
  rw [parent_fork hp hq]
  split
  · exact fun heq => ne_of_free hp hq (Option.some.inj heq)
  · exact h.childless hq r

/-- A region is split between a process and its child. -/
theorem Account.fork (h : Account c io first w g) (w' : World ι) {spot spot' : Spot}
    (hstarts : w'.starts = w.starts) (hpipelines : w'.pipelines = w.pipelines)
    (hpipes : w'.pipes = w.pipes) (hsub : ∀ x, Under spot.os x → Under (g p).os x)
    (hsub' : ∀ x, Under spot'.os x → Under (g p).os x)
    (hapart : ∀ x, Under spot.os x → ¬Under spot'.os x) :
    Account c io first w' (Function.update (Function.update g p spot) q spot') := by
  refine ⟨?_, ?_, ?_, ?_, hpipelines ▸ h.keys, hpipes ▸ h.pipes⟩
  · rw [hstarts, hpipelines]
    exact h.started
  · rw [hstarts, Function.comp_update, Function.comp_update]
    exact h.starts.split hsub hsub' hapart
  · rw [hpipelines, Function.comp_update, Function.comp_update]
    exact h.pipelines.split hsub hsub' hapart
  · rw [hpipelines, hpipes]
    exact h.range

theorem extends_fork : Extends w (w.fork p pr q place code code') := .same rfl rfl rfl id

/-- All but a process and its child stay. -/
theorem beside_fork (hq : w.proc q = none)
    (hchild : Fine c io (w.fork p pr q place code code') g' q
      { pr with parent := some p, place := place, code := code' }) (r : ι) (hr : r ≠ p) :
    Beside c io w (w.fork p pr q place code code') g' p r := by
  by_cases hrq : r = q
  · subst hrq
    exact .inr (.inr ⟨hq, _, fork_child w p pr r place code code', rfl, hchild⟩)
  · exact .inl (fork_other w pr place code code' hr hrq)

theorem spots_fork (spot spot' : Spot) (hq : w.proc q = none) (r : ι) (hr : r ≠ p)
    (hw : w.proc r ≠ none) :
    Function.update (Function.update g p spot) q spot' r = g r := by
  have hrq : r ≠ q := by
    rintro rfl
    exact hw hq
  rw [Function.update_of_ne hrq, Function.update_of_ne hr]

end Fork

/-- The shell forks for a part of its command. -/
theorem Runs.forks (h : Runs c io first w g) (hp : w.proc p = some pr)
    (hcode : pr.code = .sh prog) (hq : w.proc q = none) {s : Side}
    {next : Int → Prog} {os₁ os₂ : List Place} {live : Bool}
    (hforks : Forks c io w.pipelines (g p).node (s :: (g p).node) next pr.fds (g p).os os₁ os₂
      (g p).kids live)
    (hlive : live = true
      ∨ s = .sub ∧ (g p).kids = 0 ∧ ∃ part src, locate c (g p).node = some (.back part, src))
    {pid : Int} (hpid : 0 < pid) :
    ∃ g', Runs c io first (w.fork p pr q (s :: (g p).node) (.sh (next pid)) (.sh (next 0))) g' := by
  obtain ⟨hdown, _, hkids⟩ := (h.fine p pr hp).shell prog hcode
  have hne := ne_of_free hp hq
  have hp' := fork_parent w pr (s :: (g p).node) (.sh (next pid)) (.sh (next 0)) hne
  obtain ⟨spot, hspot⟩ : ∃ spot : Spot, spot = ⟨(g p).node, os₁, (g p).kids + 1, live⟩ := ⟨_, rfl⟩
  obtain ⟨spot', hspot'⟩ : ∃ spot : Spot, spot = ⟨s :: (g p).node, os₂, 0, true⟩ := ⟨_, rfl⟩
  have hgp : Function.update (Function.update g p spot) q spot' p = spot := by
    rw [Function.update_of_ne hne, Function.update_self]
  have hchild : Fine c io (w.fork p pr q (s :: (g p).node) (.sh (next pid)) (.sh (next 0)))
      (Function.update (Function.update g p spot) q spot') q
      { pr with parent := some p, place := s :: (g p).node, code := .sh (next 0) } := by
    refine ⟨fun prog' hprog => ?_, fun n hn => hn.elim nofun nofun, nofun, fun r hr => ?_,
      fun r parent prog' hr hw _ => ?_, fun _ _ => ?_⟩
    · cases hprog
      rw [Function.update_self, hspot']
      exact ⟨.refl, hforks.child, h.kids_child hp hq⟩
    · cases hr
      exact ⟨_, hp', nofun⟩
    · cases hr
      rw [hp', Option.some.injEq] at hw
      subst hw
      exact ⟨hforks.child.located rfl, s, (g p).node, rfl, hdown.suffix⟩
    · refine .inr ⟨s, (g p).node, rfl, ?_⟩
      rcases hlive with hlive | ⟨hs, _, hback⟩
      · refine .inr ⟨p, _, _, rfl, hp', rfl, ?_⟩
        rw [hgp, hspot]
        exact ⟨rfl, hlive⟩
      · exact .inl ⟨hs, hback⟩
  subst hspot hspot'
  refine ⟨_, h.shell hp hcode hp' extends_fork _ hgp
    (fun r hr hw => spots_fork _ _ hq r hr hw) (fun r hr => beside_fork hq hchild r hr)
    .refl (hforks.parent pid hpid) (kids_fork hp hq hkids) (fun _ _ hpos _ => ⟨rfl, ?_⟩)
    (h.account.fork _ rfl rfl rfl hforks.sub hforks.sub' hforks.apart)⟩
  rcases hlive with hlive | ⟨_, hzero, _⟩
  · exact hlive
  · omega

/-! ## A program makes a step -/

omit [DecidableEq ι] in
theorem user_of {n : Nat} (h : pr.code = .program n ∨ pr.code = .descendant n) :
    (∀ prog, pr.code ≠ .sh prog) ∧ pr.code ≠ .zombie := by
  rcases h with h | h <;> rw [h] <;> exact ⟨nofun, nofun⟩

/-- What a call of a program leaves it has from the shell, or has made itself. -/
theorem Runs.user (h : Runs c io first w g) (hp : w.proc p = some pr) {n : Nat}
    (hcode : pr.code = .program n ∨ pr.code = .descendant n)
    (hp' : w'.proc p = some { pr with fds := fds }) (hext : Extends w w')
    (hother : ∀ r, r ≠ p → Beside c io w w' g p r)
    (hfds : ∀ fd o, fds fd = some o → (∃ fd', pr.fds fd' = some o) ∨ w'.Foreign o)
    (haccount : Account c io first w' g) : Runs c io first w' g := by
  obtain ⟨hsh, hz⟩ := user_of hcode
  refine h.move hp hp' rfl rfl hext (fun _ _ _ => rfl) hother (fun prog hprog => ?_)
    (fun m hm => ?_) hz id (fun r prog _ _ hprog => absurd hprog (hsh prog)) haccount
  · exact absurd hprog (hsh prog)
  · obtain ⟨s, hs, hdown, hold⟩ := (h.fine p pr hp).user m hm
    refine ⟨s, hext.starts m s hs, hdown, fun fd o ho => ?_⟩
    rcases hfds fd o ho with ⟨fd', ho'⟩ | hforeign
    · exact (hold fd' o ho').imp_right (·.mono hext)
    · exact .inr hforeign

theorem set_cases {fds : Fds} {fd fd' : Int} {o : Obj} {x : Option Obj}
    (h : fds.set fd x fd' = some o) : x = some o ∨ fds fd' = some o := by
  unfold Fds.set at h
  by_cases heq : fd' = fd
  · rw [heq, Function.update_self] at h
    exact .inl h
  · rw [Function.update_of_ne heq] at h
    exact .inr h

omit [DecidableEq ι] in
theorem foreign_file (w : World ι) (name : Text) (mode : UInt32) :
    w.Foreign (.file name mode) := nofun

/-- Nothing changes but the descriptors of a program. -/
theorem Runs.user_same (h : Runs c io first w g) (hp : w.proc p = some pr) {n : Nat}
    (hcode : pr.code = .program n ∨ pr.code = .descendant n)
    (hfds : ∀ fd o, fds fd = some o → (∃ fd', pr.fds fd' = some o) ∨ w.Foreign o) :
    Runs c io first (w.set p (some { pr with fds := fds })) g := by
  have hext : Extends w (w.set p (some { pr with fds := fds })) := .same rfl rfl rfl id
  exact h.user hp hcode (set_self w p _) hext (fun r hr => .inl (set_ne w _ hr))
    (fun fd o ho => (hfds fd o ho).imp_right (·.mono hext))
    (h.account.same _ rfl rfl (le_refl _))

/-- A program makes a call. -/
theorem Runs.userCall (h : Runs c io first w g) (hp : w.proc p = some pr) {n : Nat}
    (hcode : pr.code = .program n ∨ pr.code = .descendant n) {cl : Call} {r : Ret}
    (hc : ∀ a, cl ≠ .pipe (some a)) (hdo : Does w p pr cl r pr' w') :
    Runs c io first (w'.set p (some pr')) g := by
  cases hdo with
  | print => exact h.user_same hp hcode fun fd o ho => .inl ⟨fd, ho⟩
  | openFails _ => exact h.user_same hp hcode fun fd o ho => .inl ⟨fd, ho⟩
  | dupFails _ => exact h.user_same hp hcode fun fd o ho => .inl ⟨fd, ho⟩
  | pipeFails _ => exact h.user_same hp hcode fun fd o ho => .inl ⟨fd, ho⟩
  | waitFails _ => exact h.user_same hp hcode fun fd o ho => .inl ⟨fd, ho⟩
  | close =>
      refine h.user_same hp hcode fun fd o ho => ?_
      rcases set_cases ho with heq | ho
      · cases heq
      · exact .inl ⟨fd, ho⟩
  | openFile _ _ =>
      refine h.user_same hp hcode fun fd o ho => ?_
      rcases set_cases ho with heq | ho
      · cases heq
        exact .inr (foreign_file w _ _)
      · exact .inl ⟨fd, ho⟩
  | dup hold _ =>
      refine h.user_same hp hcode fun fd o ho => ?_
      rcases set_cases ho with heq | ho
      · cases heq
        exact .inl ⟨_, hold⟩
      · exact .inl ⟨fd, ho⟩
  | @pipe a _ k hk _ _ _ =>
      cases a with
      | some a => exact absurd rfl (hc a)
      | none =>
          generalize hw' : World.set _ p _ = w'
          have hpipelines : w'.pipelines = w.pipelines := by
            rw [← hw']
            exact List.append_nil _
          have hpipes : w'.pipes = k + 1 := hw' ▸ rfl
          have hmore : w.pipes ≤ w'.pipes := by omega
          have hnew : ∀ writable, w'.Foreign (.pipe k writable) := by
            intro writable k' writable' heq
            cases heq
            refine ⟨by omega, fun a ha => ?_⟩
            rw [hpipelines] at ha
            exact absurd (h.account.range _ ha).2 (by simpa using hk)
          have hext : Extends w w' := ⟨hpipelines ▸ List.Subset.refl _,
            fun _ hx => .inl (hpipelines ▸ hx), hmore, fun _ _ hs => hw' ▸ hs,
            fun hlost => by rw [← hw'] at hlost; exact hlost⟩
          refine h.user hp hcode (hw' ▸ set_self _ p _) hext (fun r hr => .inl ?_)
            (fun fd o ho => ?_) (h.account.same _ (hw' ▸ rfl) hpipelines hmore)
          · rw [← hw', set_ne _ _ hr]
          · rcases set_cases ho with heq | ho
            · cases heq
              exact .inr (hnew true)
            · rcases set_cases ho with heq | ho
              · cases heq
                exact .inr (hnew false)
              · exact .inl ⟨fd, ho⟩
  | @wait q child _ hq hparent hzombie =>
      refine h.user hp hcode (set_self (w.set q none) p _) (.same rfl rfl rfl id)
        (fun r hr => ?_) (fun fd o ho => .inl ⟨fd, ho⟩) (h.account.same _ rfl rfl (le_refl _))
      unfold Beside
      rw [set_ne _ _ hr]
      by_cases hrq : r = q
      · rw [hrq, set_self]
        exact .inr (.inl ⟨rfl, child, hq, hparent, hzombie⟩)
      · exact .inl (set_ne w none hrq)

/-- A program, or one of its descendants, forks. -/
theorem Runs.userFork (h : Runs c io first w g) (hp : w.proc p = some pr) {n : Nat}
    (hcode : pr.code = .program n ∨ pr.code = .descendant n) (hq : w.proc q = none) :
    ∃ g', Runs c io first (w.fork p pr q pr.place pr.code (.descendant n)) g' := by
  obtain ⟨hsh, hz⟩ := user_of hcode
  have hfine := h.fine p pr hp
  have hne := ne_of_free hp hq
  have hp' : (w.fork p pr q pr.place pr.code (.descendant n)).proc p = some pr :=
    fork_parent w pr pr.place pr.code (.descendant n) hne
  have hgp : Function.update (Function.update g p ⟨[], [], 0, false⟩) q ⟨[], [], 0, false⟩ p
      = ⟨[], [], 0, false⟩ := by
    rw [Function.update_of_ne hne, Function.update_self]
  have hnil : ∀ x, Under [] x → Under (g p).os x := fun x hx => absurd hx Regions.not_under_nil
  have hchild : Fine c io (w.fork p pr q pr.place pr.code (.descendant n))
      (Function.update (Function.update g p ⟨[], [], 0, false⟩) q ⟨[], [], 0, false⟩) q
      { pr with parent := some p, place := pr.place, code := .descendant n } := by
    refine ⟨nofun, fun m hm => ?_, nofun, fun r hr => ?_, fun r parent prog hr hw hprog => ?_,
      fun _ hactive => ?_⟩
    · obtain ⟨s, hs, hdown, hfds⟩ := hfine.user n hcode
      have hmn : m = n := by
        rcases hm with hm | hm <;> cases hm
        rfl
      refine ⟨s, hmn ▸ hs, hdown, fun fd o ho => ?_⟩
      exact (hfds fd o ho).imp_right (·.mono extends_fork)
    · cases hr
      exact ⟨pr, hp', hz⟩
    · cases hr
      rw [hp', Option.some.injEq] at hw
      rw [← hw] at hprog
      exact absurd hprog (hsh prog)
    · rcases hactive with ⟨_, hactive⟩ | ⟨_, hactive⟩ <;> cases hactive
  refine ⟨_, h.move hp hp' rfl rfl extends_fork (fun r hr hw => spots_fork _ _ hq r hr hw)
    (fun r hr => beside_fork hq hchild r hr) (fun prog hprog => absurd hprog (hsh prog))
    (fun m hm => ?_) hz id (fun r prog _ _ hprog => absurd hprog (hsh prog))
    (h.account.fork _ rfl rfl rfl hnil hnil fun x hx => absurd hx Regions.not_under_nil)⟩
  obtain ⟨s, hs, hdown, hfds⟩ := hfine.user m hm
  exact ⟨s, hs, hdown, fun fd o ho => (hfds fd o ho).imp_right (·.mono extends_fork)⟩

/-! ## A process exits -/

@[simp] theorem abandon_code (p : ι) (pr : Proc ι) : (pr.abandon p).code = pr.code := by
  unfold Proc.abandon
  split <;> rfl

@[simp] theorem abandon_place (p : ι) (pr : Proc ι) : (pr.abandon p).place = pr.place := by
  unfold Proc.abandon
  split <;> rfl

@[simp] theorem abandon_fds (p : ι) (pr : Proc ι) : (pr.abandon p).fds = pr.fds := by
  unfold Proc.abandon
  split <;> rfl

theorem abandon_parent (p q : ι) (pr : Proc ι) :
    (pr.abandon p).parent = some q ↔ pr.parent = some q ∧ q ≠ p := by
  unfold Proc.abandon
  split
  · rename_i heq
    rw [heq]
    exact iff_of_false nofun fun h => h.2 (Option.some.inj h.1).symm
  · rename_i hne
    refine (and_iff_left_of_imp ?_).symm
    rintro hq rfl
    exact hne hq

theorem exit_self (w : World ι) (p : ι) (pr : Proc ι) :
    (w.exit p pr).proc p = some { pr.abandon p with fds := fun _ => none, code := .zombie } :=
  if_pos rfl

theorem exit_ne (w : World ι) (pr : Proc ι) (hq : q ≠ p) :
    (w.exit p pr).proc q = (w.proc q).map (Proc.abandon p) := if_neg hq

/-- A process exits, and nobody counts on it to wait. -/
theorem Runs.exits (h : Runs c io first w g) (hp : w.proc p = some pr)
    (hproc : w'.proc = (w.exit p pr).proc) (hext : Extends w w')
    (hlink : w'.lost = false → ∀ r prog, w.parent r = some p → pr.code = .sh prog →
      (g p).live = false) (haccount : Account c io first w' g) : Runs c io first w' g := by
  have hself : w'.proc p = some { pr.abandon p with fds := fun _ => none, code := .zombie } :=
    hproc ▸ exit_self w p pr
  have hne : ∀ r, r ≠ p → w'.proc r = (w.proc r).map (Proc.abandon p) :=
    fun r hr => hproc ▸ exit_ne w pr hr
  have hkids : ∀ r q, q ≠ p → (w'.parent r = some q ↔ w.parent r = some q) := by
    intro r q hq
    by_cases hrp : r = p
    · rw [hrp, parent_of hself, parent_of hp]
      exact (abandon_parent p q pr).trans (and_iff_left hq)
    · rw [World.parent, World.parent, hne r hrp]
      cases w.proc r with
      | none => exact Iff.rfl
      | some prr => exact (abandon_parent p q prr).trans (and_iff_left hq)
  -- a parent that is left is there as before
  have hthere : ∀ x old r, w.proc x = some old → (old.abandon p).parent = some r →
      ∃ parent, w'.proc r = some parent ∧ parent.code ≠ .zombie := by
    intro x old r hx hr
    rw [abandon_parent] at hr
    obtain ⟨parent, hw, hnz⟩ := (h.fine x old hx).parent r hr.1
    refine ⟨parent.abandon p, ?_, ?_⟩
    · rw [hne r hr.2, hw, Option.map_some]
    · rwa [abandon_code]
  have hbelow : ∀ x old r parent prog, w.proc x = some old → (old.abandon p).parent = some r →
      w'.proc r = some parent → parent.code = .sh prog → (locate c (old.abandon p).place).isSome
        ∧ ∃ s a, (old.abandon p).place = s :: a ∧ parent.place <:+ a := by
    intro x old r parent prog hx hr hw hcode
    rw [abandon_parent] at hr
    rw [hne r hr.2] at hw
    obtain ⟨before, hbefore, rfl⟩ := Option.map_eq_some_iff.1 hw
    rw [abandon_code] at hcode
    rw [abandon_place, abandon_place]
    exact (h.fine x old hx).below r before prog hr.1 hbefore hcode
  refine ⟨fun q prq hq => ?_, haccount⟩
  by_cases hqp : q = p
  · subst hqp
    rw [hself, Option.some.injEq] at hq
    subst hq
    refine ⟨fun _ hcode => Code.noConfusion hcode, fun n hn => hn.elim
        (fun hcode => Code.noConfusion hcode) fun hcode => Code.noConfusion hcode,
      fun _ _ => rfl, fun r hr => hthere q pr r hp hr,
      fun r parent prog hr hw hcode => hbelow q pr r parent prog hp hr hw hcode,
      fun _ hactive => ?_⟩
    rcases hactive with ⟨_, hactive⟩ | ⟨_, hactive⟩ <;> cases hactive
  rw [hne q hqp] at hq
  obtain ⟨old, hold, rfl⟩ := Option.map_eq_some_iff.1 hq
  have hfine := h.fine q old hold
  refine ⟨fun prog hcode => ?_, fun n hcode => ?_, fun hcode => ?_,
    fun r hr => hthere q old r hold hr,
    fun r parent prog hr hw hcode => hbelow q old r parent prog hold hr hw hcode,
    fun hlost hactive => ?_⟩
  · rw [abandon_code] at hcode
    obtain ⟨hdown, hstage, hk⟩ := hfine.shell prog hcode
    rw [abandon_place, abandon_fds]
    exact ⟨hdown, hstage.mono hext.pipelines, hk.congr fun r => hkids r q hqp⟩
  · rw [abandon_code] at hcode
    obtain ⟨s, hs, hdown, hfds⟩ := hfine.user n hcode
    rw [abandon_place, abandon_fds]
    exact ⟨s, hext.starts n s hs, hdown, fun fd o ho => (hfds fd o ho).imp_right (·.mono hext)⟩
  · rw [abandon_code] at hcode
    rw [abandon_fds]
    exact hfine.zombie hcode
  · unfold Proc.Active at hactive
    rw [abandon_code] at hactive
    rw [abandon_place]
    refine (hfine.linked (hext.lost hlost) hactive).imp_right ?_
    rintro ⟨s, a, hplace, hsub | ⟨r, parent, prog, hr, hw, hcode, hnode, hlive⟩⟩
    · exact ⟨s, a, hplace, .inl hsub⟩
    · have hrp : r ≠ p := by
        rintro rfl
        rw [hp, Option.some.injEq] at hw
        subst hw
        rw [hlink hlost q prog ((parent_of hold).trans hr) hcode] at hlive
        cases hlive
      refine ⟨s, a, hplace, .inr ⟨r, parent.abandon p, prog, ?_, ?_, ?_, hnode, hlive⟩⟩
      · exact (abandon_parent p r old).2 ⟨hr, hrp⟩
      · rw [hne r hrp, hw, Option.map_some]
      · rwa [abandon_code]

/-- The parent outside waits. -/
theorem Runs.reaps (h : Runs c io first w g) (hp : w.proc p = some pr)
    (hparent : pr.parent = none) (hzombie : pr.code = .zombie) :
    Runs c io first (w.set p none) g := by
  have hstill : ∀ x prx r, w.proc x = some prx → prx.parent = some r →
      (w.set p none).proc r = w.proc r := by
    intro x prx r hx hr
    refine set_ne w none ?_
    rintro rfl
    obtain ⟨parent, hw, hnz⟩ := (h.fine x prx hx).parent r hr
    rw [hp, Option.some.injEq] at hw
    exact hnz (hw ▸ hzombie)
  refine ⟨fun q prq hq => ?_, h.account.same _ rfl rfl (le_refl _)⟩
  by_cases hqp : q = p
  · rw [hqp, set_self] at hq
    cases hq
  rw [set_ne w none hqp] at hq
  have hfine := h.fine q prq hq
  refine hfine.stay (.same rfl rfl rfl id) (fun r => ?_) rfl (fun r hr => ?_)
    (fun r parent prog hr hw hcode => ?_) fun _ r parent prog hr hw hcode hlive => ?_
  · by_cases hrp : r = p
    · rw [hrp, World.parent, set_self, parent_of hp, hparent, Option.bind_none]
    · rw [parent_set w none hrp]
  · rw [hstill q prq r hq hr]
    exact hfine.parent r hr
  · rw [hstill q prq r hq hr] at hw
    exact ⟨parent, prog, hw, hcode, rfl⟩
  · exact ⟨parent, prog, (hstill q prq r hq hr).trans hw, hcode, rfl, hlive⟩

/-! ## A step, and a run -/

/-- The shell cannot fork. -/
theorem Runs.forkFails (h : Runs c io first w g) (hp : w.proc p = some pr)
    (hcode : pr.code = .sh prog) (hending : Ending prog') :
    ∃ g', Runs c io first
      { w.set p (some { pr with code := .sh prog' }) with lost := true } g' := by
  obtain ⟨_, _, hkids⟩ := (h.fine p pr hp).shell prog hcode
  exact ⟨_, h.shell hp hcode (set_self w p _)
    (.same rfl rfl rfl fun heq => Bool.noConfusion heq) ⟨(g p).node, [], (g p).kids, false⟩
    (Function.update_self _ _ _) (fun r hr _ => Function.update_of_ne hr _ g)
    (fun r hr => .inl (set_ne w _ hr)) .refl (.ending hending) (kids_set_same hkids hp rfl)
    (fun hlost => Bool.noConfusion hlost)
    (h.account.keep _ _ _ rfl rfl (le_refl _) fun _ hx => absurd hx Regions.not_under_nil)⟩

/-- The shell makes a call. -/
theorem Runs.call (hstd : c.Standard) (h : Runs c io first w g) (hp : w.proc p = some pr)
    {cl : Call} {next : Ret → Prog} (hcode : pr.code = .sh (.call cl next)) {r : Ret}
    (hdo : Does w p pr cl r pr' w') :
    ∃ g', Runs c io first (w'.set p (some { pr' with code := .sh (next r) })) g' := by
  obtain ⟨_, hstage, hkids⟩ := (h.fine p pr hp).shell _ hcode
  cases hdo with
  | print => exact h.goes hp hcode (hstage.print r)
  | close =>
      have hgoes := h.goes hp hcode (hstage.closes r)
      exact hgoes
  | openFile hfd hr =>
      have hgoes := h.goes hp hcode (hstage.opens hstd hfd hr)
      exact hgoes
  | openFails hr => exact h.goes hp hcode (hstage.openFails hr)
  | dup hold hfd =>
      have hgoes := h.goes hp hcode (hstage.dups hold hfd r)
      exact hgoes
  | dupFails hno => exact absurd hno hstage.dup_ok
  | pipe hk hr hp0 hp1 =>
      obtain ⟨rfl, hos, hn, hstage'⟩ := hstage.pipes hstd hr hp0 hp1
      exact h.pipes hp hcode hk hos hn hstage'
  | pipeFails hr => exact h.goes hp hcode (hstage.pipeFails hr)
  | wait hq hparent hzombie =>
      obtain ⟨n, hn, hgoes⟩ := hstage.waits r
      exact h.waits hp hcode hq hparent hzombie hn hgoes
  | waitFails hnone =>
      obtain ⟨n, hn, _⟩ := hstage.waits r
      rw [hn] at hkids
      obtain ⟨q, hq⟩ := hkids.exists (Nat.succ_pos n)
      obtain ⟨child, hchild, hparent⟩ := of_parent hq
      exact absurd hparent (hnone q child hchild)

/-- **Every step keeps the invariant.** -/
theorem Runs.step (hstd : c.Standard) (h : Runs c io first w g) (hstep : Step w w') :
    ∃ g', Runs c io first w' g' := by
  cases hstep with
  | exit hp hcode =>
      obtain ⟨_, hstage, hkids⟩ := (h.fine _ _ hp).shell _ hcode
      refine ⟨g, h.exits hp rfl (.same rfl rfl rfl id) (fun _ r prog hr _ => ?_)
        (h.account.same _ rfl rfl (le_refl _))⟩
      rw [← Bool.not_eq_true]
      intro hlive
      have hpos := hkids.pos hr
      rw [hstage.exits hlive] at hpos
      exact Nat.lt_irrefl 0 hpos
  | exec hp hcode =>
      obtain ⟨_, hstage, _⟩ := (h.fine _ _ hp).shell _ hcode
      obtain ⟨rfl, hos, hn, _, src, hat, hfds⟩ := hstage.execs
      exact h.execs hp hcode hos hn hat hfds
  | execFails hp hcode =>
      obtain ⟨_, hstage, _⟩ := (h.fine _ _ hp).shell _ hcode
      obtain ⟨_, _, hn, hending, _⟩ := hstage.execs
      exact h.goes hp hcode (hending.goes fun _ => hn)
  | fork hp hcode hq hpid =>
      obtain ⟨_, hstage, _⟩ := (h.fine _ _ hp).shell _ hcode
      obtain ⟨_, _, s, _, rfl, hforks, hlive⟩ := hstage.forks hstd
      exact h.forks hp hcode hq hforks hlive hpid
  | forkFails hp hcode =>
      obtain ⟨_, hstage, _⟩ := (h.fine _ _ hp).shell _ hcode
      obtain ⟨_, _, _, _, _, hforks, _⟩ := hstage.forks hstd
      exact h.forkFails hp hcode hforks.fails
  | call hp hcode hdo => exact h.call hstd hp hcode hdo
  | userCall hp hcode hc hdo => exact ⟨g, h.userCall hp hcode hc hdo⟩
  | userFork hp hcode hq => exact h.userFork hp hcode hq
  | userExit hp hcode =>
      exact ⟨g, h.exits hp rfl (.same rfl rfl rfl id)
        (fun _ _ prog _ hprog => absurd hprog ((user_of hcode).1 prog))
        (h.account.same _ rfl rfl (le_refl _))⟩
  | killed hp hcode =>
      exact ⟨g, h.exits hp rfl (.same rfl rfl rfl fun heq => Bool.noConfusion heq)
        (fun hlost => Bool.noConfusion hlost) (h.account.same _ rfl rfl (le_refl _))⟩
  | reaped hp hparent hzombie => exact ⟨g, h.reaps hp hparent hzombie⟩

/-- The descriptors that a command starts with are the three that `main` opens. -/
def Fds.Standard (io : Fds) : Prop := ∀ fd, (io fd).isSome ↔ 0 ≤ fd ∧ fd < 3

theorem matches_standard (hio : io.Standard) : Matches io [] io standard := by
  intro fd
  unfold standard
  split
  · rename_i hfd
    obtain ⟨o, ho⟩ := Option.isSome_iff_exists.1 ((hio fd).2 hfd)
    rw [ho]
    exact .some ho
  · rename_i hfd
    rw [Option.not_isSome_iff_eq_none.1 (mt (hio fd).1 hfd)]
    exact .none

theorem Runs.start (c : Cmd Text) (hio : io.Standard) (first : Nat) (p : ι) :
    Runs c io first (World.start c io first p)
      (Function.update (fun _ => ⟨[], [], 0, false⟩) p ⟨[], [[]], 0, true⟩) := by
  have hproc : ∀ q pr, (World.start c io first p).proc q = some pr →
      q = p ∧ pr = { parent := none, place := [], fds := io, code := .sh (runcmd c []) } := by
    intro q pr hq
    unfold World.start at hq
    simp only at hq
    by_cases hqp : q = p
    · rw [hqp, Function.update_self, Option.some.injEq] at hq
      exact ⟨hqp, hq.symm⟩
    · rw [Function.update_of_ne hqp] at hq
      cases hq
  have hos : ∀ {q x}, Under ((Spot.os ∘ Function.update (fun _ : ι => (⟨[], [], 0, false⟩ : Spot)) p
      ⟨[], [[]], 0, true⟩) q) x → q = p := by
    intro q x hx
    by_contra hqp
    rw [Function.comp_apply, Function.update_of_ne hqp] at hx
    exact Regions.not_under_nil hx
  have hapart : Apart (Spot.os ∘ Function.update (fun _ : ι => (⟨[], [], 0, false⟩ : Spot)) p
      ⟨[], [[]], 0, true⟩) [] :=
    ⟨fun hx hy => (hos hx).trans (hos hy).symm, fun hx => absurd hx List.not_mem_nil,
      List.nodup_nil⟩
  refine ⟨fun q pr hq => ?_, ⟨fun s hs => absurd hs List.not_mem_nil, hapart, hapart,
    fun x hx => absurd hx List.not_mem_nil, List.nodup_nil, le_refl _⟩⟩
  obtain ⟨rfl, rfl⟩ := hproc q pr hq
  refine ⟨fun prog hcode => ?_, fun n hn => hn.elim nofun nofun, nofun, nofun, nofun,
    fun _ _ => .inl rfl⟩
  cases hcode
  rw [Function.update_self]
  refine ⟨.refl, .run rfl (matches_standard hio), kids_zero fun r hr => ?_⟩
  obtain ⟨prr, hw, hparent⟩ := of_parent hr
  rw [(hproc r prr hw).2] at hparent
  cases hparent

/-- **The invariant holds in every run of a command.** -/
theorem runs_reach (hstd : c.Standard) (hio : io.Standard) (h : Reaches c io first p w) :
    ∃ g, Runs c io first w g := by
  induction h with
  | refl => exact ⟨_, .start c hio first p⟩
  | tail _ hstep ih =>
      obtain ⟨g, hruns⟩ := ih
      exact hruns.step hstd hstep

end SchoolStuff.Xv6.Sh
