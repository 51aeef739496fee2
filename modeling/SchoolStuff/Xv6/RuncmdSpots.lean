import SchoolStuff.Xv6.RuncmdStages

/-!
# Xv6 — what holds of the processes of a command

What holds of each process of a command, and of what has been started and made
(`Runs`): the places that the processes have still to do are apart from each other
and from all that was started, so each program is started once, at its place and
with the descriptors of its place. A step of one process keeps this of the others
(`Runs.move`).
-/

namespace SchoolStuff.Xv6.Sh

open Regions (Under Apart)

variable {ι : Type}

/-- Where a process of the shell is: its place, the parts that it has still to hand over,
its children, and whether it has more to do than to exit. -/
structure Spot where
  node : Place
  os : List Place
  kids : Nat
  live : Bool

/-- The process is the shell, or a program itself. -/
def Proc.Active (pr : Proc ι) : Prop := (∃ prog, pr.code = .sh prog) ∨ ∃ n, pr.code = .program n

namespace World

def parent (w : World ι) (q : ι) : Option ι := (w.proc q).bind Proc.parent

/-- A process has so many children. -/
def Kids (w : World ι) (p : ι) (n : Nat) : Prop :=
  ∃ l : List ι, l.Nodup ∧ l.length = n ∧ ∀ q, q ∈ l ↔ w.parent q = some p

/-- No pipeline has made it. -/
def Foreign (w : World ι) (o : Obj) : Prop :=
  ∀ k writable, o = .pipe k writable → k < w.pipes ∧ ∀ a, (k, a) ∉ w.pipelines

/-- What has been made and started stays so. -/
structure Extends (w w' : World ι) : Prop where
  pipelines : w.pipelines ⊆ w'.pipelines
  fresh : ∀ x ∈ w'.pipelines, x ∈ w.pipelines ∨ w.pipes ≤ x.1
  pipes : w.pipes ≤ w'.pipes
  starts : ∀ (n : Nat) s, w.starts[n]? = some s → w'.starts[n]? = some s
  lost : w'.lost = false → w.lost = false

variable {w w' : World ι} {p q : ι}

theorem Extends.same (hpipelines : w'.pipelines = w.pipelines) (hpipes : w'.pipes = w.pipes)
    (hstarts : w'.starts = w.starts) (hlost : w'.lost = false → w.lost = false) :
    Extends w w' :=
  ⟨hpipelines ▸ List.Subset.refl _, fun _ hx => .inl (hpipelines ▸ hx), hpipes.ge,
    fun _ _ hs => hstarts ▸ hs, hlost⟩

theorem Foreign.mono {o : Obj} (h : w.Foreign o) (hext : Extends w w') : w'.Foreign o := by
  intro k writable ho
  obtain ⟨hlt, hnot⟩ := h k writable ho
  refine ⟨lt_of_lt_of_le hlt hext.pipes, fun a ha => ?_⟩
  rcases hext.fresh _ ha with hold | hnew
  · exact hnot a hold
  · exact absurd hnew (by simpa using hlt)

theorem Kids.congr {n : Nat} (h : w.Kids p n)
    (hsame : ∀ q, w'.parent q = some p ↔ w.parent q = some p) : w'.Kids p n := by
  obtain ⟨l, hnodup, hlen, hmem⟩ := h
  exact ⟨l, hnodup, hlen, fun q => (hmem q).trans (hsame q).symm⟩

theorem Kids.pos {n : Nat} (h : w.Kids p n) (hq : w.parent q = some p) : 0 < n := by
  obtain ⟨l, _, rfl, hmem⟩ := h
  exact List.length_pos_of_mem ((hmem q).2 hq)

theorem Kids.exists {n : Nat} (h : w.Kids p n) (hn : 0 < n) : ∃ q, w.parent q = some p := by
  obtain ⟨l, _, rfl, hmem⟩ := h
  obtain ⟨q, hq⟩ := List.exists_mem_of_length_pos hn
  exact ⟨q, (hmem q).1 hq⟩

/-- One child more. -/
theorem Kids.cons {n : Nat} (h : w.Kids p n) (hq : w.parent q ≠ some p)
    (hsame : ∀ r, w'.parent r = some p ↔ r = q ∨ w.parent r = some p) : w'.Kids p (n + 1) := by
  obtain ⟨l, hnodup, rfl, hmem⟩ := h
  refine ⟨q :: l, List.nodup_cons.2 ⟨mt (hmem q).1 hq, hnodup⟩, List.length_cons, fun r => ?_⟩
  rw [List.mem_cons, hmem, hsame]

/-- One child less. -/
theorem Kids.erase [DecidableEq ι] {n : Nat} (h : w.Kids p (n + 1)) (hq : w.parent q = some p)
    (hsame : ∀ r, w'.parent r = some p ↔ r ≠ q ∧ w.parent r = some p) : w'.Kids p n := by
  obtain ⟨l, hnodup, hlen, hmem⟩ := h
  refine ⟨l.erase q, hnodup.erase q, ?_, fun r => ?_⟩
  · rw [List.length_erase_of_mem ((hmem q).2 hq), hlen, Nat.add_sub_cancel]
  · rw [hnodup.mem_erase_iff, hmem, hsame]

theorem kids_zero (hnone : ∀ q, w.parent q ≠ some p) : w.Kids p 0 :=
  ⟨[], List.nodup_nil, rfl, fun q => iff_of_false List.not_mem_nil (hnone q)⟩

theorem parent_of {pr : Proc ι} (hq : w.proc q = some pr) : w.parent q = pr.parent := by
  rw [parent, hq, Option.bind_some]

theorem of_parent (h : w.parent q = some p) : ∃ pr, w.proc q = some pr ∧ pr.parent = some p :=
  Option.bind_eq_some_iff.1 h

end World

/-! ## The invariant -/

/-- What holds of a process. -/
structure Fine (c : Cmd Text) (io : Fds) (w : World ι) (g : ι → Spot) (p : ι) (pr : Proc ι) :
    Prop where
  shell : ∀ prog, pr.code = .sh prog → Down c pr.place (g p).node
    ∧ Stage c io w.pipelines (g p).node prog pr.fds (g p).os (g p).kids (g p).live
    ∧ w.Kids p (g p).kids
  /-- A program, and what it has forked, has no files of the shell but those it was started
  with. -/
  user : ∀ n, pr.code = .program n ∨ pr.code = .descendant n →
    ∃ s, w.starts[n]? = some s ∧ Down c pr.place s.place
      ∧ ∀ fd o, pr.fds fd = some o → (∃ fd', s.fds fd' = some o) ∨ w.Foreign o
  zombie : pr.code = .zombie → ∀ fd, pr.fds fd = none
  parent : ∀ q, pr.parent = some q → ∃ parent, w.proc q = some parent ∧ parent.code ≠ .zombie
  /-- A child of the shell was forked for a place below. -/
  below : ∀ q parent prog, pr.parent = some q → w.proc q = some parent →
    parent.code = .sh prog → (locate c pr.place).isSome
      ∧ ∃ s a, pr.place = s :: a ∧ parent.place <:+ a
  /-- Unless it is in the background, a parent is there to wait for it. -/
  linked : w.lost = false → pr.Active → pr.place = [] ∨ ∃ s a, pr.place = s :: a
    ∧ ((s = .sub ∧ ∃ part src, locate c a = some (.back part, src))
      ∨ ∃ q parent prog, pr.parent = some q ∧ w.proc q = some parent ∧ parent.code = .sh prog
        ∧ (g q).node = a ∧ (g q).live = true)

/-- What has been started and made. -/
structure Account (c : Cmd Text) (io : Fds) (first : Nat) (w : World ι) (g : ι → Spot) :
    Prop where
  started : ∀ s ∈ w.starts, ∃ src, locate c s.place = some (.exec s.argv, src)
    ∧ Matches io w.pipelines s.fds src
  starts : Apart (Spot.os ∘ g) (w.starts.map Start.place)
  pipelines : Apart (Spot.os ∘ g) (w.pipelines.map Prod.snd)
  range : ∀ x ∈ w.pipelines, first ≤ x.1 ∧ x.1 < w.pipes
  keys : (w.pipelines.map Prod.fst).Nodup
  pipes : first ≤ w.pipes

structure Runs (c : Cmd Text) (io : Fds) (first : Nat) (w : World ι) (g : ι → Spot) : Prop where
  fine : ∀ p pr, w.proc p = some pr → Fine c io w g p pr
  account : Account c io first w g

variable {c : Cmd Text} {io : Fds} {first : Nat} {w w' : World ι} {g g' : ι → Spot} {p q : ι}
  {pr pr' : Proc ι}

open World

/-- A process that a step leaves alone. -/
theorem Fine.stay (h : Fine c io w g q pr) (hext : Extends w w')
    (hkids : ∀ r, w'.parent r = some q ↔ w.parent r = some q) (hg : g' q = g q)
    (hparent : ∀ r, pr.parent = some r → ∃ parent, w'.proc r = some parent
      ∧ parent.code ≠ .zombie)
    (hback : ∀ r parent prog, pr.parent = some r → w'.proc r = some parent →
      parent.code = .sh prog → ∃ old prog, w.proc r = some old ∧ old.code = .sh prog
        ∧ old.place = parent.place)
    (hlink : w'.lost = false → ∀ r parent prog, pr.parent = some r → w.proc r = some parent →
      parent.code = .sh prog → (g r).live = true → ∃ new prog, w'.proc r = some new
        ∧ new.code = .sh prog ∧ (g' r).node = (g r).node ∧ (g' r).live = true) :
    Fine c io w' g' q pr := by
  refine ⟨fun prog hcode => ?_, fun n hcode => ?_, h.zombie, hparent,
    fun r parent prog hr hw hcode => ?_, fun hlost hactive => ?_⟩
  · obtain ⟨hdown, hstage, hk⟩ := h.shell prog hcode
    rw [hg]
    exact ⟨hdown, hstage.mono hext.pipelines, hk.congr hkids⟩
  · obtain ⟨s, hs, hdown, hfds⟩ := h.user n hcode
    exact ⟨s, hext.starts n s hs, hdown, fun fd o ho => (hfds fd o ho).imp_right (·.mono hext)⟩
  · obtain ⟨old, prog', hold, hcode', hplace⟩ := hback r parent prog hr hw hcode
    rw [← hplace]
    exact h.below r old prog' hr hold hcode'
  · refine (h.linked (hext.lost hlost) hactive).imp_right ?_
    rintro ⟨s, a, hplace, hsub | ⟨r, parent, prog, hr, hw, hcode, hnode, hlive⟩⟩
    · exact ⟨s, a, hplace, .inl hsub⟩
    · obtain ⟨new, prog', hnew, hcode', hnode', hlive'⟩ :=
        hlink hlost r parent prog hr hw hcode hlive
      exact ⟨s, a, hplace, .inr ⟨r, new, prog', hr, hnew, hcode', hnode'.trans hnode, hlive'⟩⟩

variable [DecidableEq ι]

/-- What a step of a process may do to another one: nothing, or it is a child that is gone,
or a new one. -/
def Beside (c : Cmd Text) (io : Fds) (w w' : World ι) (g' : ι → Spot) (p r : ι) : Prop :=
  w'.proc r = w.proc r
    ∨ w'.proc r = none ∧ (∃ child, w.proc r = some child ∧ child.parent = some p
      ∧ child.code = .zombie)
    ∨ w.proc r = none ∧ ∃ child, w'.proc r = some child ∧ child.parent = some p
      ∧ Fine c io w' g' r child

omit [DecidableEq ι] in
/-- A parent is the same process as before. -/
theorem Runs.still (h : Runs c io first w g) (hother : ∀ r, r ≠ p → Beside c io w w' g' p r)
    {prq : Proc ι} (hq : w.proc q = some prq) {r : ι} (hr : prq.parent = some r) (hrp : r ≠ p) :
    w'.proc r = w.proc r := by
  obtain ⟨old, hold, hnz⟩ := (h.fine q prq hq).parent r hr
  rcases hother r hrp with hsame | ⟨_, child, hchild, _, hz⟩ | ⟨hnone, _⟩
  · exact hsame
  · rw [hold, Option.some.injEq] at hchild
    rw [hchild] at hnz
    exact absurd hz hnz
  · rw [hold] at hnone
    cases hnone

/-- All but the process that makes the step have the children that they had. -/
theorem parent_beside (hp : w.proc p = some pr) (hp' : w'.proc p = some pr')
    (hparent : pr'.parent = pr.parent) (hother : ∀ r, r ≠ p → Beside c io w w' g' p r)
    (hqp : q ≠ p) (r : ι) : w'.parent r = some q ↔ w.parent r = some q := by
  have hnot : some p ≠ some q := fun heq => hqp (Option.some.inj heq).symm
  by_cases hrp : r = p
  · subst hrp
    rw [parent_of hp', parent_of hp, hparent]
  · rcases hother r hrp with hsame | ⟨hnone, child, hchild, hcp, _⟩ |
      ⟨hnone, child, hchild, hcp, _⟩
    · rw [World.parent, World.parent, hsame]
    · rw [World.parent, hnone, parent_of hchild, hcp, Option.bind_none]
      exact iff_of_false (Option.some_ne_none q).symm hnot
    · rw [parent_of hchild, hcp, World.parent, hnone, Option.bind_none]
      exact iff_of_false hnot (Option.some_ne_none q).symm

/-- A process makes a step. -/
theorem Runs.move (h : Runs c io first w g) (hp : w.proc p = some pr)
    (hp' : w'.proc p = some pr') (hparent : pr'.parent = pr.parent)
    (hplace : pr'.place = pr.place) (hext : Extends w w')
    (hg : ∀ r, r ≠ p → w.proc r ≠ none → g' r = g r)
    (hother : ∀ r, r ≠ p → Beside c io w w' g' p r)
    (hshell : ∀ prog, pr'.code = .sh prog → (∃ prog, pr.code = .sh prog)
      ∧ Down c pr.place (g' p).node
      ∧ Stage c io w'.pipelines (g' p).node prog pr'.fds (g' p).os (g' p).kids (g' p).live
      ∧ w'.Kids p (g' p).kids)
    (huser : ∀ n, pr'.code = .program n ∨ pr'.code = .descendant n →
      ∃ s, w'.starts[n]? = some s ∧ Down c pr.place s.place
        ∧ ∀ fd o, pr'.fds fd = some o → (∃ fd', s.fds fd' = some o) ∨ w'.Foreign o)
    (hzombie : pr'.code ≠ .zombie) (hactive : pr'.Active → pr.Active)
    (hlink : ∀ r prog, w.parent r = some p → w'.parent r = some p → pr.code = .sh prog →
      (g p).live = true → w'.lost = false → ∃ prog, pr'.code = .sh prog
        ∧ (g' p).node = (g p).node ∧ (g' p).live = true)
    (haccount : Account c io first w' g') : Runs c io first w' g' := by
  have hthere : ∀ x prx r, w.proc x = some prx → prx.parent = some r →
      ∃ parent, w'.proc r = some parent ∧ parent.code ≠ .zombie := by
    intro x prx r hx hr
    by_cases hrp : r = p
    · exact ⟨pr', hrp ▸ hp', hzombie⟩
    · rw [h.still hother hx hr hrp]
      exact (h.fine x prx hx).parent r hr
  -- a parent that is the shell was so before
  have hback : ∀ x prx r parent prog, w.proc x = some prx → prx.parent = some r →
      w'.proc r = some parent → parent.code = .sh prog →
        ∃ old prog, w.proc r = some old ∧ old.code = .sh prog ∧ old.place = parent.place := by
    intro x prx r parent prog hx hr hw hcode
    by_cases hrp : r = p
    · rw [hrp, hp', Option.some.injEq] at hw
      subst hw
      obtain ⟨⟨old, hold⟩, _⟩ := hshell prog hcode
      exact ⟨pr, old, hrp ▸ hp, hold, hplace.symm⟩
    · rw [h.still hother hx hr hrp] at hw
      exact ⟨parent, prog, hw, hcode, rfl⟩
  -- and one that waits for a child goes on waiting for it
  have hforth : ∀ x prx r parent prog, w.proc x = some prx → prx.parent = some r →
      w'.parent x = some r → w'.lost = false → w.proc r = some parent →
        parent.code = .sh prog → (g r).live = true → ∃ new prog, w'.proc r = some new
          ∧ new.code = .sh prog ∧ (g' r).node = (g r).node ∧ (g' r).live = true := by
    intro x prx r parent prog hx hr hr' hlost hw hcode hlive
    by_cases hrp : r = p
    · subst hrp
      rw [hp, Option.some.injEq] at hw
      subst hw
      obtain ⟨prog', hcode', hnode, hlive'⟩ :=
        hlink x prog ((parent_of hx).trans hr) hr' hcode hlive hlost
      exact ⟨pr', prog', hp', hcode', hnode, hlive'⟩
    · have hgr := hg r hrp (hw ▸ Option.some_ne_none parent)
      refine ⟨parent, prog, (h.still hother hx hr hrp).trans hw, hcode, ?_, ?_⟩
      · rw [hgr]
      · rw [hgr]
        exact hlive
  refine ⟨fun q prq hq => ?_, haccount⟩
  have hkid := parent_of hq
  -- the process that moves, and then any other one
  by_cases hqp : q = p
  · subst hqp
    rw [hp', Option.some.injEq] at hq
    subst hq
    have hfine := h.fine q pr hp
    refine ⟨fun prog hcode => ?_, fun n hcode => ?_, fun hz => absurd hz hzombie,
      fun r hr => hthere q pr r hp (hparent.symm.trans hr),
      fun r parent prog hr hw hcode => ?_, fun hlost hact => ?_⟩
    · rw [hplace]
      exact (hshell prog hcode).2
    · rw [hplace]
      exact huser n hcode
    · have hr' := hparent.symm.trans hr
      obtain ⟨old, prog', hold, hcode', hplace'⟩ := hback q pr r parent prog hp hr' hw hcode
      rw [← hplace', hplace]
      exact hfine.below r old prog' hr' hold hcode'
    · rw [hplace]
      refine (hfine.linked (hext.lost hlost) (hactive hact)).imp_right ?_
      rintro ⟨s, a, hpl, hsub | ⟨r, parent, prog, hr, hw, hcode, hnode, hlive⟩⟩
      · exact ⟨s, a, hpl, .inl hsub⟩
      · have hr' := hparent.trans hr
        obtain ⟨new, prog', hnew, hcode', hnode', hlive'⟩ :=
          hforth q pr r parent prog hp hr (hkid.trans hr') hlost hw hcode hlive
        exact ⟨s, a, hpl, .inr ⟨r, new, prog', hr', hnew, hcode', hnode'.trans hnode, hlive'⟩⟩
  · rcases hother q hqp with hsame | ⟨hnone, _⟩ | ⟨_, child, hchild, _, hfine⟩
    · have hold := hsame.symm.trans hq
      exact (h.fine q prq hold).stay hext (parent_beside hp hp' hparent hother hqp)
        (hg q hqp (hold ▸ Option.some_ne_none prq)) (fun r => hthere q prq r hold)
        (fun r parent prog => hback q prq r parent prog hold)
        fun hlost r parent prog hr =>
          hforth q prq r parent prog hold hr (hkid.trans hr) hlost
    · rw [hnone] at hq
      cases hq
    · rw [hchild, Option.some.injEq] at hq
      exact hq ▸ hfine

/-- Nothing more has been started, or made by a pipeline. -/
theorem Account.keep (h : Account c io first w g) (w' : World ι) (p : ι) (spot : Spot)
    (hstarts : w'.starts = w.starts) (hpipelines : w'.pipelines = w.pipelines)
    (hpipes : w.pipes ≤ w'.pipes) (hsub : ∀ x, Under spot.os x → Under (g p).os x) :
    Account c io first w' (Function.update g p spot) := by
  refine ⟨?_, ?_, ?_, ?_, hpipelines ▸ h.keys, h.pipes.trans hpipes⟩
  · rw [hstarts, hpipelines]
    exact h.started
  · rw [hstarts, Function.comp_update]
    exact h.starts.narrow hsub
  · rw [hpipelines, Function.comp_update]
    exact h.pipelines.narrow hsub
  · rw [hpipelines]
    exact fun x hx => ⟨(h.range x hx).1, lt_of_lt_of_le (h.range x hx).2 hpipes⟩

omit [DecidableEq ι] in
/-- Nothing is handed over. -/
theorem Account.same (h : Account c io first w g) (w' : World ι)
    (hstarts : w'.starts = w.starts) (hpipelines : w'.pipelines = w.pipelines)
    (hpipes : w.pipes ≤ w'.pipes) : Account c io first w' g := by
  refine ⟨?_, hstarts ▸ h.starts, hpipelines ▸ h.pipelines, ?_, hpipelines ▸ h.keys,
    h.pipes.trans hpipes⟩
  · rw [hstarts, hpipelines]
    exact h.started
  · rw [hpipelines]
    exact fun x hx => ⟨(h.range x hx).1, lt_of_lt_of_le (h.range x hx).2 hpipes⟩

/-- A program is started. -/
theorem Account.exec (h : Account c io first w g) {s : Start}
    (hs : ∃ src, locate c s.place = some (.exec s.argv, src) ∧ Matches io w.pipelines s.fds src)
    (hos : (g p).os = [s.place]) (hstarts : w'.starts = w.starts ++ [s])
    (hpipelines : w'.pipelines = w.pipelines) (hpipes : w'.pipes = w.pipes) {spot : Spot}
    (hspot : spot.os = []) : Account c io first w' (Function.update g p spot) := by
  have hsub : ∀ x, Under spot.os x → Under (g p).os x := by
    intro x hx
    rw [hspot] at hx
    exact absurd hx Regions.not_under_nil
  refine ⟨fun s' hs' => ?_, ?_, ?_, ?_, hpipelines ▸ h.keys, hpipes ▸ h.pipes⟩
  · rw [hpipelines]
    rw [hstarts] at hs'
    rcases List.mem_append.1 hs' with hs' | hs'
    · exact h.started s' hs'
    · rw [List.mem_singleton.1 hs']
      exact hs
  · rw [hstarts, List.map_append, Function.comp_update]
    refine h.starts.take ?_ hsub ?_
    · change Under (g p).os s.place
      rw [hos]
      exact Regions.under_singleton.2 List.suffix_rfl
    · rw [hspot]
      exact Regions.not_under_nil
  · rw [hpipelines, Function.comp_update]
    exact h.pipelines.narrow hsub
  · rw [hpipelines, hpipes]
    exact h.range

/-- A pipeline makes its pipe. -/
theorem Account.pipe (h : Account c io first w g) {k : Nat} {a : Place} (hk : w.pipes ≤ k)
    (hos : (g p).os = [a]) (hstarts : w'.starts = w.starts)
    (hpipelines : w'.pipelines = w.pipelines ++ [(k, a)]) (hpipes : w'.pipes = k + 1)
    {spot : Spot} (hspot : spot.os = [.left :: a, .right :: a]) :
    Account c io first w' (Function.update g p spot) := by
  have hsub : ∀ x, Under spot.os x → Under (g p).os x := by
    intro x hx
    rw [hspot, Regions.under_pair] at hx
    rw [hos, Regions.under_singleton]
    exact hx.elim Regions.below_of_below Regions.below_of_below
  refine ⟨fun s hs => ?_, ?_, ?_, ?_, ?_, ?_⟩
  · rw [hstarts] at hs
    obtain ⟨src, hat, hfds⟩ := h.started s hs
    refine ⟨src, hat, hfds.mono ?_⟩
    rw [hpipelines]
    exact List.subset_append_left _ _
  · rw [hstarts, Function.comp_update]
    exact h.starts.narrow hsub
  · rw [hpipelines, List.map_append, Function.comp_update]
    refine h.pipelines.take ?_ hsub ?_
    · change Under (g p).os a
      rw [hos]
      exact Regions.under_singleton.2 List.suffix_rfl
    · rw [hspot, Regions.under_pair]
      exact fun hx => hx.elim Regions.not_below_self Regions.not_below_self
  · intro x hx
    rw [hpipelines] at hx
    rw [hpipes]
    rcases List.mem_append.1 hx with hx | hx
    · have := h.range x hx
      omega
    · rw [List.mem_singleton.1 hx]
      exact ⟨h.pipes.trans hk, Nat.lt_succ_self k⟩
  · rw [hpipelines, List.map_append, List.nodup_append]
    refine ⟨h.keys, List.nodup_cons.2 ⟨List.not_mem_nil, List.nodup_nil⟩,
      fun x hx y hy heq => ?_⟩
    obtain ⟨z, hz, rfl⟩ := List.mem_map.1 hx
    rw [List.map_cons, List.map_nil, List.mem_singleton] at hy
    have := (h.range z hz).2
    omega
  · rw [hpipes]
    exact (h.pipes.trans hk).trans (Nat.le_succ k)

end SchoolStuff.Xv6.Sh
