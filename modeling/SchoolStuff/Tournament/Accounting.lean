import Mathlib.Data.List.Count
import SchoolStuff.Tournament.Basic

/-!
# Tournament — who has lost how often

`Standing ps W L log` is double elimination in the abstract: among the
players `ps`, those in `W` have no non-win in the matches `log`, those in
`L` exactly one, everybody else exactly two. A match moves one player down
(`Standing.demote`, `Standing.eliminate`). The four pools of `main` stand
for `W = wp + nwp` and `L = lp + nlp` at every point of a tier, so each
match and each bye is one of these moves, and a tier is their composition
(`tier_spec`).
-/

namespace SchoolStuff.Tournament

/-! ## The abstract standing -/

/-- The player a match counts against: the loser, or the second player
drawn when it is tied. -/
def Played.nonWinner (e : Played) : Int :=
  if e.winner = e.p1 ∨ e.winner = -1 then e.p2 else e.p1

/-- Matches of `log` that count against `x`. -/
def nonWins (log : List Played) (x : Int) : Nat :=
  log.countP fun e => e.nonWinner = x

/-- A match of two different players of `ps`, one of whom wins unless it is
tied. -/
structure Played.Fair (ps : List Int) (e : Played) : Prop where
  p1 : e.p1 ∈ ps
  p2 : e.p2 ∈ ps
  ne : e.p1 ≠ e.p2
  winner : e.winner = e.p1 ∨ e.winner = e.p2 ∨ e.winner = -1

/-- More matches have been played, fair ones. -/
def Continues (ps : List Int) (log log' : List Played) : Prop :=
  ∃ es, log' = log ++ es ∧ ∀ e ∈ es, e.Fair ps

theorem nonWins_append (log : List Played) (e : Played) (x : Int) :
    nonWins (log ++ [e]) x
      = nonWins log x + (if e.nonWinner = x then 1 else 0) := by
  simp [nonWins, List.countP_append, List.countP_cons]

/-- **Double elimination**: the standing of the players `ps` after the
matches `log`, with `W` unbeaten and `L` beaten once. -/
structure Standing (ps W L : List Int) (log : List Played) : Prop where
  nodup : (W ++ L).Nodup
  subset : ∀ x, x ∈ W ++ L → x ∈ ps
  zero : ∀ x, x ∈ W → nonWins log x = 0
  one : ∀ x, x ∈ L → nonWins log x = 1
  two : ∀ x, x ∈ ps → x ∉ W → x ∉ L → nonWins log x = 2
  length : 2 * W.length + L.length + log.length = 2 * ps.length
  pos : 0 < W.length + L.length

variable {ps W L W' L' : List Int} {log : List Played} {e : Played} {a : Int}

theorem Continues.refl (ps : List Int) (log : List Played) :
    Continues ps log log :=
  ⟨[], by simp, by simp⟩

theorem Continues.trans {log' log'' : List Played} (h : Continues ps log log')
    (h' : Continues ps log' log'') : Continues ps log log'' := by
  obtain ⟨es, rfl, hes⟩ := h
  obtain ⟨es', rfl, hes'⟩ := h'
  refine ⟨es ++ es', List.append_assoc _ _ _, ?_⟩
  intro e he
  rcases List.mem_append.mp he with he | he
  · exact hes e he
  · exact hes' e he

theorem Continues.snoc (log : List Played) (he : e.Fair ps) :
    Continues ps log (log ++ [e]) :=
  ⟨[e], rfl, List.forall_mem_singleton.mpr he⟩

theorem Continues.length_le {log' : List Played} (h : Continues ps log log') :
    log.length ≤ log'.length := by
  obtain ⟨es, rfl, _⟩ := h
  simp

theorem Standing.perm (h : Standing ps W L log) (hW : W'.Perm W)
    (hL : L'.Perm L) : Standing ps W' L' log where
  nodup := (hW.append hL).nodup_iff.mpr h.nodup
  subset := fun x hx => h.subset x ((hW.append hL).mem_iff.mp hx)
  zero := fun x hx => h.zero x (hW.mem_iff.mp hx)
  one := fun x hx => h.one x (hL.mem_iff.mp hx)
  two := fun x hx hnW hnL => h.two x hx (fun hm => hnW (hW.mem_iff.mpr hm))
    (fun hm => hnL (hL.mem_iff.mpr hm))
  length := by rw [hW.length_eq, hL.length_eq, h.length]
  pos := by rw [hW.length_eq, hL.length_eq]; exact h.pos

/-- A match won against an unbeaten player moves that player down. -/
theorem Standing.demote (h : Standing ps (a :: W) L log)
    (he : e.nonWinner = a) : Standing ps W (a :: L) (log ++ [e]) := by
  have hnd : (a :: (W ++ L)).Nodup := h.nodup
  obtain ⟨haWL, hWL⟩ := List.nodup_cons.mp hnd
  have hne : ∀ x, x ∈ W ++ L → a ≠ x := fun x hx hax => haWL (hax ▸ hx)
  refine ⟨?_, ?_, ?_, ?_, ?_, ?_, by simp only [List.length_cons]; omega⟩
  · exact List.perm_middle.nodup_iff.mpr hnd
  · intro x hx
    exact h.subset x (List.perm_middle.mem_iff.mp hx)
  · intro x hx
    rw [nonWins_append, he, if_neg (hne x (by simp [hx])),
      h.zero x (by simp [hx])]
  · intro x hx
    rw [nonWins_append, he]
    rcases List.mem_cons.mp hx with rfl | hxL
    · rw [if_pos rfl, h.zero x (by simp)]
    · rw [if_neg (hne x (by simp [hxL])), h.one x hxL]
  · intro x hx hxW hxL
    simp only [List.mem_cons, not_or] at hxL
    rw [nonWins_append, he, if_neg (Ne.symm hxL.1),
      h.two x hx (by simp [hxL.1, hxW]) hxL.2]
  · have := h.length
    simp only [List.length_cons, List.length_append, List.length_nil] at *
    omega

/-- A match won against a player who was beaten before eliminates that
player; its winner is still in. -/
theorem Standing.eliminate (h : Standing ps W (a :: L) log)
    (he : e.nonWinner = a) (hpos : 0 < W.length + L.length) :
    Standing ps W L (log ++ [e]) := by
  have hnd : (a :: (W ++ L)).Nodup :=
    List.perm_middle.nodup_iff.mp h.nodup
  obtain ⟨haWL, hWL⟩ := List.nodup_cons.mp hnd
  have hne : ∀ x, x ∈ W ++ L → a ≠ x := fun x hx hax => haWL (hax ▸ hx)
  refine ⟨hWL, ?_, ?_, ?_, ?_, ?_, hpos⟩
  · intro x hx
    exact h.subset x (List.perm_middle.mem_iff.mpr (by simp [hx]))
  · intro x hx
    rw [nonWins_append, he, if_neg (hne x (by simp [hx])), h.zero x hx]
  · intro x hx
    rw [nonWins_append, he, if_neg (hne x (by simp [hx])),
      h.one x (by simp [hx])]
  · intro x hx hxW hxL
    rw [nonWins_append, he]
    by_cases hax : a = x
    · subst hax
      rw [if_pos rfl, h.one a (by simp)]
    · rw [if_neg hax, h.two x hx hxW (by simp [Ne.symm hax, hxL])]
  · have := h.length
    simp only [List.length_cons, List.length_append, List.length_nil] at *
    omega

/-! ## The pools of `main` -/

/-- **The tier invariant**: the pools are well formed, and together they
are the standing after the matches played. -/
structure Inv (ps : List Int) (st : St) : Prop where
  wp : st.wp.Ok
  nwp : st.nwp.Ok
  lp : st.lp.Ok
  nlp : st.nlp.Ok
  standing : Standing ps (st.wp.head ++ st.nwp.head)
    (st.lp.head ++ st.nlp.head) st.log

variable (env : Env) {st : St}

theorem addNwp_ok (st : St) (h : st.nwp.Ok) (ri : Int) :
    ∃ nwp draws, st.addNwp env ri
        = some { st with nwp := nwp, draws := draws }
      ∧ nwp.Ok ∧ nwp.head.Perm (ri :: st.nwp.head) := by
  obtain ⟨nwp, hadd, hok, hperm⟩ := addPool_ok h ri (env.rand st.draws)
  exact ⟨nwp, _, by rw [St.addNwp, hadd]; rfl, hok, hperm⟩

theorem addNlp_ok (st : St) (h : st.nlp.Ok) (ri : Int) :
    ∃ nlp draws, st.addNlp env ri
        = some { st with nlp := nlp, draws := draws }
      ∧ nlp.Ok ∧ nlp.head.Perm (ri :: st.nlp.head) := by
  obtain ⟨nlp, hadd, hok, hperm⟩ := addPool_ok h ri (env.rand st.draws)
  exact ⟨nlp, _, by rw [St.addNlp, hadd]; rfl, hok, hperm⟩

/-- One player stays unbeaten for the next tier, another one moves down. -/
theorem addBoth_ok (st : St) (hw : st.nwp.Ok) (hl : st.nlp.Ok)
    (stays drops : Int) :
    ∃ nwp nlp draws,
      ((st.addNwp env stays).bind fun st => st.addNlp env drops)
        = some { st with nwp := nwp, nlp := nlp, draws := draws }
      ∧ nwp.Ok ∧ nlp.Ok ∧ nwp.head.Perm (stays :: st.nwp.head)
      ∧ nlp.head.Perm (drops :: st.nlp.head) := by
  obtain ⟨nwp, d, hadd, hnwp, hpermW⟩ := addNwp_ok env st hw stays
  obtain ⟨nlp, d', hadd', hnlp, hpermL⟩ :=
    addNlp_ok env { st with nwp := nwp, draws := d } hl drops
  exact ⟨nwp, nlp, d', by rw [hadd, Option.bind_some, hadd'], hnwp, hnlp,
    hpermW, hpermL⟩

theorem result_cases (st : St) (p1 p2 : Int) :
    st.result env p1 p2 = p1 ∨ st.result env p1 p2 = p2
      ∨ st.result env p1 p2 = -1 := by
  unfold St.result
  cases env.outcome st.log.length p1 p2 <;> simp [matchResult]

/-- Two players drawn from a pool are distinct, and neither is -1. -/
theorem Standing.drawn_ne (h : Standing ps W L log)
    (hps : ∀ x, x ∈ ps → 0 ≤ x) {p1 p2 : Int} {rest : List Int}
    (hperm : (W ++ L).Perm (p1 :: p2 :: rest)) :
    p1 ≠ p2 ∧ p1 ≠ -1 ∧ p2 ≠ -1 := by
  have hnd := hperm.nodup_iff.mp h.nodup
  have h1 := hps p1 (h.subset p1 (hperm.mem_iff.mpr (by simp)))
  have h2 := hps p2 (h.subset p2 (hperm.mem_iff.mpr (by simp)))
  refine ⟨?_, by omega, by omega⟩
  rintro rfl
  simp at hnd

/-- A match of two players drawn from a pool is fair. -/
theorem Standing.fair (h : Standing ps W L log) (hps : ∀ x, x ∈ ps → 0 ≤ x)
    {p1 p2 : Int} {rest : List Int}
    (hperm : (W ++ L).Perm (p1 :: p2 :: rest)) (st : St) :
    (⟨p1, p2, st.result env p1 p2⟩ : Played).Fair ps where
  p1 := h.subset p1 (hperm.mem_iff.mpr (by simp))
  p2 := h.subset p2 (hperm.mem_iff.mpr (by simp))
  ne := (h.drawn_ne hps hperm).1
  winner := result_cases env st p1 p2

/-- Drawing two players from a pool that holds more than one. -/
theorem getPool_two {p : Pool} (h : p.Ok) (hc : 1 < p.count) :
    ∃ p1 p2 q r, getPool p = some (p1, q) ∧ getPool q = some (p2, r)
      ∧ r.Ok ∧ p.head = p1 :: p2 :: r.head ∧ r.count + 2 = p.count := by
  obtain ⟨p1, q, hget, hq, hhead, hcount⟩ := getPool_ok h (by omega)
  obtain ⟨p2, r, hget', hr, hhead', hcount'⟩ := getPool_ok hq (by omega)
  exact ⟨p1, p2, q, r, hget, hget', hr, by rw [hhead, hhead'], by omega⟩

/-- A match of two distinct players has one that stays and one it counts
against. -/
theorem match_split {p1 p2 r : Int} (h12 : p1 ≠ p2)
    (hr : r = p1 ∨ r = p2 ∨ r = -1) (h2 : p2 ≠ -1) :
    ((⟨p1, p2, r⟩ : Played).nonWinner = p2 ∧ (r = p1 ∨ r = -1))
      ∨ ((⟨p1, p2, r⟩ : Played).nonWinner = p1 ∧ r = p2 ∧ r ≠ p1
        ∧ r ≠ -1) := by
  rcases hr with rfl | rfl | rfl
  · exact Or.inl ⟨by simp [Played.nonWinner], Or.inl rfl⟩
  · refine Or.inr ⟨?_, rfl, Ne.symm h12, h2⟩
    simp [Played.nonWinner, Ne.symm h12, h2]
  · exact Or.inl ⟨by simp [Played.nonWinner], Or.inr rfl⟩

/-- **A winners match demotes one player.** -/
theorem winnersMatch_spec (hps : ∀ x, x ∈ ps → 0 ≤ x) (h : Inv ps st)
    (hc : 1 < st.wp.count) :
    ∃ st', winnersMatch env st = some st' ∧ Inv ps st'
      ∧ st'.wp.count + 2 = st.wp.count ∧ st'.lp = st.lp
      ∧ st'.log.length = st.log.length + 1
      ∧ Continues ps st.log st'.log := by
  obtain ⟨p1, p2, q, wp, hget, hget', hwp, hhead, hcount⟩ :=
    getPool_two h.wp hc
  have hstand := h.standing
  rw [hhead] at hstand
  obtain ⟨h12, h1, h2⟩ := hstand.drawn_ne hps (List.Perm.refl _)
  -- whoever stays, the other one is the player the match counts against
  have finish : ∀ stays drops : Int, [p1, p2].Perm [drops, stays] →
      (⟨p1, p2, St.result env { st with wp := wp } p1 p2⟩ : Played).nonWinner
        = drops →
      winnersMatch env st
        = ((St.played env { st with wp := wp } p1 p2).addNwp env stays).bind
            (fun st => st.addNlp env drops) →
      ∃ st', winnersMatch env st = some st' ∧ Inv ps st'
        ∧ st'.wp.count + 2 = st.wp.count ∧ st'.lp = st.lp
        ∧ st'.log.length = st.log.length + 1
        ∧ Continues ps st.log st'.log := by
    intro stays drops hpair hnon heq
    obtain ⟨nwp, nlp, d, hadd, hnwp, hnlp, hpermW, hpermL⟩ := addBoth_ok env
      (St.played env { st with wp := wp } p1 p2) h.nwp h.nlp stays drops
    rw [hadd] at heq
    refine ⟨_, heq, ⟨hwp, hnwp, h.lp, hnlp, ?_⟩, hcount, rfl,
      by simp [St.played],
      Continues.snoc _ (hstand.fair env hps (List.Perm.refl _) _)⟩
    have hmove := hstand.perm (hpair.symm.append_right (wp.head ++ st.nwp.head))
      (List.Perm.refl _)
    exact (hmove.demote hnon).perm
      ((hpermW.append_left _).trans List.perm_middle)
      ((hpermL.append_left _).trans List.perm_middle)
  rcases match_split h12 (result_cases env { st with wp := wp } p1 p2) h2 with
    ⟨hnon, hr⟩ | ⟨hnon, hr, hr1, hr2⟩
  · apply finish p1 p2 (List.Perm.swap _ _ _) hnon
    simp only [winnersMatch, hget, hget', Option.bind_eq_bind,
      Option.bind_some]
    rcases hr with hr | hr
    · simp only [hr, h1, if_false, if_true]
    · simp only [hr, if_true]
  · apply finish p2 p1 (List.Perm.refl _) hnon
    simp only [winnersMatch, hget, hget', Option.bind_eq_bind,
      Option.bind_some, hr, h2, Ne.symm h12, if_false]

/-- **A losers match eliminates one player.** -/
theorem losersMatch_spec (hps : ∀ x, x ∈ ps → 0 ≤ x) (h : Inv ps st)
    (hc : 1 < st.lp.count) :
    ∃ st', losersMatch env st = some st' ∧ Inv ps st'
      ∧ st'.lp.count + 2 = st.lp.count ∧ st'.wp = st.wp
      ∧ st'.log.length = st.log.length + 1
      ∧ Continues ps st.log st'.log := by
  obtain ⟨p1, p2, q, lp, hget, hget', hlp, hhead, hcount⟩ :=
    getPool_two h.lp hc
  have hstand := h.standing
  rw [hhead] at hstand
  obtain ⟨h12, h1, h2⟩ := hstand.drawn_ne hps List.perm_append_comm
  -- whoever does not win drops out; the other one stays a loser
  have finish : ∀ stays drops : Int, [p1, p2].Perm [drops, stays] →
      (⟨p1, p2, St.result env { st with lp := lp } p1 p2⟩ : Played).nonWinner
        = drops →
      losersMatch env st
        = (St.played env { st with lp := lp } p1 p2).addNlp env stays →
      ∃ st', losersMatch env st = some st' ∧ Inv ps st'
        ∧ st'.lp.count + 2 = st.lp.count ∧ st'.wp = st.wp
        ∧ st'.log.length = st.log.length + 1
        ∧ Continues ps st.log st'.log := by
    intro stays drops hpair hnon heq
    obtain ⟨nlp, d, hadd, hnlp, hpermL⟩ := addNlp_ok env
      (St.played env { st with lp := lp } p1 p2) h.nlp stays
    rw [hadd] at heq
    refine ⟨_, heq, ⟨h.wp, h.nwp, hlp, hnlp, ?_⟩, hcount, rfl,
      by simp [St.played],
      Continues.snoc _ (hstand.fair env hps List.perm_append_comm _)⟩
    have hmove : Standing ps (st.wp.head ++ st.nwp.head)
        (drops :: stays :: (lp.head ++ st.nlp.head)) st.log :=
      hstand.perm (List.Perm.refl _)
        (hpair.symm.append_right (lp.head ++ st.nlp.head))
    have hpos : 0 < (st.wp.head ++ st.nwp.head).length
        + (stays :: (lp.head ++ st.nlp.head)).length := by
      rw [List.length_cons]
      omega
    exact (hmove.eliminate hnon hpos).perm (List.Perm.refl _)
      ((hpermL.append_left _).trans List.perm_middle)
  rcases match_split h12 (result_cases env { st with lp := lp } p1 p2) h2 with
    ⟨hnon, hr⟩ | ⟨hnon, hr, hr1, hr2⟩
  · apply finish p1 p2 (List.Perm.swap _ _ _) hnon
    simp only [losersMatch, hget, hget', Option.bind_eq_bind,
      Option.bind_some]
    rcases hr with hr | hr
    · simp only [hr, h1, if_false]
    · simp only [hr, if_true]
  · apply finish p2 p1 (List.Perm.refl _) hnon
    simp only [losersMatch, hget, hget', Option.bind_eq_bind,
      Option.bind_some, hr, h2, if_false]

/-! ## A tier -/

/-- **The loop of a bracket**: matches that each take two players from the
pool and add one entry to `log` are played until at most one is left. -/
theorem playDown_spec (pool : St → Pool) (play : St → Option St)
    (I : St → Prop)
    (hplay : ∀ s, I s → 1 < (pool s).count → ∃ s', play s = some s' ∧ I s'
      ∧ (pool s').count + 2 = (pool s).count
      ∧ s'.log.length = s.log.length + 1)
    (h : I st) :
    ∃ s, Loop.run (fun s => decide (1 < numPool (pool s))) play
        (numPool (pool st)) st = some s ∧ I s
      ∧ (pool s).count ≤ 1
      ∧ 2 * s.log.length + (pool s).count
        = 2 * st.log.length + (pool st).count := by
  obtain ⟨s, hrun, ⟨hs, hcount⟩, hexit⟩ := Loop.run_total
    (fun s => decide (1 < numPool (pool s))) play
    (fun s => I s ∧ 2 * s.log.length + (pool s).count
      = 2 * st.log.length + (pool st).count)
    (fun s => numPool (pool s))
    (by
      rintro s ⟨hs, hcount⟩ hcond
      obtain ⟨s', hs', hI, hpool, hlog⟩ :=
        hplay s hs (of_decide_eq_true hcond)
      exact ⟨s', hs', ⟨hI, by omega⟩, by simp only [numPool]; omega⟩)
    (numPool (pool st)) st ⟨h, rfl⟩ (Nat.le_refl _)
  exact ⟨s, hrun, hs, Nat.le_of_not_lt (of_decide_eq_false hexit), hcount⟩

/-- The winners bracket empties `wp`; it plays a match unless there was at
most one player. -/
theorem winnersBracket_spec (hps : ∀ x, x ∈ ps → 0 ≤ x) (h : Inv ps st) :
    ∃ st', winnersBracket env st = some st' ∧ Inv ps st'
      ∧ st'.wp.count = 0 ∧ st'.lp = st.lp
      ∧ Continues ps st.log st'.log
      ∧ (1 < st.wp.count → st.log.length < st'.log.length) := by
  by_cases hc : 0 < numPool st.wp
  · obtain ⟨s, hrun, ⟨hs, hslp, hmore⟩, hle, hcount⟩ := playDown_spec St.wp
      (winnersMatch env)
      (fun s => Inv ps s ∧ s.lp = st.lp ∧ Continues ps st.log s.log)
      (by
        rintro s ⟨hs, hslp, hmore⟩ hcond
        obtain ⟨s', hs', hI, hwp, hlp, hlog, hmore'⟩ :=
          winnersMatch_spec env hps hs hcond
        exact ⟨s', hs', ⟨hI, hlp.trans hslp, hmore.trans hmore'⟩, hwp, hlog⟩)
      ⟨h, rfl, Continues.refl _ _⟩
    by_cases hone : s.wp.count = 1
    · -- one player is left over and gets the bye
      obtain ⟨bye, wp, hget, hwp, hhead, hwpc⟩ :=
        getPool_ok hs.wp (by omega)
      obtain ⟨nwp, d, hadd, hnwp, hperm⟩ :=
        addNwp_ok env { s with wp := wp } hs.nwp bye
      refine ⟨{ s with wp := wp, nwp := nwp, draws := d }, ?_,
        ⟨hwp, hnwp, hs.lp, hs.nlp, ?_⟩, by show wp.count = 0; omega, hslp,
        hmore,
        fun _ => by show st.log.length < s.log.length; omega⟩
      · simp [winnersBracket, hc, hrun, winnersBye, spPool, hone, hget, hadd]
      · have hstand := hs.standing
        rw [hhead] at hstand
        exact hstand.perm
          ((hperm.append_left _).trans List.perm_middle) (List.Perm.refl _)
    · refine ⟨s, ?_, hs, by omega, hslp, hmore, fun _ => by omega⟩
      simp [winnersBracket, hc, hrun, winnersBye, spPool, hone]
  · have h0 : st.wp.count = 0 := by simpa [numPool] using hc
    exact ⟨st, by simp [winnersBracket, numPool, h0], h, h0, rfl,
      Continues.refl _ _, fun _ => by omega⟩

/-- The losers bracket empties `lp`; it plays a match unless there was at
most one player. -/
theorem losersBracket_spec (hps : ∀ x, x ∈ ps → 0 ≤ x) (h : Inv ps st) :
    ∃ st', losersBracket env st = some st' ∧ Inv ps st'
      ∧ st'.lp.count = 0 ∧ st'.wp = st.wp
      ∧ Continues ps st.log st'.log
      ∧ (1 < st.lp.count → st.log.length < st'.log.length) := by
  by_cases hc : 0 < numPool st.lp
  · -- who is left over has lost no match here
    obtain ⟨s, hrun, ⟨hs, hswp, hmore⟩, hle, hcount⟩ := playDown_spec St.lp
      (losersMatch env)
      (fun s => Inv ps s ∧ s.wp = st.wp ∧ Continues ps st.log s.log)
      (by
        rintro s ⟨hs, hswp, hmore⟩ hcond
        obtain ⟨s', hs', hI, hlp, hwp, hlog, hmore'⟩ :=
          losersMatch_spec env hps hs hcond
        exact ⟨s', hs', ⟨hI, hwp.trans hswp, hmore.trans hmore'⟩, hlp, hlog⟩)
      ⟨h, rfl, Continues.refl _ _⟩
    by_cases hone : s.lp.count = 1
    · obtain ⟨bye, lp, hget, hlp, hhead, hlpc⟩ :=
        getPool_ok hs.lp (by omega)
      obtain ⟨nlp, d, hadd, hnlp, hperm⟩ :=
        addNlp_ok env { s with lp := lp } hs.nlp bye
      refine ⟨{ s with lp := lp, nlp := nlp, draws := d }, ?_,
        ⟨hs.wp, hs.nwp, hlp, hnlp, ?_⟩, by show lp.count = 0; omega, hswp,
        hmore,
        fun _ => by show st.log.length < s.log.length; omega⟩
      · simp [losersBracket, hc, hrun, losersBye, spPool, hone, hget, hadd]
      · have hstand := hs.standing
        rw [hhead] at hstand
        exact hstand.perm (List.Perm.refl _)
          ((hperm.append_left _).trans List.perm_middle)
    · refine ⟨s, ?_, hs, by omega, hswp, hmore, fun _ => by omega⟩
      simp [losersBracket, hc, hrun, losersBye, spPool, hone]
  · have h0 : st.lp.count = 0 := by simpa [numPool] using hc
    exact ⟨st, by simp [losersBracket, numPool, h0], h, h0, rfl,
      Continues.refl _ _, fun _ => by omega⟩

end SchoolStuff.Tournament
