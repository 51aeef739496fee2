import Mathlib.Data.List.Nodup
import SchoolStuff.Tournament.Accounting

/-!
# Tournament — the whole run

A tier keeps the invariant and plays at least one match, so the loop ends;
the exception is a championship match that returns -1, which drops both
finalists (`championshipTied`). Without one the last player standing is
the champion and everybody else has exactly two non-wins; with one the
loop ends with nobody.
-/

namespace SchoolStuff.Tournament

/-- The players by registration index. -/
def players (n : Nat) : List Int :=
  (List.range n).map fun (pi : Nat) => (pi : Int)

/-- The state is a championship match, and that match is a tie. -/
def championshipTied (env : Env) (st : St) : Bool :=
  numPool st.wp == 1 && numPool st.lp == 1
    && env.outcome st.log.length (st.wp.head.headD 0) (st.lp.head.headD 0)
      == .tie

/-- The invariant at the top of an iteration. -/
structure TopInv (ps : List Int) (st : St) : Prop where
  inv : Inv ps st
  nwp : st.nwp = newPool
  nlp : st.nlp = newPool

variable {ps : List Int} (env : Env) {st : St}

theorem TopInv.standing (h : TopInv ps st) :
    Standing ps st.wp.head st.lp.head st.log := by
  have hstand := h.inv.standing
  rw [h.nwp, h.nlp] at hstand
  simpa [newPool] using hstand

theorem TopInv.length (h : TopInv ps st) :
    2 * st.wp.count + st.lp.count + st.log.length = 2 * ps.length := by
  have hwp : st.wp.count = st.wp.head.length := h.inv.wp
  have hlp : st.lp.count = st.lp.head.length := h.inv.lp
  rw [hwp, hlp, h.standing.length]

/-- Emptied brackets hand a tier's pools over as the next top. -/
theorem Inv.advance (h : Inv ps st) (hwp : st.wp.count = 0)
    (hlp : st.lp.count = 0) : TopInv ps st.advance := by
  have hstand := h.standing
  rw [h.wp.head_eq_nil hwp, h.lp.head_eq_nil hlp] at hstand
  refine ⟨⟨h.nwp, newPool_ok, h.nlp, newPool_ok, ?_⟩, rfl, rfl⟩
  simpa [St.advance, newPool] using hstand

/-! ## The championship match -/

/-- `p1` and `p2` are all that is left in `wp` and in `lp`. -/
structure Finalists (ps : List Int) (st : St) (p1 p2 : Int) : Prop where
  getW : getPool st.wp = some (p1, newPool)
  getL : getPool st.lp = some (p2, newPool)
  headW : st.wp.head = [p1]
  headL : st.lp.head = [p2]
  standing : Standing ps [p1] [p2] st.log
  ne : p1 ≠ p2
  p1_ne : p1 ≠ -1
  p2_ne : p2 ≠ -1

theorem TopInv.finalists (hps : ∀ x, x ∈ ps → 0 ≤ x) (h : TopInv ps st)
    (hw : numPool st.wp = 1) (hl : numPool st.lp = 1) :
    ∃ p1 p2, Finalists ps st p1 p2 := by
  rw [numPool] at hw hl
  obtain ⟨p1, wp, hget, hwp, hhead, hwpc⟩ := getPool_ok h.inv.wp (by omega)
  obtain ⟨p2, lp, hget', hlp, hhead', hlpc⟩ := getPool_ok h.inv.lp (by omega)
  have hwp0 : wp = newPool := hwp.eq_newPool (by omega)
  have hlp0 : lp = newPool := hlp.eq_newPool (by omega)
  subst hwp0 hlp0
  have hstand := h.standing
  rw [hhead, hhead'] at hstand
  obtain ⟨hne, h1, h2⟩ := hstand.drawn_ne hps (List.Perm.refl [p1, p2])
  exact ⟨p1, p2, hget, hget', hhead, hhead', hstand, hne, h1, h2⟩

/-- The state in which the championship match has been played and its
result is acted on. -/
def St.final (st : St) (p1 p2 : Int) : St :=
  St.played env { st with wp := newPool, lp := newPool } p1 p2

theorem Finalists.continues {p1 p2 : Int} (hf : Finalists ps st p1 p2)
    (hps : ∀ x, x ∈ ps → 0 ≤ x) :
    Continues ps st.log (st.log ++ [⟨p1, p2, st.result env p1 p2⟩]) :=
  Continues.snoc _ (hf.standing.fair env hps (List.Perm.refl [p1, p2]) st)

/-- What `championship` does with the result. -/
theorem Finalists.championship_eq {p1 p2 : Int} (hf : Finalists ps st p1 p2) :
    championship env st
      = if st.result env p1 p2 = p1 then (st.final env p1 p2).addNwp env p1
        else if st.result env p1 p2 = p2 then
          ((st.final env p1 p2).addNlp env p2).bind fun st => st.addNlp env p1
        else some (st.final env p1 p2) := by
  simp only [championship, hf.getW, hf.getL, Option.bind_eq_bind,
    Option.bind_some]
  rfl

/-- The unbeaten finalist wins, and the other one is eliminated. -/
theorem Finalists.unbeaten_wins {p1 p2 : Int} (hf : Finalists ps st p1 p2)
    (h : TopInv ps st) (ho : env.outcome st.log.length p1 p2 = .p1) :
    ∃ st', championship env st = some st' ∧ Inv ps st'
      ∧ st'.wp.count = 0 ∧ st'.lp.count = 0
      ∧ st'.log = st.log ++ [⟨p1, p2, st.result env p1 p2⟩] := by
  have hres : st.result env p1 p2 = p1 := by
    rw [St.result, ho]
    rfl
  have hnwp : st.nwp.Ok := h.nwp ▸ newPool_ok
  have hnlp : st.nlp.Ok := h.nlp ▸ newPool_ok
  obtain ⟨nwp, d, hadd, hok, hperm⟩ :=
    addNwp_ok env (st.final env p1 p2) hnwp p1
  have heq := hf.championship_eq env
  rw [if_pos hres, hadd] at heq
  refine ⟨_, heq, ⟨newPool_ok, hok, newPool_ok, hnlp, ?_⟩, rfl, rfl, rfl⟩
  have hmove := hf.standing.eliminate
    (e := ⟨p1, p2, st.result env p1 p2⟩)
    (by simp [Played.nonWinner, hres]) (by simp)
  refine hmove.perm ?_ ?_
  · have hnil : (st.final env p1 p2).nwp.head = [] :=
      congrArg Pool.head h.nwp
    rw [hnil] at hperm
    exact hperm
  · have hnil : st.nlp.head = [] := congrArg Pool.head h.nlp
    show st.nlp.head.Perm []
    rw [hnil]

/-- An upset: both finalists go on with one non-win each. -/
theorem Finalists.upset {p1 p2 : Int} (hf : Finalists ps st p1 p2)
    (h : TopInv ps st) (ho : env.outcome st.log.length p1 p2 = .p2) :
    ∃ st', championship env st = some st' ∧ Inv ps st'
      ∧ st'.wp.count = 0 ∧ st'.lp.count = 0
      ∧ st'.log = st.log ++ [⟨p1, p2, st.result env p1 p2⟩] := by
  have hres : st.result env p1 p2 = p2 := by
    rw [St.result, ho]
    rfl
  have hnwp : st.nwp.Ok := h.nwp ▸ newPool_ok
  have hnlp : st.nlp.Ok := h.nlp ▸ newPool_ok
  obtain ⟨nlp, d, hadd, hok, hperm⟩ :=
    addNlp_ok env (st.final env p1 p2) hnlp p2
  obtain ⟨nlp', d', hadd', hok', hperm'⟩ := addNlp_ok env
    { st.final env p1 p2 with nlp := nlp, draws := d } hok p1
  have heq := hf.championship_eq env
  rw [hres, if_neg (Ne.symm hf.ne), if_pos rfl, hadd, Option.bind_some,
    hadd'] at heq
  refine ⟨_, heq, ⟨newPool_ok, hnwp, newPool_ok, hok', ?_⟩, rfl, rfl, rfl⟩
  have hmove := hf.standing.demote
    (e := ⟨p1, p2, st.result env p1 p2⟩)
    (by simp [Played.nonWinner, hres, Ne.symm hf.ne, hf.p2_ne])
  refine hmove.perm ?_ ?_
  · have hnil : st.nwp.head = [] := congrArg Pool.head h.nwp
    show st.nwp.head.Perm []
    rw [hnil]
  · have hnil : (st.final env p1 p2).nlp.head = [] :=
      congrArg Pool.head h.nlp
    rw [hnil] at hperm
    exact hperm'.trans (hperm.cons p1)

theorem Finalists.tied_iff {p1 p2 : Int} (hf : Finalists ps st p1 p2)
    (hw : numPool st.wp = 1) (hl : numPool st.lp = 1) :
    championshipTied env st = true
      ↔ env.outcome st.log.length p1 p2 = .tie := by
  simp [championshipTied, hw, hl, hf.headW, hf.headL]

/-- A decided championship match moves one of the finalists down. -/
theorem championship_decided (hps : ∀ x, x ∈ ps → 0 ≤ x)
    (h : TopInv ps st) (hw : numPool st.wp = 1) (hl : numPool st.lp = 1)
    (hdec : championshipTied env st = false) :
    ∃ st', championship env st = some st' ∧ Inv ps st'
      ∧ st'.wp.count = 0 ∧ st'.lp.count = 0
      ∧ st'.log.length = st.log.length + 1 ∧ Continues ps st.log st'.log := by
  obtain ⟨p1, p2, hf⟩ := h.finalists hps hw hl
  have hmore := hf.continues env hps
  have hlen : ∀ e : Played, (st.log ++ [e]).length = st.log.length + 1 := by
    simp
  cases ho : env.outcome st.log.length p1 p2 with
  | p1 =>
      obtain ⟨st', hst', hinv, hwp, hlp, hlog⟩ := hf.unbeaten_wins env h ho
      exact ⟨st', hst', hinv, hwp, hlp, hlog ▸ hlen _, hlog ▸ hmore⟩
  | p2 =>
      obtain ⟨st', hst', hinv, hwp, hlp, hlog⟩ := hf.upset env h ho
      exact ⟨st', hst', hinv, hwp, hlp, hlog ▸ hlen _, hlog ▸ hmore⟩
  | tie =>
      have htie := (hf.tied_iff env hw hl).mpr ho
      rw [hdec] at htie
      exact absurd htie Bool.false_ne_true

/-- A tied championship match returns both finalists to nowhere. -/
theorem championship_tied (hps : ∀ x, x ∈ ps → 0 ≤ x) (h : TopInv ps st)
    (htie : championshipTied env st = true) :
    ∃ st', championship env st = some st'
      ∧ st'.nwp = newPool ∧ st'.nlp = newPool
      ∧ Continues ps st.log st'.log := by
  have hboth := htie
  simp only [championshipTied, Bool.and_eq_true, beq_iff_eq] at hboth
  obtain ⟨⟨hw, hl⟩, _⟩ := hboth
  obtain ⟨p1, p2, hf⟩ := h.finalists hps hw hl
  have hres : st.result env p1 p2 = -1 := by
    rw [St.result, (hf.tied_iff env hw hl).mp htie]
    rfl
  -- neither branch of the source is taken, so nobody is added to a pool
  refine ⟨st.final env p1 p2, ?_, h.nwp, h.nlp, hf.continues env hps⟩
  rw [hf.championship_eq env, hres, if_neg (Ne.symm hf.p1_ne),
    if_neg (Ne.symm hf.p2_ne)]

/-! ## The loop -/

/-- **Step lemma of the outer loop.** -/
theorem tier_spec (hps : ∀ x, x ∈ ps → 0 ≤ x) (h : TopInv ps st)
    (hmore : more st = true) :
    ∃ st', tier env st = some st' ∧ Continues ps st.log st'.log
      ∧ (championshipTied env st = true →
          st'.wp = newPool ∧ st'.lp = newPool)
      ∧ (championshipTied env st = false →
          TopInv ps st' ∧ st.log.length < st'.log.length) := by
  have hgt : 1 < st.wp.count + st.lp.count := of_decide_eq_true hmore
  by_cases hchamp : numPool st.wp = 1 ∧ numPool st.lp = 1
  · cases htie : championshipTied env st with
    | true =>
        obtain ⟨st', hst', hnwp, hnlp, hcont⟩ := championship_tied env hps h htie
        refine ⟨st'.advance, by simp [tier, hchamp, hst'], hcont,
          fun _ => ⟨hnwp, hnlp⟩,
          fun hf => Bool.noConfusion hf⟩
    | false =>
        obtain ⟨st', hst', hinv, hwp, hlp, hlog, hcont⟩ :=
          championship_decided env hps h hchamp.1 hchamp.2 htie
        refine ⟨st'.advance, by simp [tier, hchamp, hst'], hcont,
          fun hf => Bool.noConfusion hf, fun _ => ⟨hinv.advance hwp hlp, ?_⟩⟩
        show st.log.length < st'.log.length
        omega
  · obtain ⟨s, hs, hinv, hwp, hlp, hcont, hlt⟩ :=
      winnersBracket_spec env hps h.inv
    obtain ⟨s', hs', hinv', hlp', hwp', hcont', hlt'⟩ :=
      losersBracket_spec env hps hinv
    have hle := hcont.length_le
    have hle' := hcont'.length_le
    have hnot : championshipTied env st = false := by
      by_contra hc
      simp only [championshipTied, Bool.not_eq_false, Bool.and_eq_true,
        beq_iff_eq] at hc
      exact hchamp hc.1
    refine ⟨s'.advance, by simp [tier, hchamp, hs, hs'], hcont.trans hcont',
      fun ht => absurd ht (by simp [hnot]),
      fun _ => ⟨hinv'.advance (by rw [hwp', hwp]) hlp', ?_⟩⟩
    show st.log.length < s'.log.length
    -- not one player in each bracket, so one of them plays a match
    rw [hlp] at hlt'
    by_cases hw : 1 < st.wp.count
    · have := hlt hw
      omega
    · have := hlt' (by simp only [numPool] at hchamp; omega)
      omega

theorem players_nonneg (n : Nat) : ∀ x, x ∈ players n → 0 ≤ x := by
  intro x hx
  obtain ⟨k, _, rfl⟩ := List.mem_map.mp hx
  exact Int.natCast_nonneg k

theorem players_nodup (n : Nat) : (players n).Nodup :=
  List.Nodup.map (fun _ _ h => Int.ofNat.inj h) List.nodup_range

theorem players_length (n : Nat) : (players n).length = n := by
  simp [players]

theorem addEntries_ok :
    ∀ (k pi : Nat) (p : Pool) (draws : Nat), p.Ok →
    ∃ r, addEntries env pi k p draws = some r ∧ r.1.Ok
      ∧ r.1.head.Perm (p.head
        ++ (List.range' pi k).map fun (pi : Nat) => (pi : Int)) := by
  intro k
  induction k with
  | zero => intro pi p draws hp; exact ⟨(p, draws), rfl, hp, by simp⟩
  | succ k ih =>
      intro pi p draws hp
      obtain ⟨q, hadd, hq, hperm⟩ := addPool_ok hp pi (env.rand draws)
      obtain ⟨r, hrun, hr, hperm'⟩ :=
        ih (pi + 1) q (draws + addPoolDraws p) hq
      refine ⟨r, by simp [addEntries, hadd, hrun], hr, ?_⟩
      rw [List.range'_succ, List.map_cons]
      exact hperm'.trans ((hperm.append_right _).trans List.perm_middle.symm)

/-- `allEntries` registers every player once. -/
theorem start_spec {n : Nat} (hn : 1 ≤ n) :
    ∃ st₀, start env n = some st₀ ∧ TopInv (players n) st₀
      ∧ st₀.log = [] := by
  obtain ⟨r, hadd, hok, hperm⟩ := addEntries_ok env n 0 newPool 0 newPool_ok
  have hhead : r.1.head.Perm (players n) := by
    simpa [newPool, players, List.range_eq_range'] using hperm
  refine ⟨_, by rw [start, hadd]; rfl,
    ⟨⟨hok, newPool_ok, newPool_ok, newPool_ok, ?_⟩, rfl, rfl⟩, rfl⟩
  have hstand : Standing (players n) (players n) [] [] :=
    { nodup := by simpa using players_nodup n
      subset := by simp
      zero := fun _ _ => rfl
      one := by simp
      two := fun x hx hnot => absurd hx hnot
      length := by simp
      pos := by
        rw [players_length, List.length_nil]
        omega }
  exact hstand.perm (by simpa [newPool] using hhead) (by simp [newPool])

/-- What holds at the top of every iteration, ties included. -/
def Settled (ps : List Int) (st : St) : Prop :=
  TopInv ps st ∨ (st.wp = newPool ∧ st.lp = newPool)

/-- **A turn of the loop** leads to another top with fewer losses to come,
whatever the matches return. -/
theorem Settled.turn (hps : ∀ x, x ∈ ps → 0 ≤ x) {st : St} (hst : Settled ps st)
    (hmore : more st = true) :
    ∃ st', tier env st = some st' ∧ Settled ps st'
      ∧ 2 * st'.wp.count + st'.lp.count < 2 * st.wp.count + st.lp.count := by
  rcases hst with htop | ⟨hwp, hlp⟩
  · obtain ⟨st', hst', _, htied, hdec⟩ := tier_spec env hps htop hmore
    have hgt : 1 < st.wp.count + st.lp.count := of_decide_eq_true hmore
    cases htie : championshipTied env st with
    | true =>
        obtain ⟨hwp, hlp⟩ := htied htie
        refine ⟨st', hst', Or.inr ⟨hwp, hlp⟩, ?_⟩
        rw [hwp, hlp]
        show 0 < 2 * st.wp.count + st.lp.count
        omega
    | false =>
        obtain ⟨htop', hlog⟩ := hdec htie
        refine ⟨st', hst', Or.inl htop', ?_⟩
        have := htop.length
        have := htop'.length
        omega
  · simp [more, numPool, hwp, hlp, newPool] at hmore

theorem tops_settled (hps : ∀ x, x ∈ ps → 0 ≤ x) {st₀ st : St}
    (h : TopInv ps st₀) (hst : Loop.Tops more (tier env) st₀ st) :
    Settled ps st := by
  apply hst.invariant (Or.inl h)
  intro s s' hs hmore htier
  obtain ⟨t, ht, hsettled, _⟩ := hs.turn env hps hmore
  rw [htier, Option.some.injEq] at ht
  exact ht ▸ hsettled

/-- Every match of a run is a fair one. -/
theorem tops_fair (hps : ∀ x, x ∈ ps → 0 ≤ x) {st₀ st : St}
    (h : TopInv ps st₀) (hst : Loop.Tops more (tier env) st₀ st) :
    Continues ps st₀.log st.log := by
  induction hst with
  | entry => exact Continues.refl _ _
  | turn htop hmore htier ih =>
      rcases tops_settled env hps h htop with hs | ⟨hwp, hlp⟩
      · obtain ⟨st', hst', hcont, _⟩ := tier_spec env hps hs hmore
        rw [htier, Option.some.injEq] at hst'
        exact ih.trans (hst' ▸ hcont)
      · simp [more, numPool, hwp, hlp, newPool] at hmore

/-- Without a tied championship match the invariant holds at every top. -/
theorem tops_topInv (hps : ∀ x, x ∈ ps → 0 ≤ x) {st₀ st : St}
    (h : TopInv ps st₀) (hst : Loop.Tops more (tier env) st₀ st)
    (hchamp : ∀ t, Loop.Tops more (tier env) st₀ t →
      championshipTied env t = false) : TopInv ps st := by
  induction hst with
  | entry => exact h
  | turn htop hmore htier ih =>
      obtain ⟨st', hst', _, _, hdec⟩ := tier_spec env hps ih hmore
      rw [htier, Option.some.injEq] at hst'
      subst hst'
      exact (hdec (hchamp _ htop)).1

/-! ## The results -/

/-- A run ends with one player, who is announced. -/
def HasWinner (st : St) : Prop :=
  numPool st.wp + numPool st.lp = 1
    ∧ ∃ a, announce st = some a ∧ a ≠ .noWinner

theorem TopInv.hasWinner (h : TopInv ps st)
    (hone : st.wp.count + st.lp.count = 1) : HasWinner st := by
  refine ⟨hone, ?_⟩
  by_cases hw : st.wp.count = 1
  · obtain ⟨x, p, hget, _⟩ := getPool_ok h.inv.wp (by omega)
    exact ⟨.unbeaten x, by simp [announce, spPool, hw, hget], by simp⟩
  · have hl : st.lp.count = 1 := by omega
    obtain ⟨x, p, hget, _⟩ := getPool_ok h.inv.lp (by omega)
    exact ⟨.afterFight x, by simp [announce, spPool, hw, hl, hget], by simp⟩

/-- A standing whose loop is over has exactly one player left. -/
theorem TopInv.one_left (h : TopInv ps st) (hmore : more st = false) :
    st.wp.count + st.lp.count = 1 := by
  have hle : ¬ 1 < st.wp.count + st.lp.count := of_decide_eq_false hmore
  have hwp : st.wp.count = st.wp.head.length := h.inv.wp
  have hlp : st.lp.count = st.lp.head.length := h.inv.lp
  have hpos := h.standing.pos
  omega

/-- The loop entered with `n` players ends in one state, however many
turns from `2n` on are allowed. -/
theorem run_ends {n : Nat} (hn : 1 ≤ n) :
    ∃ st₀ st, start env n = some st₀ ∧ TopInv (players n) st₀
      ∧ (∀ fuel, 2 * n ≤ fuel → runMain env fuel n = some st)
      ∧ Loop.Tops more (tier env) st₀ st ∧ more st = false
      ∧ ∀ t, Loop.Tops more (tier env) st₀ t → more t = false → st = t := by
  obtain ⟨st₀, hstart, htop, hlog⟩ := start_spec env hn
  have hps := players_nonneg n
  have hbound : 2 * st₀.wp.count + st₀.lp.count ≤ 2 * n := by
    have := htop.length
    rw [players_length] at this
    omega
  obtain ⟨st, hrun, htops, _, hexit⟩ :=
    Loop.run_ends more (tier env) (Settled (players n))
      (fun st => 2 * st.wp.count + st.lp.count)
      (fun _ hst hmore => hst.turn env hps hmore) (Or.inl htop) hbound
  refine ⟨st₀, st, hstart, htop, fun fuel hfuel => ?_, htops, hexit,
    fun t ht hte => Loop.run_eq_of_exit ht hte (hrun _ (Nat.le_refl _))⟩
  rw [runMain, hstart]
  exact hrun fuel hfuel

/-- **When the tournament has a winner.** For every number `n ≥ 1` of
players, every sequence of `rand()` values and every outcome of every
match, the loop ends; it ends with exactly one player, who is announced,
if and only if no championship match of the run is tied. -/
theorem winner_iff_championship_decided (env : Env) (n : Nat)
    (hn : 1 ≤ n) :
    ∃ st₀ st, start env n = some st₀
      ∧ (∀ fuel, 2 * n ≤ fuel → runMain env fuel n = some st)
      ∧ (HasWinner st ↔ ∀ t, Loop.Tops more (tier env) st₀ t →
          championshipTied env t = false) := by
  obtain ⟨st₀, st, hstart, htop, hfuel, htops, hexit, huniq⟩ := run_ends env hn
  have hps := players_nonneg n
  refine ⟨st₀, st, hstart, hfuel, ?_, ?_⟩
  · -- a tie empties both pools, and the loop stops there
    rintro ⟨hone, -⟩ t ht
    cases htie : championshipTied env t with
    | false => rfl
    | true =>
        have hboth := htie
        simp only [championshipTied, numPool, Bool.and_eq_true,
          beq_iff_eq] at hboth
        obtain ⟨⟨hw, hl⟩, -⟩ := hboth
        have hmore : more t = true :=
          decide_eq_true (show 1 < t.wp.count + t.lp.count from by omega)
        rcases tops_settled env hps htop ht with ht' | ⟨hwp, -⟩
        · obtain ⟨t', htier, -, htied, -⟩ := tier_spec env hps ht' hmore
          obtain ⟨hwp', hlp'⟩ := htied htie
          have hexit' : more t' = false := by
            simp [more, numPool, hwp', hlp', newPool]
          have hst := huniq t' (ht.turn hmore htier) hexit'
          rw [hst, hwp', hlp'] at hone
          simp [numPool, newPool] at hone
        · simp [hwp, newPool] at hw
  · intro hchamp
    have hst := tops_topInv env hps htop htops hchamp
    exact hst.hasWinner (hst.one_left hexit)

/-- Two players, and every match after the first one is a tie. -/
def tiedFinal : Env where
  rand := fun _ => 0
  outcome := fun k _ _ => if k = 0 then .p1 else .tie

theorem tiedFinal_no_winner :
    ¬ ∀ (env : Env) (n fuel : Nat) (st : St), 1 ≤ n →
      runMain env fuel n = some st →
      numPool st.wp + numPool st.lp = 1 ∧ announce st ≠ some .noWinner := by
  intro h
  obtain ⟨st, hst⟩ : ∃ st, runMain tiedFinal 4 2 = some st :=
    Option.isSome_iff_exists.mp (by decide)
  have hone := (h tiedFinal 2 4 st (by decide) hst).1
  have hnone : (runMain tiedFinal 4 2).map (fun st =>
      numPool st.wp + numPool st.lp) = some 0 := by
    decide
  rw [hst, Option.map_some, hone] at hnone
  exact absurd hnone (by decide)

/-- Two players, and the first player drawn wins every match. -/
def firstWins : Env where
  rand := fun _ => 0
  outcome := fun _ _ _ => .p1

theorem winner_iff_championship_decided_two :
    ∃ st₀ st, start firstWins 2 = some st₀
      ∧ (∀ fuel, 2 * 2 ≤ fuel → runMain firstWins fuel 2 = some st)
      ∧ (HasWinner st ↔ ∀ t, Loop.Tops more (tier firstWins) st₀ t →
          championshipTied firstWins t = false) :=
  winner_iff_championship_decided firstWins 2 (by decide)

/-- **Double elimination by the book.** For every number `n ≥ 1` of
players, every pool order and every outcome of the matches that never ties
the championship match, the loop ends; at the top of every iteration no
player stands in both pools, and the players in `wp`, in `lp` and in
neither have exactly 0, 1 and 2 non-wins; at the end one champion is left,
everybody else has two non-wins, and `2n - 2` or `2n - 1` matches have
been played. -/
theorem double_elimination (env : Env) (n : Nat) (hn : 1 ≤ n)
    (hchamp : ∀ st₀ t, start env n = some st₀ →
      Loop.Tops more (tier env) st₀ t → championshipTied env t = false) :
    ∃ st₀ st, start env n = some st₀
      ∧ (∀ fuel, 2 * n ≤ fuel → runMain env fuel n = some st)
      ∧ (∀ t, Loop.Tops more (tier env) st₀ t →
          (t.wp.head ++ t.lp.head).Nodup
          ∧ (∀ x, x ∈ t.wp.head ++ t.lp.head → x ∈ players n)
          ∧ ∀ x, x ∈ players n →
              (x ∈ t.wp.head → nonWins t.log x = 0)
              ∧ (x ∈ t.lp.head → nonWins t.log x = 1)
              ∧ (x ∉ t.wp.head → x ∉ t.lp.head → nonWins t.log x = 2))
      ∧ (∃ champion, champion ∈ players n
          ∧ st.wp.head ++ st.lp.head = [champion]
          ∧ ∀ x, x ∈ players n → x ≠ champion → nonWins st.log x = 2)
      ∧ (st.log.length = 2 * n - 2 ∨ st.log.length = 2 * n - 1) := by
  obtain ⟨st₀, st, hstart, htop, hfuel, htops, hexit, _⟩ := run_ends env hn
  have hinv : ∀ t, Loop.Tops more (tier env) st₀ t → TopInv (players n) t :=
    fun t ht => tops_topInv env (players_nonneg n) htop ht
      (fun t ht => hchamp st₀ t hstart ht)
  have hst := hinv st htops
  have hone := hst.one_left hexit
  have hwp : st.wp.count = st.wp.head.length := hst.inv.wp
  have hlp : st.lp.count = st.lp.head.length := hst.inv.lp
  refine ⟨st₀, st, hstart, hfuel, ?_, ?_, ?_⟩
  · intro t ht
    have hstand := (hinv t ht).standing
    exact ⟨hstand.nodup, hstand.subset, fun x hx =>
      ⟨hstand.zero x, hstand.one x, hstand.two x hx⟩⟩
  · obtain ⟨champion, hleft⟩ := List.length_eq_one_iff.mp
      (show (st.wp.head ++ st.lp.head).length = 1 by
        rw [List.length_append]; omega)
    have hmem : ∀ x, x ∈ st.wp.head ++ st.lp.head ↔ x = champion := by
      simp [hleft]
    refine ⟨champion, hst.standing.subset _ ((hmem _).mpr rfl), hleft, ?_⟩
    intro x hx hne
    refine hst.standing.two x hx (fun hw => hne ?_) (fun hl => hne ?_)
    · exact (hmem x).mp (by simp [hw])
    · exact (hmem x).mp (by simp [hl])
  · have hlen := hst.length
    rw [players_length] at hlen
    omega

theorem double_elimination_two :
    ∃ st₀ st, start firstWins 2 = some st₀
      ∧ (∀ fuel, 2 * 2 ≤ fuel → runMain firstWins fuel 2 = some st)
      ∧ (∀ t, Loop.Tops more (tier firstWins) st₀ t →
          (t.wp.head ++ t.lp.head).Nodup
          ∧ (∀ x, x ∈ t.wp.head ++ t.lp.head → x ∈ players 2)
          ∧ ∀ x, x ∈ players 2 →
              (x ∈ t.wp.head → nonWins t.log x = 0)
              ∧ (x ∈ t.lp.head → nonWins t.log x = 1)
              ∧ (x ∉ t.wp.head → x ∉ t.lp.head → nonWins t.log x = 2))
      ∧ (∃ champion, champion ∈ players 2
          ∧ st.wp.head ++ st.lp.head = [champion]
          ∧ ∀ x, x ∈ players 2 → x ≠ champion → nonWins st.log x = 2)
      ∧ (st.log.length = 2 * 2 - 2 ∨ st.log.length = 2 * 2 - 1) :=
  double_elimination firstWins 2 (by decide)
    (fun _ _ _ _ => by simp [championshipTied, firstWins])

end SchoolStuff.Tournament
