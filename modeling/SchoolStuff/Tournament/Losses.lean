import Mathlib.Data.List.Induction
import SchoolStuff.Tournament.Champion
import SchoolStuff.Tournament.Match

/-!
# Tournament — the `lost` counters (`match`, `player_lost`)

The register is kept by `rps.c`, the matches are decided in
`tournament.c`. A match the first player wins is recorded against the
second; one the second player wins is not recorded at all, because `match`
returns before its call of `player_lost`. So the counters are right until
the first match that the player drawn second wins.
-/

namespace SchoolStuff.Tournament

/-! ## The counters over a log -/

/-- `main`'s registrations, in order. -/
def registerAll (entries : List (Player × String)) : Option Register :=
  entries.foldlM (fun reg e => registerPlayer reg e.1 e.2) []

/-- How a recorded match ended. -/
def Played.outcome (e : Played) : Outcome :=
  if e.winner = -1 then .tie else if e.winner = e.p1 then .p1 else .p2

/-- The register after one more match. -/
def afterMatch (reg : Register) (e : Played) : Option Register :=
  (matchEnd reg e.p1 e.p2 e.outcome).map Prod.snd

/-- The register after the matches `log`. -/
def registerAfter (reg : Register) (log : List Played) : Option Register :=
  log.foldlM afterMatch reg

/-- The decided matches of `log` that player `i` has lost. -/
def losses (log : List Played) (i : Int) : Nat :=
  log.countP fun e => e.winner ≠ -1 ∧ (e.p1 = i ∨ e.p2 = i) ∧ e.winner ≠ i

/-- The counters of `reg'` are right for the players of `reg` after `log`. -/
structure Tallied (reg : Register) (log : List Played) (reg' : Register) :
    Prop where
  names : reg'.map RegisterEntry.pName = reg.map RegisterEntry.pName
  lost : ∀ (i : Nat) (e : RegisterEntry), reg'[i]? = some e →
    e.lost = losses log i

/-- The matches `log` leave the counters right. -/
def Recorded (reg : Register) (log : List Played) : Prop :=
  ∃ reg', registerAfter reg log = some reg' ∧ Tallied reg log reg'

variable {ps : List Int} {reg reg' : Register} {log : List Played} {e : Played}

/-! ## Registration -/

theorem registerAll_lost {entries : List (Player × String)}
    (hreg : registerAll entries = some reg) : ∀ e ∈ reg, e.lost = 0 := by
  have hgen : ∀ (entries : List (Player × String)) (acc reg : Register),
      (∀ e ∈ acc, e.lost = 0) →
      entries.foldlM (fun reg e => registerPlayer reg e.1 e.2) acc = some reg →
      ∀ e ∈ reg, e.lost = 0 := by
    intro entries
    induction entries with
    | nil =>
        rintro acc reg hacc ⟨⟩
        exact hacc
    | cons entry entries ih =>
        intro acc reg hacc hfold
        rw [List.foldlM_cons, registerPlayer] at hfold
        split at hfold
        · refine ih _ reg (fun e he => ?_) hfold
          rcases List.mem_append.mp he with he | he
          · exact hacc e he
          · rw [List.mem_singleton.mp he]
        · simp at hfold
  exact hgen entries [] reg (by simp) hreg

theorem Tallied.init (hzero : ∀ e ∈ reg, e.lost = 0) : Tallied reg [] reg :=
  ⟨rfl, fun _ _ he => hzero _ (List.mem_of_getElem? he)⟩

/-! ## One match -/

/-- `player_lost` counts for the one player of that name. -/
theorem playerLost_eq (hnames : (reg.map RegisterEntry.pName).Nodup) {i : Nat}
    {e : RegisterEntry} (he : reg[i]? = some e) :
    playerLost reg e.pName
      = some (reg.set i { e with lost := e.lost + 1 }) := by
  induction reg generalizing i with
  | nil => simp at he
  | cons e' reg ih =>
      rw [List.map_cons, List.nodup_cons] at hnames
      cases i with
      | zero =>
          obtain rfl : e' = e := by simpa using he
          rw [playerLost, if_pos rfl]
          rfl
      | succ i =>
          rw [List.getElem?_cons_succ] at he
          have hne : e.pName ≠ e'.pName := fun heq => hnames.1
            (heq ▸ List.mem_map_of_mem (List.mem_of_getElem? he))
          rw [playerLost, if_neg hne, ih hnames.2 he]
          rfl

theorem losses_snoc (log : List Played) (e : Played) (i : Int) :
    losses (log ++ [e]) i = losses log i
      + if e.winner ≠ -1 ∧ (e.p1 = i ∨ e.p2 = i) ∧ e.winner ≠ i then 1 else 0 := by
  simp [losses, List.countP_append, List.countP_cons]

/-- `match` returns the winner that the log names. -/
theorem Played.Fair.winner_eq (hps : ∀ x, x ∈ ps → 0 ≤ x) (he : e.Fair ps) :
    e.winner = matchResult e.p1 e.p2 e.outcome := by
  have h1 := hps _ he.p1
  have h2 := hps _ he.p2
  have hne := he.ne
  rcases he.winner with hw | hw | hw
  · rw [Played.outcome, if_neg (by omega), if_pos hw, matchResult, hw]
  · rw [Played.outcome, if_neg (by omega), if_neg (by omega), matchResult, hw]
  · rw [Played.outcome, if_pos hw, matchResult, hw]

theorem Tallied.length (h : Tallied reg log reg') : reg'.length = reg.length := by
  simpa using congrArg List.length h.names

/-- A player of the run is a registered one. -/
theorem entry_of_mem (h : Tallied reg log reg') {x : Int}
    (hx : x ∈ players reg.length) :
    ∃ (i : Nat) (ex : RegisterEntry), x = i ∧ reg'[i]? = some ex
      ∧ entry reg' x = some ex := by
  obtain ⟨i, hi, rfl⟩ := List.mem_map.mp hx
  have hlt : i < reg'.length := h.length ▸ List.mem_range.mp hi
  refine ⟨i, reg'[i], rfl, List.getElem?_eq_getElem hlt, ?_⟩
  rw [entry, if_pos (Int.natCast_nonneg i), Int.toNat_natCast]
  exact List.getElem?_eq_getElem hlt

/-- **Step lemma**: a match leaves the counters right if and only if the
player drawn second does not win it. -/
theorem tallied_afterMatch (hnames : (reg.map RegisterEntry.pName).Nodup)
    (h : Tallied reg log reg') (he : e.Fair (players reg.length)) :
    ∃ reg'', afterMatch reg' e = some reg''
      ∧ (Tallied reg (log ++ [e]) reg'' ↔ e.outcome ≠ .p2) := by
  obtain ⟨i1, e1, h1, hget1, hentry1⟩ := entry_of_mem h he.p1
  obtain ⟨i2, e2, h2, hget2, hentry2⟩ := entry_of_mem h he.p2
  have hwinner := he.winner_eq (players_nonneg _)
  have hne := he.ne
  cases ho : e.outcome with
  | tie =>
      rw [ho, matchResult] at hwinner
      refine ⟨reg', ?_, iff_of_true ⟨h.names, fun i ei hi => ?_⟩ (by decide)⟩
      · simp [afterMatch, matchEnd, hentry2, ho]
      · rw [losses_snoc, if_neg (fun hl => hl.1 hwinner)]
        exact h.lost i ei hi
  | p1 =>
      rw [ho, matchResult] at hwinner
      have hnames' : (reg'.map RegisterEntry.pName).Nodup := h.names ▸ hnames
      refine ⟨reg'.set i2 { e2 with lost := e2.lost + 1 }, ?_,
        iff_of_true ⟨?_, fun i ei hi => ?_⟩ (by decide)⟩
      · simp [afterMatch, matchEnd, hentry2, ho, playerLost_eq hnames' hget2]
      · obtain ⟨hlt, rfl⟩ := List.getElem?_eq_some_iff.mp hget2
        rw [List.map_set, ← h.names, ← List.getElem_map RegisterEntry.pName
          (h := by simpa using hlt)]
        exact List.set_getElem_self _
      · rw [losses_snoc]
        by_cases hi2 : i = i2
        · subst hi2
          rw [List.getElem?_set_self (List.getElem?_eq_some_iff.mp hget2).1] at hi
          obtain rfl := Option.some.inj hi
          rw [if_pos ⟨by omega, .inr h2, by omega⟩]
          exact congrArg (· + 1) (h.lost i e2 hget2)
        · rw [List.getElem?_set_ne (Ne.symm hi2)] at hi
          rw [if_neg (by omega)]
          exact h.lost i ei hi
  | p2 =>
      rw [ho, matchResult] at hwinner
      refine ⟨reg', ?_, iff_of_false (fun h' => ?_) (by simp)⟩
      · simp [afterMatch, matchEnd, hentry2, ho]
      · -- the first player's counter stays behind
        have hlost := h.lost i1 e1 hget1
        have hbehind := h'.lost i1 e1 hget1
        rw [losses_snoc, if_pos ⟨by omega, .inl h1, by omega⟩] at hbehind
        omega

/-! ## A run -/

theorem registerAfter_snoc (reg : Register) (log : List Played) (e : Played) :
    registerAfter reg (log ++ [e])
      = (registerAfter reg log).bind (afterMatch · e) := by
  simp [registerAfter, List.foldlM_append]

theorem recorded_snoc (hnames : (reg.map RegisterEntry.pName).Nodup)
    (he : e.Fair (players reg.length)) (h : Recorded reg log) :
    Recorded reg (log ++ [e]) ↔ e.outcome ≠ .p2 := by
  obtain ⟨reg', hreg', htally⟩ := h
  obtain ⟨reg'', hafter, hiff⟩ := tallied_afterMatch hnames htally he
  have hsnoc : registerAfter reg (log ++ [e]) = some reg'' := by
    rw [registerAfter_snoc, hreg']
    exact hafter
  rw [← hiff]
  constructor
  · rintro ⟨r, hr, htally'⟩
    rw [hsnoc] at hr
    exact Option.some.inj hr ▸ htally'
  · exact fun htally' => ⟨reg'', hsnoc, htally'⟩

/-- **Run lemma**: the counters are right after each of the matches if and
only if none is won by the player drawn second. -/
theorem recorded_iff (hzero : ∀ e ∈ reg, e.lost = 0)
    (hnames : (reg.map RegisterEntry.pName).Nodup)
    (hlog : ∀ e ∈ log, e.Fair (players reg.length)) :
    (∀ pre, pre <+: log → Recorded reg pre) ↔ ∀ e ∈ log, e.outcome ≠ .p2 := by
  induction log using List.reverseRecOn with
  | nil =>
      refine iff_of_true (fun pre hpre => ?_) (by simp)
      rw [List.prefix_nil.mp hpre]
      exact ⟨reg, rfl, .init hzero⟩
  | append_singleton log e ih =>
      rw [List.forall_mem_append] at hlog
      have hfair := hlog.2 e (by simp)
      have ih := ih hlog.1
      constructor
      · intro h
        have hall := ih.mp fun pre hpre =>
          h pre (hpre.trans (List.prefix_append _ _))
        have hlast := (recorded_snoc hnames hfair
          (h log (List.prefix_append _ _))).mp (h _ (List.prefix_refl _))
        exact List.forall_mem_append.mpr ⟨hall, by simpa using hlast⟩
      · intro h
        obtain ⟨hall, hlast⟩ := List.forall_mem_append.mp h
        have hpre := ih.mpr hall
        intro pre hle
        rcases List.prefix_concat_iff.mp hle with rfl | hle
        · exact (recorded_snoc hnames hfair (hpre log (List.prefix_refl _))).mpr
            (hlast e (by simp))
        · exact hpre pre hle

theorem start_zero (env : Env) : ∃ st₀, start env 0 = some st₀ ∧ st₀.log = []
    ∧ more st₀ = false :=
  ⟨_, rfl, rfl, rfl⟩

/-- Every match of a run is between two of the `n` players. -/
theorem run_fair (env : Env) (n : Nat) :
    ∃ st₀, start env n = some st₀
      ∧ ∀ st, Loop.Tops more (tier env) st₀ st →
        ∀ e ∈ st.log, e.Fair (players n) := by
  rcases Nat.eq_zero_or_pos n with rfl | hn
  · obtain ⟨st₀, hstart, hlog, hexit⟩ := start_zero env
    refine ⟨st₀, hstart, fun st hst => ?_⟩
    obtain rfl : st = st₀ := by
      refine hst.invariant (I := (· = st₀)) rfl ?_
      rintro s s' rfl hmore -
      rw [hexit] at hmore
      cases hmore
    simp [hlog]
  · obtain ⟨st₀, hstart, htop, hlog⟩ := start_spec env hn
    refine ⟨st₀, hstart, fun st hst => ?_⟩
    obtain ⟨es, heq, hes⟩ := tops_fair env (players_nonneg n) htop hst
    rw [hlog, List.nil_append] at heq
    exact heq ▸ hes

/-- **The bookkeeping of losses.** In every run over registered players with
distinct names, the counters are right after every match played if and only
if the player drawn second wins none of them. -/
theorem losses_recorded_iff (env : Env) (entries : List (Player × String))
    (reg : Register) (hreg : registerAll entries = some reg)
    (hnames : (reg.map RegisterEntry.pName).Nodup) :
    ∃ st₀, start env reg.length = some st₀
      ∧ ∀ st, Loop.Tops more (tier env) st₀ st →
        ((∀ pre, pre <+: st.log → Recorded reg pre)
          ↔ ∀ e ∈ st.log, e.outcome ≠ .p2) := by
  obtain ⟨st₀, hstart, hfair⟩ := run_fair env reg.length
  exact ⟨st₀, hstart, fun st hst =>
    recorded_iff (registerAll_lost hreg) hnames (hfair st hst)⟩

/-- Two registered players. -/
def rockAndPaper : Register :=
  [⟨fun _ _ _ => .rock, "Rock", 0⟩, ⟨fun _ _ _ => .paper, "Paper", 0⟩]

theorem losses_recorded_iff_two :
    ∃ st₀, start firstWins rockAndPaper.length = some st₀
      ∧ ∀ st, Loop.Tops more (tier firstWins) st₀ st →
        ((∀ pre, pre <+: st.log → Recorded rockAndPaper pre)
          ↔ ∀ e ∈ st.log, e.outcome ≠ .p2) :=
  losses_recorded_iff firstWins
    [(fun _ _ _ => .rock, "Rock"), (fun _ _ _ => .paper, "Paper")]
    rockAndPaper rfl (by simp [rockAndPaper])

/-- The second player drawn wins every match. -/
def secondWins : Env where
  rand := fun _ => 0
  outcome := fun _ _ _ => .p2

/-- Two players, one match: the loser's counter is still 0. -/
theorem secondWins_not_recorded :
    ¬ ∀ (env : Env) (entries : List (Player × String)) (reg : Register)
        (st₀ st : St), registerAll entries = some reg →
      (reg.map RegisterEntry.pName).Nodup → start env reg.length = some st₀ →
      Loop.Tops more (tier env) st₀ st → ∀ pre, pre <+: st.log →
        Recorded reg pre := by
  intro h
  have hnames : (rockAndPaper.map RegisterEntry.pName).Nodup := by
    simp [rockAndPaper]
  obtain ⟨st₀, hstart, hfair⟩ := run_fair secondWins 2
  have hmore : (start secondWins 2).map more = some true := by decide
  have hlog : ((start secondWins 2).bind (tier secondWins)).map
      (fun st => st.log.map Played.outcome) = some [.p2] := by
    decide
  rw [hstart] at hmore hlog
  obtain ⟨st, htier, hout⟩ := Option.map_eq_some_iff.mp hlog
  have htop : Loop.Tops more (tier secondWins) st₀ st :=
    .turn .entry (Option.some.inj hmore) htier
  have hall := (recorded_iff (by simp [rockAndPaper])
    hnames (hfair st htop)).mp
    (h secondWins [(fun _ _ _ => .rock, "Rock"), (fun _ _ _ => .paper, "Paper")]
      rockAndPaper st₀ st rfl hnames hstart htop)
  have hmem : Outcome.p2 ∈ st.log.map Played.outcome := by
    rw [hout]
    exact List.mem_singleton_self _
  obtain ⟨e, he, heq⟩ := List.mem_map.mp hmem
  exact hall e he heq

end SchoolStuff.Tournament
