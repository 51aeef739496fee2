import Mathlib.Algebra.BigOperators.Group.List.Basic
import Mathlib.Tactic.Common
import SchoolStuff.Tournament.Basic

/-!
# Tournament — a match (`cs220/lab12/rps.c`, `match` of `tournament.c`)

A match is `GAMES` rounds of rock, paper and scissors. A player is a
function of the round number, its own history and the other one's; the
histories are arrays that are filled as the rounds go by. Scores and stake
are `int`s of 32 bits, which wrap around where the source leaves an
overflow undefined. The program `match.c` plays the same rounds over
histories of which only the first 20 entries are initialised.
-/

namespace SchoolStuff.Tournament

/-! ## `rps.c` -/

inductive Rps
  | rock
  | paper
  | scissors
  | unknown
  deriving DecidableEq, Repr

inductive Winner
  | player1
  | player2
  | tie
  deriving DecidableEq, Repr

abbrev Player := Nat → List Rps → List Rps → Rps

/-- `eval_round`. -/
def evalRound (p1 p2 : Rps) : Winner :=
  if p1 = .unknown ∧ p2 = .unknown then .tie
  else if p1 = .unknown then .player2
  else if p2 = .unknown then .player1
  else if p1 = p2 then .tie
  else if p1 = .rock ∧ p2 = .scissors then .player1
  else if p1 = .scissors ∧ p2 = .paper then .player1
  else if p1 = .paper ∧ p2 = .rock then .player1
  else .player2

structure RegisterEntry where
  p : Player
  pName : String
  lost : Int

/-- `p_register`, up to `num_reg`. -/
abbrev Register := List RegisterEntry

/-- `register_player`. -/
def registerPlayer (reg : Register) (p : Player) (pName : String) :
    Option Register :=
  if reg.length < 1000 then some (reg ++ [⟨p, pName, 0⟩]) else none

/-- `player_lost`. A name that nobody has ends the program. -/
def playerLost : Register → String → Option Register
  | [], _ => none
  | e :: reg, pname =>
      if pname = e.pName then some ({ e with lost := e.lost + 1 } :: reg)
      else (playerLost reg pname).map (e :: ·)

/-- `p_register[pi]`. -/
def entry (reg : Register) (pi : Int) : Option RegisterEntry :=
  if 0 ≤ pi then reg[pi.toNat]? else none

/-! ## The rounds -/

def GAMES : Nat := 50

structure Stakes where
  myscore : Int32
  oppscore : Int32
  bet : Int32
  deriving DecidableEq, Repr

def Stakes.init : Stakes := ⟨0, 0, 1⟩

/-- What the result of a round does to the scores. -/
def Stakes.pay (s : Stakes) : Winner → Stakes
  | .player1 => { s with myscore := s.myscore + s.bet, bet := 1 }
  | .player2 => { s with oppscore := s.oppscore + s.bet, bet := 1 }
  | .tie => { s with bet := s.bet * 2 }

structure Rounds where
  myhist : List Rps
  opphist : List Rps
  stakes : Stakes
  deriving DecidableEq, Repr

/-- The result of round `game`. -/
def Rounds.result (p1 p2 : Player) (st : Rounds) (game : Nat) : Winner :=
  evalRound (p1 game st.myhist st.opphist) (p2 game st.opphist st.myhist)

/-- A turn of the loop over the rounds. -/
def Rounds.play (p1 p2 : Player) (st : Rounds) (game : Nat) : Rounds :=
  { myhist := st.myhist.set game (p1 game st.myhist st.opphist)
    opphist := st.opphist.set game (p2 game st.opphist st.myhist)
    stakes := st.stakes.pay (st.result p1 p2 game) }

/-- The state after `n` rounds. -/
def Rounds.after (p1 p2 : Player) (st : Rounds) (n : Nat) : Rounds :=
  (List.range n).foldl (Rounds.play p1 p2) st

/-- The state in which the loop is entered with these histories. -/
def Rounds.start (myhist opphist : List Rps) : Rounds :=
  ⟨myhist, opphist, .init⟩

/-- The state in which `match` enters the loop. -/
def Rounds.init : Rounds :=
  .start (List.replicate GAMES .unknown) (List.replicate GAMES .unknown)

/-- The state in which `main` of `match.c` enters the loop, `mine` and
`theirs` being what the entries from 20 on happen to hold. -/
def Rounds.initMain (mine theirs : List Rps) : Rounds :=
  .start (List.replicate 20 .unknown ++ mine)
    (List.replicate 20 .unknown ++ theirs)

/-! ## `match` -/

/-- How the match ends. -/
def Stakes.outcome (s : Stakes) : Outcome :=
  if s.myscore = s.oppscore then .tie
  else if s.oppscore < s.myscore then .p1
  else .p2

/-- What `match` returns for an outcome, and the register then. -/
def matchEnd (reg : Register) (p1 p2 : Int) (o : Outcome) :
    Option (Int × Register) := do
  let e2 ← entry reg p2
  match o with
  | .tie => some (-1, reg)
  | .p1 => do
      let reg ← playerLost reg e2.pName
      some (p1, reg)
  -- the source calls `player_lost(p1_name)` only after it has returned
  | .p2 => some (p2, reg)

/-- What `match` announces and returns, and the register after it. -/
structure Match where
  myscore : Int32
  oppscore : Int32
  winner : Int
  register : Register

/-- `match`. -/
def playMatch (reg : Register) (p1 p2 : Int) : Option Match := do
  let e1 ← entry reg p1
  let e2 ← entry reg p2
  let s := (Rounds.init.after e1.p e2.p GAMES).stakes
  let r ← matchEnd reg p1 p2 s.outcome
  some ⟨s.myscore, s.oppscore, r.1, r.2⟩

theorem after_succ (p1 p2 : Player) (st : Rounds) (n : Nat) :
    st.after p1 p2 (n + 1) = (st.after p1 p2 n).play p1 p2 n := by
  rw [Rounds.after, Rounds.after, List.range_succ, List.foldl_append]
  rfl

/-! ## Changing seats -/

def Winner.swap : Winner → Winner
  | .player1 => .player2
  | .player2 => .player1
  | .tie => .tie

def Stakes.swap (s : Stakes) : Stakes := ⟨s.oppscore, s.myscore, s.bet⟩

/-- The state with the players' sides exchanged. -/
def Rounds.swap (st : Rounds) : Rounds :=
  ⟨st.opphist, st.myhist, st.stakes.swap⟩

theorem evalRound_swap (a b : Rps) : evalRound b a = (evalRound a b).swap := by
  cases a <;> cases b <;> rfl

theorem pay_swap (s : Stakes) (w : Winner) :
    s.swap.pay w.swap = (s.pay w).swap := by
  cases w <;> rfl

/-- **Step lemma**: the two runs mirror each other in every round. -/
theorem play_swap (p1 p2 : Player) (st : Rounds) (game : Nat) :
    st.swap.play p2 p1 game = (st.play p1 p2 game).swap := by
  have hresult : st.swap.result p2 p1 game = (st.result p1 p2 game).swap :=
    evalRound_swap _ _
  rw [Rounds.play, hresult]
  show Rounds.mk _ _ (st.stakes.swap.pay _) = _
  rw [pay_swap]
  rfl

theorem after_swap (p1 p2 : Player) (st : Rounds) (n : Nat) :
    st.swap.after p2 p1 n = (st.after p1 p2 n).swap := by
  induction n with
  | zero => rfl
  | succ n ih => rw [after_succ, after_succ, ih, play_swap]

def Outcome.swap : Outcome → Outcome
  | .p1 => .p2
  | .p2 => .p1
  | .tie => .tie

theorem outcome_swap (s : Stakes) : s.swap.outcome = s.outcome.swap := by
  show (if s.oppscore = s.myscore then Outcome.tie
      else if s.myscore < s.oppscore then .p1 else .p2) = _
  rw [Stakes.outcome]
  by_cases heq : s.myscore = s.oppscore
  · rw [if_pos heq.symm, if_pos heq]
    rfl
  · rw [if_neg (Ne.symm heq), if_neg heq]
    by_cases hlt : s.oppscore < s.myscore
    · rw [if_pos hlt, if_neg (Int32.lt_asymm hlt)]
      rfl
    · have hgt : s.myscore < s.oppscore :=
        Int32.lt_of_le_of_ne (Int32.not_lt.mp hlt) heq
      rw [if_neg hlt, if_pos hgt]
      rfl

/-- A registered name is found. -/
theorem playerLost_isSome {reg : Register} {e : RegisterEntry}
    (he : e ∈ reg) : ∃ reg', playerLost reg e.pName = some reg' := by
  induction reg with
  | nil => simp at he
  | cons e' reg ih =>
      rw [playerLost]
      by_cases hname : e.pName = e'.pName
      · exact ⟨_, if_pos hname⟩
      · obtain ⟨reg', hreg'⟩ := ih (List.mem_of_ne_of_mem
          (fun heq => hname (congrArg RegisterEntry.pName heq)) he)
        exact ⟨e' :: reg', by rw [if_neg hname, hreg']; rfl⟩

theorem entry_mem {reg : Register} {pi : Int} {e : RegisterEntry}
    (he : entry reg pi = some e) : e ∈ reg := by
  rw [entry] at he
  split at he
  · exact List.mem_of_getElem? he
  · simp at he

/-- Registered players end their match. -/
theorem matchEnd_winner {reg : Register} (p1 : Int) {p2 : Int}
    {e2 : RegisterEntry} (h2 : entry reg p2 = some e2) (o : Outcome) :
    ∃ reg', matchEnd reg p1 p2 o = some (matchResult p1 p2 o, reg') := by
  simp only [matchEnd, h2, Option.bind_eq_bind, Option.bind_some]
  cases o with
  | p1 =>
      obtain ⟨reg', hreg'⟩ := playerLost_isSome (entry_mem h2)
      exact ⟨reg', by simp [hreg', matchResult]⟩
  | p2 => exact ⟨reg, rfl⟩
  | tie => exact ⟨reg, rfl⟩

/-- **Seat order does not matter.** Two registered players end their match
in either order, and it is the same one who wins, or a tie, with the scores
exchanged. -/
theorem match_swap (reg : Register) (a b : Int) (ea eb : RegisterEntry)
    (ha : entry reg a = some ea) (hb : entry reg b = some eb) :
    ∃ m m', playMatch reg a b = some m ∧ playMatch reg b a = some m'
      ∧ m'.winner = m.winner ∧ m'.myscore = m.oppscore
      ∧ m'.oppscore = m.myscore := by
  have hstart : Rounds.init.swap = Rounds.init := rfl
  have hswap := after_swap ea.p eb.p Rounds.init GAMES
  rw [hstart] at hswap
  have hstakes : (Rounds.init.after eb.p ea.p GAMES).stakes
      = (Rounds.init.after ea.p eb.p GAMES).stakes.swap :=
    congrArg Rounds.stakes hswap
  generalize hs : (Rounds.init.after ea.p eb.p GAMES).stakes = s at hstakes
  obtain ⟨reg', hend⟩ := matchEnd_winner a hb s.outcome
  obtain ⟨reg'', hend'⟩ := matchEnd_winner b ha s.outcome.swap
  refine ⟨⟨s.myscore, s.oppscore, matchResult a b s.outcome, reg'⟩,
    ⟨s.oppscore, s.myscore, matchResult b a s.outcome.swap, reg''⟩,
    ?_, ?_, ?_, rfl, rfl⟩
  · simp only [playMatch, ha, hb, hs, hend, Option.bind_eq_bind,
      Option.bind_some]
  · simp only [playMatch, ha, hb, hstakes, outcome_swap, hend',
      Option.bind_eq_bind, Option.bind_some]
    rfl
  · cases s.outcome <;> rfl

/-- One who always plays rock meets one who answers the last move seen. -/
theorem match_swap_two :
    ∃ m m',
      playMatch [⟨fun _ _ _ => .rock, "Rocky", 0⟩,
        ⟨fun game _ opphist => if opphist[game - 1]? = some .rock then .paper
          else .scissors, "Copycat", 0⟩] 0 1 = some m
      ∧ playMatch [⟨fun _ _ _ => .rock, "Rocky", 0⟩,
        ⟨fun game _ opphist => if opphist[game - 1]? = some .rock then .paper
          else .scissors, "Copycat", 0⟩] 1 0 = some m'
      ∧ m'.winner = m.winner ∧ m'.myscore = m.oppscore
      ∧ m'.oppscore = m.myscore :=
  match_swap _ 0 1 _ _ rfl rfl

end SchoolStuff.Tournament
