import SchoolStuff.Lib.Loop
import SchoolStuff.Tournament.Pool

/-!
# Tournament — the double-elimination loop (`cs220/lab12/tournament.c`)

`main` keeps a winners pool `wp` and a losers pool `lp`, plays a tier into
the fresh pools `nwp` and `nlp`, and makes them the current ones. What it
does not decide itself is the environment: the values `rand()` returns and
the outcome of each match. Every match `main` prints is recorded in `log`.
-/

namespace SchoolStuff.Tournament

/-- How a match ends. -/
inductive Outcome
  | p1
  | p2
  | tie
  deriving DecidableEq, Repr

/-- What `match` returns: the winner's index, or -1 for a tie. -/
def matchResult (p1 p2 : Int) : Outcome → Int
  | .p1 => p1
  | .p2 => p2
  | .tie => -1

/-- What the run depends on: the `k`-th value of `rand()`, and the outcome
of the `k`-th match when it is played between `p1` and `p2`. -/
structure Env where
  rand : Nat → Nat
  outcome : Nat → Int → Int → Outcome

/-- One match played. -/
structure Played where
  p1 : Int
  p2 : Int
  winner : Int
  deriving DecidableEq, Repr

/-- The state of `main`. -/
structure St where
  wp : Pool
  nwp : Pool
  lp : Pool
  nlp : Pool
  /-- Calls of `rand()` so far. -/
  draws : Nat
  /-- Matches played so far, in order. -/
  log : List Played
  deriving DecidableEq, Repr

variable (env : Env)

/-- `addPool(nwp, ri)`. -/
def St.addNwp (st : St) (ri : Int) : Option St :=
  (addPool st.nwp ri (env.rand st.draws)).map fun nwp =>
    { st with nwp := nwp, draws := st.draws + addPoolDraws st.nwp }

/-- `addPool(nlp, ri)`. -/
def St.addNlp (st : St) (ri : Int) : Option St :=
  (addPool st.nlp ri (env.rand st.draws)).map fun nlp =>
    { st with nlp := nlp, draws := st.draws + addPoolDraws st.nlp }

/-- The value `match(p1, p2)` returns when it is played next. -/
def St.result (st : St) (p1 p2 : Int) : Int :=
  matchResult p1 p2 (env.outcome st.log.length p1 p2)

/-- The state after that match. -/
def St.played (st : St) (p1 p2 : Int) : St :=
  { st with log := st.log ++ [⟨p1, p2, st.result env p1 p2⟩] }

/-- One match of the winners bracket. -/
def winnersMatch (st : St) : Option St := do
  let (p1, wp) ← getPool st.wp
  let (p2, wp) ← getPool wp
  let st := { st with wp := wp }
  let winner := st.result env p1 p2
  let st := st.played env p1 p2
  if winner = -1 then
    -- a tie counts against the second player drawn
    let st ← st.addNwp env p1
    st.addNlp env p2
  else
    let st ← st.addNwp env winner
    if winner = p1 then st.addNlp env p2 else st.addNlp env p1

/-- The last player of the winners pool gets a bye. -/
def winnersBye (st : St) : Option St :=
  if spPool st.wp then do
    let (bye, wp) ← getPool st.wp
    St.addNwp env { st with wp := wp } bye
  else some st

/-- The winners bracket of a tier. -/
def winnersBracket (st : St) : Option St :=
  if 0 < numPool st.wp then do
    let st ← Loop.run (fun st => decide (1 < numPool st.wp))
      (winnersMatch env) (numPool st.wp) st
    winnersBye env st
  else some st

/-- One match of the losers bracket. -/
def losersMatch (st : St) : Option St := do
  let (p1, lp) ← getPool st.lp
  let (p2, lp) ← getPool lp
  let st := { st with lp := lp }
  let winner := st.result env p1 p2
  let st := st.played env p1 p2
  if winner = -1 then st.addNlp env p1
  else st.addNlp env winner

/-- The last player of the losers pool gets a bye. -/
def losersBye (st : St) : Option St :=
  if spPool st.lp then do
    let (bye, lp) ← getPool st.lp
    St.addNlp env { st with lp := lp } bye
  else some st

/-- The losers bracket of a tier. -/
def losersBracket (st : St) : Option St :=
  if 0 < numPool st.lp then do
    let st ← Loop.run (fun st => decide (1 < numPool st.lp))
      (losersMatch env) (numPool st.lp) st
    losersBye env st
  else some st

/-- The championship match. There is no branch for a tie. -/
def championship (st : St) : Option St := do
  let (p1, wp) ← getPool st.wp
  let (p2, lp) ← getPool st.lp
  let st := { st with wp := wp, lp := lp }
  let winner := st.result env p1 p2
  let st := st.played env p1 p2
  if winner = p1 then st.addNwp env p1
  else if winner = p2 then do
    let st ← st.addNlp env p2
    st.addNlp env p1
  -- on a tie the source adds neither finalist to a pool
  else some st

/-- The pools of the next iteration. -/
def St.advance (st : St) : St :=
  { st with wp := st.nwp, nwp := newPool, lp := st.nlp, nlp := newPool }

/-- The body of the outer loop. -/
def tier (st : St) : Option St := do
  let st ←
    if numPool st.wp = 1 ∧ numPool st.lp = 1 then championship env st
    else do
      let st ← winnersBracket env st
      losersBracket env st
  some st.advance

/-- The condition of the outer loop. -/
def more (st : St) : Bool :=
  decide (1 < numPool st.wp + numPool st.lp)

/-- The loop of `allEntries` from registration index `pi` on, `k` players
to go. -/
def addEntries (pi : Nat) : Nat → Pool → Nat → Option (Pool × Nat)
  | 0, p, draws => some (p, draws)
  | k + 1, p, draws => do
      let p' ← addPool p pi (env.rand draws)
      addEntries (pi + 1) k p' (draws + addPoolDraws p)

/-- The state in which `main` enters the outer loop with `n` players. -/
def start (n : Nat) : Option St :=
  (addEntries env 0 n newPool 0).map fun r =>
    { wp := r.1, nwp := newPool, lp := newPool, nlp := newPool,
      draws := r.2, log := [] }

/-- What `main` announces after the loop. -/
inductive Announcement
  | unbeaten (twinner : Int)
  | afterFight (twinner : Int)
  | noWinner
  deriving DecidableEq, Repr

/-- The announcement made in the state the loop ends in. -/
def announce (st : St) : Option Announcement :=
  if spPool st.wp then (getPool st.wp).map fun r => .unbeaten r.1
  else if spPool st.lp then (getPool st.lp).map fun r => .afterFight r.1
  else some .noWinner

/-- `main` with `n` registered players, the outer loop turned at most
`fuel` times: the state the loop ends in. -/
def runMain (fuel n : Nat) : Option St := do
  let st ← start env n
  Loop.run more (tier env) fuel st

end SchoolStuff.Tournament
