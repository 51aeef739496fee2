import Mathlib.Tactic.Common

/-!
# Marbles — the jar and the turns (`cs220/lab1/marbles.c`)

A step of the game is a call of `pickMarble` and what is done up to the next
one. The `Point` says which call is next. `rand()` is a sequence of
numbers, and a failed `assert` is `none`. The counters are wide enough.
-/

namespace SchoolStuff.Marbles

inductive Marble where
  | r | g | b
  deriving DecidableEq, Repr

/-- The calls of `pickMarble` in `turn`, and the end of `main`'s loop. -/
inductive Point where
  /-- `marble = pickMarble()`. -/
  | first
  /-- `picked = pickMarble()` before the loop. -/
  | redSecond
  | redLoop
  /-- `green_pick = pickMarble()` before the loop. -/
  | greenSecond
  | greenLoop (prev : Marble)
  | ended
  deriving DecidableEq, Repr

structure Game where
  redMarbles : Nat
  greenMarbles : Nat
  blueMarbles : Nat
  red_count : Nat
  blue_count : Nat
  green_count : Nat
  red_amount : Nat
  numPicked : Nat
  /-- The counts that were printed after each turn: red, blue and green. -/
  printed : List (Nat × Nat × Nat)
  point : Point
  deriving DecidableEq, Repr

namespace Game

def init : Game where
  redMarbles := 100
  greenMarbles := 100
  blueMarbles := 100
  red_count := 0
  blue_count := 0
  green_count := 0
  red_amount := 0
  numPicked := 0
  printed := []
  point := .first

def tot (s : Game) : Nat := s.redMarbles + s.greenMarbles + s.blueMarbles

def add_red (s : Game) : Game :=
  { s with red_count := s.red_count + 1, red_amount := s.red_amount + 1 }

/-- `rand` is what `rand()` returns. -/
def pickMarble (s : Game) (rand : Nat) : Option (Marble × Game) :=
  if 0 < s.tot then
    let choice := rand % s.tot
    if choice < s.redMarbles then
      some (.r, { s with redMarbles := s.redMarbles - 1 })
    else if choice < s.redMarbles + s.greenMarbles then
      some (.g, { s with greenMarbles := s.greenMarbles - 1 })
    else some (.b, { s with blueMarbles := s.blueMarbles - 1 })
  else none

/-- The end of `turn`, and the test of `main`'s loop. -/
def endTurn (s : Game) : Game :=
  { s with
    numPicked := s.numPicked + 1
    printed := s.printed ++ [(s.red_count, s.blue_count, s.green_count)]
    point := if s.red_amount < 50 then .first else .ended }

/-- The test of `while(red_amount < 50)` in `turn`; the pick of its body is
`next`. -/
def test (s : Game) (next : Point) : Game :=
  if s.red_amount < 50 then { s with point := next } else s.endTurn

/-- What `turn` does with the marble of the first pick. -/
def afterFirst (s : Game) (marble : Marble) : Game :=
  let s := { s with red_count := 0, green_count := 0, blue_count := 0 }
  match marble with
  | .r => { s.add_red with point := .redSecond }
  | .g => { s with green_count := s.green_count + 1, point := .greenSecond }
  | .b =>
    { s with
      blue_count := s.blue_count + 1
      redMarbles := 100
      red_amount := 0 }.endTurn

/-- The body of the loop of a red turn, behind its pick. -/
def redBody (s : Game) (picked : Marble) : Game :=
  match picked with
  | .r => s.add_red.test .redLoop
  | .b => { s with blue_count := s.blue_count + 1 }.endTurn
  | .g => s.test .redLoop

/-- The body of the loop of a green turn, behind its pick. -/
def greenBody (s : Game) (prev green_pick : Marble) : Game :=
  let s :=
    match green_pick with
    | .r => s.add_red
    | .g => { s with green_count := s.green_count + 1 }
    | .b => { s with blue_count := s.blue_count + 1 }
  if prev = green_pick then s.endTurn else s.test (.greenLoop green_pick)

/-- From one call of `pickMarble` to the next one. -/
def after (s : Game) (marble : Marble) : Game :=
  match s.point with
  | .first => s.afterFirst marble
  | .redSecond => s.test .redLoop -- this marble is not counted
  | .redLoop => s.redBody marble
  | .greenSecond => s.test (.greenLoop marble)
  | .greenLoop prev => s.greenBody prev marble
  | .ended => s

def step (s : Game) (rand : Nat) : Option Game :=
  if s.point = .ended then some s
  else (s.pickMarble rand).map fun (marble, s) => s.after marble

/-- The game after `n` calls of `pickMarble`. -/
def run (rand : Nat → Nat) : Nat → Option Game
  | 0 => some init
  | n + 1 => (run rand n).bind fun s => s.step (rand n)

end Game

end SchoolStuff.Marbles
