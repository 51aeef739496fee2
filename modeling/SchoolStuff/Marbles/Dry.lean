import SchoolStuff.Marbles.Basic

/-!
# Marbles — when the jar runs dry

Green and blue marbles are never put back. Once they are gone every pick is
red, and `picksLeft` tells how many are still to come; the jar runs dry exactly
in the games that have fewer red marbles by then (`never_dry_iff`).
-/

namespace SchoolStuff.Marbles.Game

/-- The picks from the first one of a turn to the end of the game, all of them
red: the second one is not counted. -/
def turnPicks (red_amount : Nat) : Nat :=
  if red_amount < 50 then 51 - red_amount else 0

/-- The picks to come if all of them are red. -/
def picksLeft (s : Game) : Nat :=
  match s.point with
  | .first => turnPicks s.red_amount
  | .redSecond => 51 - s.red_amount
  | .redLoop => 50 - s.red_amount
  -- the second red marble in a row ends a green turn
  | .greenSecond => 2 + turnPicks (s.red_amount + 1)
  | .greenLoop .r => 1 + turnPicks (s.red_amount + 1)
  | .greenLoop _ =>
    if s.red_amount + 1 < 50 then 2 + turnPicks (s.red_amount + 2) else 1
  | .ended => 0

/-- Where the game is, the 50 red marbles are not yet there. -/
def Playing (s : Game) : Prop :=
  match s.point with
  | .redSecond => s.red_amount ≤ 50
  | .ended => True
  | _ => s.red_amount < 50

/-- Only red marbles are left. -/
def OnlyRed (s : Game) : Prop := s.greenMarbles = 0 ∧ s.blueMarbles = 0

/-! ## Playing -/

theorem playing_endTurn (s : Game) : s.endTurn.Playing := by
  by_cases h : s.red_amount < 50 <;> simp [Playing, endTurn, h]

theorem playing_test {s : Game} {next : Point} (hR : next ≠ .redSecond) :
    (s.test next).Playing := by
  by_cases h : s.red_amount < 50
  · cases next <;> simp_all [Playing, test]
  · rw [test, if_neg h]
    exact playing_endTurn s

theorem playing_after {s : Game} (marble : Marble) (h : s.Playing) :
    (s.after marble).Playing := by
  unfold after
  cases hp : s.point with
  | first =>
      simp only [Playing, hp] at h
      cases marble with
      | r => exact Nat.succ_le_of_lt h
      | g => simpa [Playing, afterFirst] using h
      | b => exact playing_endTurn _
  | redSecond => exact playing_test (by simp)
  | redLoop =>
      cases marble with
      | r => exact playing_test (by simp)
      | g => exact playing_test (by simp)
      | b => exact playing_endTurn _
  | greenSecond => exact playing_test (by simp)
  | greenLoop prev =>
      dsimp only [greenBody]
      split
      · exact playing_endTurn _
      · exact playing_test (by simp)
  | ended => exact h

theorem pickMarble_frame {s s' : Game} {rand : Nat} {marble : Marble}
    (h : s.pickMarble rand = some (marble, s')) :
    s'.point = s.point ∧ s'.red_amount = s.red_amount := by
  simp only [pickMarble] at h
  split at h
  · split at h
    · cases h
      exact ⟨rfl, rfl⟩
    · split at h <;> cases h <;> exact ⟨rfl, rfl⟩
  · cases h

theorem playing_step {s s' : Game} {rand : Nat} (h : s.Playing)
    (hstep : s.step rand = some s') : s'.Playing := by
  unfold step at hstep
  split at hstep
  · cases hstep
    exact h
  · obtain ⟨⟨marble, s₁⟩, hpick, rfl⟩ := Option.map_eq_some_iff.1 hstep
    obtain ⟨hpoint, hred⟩ := pickMarble_frame hpick
    exact playing_after marble (by simpa [Playing, hpoint, hred] using h)

theorem playing_run {rand : Nat → Nat} {n : Nat} {s : Game}
    (h : run rand n = some s) : s.Playing := by
  induction n generalizing s with
  | zero =>
      cases h
      exact Nat.zero_lt_succ 49
  | succ n ih =>
      obtain ⟨s₁, hrun, hstep⟩ := Option.bind_eq_some_iff.1 h
      exact playing_step (ih hrun) hstep

/-! ## Only red marbles -/

theorem picksLeft_pos {s : Game} (h : s.Playing) (hp : s.point ≠ .ended) :
    0 < s.picksLeft := by
  unfold Playing at h
  unfold picksLeft
  cases hpt : s.point with
  | first =>
      simp only [hpt] at h
      simp only [turnPicks, if_pos h]
      omega
  | redSecond =>
      simp only [hpt] at h
      dsimp only
      omega
  | redLoop =>
      simp only [hpt] at h
      dsimp only
      omega
  | greenSecond => exact Nat.add_pos_left (by decide) _
  | greenLoop prev =>
      have hgb : 0 < if s.red_amount + 1 < 50 then 2 + turnPicks (s.red_amount + 2) else 1 := by
        split <;> omega
      cases prev with
      | r => exact Nat.add_pos_left (by decide) _
      | g => exact hgb
      | b => exact hgb
  | ended => exact absurd hpt hp

theorem picksLeft_endTurn (s : Game) :
    s.endTurn.picksLeft = turnPicks s.red_amount := by
  by_cases h : s.red_amount < 50 <;> simp [picksLeft, endTurn, turnPicks, h]

theorem picksLeft_test (s : Game) (next : Point) :
    (s.test next).picksLeft =
      if s.red_amount < 50 then { s with point := next }.picksLeft else 0 := by
  by_cases h : s.red_amount < 50 <;> simp [test, picksLeft_endTurn, turnPicks, h]

/-- A red marble is one pick less. -/
theorem picksLeft_after_r {s : Game} (h : s.Playing) (hp : s.point ≠ .ended) :
    (s.after .r).picksLeft + 1 = s.picksLeft := by
  unfold Playing at h
  unfold after
  cases hpt : s.point with
  | first =>
      simp only [hpt] at h
      simp only [afterFirst, picksLeft, add_red, hpt, turnPicks, if_pos h]
      omega
  | redSecond =>
      simp only [hpt] at h
      rw [picksLeft_test]
      simp only [picksLeft, hpt]
      split <;> omega
  | redLoop =>
      simp only [hpt] at h
      dsimp only [redBody]
      rw [picksLeft_test]
      simp only [picksLeft, add_red, hpt]
      split <;> omega
  | greenSecond =>
      simp only [hpt] at h
      dsimp only
      rw [picksLeft_test, if_pos h]
      simp only [picksLeft, hpt]
      omega
  | greenLoop prev =>
      simp only [hpt] at h
      have hgb : (s.add_red.test (.greenLoop .r)).picksLeft + 1 =
          if s.red_amount + 1 < 50 then 2 + turnPicks (s.red_amount + 2) else 1 := by
        rw [picksLeft_test]
        by_cases hlt : s.red_amount + 1 < 50
        · rw [if_pos (show s.add_red.red_amount < 50 from hlt), if_pos hlt]
          simp only [picksLeft, add_red, Nat.add_assoc, Nat.reduceAdd]
          omega
        · rw [if_neg (show ¬ s.add_red.red_amount < 50 from hlt), if_neg hlt]
      cases prev with
      | r =>
          simp only [greenBody, if_true]
          rw [picksLeft_endTurn]
          simp only [picksLeft, add_red, hpt]
          omega
      | g => simpa [greenBody, picksLeft, hpt] using hgb
      | b => simpa [greenBody, picksLeft, hpt] using hgb
  | ended => exact absurd hpt hp

theorem after_marbles_r (s : Game) :
    (s.after .r).redMarbles = s.redMarbles ∧
      (s.after .r).greenMarbles = s.greenMarbles ∧
      (s.after .r).blueMarbles = s.blueMarbles := by
  unfold after
  cases s.point with
  | first => exact ⟨rfl, rfl, rfl⟩
  | redSecond =>
      dsimp only [test]
      split <;> exact ⟨rfl, rfl, rfl⟩
  | redLoop =>
      dsimp only [redBody, test]
      split <;> exact ⟨rfl, rfl, rfl⟩
  | greenSecond =>
      dsimp only [test]
      split <;> exact ⟨rfl, rfl, rfl⟩
  | greenLoop prev =>
      dsimp only [greenBody, test]
      split
      · exact ⟨rfl, rfl, rfl⟩
      · split <;> exact ⟨rfl, rfl, rfl⟩
  | ended => exact ⟨rfl, rfl, rfl⟩

/-- A pick among red marbles. -/
theorem step_onlyRed {s : Game} (hred : s.OnlyRed) (h : s.Playing) (hp : s.point ≠ .ended)
    (hpos : 0 < s.redMarbles) (rand : Nat) :
    ∃ s', s.step rand = some s' ∧ s'.OnlyRed ∧
      s'.redMarbles + 1 = s.redMarbles ∧ s'.picksLeft + 1 = s.picksLeft := by
  obtain ⟨hg, hb⟩ := hred
  let s₁ : Game := { s with redMarbles := s.redMarbles - 1 }
  have htot : s.tot = s.redMarbles := by simp [tot, hg, hb]
  have hpick : s.pickMarble rand = some (.r, s₁) := by
    rw [pickMarble, htot, if_pos hpos, if_pos (Nat.mod_lt rand hpos)]
  obtain ⟨hr', hg', hb'⟩ := after_marbles_r s₁
  refine ⟨s₁.after .r, by rw [step, if_neg hp, hpick]; rfl, ⟨hg'.trans hg, hb'.trans hb⟩,
    ?_, picksLeft_after_r (s := s₁) h hp⟩
  rw [hr']
  exact Nat.sub_add_cancel hpos

/-- With too few of them the jar will be empty when a marble is picked. -/
theorem dry_of_onlyRed {rand : Nat → Nat} {n : Nat} {s : Game} (hrun : run rand n = some s)
    (hred : s.OnlyRed) (hfew : s.redMarbles < s.picksLeft) :
    ∃ n' s', run rand n' = some s' ∧ s'.point ≠ .ended ∧ s'.tot = 0 := by
  induction hk : s.redMarbles generalizing n s with
  | zero =>
      refine ⟨n, s, hrun, fun hp => ?_, by simp [tot, hk, hred.1, hred.2]⟩
      simp [picksLeft, hp] at hfew
  | succ k ih =>
      have hp : s.point ≠ .ended := fun hp => by simp [picksLeft, hp] at hfew
      obtain ⟨s', hstep, hred', hr, hleft⟩ :=
        step_onlyRed hred (playing_run hrun) hp (by omega) (rand n)
      exact ih (n := n + 1) (by rw [run, hrun]; exact hstep) hred' (by omega) (by omega)

/-- Every pick of a game finds a marble just when, green and blue gone, the red
ones are enough for the picks that are left. -/
theorem never_dry_iff (rand : Nat → Nat) :
    (∀ n s, run rand n = some s → s.point ≠ .ended → 0 < s.tot) ↔
      ∀ n s, run rand n = some s → s.OnlyRed → s.picksLeft ≤ s.redMarbles := by
  constructor
  · intro h n s hrun hred
    by_contra hfew
    obtain ⟨n', s', hrun', hp, htot⟩ := dry_of_onlyRed hrun hred (Nat.lt_of_not_le hfew)
    exact absurd (h n' s' hrun' hp) (by omega)
  · intro h n s hrun hp
    by_cases hred : s.OnlyRed
    · have hleft := picksLeft_pos (playing_run hrun) hp
      have hle := h n s hrun hred
      simp only [tot]
      omega
    · simp only [OnlyRed, not_and_or] at hred
      simp only [tot]
      omega

/-! ## A game that goes wrong -/

/-- 49 turns with a red marble that counts and one that does not, two turns with
one that does not, and then none is left. -/
def dryGame : List Nat :=
  (List.range 49).flatMap (fun k => [100 - 2 * k, 0, 0]) ++
    [2, 0, 51, 51, 1, 0, 49, 49] ++
    (List.range 47).flatMap (fun k => [0, 48 - k, 48 - k]) ++
    [0, 1, 0, 0]

/-- `assert(tot>0)` fails at the 301st pick. -/
theorem jar_runs_dry :
    ¬ ∀ rand n s, run rand n = some s → s.point ≠ .ended → 0 < s.tot := by
  intro h
  have hlost : ∃ s ∈ run (fun n => dryGame.getD n 0) 300, s.point ≠ .ended ∧ s.tot = 0 := by
    decide +kernel
  obtain ⟨s, hrun, hp, htot⟩ := hlost
  exact absurd (h _ 300 s hrun hp) (by omega)

end SchoolStuff.Marbles.Game
