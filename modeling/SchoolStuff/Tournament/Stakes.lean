import Mathlib.Algebra.Order.Ring.Nat
import Mathlib.Data.List.Induction
import Mathlib.Data.List.TakeWhile
import SchoolStuff.Tournament.Match

/-!
# Tournament — the stakes of a match (`match` of `tournament.c`, `match.c`)

The stake doubles with every tied round and falls back to 1 when a round is
decided, so a round is worth `2 ^ k` points after `k` ties in a row. Scores
and stake are `int`s: they hold these values as long as no 31 rounds in a
row are tied, and 50 rounds are enough for 31 ties.
-/

namespace SchoolStuff.Tournament

/-! ## What the rounds are worth -/

/-- The results of the first `n` rounds. -/
def results (p1 p2 : Player) (st : Rounds) (n : Nat) : List Winner :=
  (List.range n).map fun game => (st.after p1 p2 game).result p1 p2 game

/-- How many tied rounds end `rs`: those immediately before the next. -/
def tiesBefore (rs : List Winner) : Nat :=
  (rs.reverse.takeWhile (· = .tie)).length

/-- The points that go to `w` when each round it wins pays `2 ^ k`, `k`
being the tied rounds immediately before it. -/
def exactScore (w : Winner) (rs : List Winner) : Nat :=
  ((List.range rs.length).map fun i =>
    if rs[i]? = some w then 2 ^ tiesBefore (rs.take i) else 0).sum

/-- Stake and scores hold those values, as integers, after every round. -/
structure StakesExact (p1 p2 : Player) (st : Rounds) : Prop where
  bet : ∀ n ≤ GAMES, (st.after p1 p2 n).stakes.bet.toInt
    = 2 ^ tiesBefore (results p1 p2 st n)
  myscore : ∀ n ≤ GAMES, (st.after p1 p2 n).stakes.myscore.toInt
    = exactScore .player1 (results p1 p2 st n)
  oppscore : ∀ n ≤ GAMES, (st.after p1 p2 n).stakes.oppscore.toInt
    = exactScore .player2 (results p1 p2 st n)

section Lists

variable (rs : List Winner)

@[simp] theorem tiesBefore_tie :
    tiesBefore (rs ++ [.tie]) = tiesBefore rs + 1 := by
  simp [tiesBefore]

theorem tiesBefore_decided {r : Winner} (hr : r ≠ .tie) :
    tiesBefore (rs ++ [r]) = 0 := by
  simp [tiesBefore, hr]

theorem tiesBefore_le : tiesBefore rs ≤ rs.length := by
  have hle := (List.takeWhile_prefix (· = Winner.tie) (l := rs.reverse)).length_le
  rwa [List.length_reverse] at hle

/-- The tied rounds counted are the last ones. -/
theorem replicate_tiesBefore :
    List.replicate (tiesBefore rs) Winner.tie <:+ rs := by
  have hall : rs.reverse.takeWhile (· = .tie)
      = List.replicate (tiesBefore rs) Winner.tie :=
    List.eq_replicate_of_mem fun r hr => by
      simpa using List.mem_takeWhile_imp hr
  have hprefix := List.takeWhile_prefix (· = Winner.tie) (l := rs.reverse)
  rw [hall] at hprefix
  simpa using List.reverse_suffix.mpr hprefix

theorem tiesBefore_replicate (k : Nat) :
    k ≤ tiesBefore (rs ++ List.replicate k .tie) := by
  induction k with
  | zero => exact Nat.zero_le _
  | succ k ih =>
      rw [List.replicate_succ', ← List.append_assoc, tiesBefore_tie]
      exact Nat.succ_le_succ ih

theorem exactScore_snoc (w r : Winner) :
    exactScore w (rs ++ [r])
      = exactScore w rs + if r = w then 2 ^ tiesBefore rs else 0 := by
  rw [exactScore, List.length_append, List.length_singleton, List.range_succ,
    List.map_append, List.sum_append]
  congr 1
  · refine congrArg List.sum (List.map_congr_left fun i hi => ?_)
    have hi : i < rs.length := List.mem_range.mp hi
    rw [List.getElem?_append_left hi, List.take_append_of_le_length (Nat.le_of_lt hi)]
  · simp

/-- A decided round pays the stake to one of the players. -/
theorem exactScore_decided {w : Winner} (hw : w ≠ .tie) :
    exactScore .player1 (rs ++ [w]) + exactScore .player2 (rs ++ [w])
      = exactScore .player1 rs + exactScore .player2 rs + 2 ^ tiesBefore rs := by
  rw [exactScore_snoc, exactScore_snoc]
  cases w with
  | tie => exact absurd rfl hw
  | player1 =>
      rw [if_pos rfl, if_neg (by decide)]
      omega
  | player2 =>
      rw [if_neg (by decide), if_pos rfl]
      omega

end Lists

/-! ## The machine's values -/

theorem results_succ (p1 p2 : Player) (st : Rounds) (n : Nat) :
    results p1 p2 st (n + 1)
      = results p1 p2 st n ++ [(st.after p1 p2 n).result p1 p2 n] := by
  simp [results, List.range_succ]

theorem results_length (p1 p2 : Player) (st : Rounds) (n : Nat) :
    (results p1 p2 st n).length = n := by
  simp [results]

theorem results_take (p1 p2 : Player) (st : Rounds) {m n : Nat} (h : m ≤ n) :
    (results p1 p2 st n).take m = results p1 p2 st m := by
  rw [results, ← List.map_take, List.take_range, Nat.min_eq_left h]
  rfl

/-- The stakes depend on the results only. -/
theorem stakes_after (p1 p2 : Player) (st : Rounds) (n : Nat) :
    (st.after p1 p2 n).stakes = (results p1 p2 st n).foldl Stakes.pay st.stakes := by
  induction n with
  | zero => rfl
  | succ n ih =>
      rw [after_succ, results_succ, List.foldl_append, ← ih]
      rfl

theorem toInt_add_of_lt {a b : Int32} {m n : Nat} (ha : a.toInt = m)
    (hb : b.toInt = n) (h : m + n < 2 ^ 31) : (a + b).toInt = (m + n : Nat) := by
  rw [Int32.toInt_add, ha, hb, Int.bmod_eq_of_le (by omega) (by omega)]
  rfl

theorem toInt_double_of_lt {a : Int32} {m : Nat} (ha : a.toInt = m)
    (h : m * 2 < 2 ^ 31) : (a * 2).toInt = (m * 2 : Nat) := by
  rw [Int32.toInt_mul, ha, show (2 : Int32).toInt = 2 from rfl,
    Int.bmod_eq_of_le (by omega) (by omega)]
  rfl

/-- A bound on what `m` rounds can pay, no round paying more than
`2 ^ 30`. -/
def payLimit (m : Nat) : Nat :=
  if m ≤ 30 then 2 ^ m else 2 ^ 30 + 2 ^ (m - 30)

/-- A round that `k` ties precede adds no more than its `k + 1` rounds
allow. -/
theorem payLimit_add : ∀ m < 50, ∀ k < 31, m + k + 1 ≤ 50 →
    payLimit m + 2 ^ k ≤ payLimit (m + k + 1) := by
  decide +kernel

theorem payLimit_lt : ∀ m ≤ 50, payLimit m < 2 ^ 31 := by
  decide +kernel

/-- What holds of stake and scores after the rounds `rs`. -/
structure Paid (rs : List Winner) (s : Stakes) : Prop where
  bet : s.bet.toInt = (2 ^ tiesBefore rs : Nat)
  myscore : s.myscore.toInt = exactScore .player1 rs
  oppscore : s.oppscore.toInt = exactScore .player2 rs
  limit : exactScore .player1 rs + exactScore .player2 rs
    ≤ payLimit (rs.length - tiesBefore rs)

theorem Paid.init : Paid [] .init :=
  ⟨rfl, rfl, rfl, Nat.zero_le _⟩

variable {rs : List Winner} {s : Stakes}

theorem Paid.tie (h : Paid rs s) (hk : tiesBefore rs < 30) :
    Paid (rs ++ [.tie]) (s.pay .tie) where
  bet := by
    have hlt : 2 ^ tiesBefore rs * 2 < 2 ^ 31 := by
      rw [← Nat.pow_succ]
      exact Nat.pow_lt_pow_right (by decide) (by omega)
    rw [tiesBefore_tie, Nat.pow_succ]
    exact toInt_double_of_lt h.bet hlt
  myscore := by
    rw [exactScore_snoc]
    exact h.myscore
  oppscore := by
    rw [exactScore_snoc]
    exact h.oppscore
  limit := by
    have hlimit := h.limit
    simpa [exactScore_snoc, Nat.add_sub_add_right] using hlimit

/-- What a decided round after `rs` can pay stays in range. -/
theorem Paid.room (h : Paid rs s) (hlen : rs.length < 50)
    (hk : tiesBefore rs ≤ 30) :
    exactScore .player1 rs + exactScore .player2 rs + 2 ^ tiesBefore rs
        ≤ payLimit (rs.length + 1)
      ∧ payLimit (rs.length + 1) < 2 ^ 31 := by
  have hle := tiesBefore_le rs
  have hadd := payLimit_add (rs.length - tiesBefore rs) (by omega)
    (tiesBefore rs) (by omega) (by omega)
  rw [Nat.sub_add_cancel hle] at hadd
  exact ⟨Nat.le_trans (Nat.add_le_add_right h.limit _) hadd,
    payLimit_lt _ (by omega)⟩

/-- A decided round pays its winner the stake. -/
theorem Paid.decided (h : Paid rs s) (hlen : rs.length < 50)
    (hk : tiesBefore rs ≤ 30) {w : Winner} (hw : w ≠ .tie) :
    Paid (rs ++ [w]) (s.pay w) := by
  obtain ⟨hroom, hlt⟩ := h.room hlen hk
  have hties := tiesBefore_decided rs hw
  have hlimit : exactScore .player1 (rs ++ [w]) + exactScore .player2 (rs ++ [w])
      ≤ payLimit ((rs ++ [w]).length - tiesBefore (rs ++ [w])) := by
    rw [exactScore_decided rs hw, hties, List.length_append]
    exact hroom
  cases w with
  | tie => exact absurd rfl hw
  | player1 =>
      refine ⟨by rw [hties]; rfl, ?_, ?_, hlimit⟩
      · rw [exactScore_snoc, if_pos rfl]
        exact toInt_add_of_lt h.myscore h.bet (by omega)
      · rw [exactScore_snoc, if_neg (by decide)]
        exact h.oppscore
  | player2 =>
      refine ⟨by rw [hties]; rfl, ?_, ?_, hlimit⟩
      · rw [exactScore_snoc, if_neg (by decide)]
        exact h.myscore
      · rw [exactScore_snoc, if_pos rfl]
        exact toInt_add_of_lt h.oppscore h.bet (by omega)

/-- **Run lemma**: with no 31 ties in a row, every round pays in full. -/
theorem paid_foldl (hlen : rs.length ≤ 50)
    (hties : ¬ List.replicate 31 Winner.tie <:+: rs) :
    Paid rs (rs.foldl Stakes.pay .init) := by
  induction rs using List.reverseRecOn with
  | nil => exact .init
  | append_singleton rs w ih =>
      have hinfix : rs <:+: rs ++ [w] := (List.prefix_append rs [w]).isInfix
      have hlen' : rs.length < 50 := by
        rw [List.length_append] at hlen
        exact Nat.lt_of_succ_le hlen
      have hrs := ih hlen'.le (fun h => hties (h.trans hinfix))
      -- a longer run of ties would end in 31 of them
      have hshort : ∀ rs' : List Winner, rs' <:+: rs ++ [w] →
          tiesBefore rs' ≤ 30 := fun rs' hrs' => by
        by_contra hk
        refine hties ((List.IsSuffix.trans ?_ (replicate_tiesBefore rs')).isInfix.trans hrs')
        exact ⟨List.replicate (tiesBefore rs' - 31) .tie, by
          rw [List.replicate_append_replicate]
          congr 1
          omega⟩
      rw [List.foldl_append]
      by_cases hw : w = .tie
      · subst hw
        have hk := hshort _ (List.infix_refl _)
        rw [tiesBefore_tie] at hk
        exact hrs.tie hk
      · exact hrs.decided hlen' (hshort rs hinfix) hw

/-- Whatever the histories hold at first. -/
theorem stakes_exact_iff (p1 p2 : Player) (myhist opphist : List Rps) :
    StakesExact p1 p2 (.start myhist opphist)
      ↔ ¬ List.replicate 31 Winner.tie
          <:+: results p1 p2 (.start myhist opphist) GAMES := by
  constructor
  · rintro hexact ⟨before, after, heq⟩
    have hlen := congrArg List.length heq
    rw [results_length] at hlen
    simp only [List.length_append, List.length_replicate] at hlen
    have hn : before.length + 31 ≤ GAMES := by omega
    have hresults : results p1 p2 (.start myhist opphist) (before.length + 31)
        = before ++ List.replicate 31 .tie := by
      rw [← results_take p1 p2 _ hn, ← heq]
      exact List.take_left' (by simp)
    have hbet := hexact.bet _ hn
    rw [hresults] at hbet
    have hpow : 2 ^ 31 ≤ 2 ^ tiesBefore (before ++ List.replicate 31 .tie) :=
      Nat.pow_le_pow_right (by decide) (tiesBefore_replicate _ 31)
    have hmax := Int32.toInt_lt
      (Rounds.after p1 p2 (.start myhist opphist) (before.length + 31)).stakes.bet
    rw [hbet] at hmax
    exact absurd (by exact_mod_cast hmax) (Nat.not_lt.mpr hpow)
  · intro hties
    have hpaid : ∀ n ≤ GAMES, Paid (results p1 p2 (.start myhist opphist) n)
        (Rounds.after p1 p2 (.start myhist opphist) n).stakes := fun n hn => by
      rw [stakes_after]
      refine paid_foldl (by rw [results_length]; exact hn) (fun h => hties ?_)
      rw [← results_take p1 p2 _ hn] at h
      exact h.trans (List.take_prefix _ _).isInfix
    exact ⟨fun n hn => by exact_mod_cast (hpaid n hn).bet,
      fun n hn => (hpaid n hn).myscore, fun n hn => (hpaid n hn).oppscore⟩

/-- **The stakes of a match.** In `match` as in `main` of `match.c`, every
decided round pays `2 ^ k` for the `k` ties before it and nothing overflows
exactly when no 31 rounds in a row are tied. -/
theorem match_stakes (p1 p2 : Player) :
    (StakesExact p1 p2 .init
      ↔ ¬ List.replicate 31 Winner.tie <:+: results p1 p2 .init GAMES)
    ∧ ∀ mine theirs : List Rps, (StakesExact p1 p2 (.initMain mine theirs)
      ↔ ¬ List.replicate 31 Winner.tie
          <:+: results p1 p2 (.initMain mine theirs) GAMES) :=
  ⟨stakes_exact_iff p1 p2 _ _, fun _ _ => stakes_exact_iff p1 p2 _ _⟩

/-- Two players who always play rock: the stake is out of range after 31
rounds. -/
theorem stakes_overflow :
    ¬ StakesExact (fun _ _ _ => .rock) (fun _ _ _ => .rock) Rounds.init := by
  intro hexact
  have hbet := hexact.bet 31 (by decide)
  revert hbet
  decide +kernel

end SchoolStuff.Tournament
