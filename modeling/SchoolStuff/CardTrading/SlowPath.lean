import SchoolStuff.CardTrading.FastPath

/-!
# CardTrading — the slow path, and longer offers

Without money for every card `main` searches the subsets of the cards it
has kept. A card that is too expensive by itself is in no affordable
subset, so nothing is lost by dropping it, as long as the sums are those of
the prices and the profits (`Exact`). With one card more the search finds at
least as much, unless the size of the power set wraps to 0: it does
at 32 cards, and the search of 32 cards or more finds nothing.
-/

namespace SchoolStuff.CardTrading

open Subsets (select exists_select select_sublist)

variable {m : Market} {p : List Card} {money : Int}

/-- The sums over the subsets do not wrap: none of the prices, and none of
the profits of a subset that is affordable. -/
structure Exact (m : Market) (p : List Card) (money : Int) : Prop where
  spent : ∀ s : List Card, s.Sublist p → spent s = price s
  profit : ∀ s : List Card, s.Sublist p → price s ≤ money →
    curProfit m s = profit m s

/-- The first mask with the best profit. -/
structure FirstBest (m : Market) (p : List Card) (money : Int) (r : Int × Int)
    (i : Nat) : Prop where
  lt : i < 2 ^ p.length
  pos : 0 < r.1
  afford : price (select i p) ≤ money
  profit : profit m (select i p) = r.1
  count : ((select i p).length : Int) = r.2
  first : ∀ j, j < i → price (select j p) ≤ money →
    CardTrading.profit m (select j p) < r.1

/-- The number of cards that `compute_profit` returns. -/
theorem computeProfit_count (hexact : Exact m p money) (hp : p.length ≤ 31) :
    computeProfit m p money = (0, 0)
      ∨ ∃ i, FirstBest m p money (computeProfit m p money) i := by
  have hscan := scanned_foldl m p money (powSetSize p.length)
  have hsel : ∀ i, subset i p = select i p :=
    fun i => subset_eq_select i (by omega)
  rw [computeProfit, hscan.ret]
  rcases hscan.first with ⟨hzero, hcount⟩ | ⟨i, hi, haff, hpos, heq, hcount, hfirst⟩
  · rw [hzero, hcount]
    exact Or.inl rfl
  · rw [powSetSize_eq (by omega)] at hi
    have hspent : ∀ j, spent (select j p) = price (select j p) :=
      fun j => hexact.spent _ (select_sublist j p)
    have hprofit : ∀ j, price (select j p) ≤ money →
        curProfit m (select j p) = profit m (select j p) :=
      fun j => hexact.profit _ (select_sublist j p)
    simp only [Affordable, hsel, hspent] at haff heq hcount hfirst
    refine Or.inr ⟨i, hi, hpos, haff, (hprofit i haff).symm.trans heq, hcount, ?_⟩
    intro j hj hafford
    rw [← hprofit j hafford]
    exact hfirst j hj hafford

/-- The profit that `compute_profit` returns. -/
theorem computeProfit_optimum (hexact : Exact m p money) (hp : p.length ≤ 31) :
    0 ≤ (computeProfit m p money).1
      ∧ (∀ s : List Card, s.Sublist p → price s ≤ money →
          profit m s ≤ (computeProfit m p money).1)
      ∧ ((computeProfit m p money).1 = 0
        ∨ ∃ s : List Card, s.Sublist p ∧ price s ≤ money
          ∧ profit m s = (computeProfit m p money).1) := by
  obtain ⟨hnonneg, hbound, hbest⟩ := computeProfit_spec m money hp
  refine ⟨hnonneg, fun s hs hafford => ?_, ?_⟩
  · rw [← hexact.profit s hs hafford]
    exact hbound s hs (hexact.spent s hs ▸ hafford)
  · rcases hbest with hzero | ⟨s, hs, hafford, heq⟩
    · exact Or.inl hzero
    · rw [hexact.spent s hs] at hafford
      exact Or.inr ⟨s, hs, hafford, (hexact.profit s hs hafford).symm.trans heq⟩

/-! ## The slow path -/

/-- A subset that is affordable has only cards that are. -/
theorem sublist_kept {cards s : List Card} (hprice : ∀ c ∈ cards, 0 ≤ c.2)
    (hs : s.Sublist cards) (hspent : price s ≤ money) :
    s.Sublist (kept cards money) := by
  have hall : ∀ c ∈ s, c.2 ≤ money := fun c hc =>
    Int.le_trans (le_price (fun c hc => hprice c (hs.subset hc)) c hc) hspent
  have hself : kept s money = s :=
    List.filter_eq_self.2 fun c hc => decide_eq_true (hall c hc)
  have hfilter := hs.filter fun c => decide (c.2 ≤ money)
  rwa [show s.filter (fun c => decide (c.2 ≤ money)) = s from hself] at hfilter

/-- An offer is reported if and only if the market has every card of it. -/
theorem cardProfit_isSome_iff {cards : List Card} :
    (∃ r, cardProfit m money cards = some r)
      ↔ ∀ c ∈ cards, (m c.1).isSome = true := by
  have hgen : ∀ (cards : List Card) (st : Int × List Card),
      (∃ r, cards.foldlM (readCard m money) st = some r)
        ↔ ∀ c ∈ cards, (m c.1).isSome = true := by
    intro cards
    induction cards with
    | nil => simp
    | cons c cards ih =>
        intro st
        rw [List.foldlM_cons, readCard]
        cases hc : m c.1 with
        | none => simp [hc]
        | some price => simp [hc, ih]
  rw [← hgen cards (0, [])]
  constructor
  · rintro ⟨r, hr⟩
    obtain ⟨st, hread, _⟩ := Option.bind_eq_some_iff.1 hr
    exact ⟨st, hread⟩
  · rintro ⟨st, hread⟩
    exact ⟨_, Option.bind_eq_some_iff.2 ⟨st, hread, rfl⟩⟩

/-- Without money for every card `main` searches the cards it has kept. -/
theorem cardProfit_eq_computeProfit {cards : List Card} {r : Int × Int}
    (hprice : ∀ c ∈ cards, 0 ≤ c.2) (htotal : price cards ≤ CInt.max)
    (hmoney : money < price cards) (hr : cardProfit m money cards = some r) :
    r = computeProfit m (kept cards money) money := by
  simp only [cardProfit, Option.bind_eq_bind, Option.bind_eq_some_iff,
    Option.some.injEq] at hr
  obtain ⟨st, hread, rfl⟩ := hr
  have hspent := spent_of_sublist hprice htotal (List.Sublist.refl cards)
  rw [← hspent] at hmoney
  rw [readCards_kept hread, ← spent_eq_wrap, if_neg (Int.not_le.2 hmoney)]

/-- **The slow path is optimal.** `main` reports every offer whose cards the
market has. With less money than the cards cost together, at most 31 of
them affordable by themselves, and the prices and the profits of what is
affordable in the range of `int`, the profit is the greatest of 0 and the
profits of the affordable subsets of the whole offer, and the count is the
size of the first subset of the kept cards, in the order of the masks, that
has it, or 0. -/
theorem slowPath_optimum (m : Market) (cards : List Card) (totalMoney : Int)
    (hprice : ∀ c ∈ cards, 0 ≤ c.2)
    (hkept : (kept cards totalMoney).length ≤ 31)
    (htotal : price cards ≤ CInt.max)
    (hprofit : ∀ s : List Card, s.Sublist cards → price s ≤ totalMoney →
      CInt.InRange (profit m s))
    (hmoney : totalMoney < price cards) :
    ((∃ r, cardProfit m totalMoney cards = some r)
        ↔ ∀ c ∈ cards, (m c.1).isSome = true)
      ∧ ∀ r, cardProfit m totalMoney cards = some r →
        (0 ≤ r.1
          ∧ (∀ s : List Card, s.Sublist cards → price s ≤ totalMoney →
            profit m s ≤ r.1)
          ∧ (r.1 = 0 ∨ ∃ s : List Card, s.Sublist cards ∧ price s ≤ totalMoney
            ∧ profit m s = r.1))
        ∧ (r.1 = 0 → r.2 = 0)
        ∧ (r.1 ≠ 0 → ∃ i, FirstBest m (kept cards totalMoney) totalMoney r i) := by
  refine ⟨cardProfit_isSome_iff, fun r hr => ?_⟩
  have heq := cardProfit_eq_computeProfit hprice htotal hmoney hr
  have hexact : Exact m (kept cards totalMoney) totalMoney :=
    ⟨fun s hs => spent_of_sublist hprice htotal (hs.trans List.filter_sublist),
      fun s hs hafford => curProfit_of_inRange
        (hprofit s (hs.trans List.filter_sublist) hafford)⟩
  obtain ⟨hnonneg, hbound, hbest⟩ := computeProfit_optimum hexact hkept
  have hcount := computeProfit_count hexact hkept
  rw [← heq] at hnonneg hbound hbest hcount
  refine ⟨⟨hnonneg, fun s hs hspent => ?_, ?_⟩, fun hzero => ?_, fun hne => ?_⟩
  · exact hbound s (sublist_kept hprice hs hspent) hspent
  · rcases hbest with hzero | ⟨s, hs, hspent, hprofit⟩
    · exact Or.inl hzero
    · exact Or.inr ⟨s, hs.trans List.filter_sublist, hspent, hprofit⟩
  · rcases hcount with hnone | ⟨i, hi⟩
    · rw [hnone]
    · exact absurd hzero (Int.ne_of_gt hi.pos)
  · rcases hcount with hnone | hfirst
    · rw [hnone] at hne
      exact absurd rfl hne
    · exact hfirst

/-- Two cards, traded at 5 and at 9. -/
def twoCards : Market := fun card =>
  if card = "a" then some 5 else if card = "b" then some 9 else none

theorem slowPath_optimum_two :
    ((∃ r, cardProfit twoCards 4 [("a", 3), ("b", 4)] = some r)
        ↔ ∀ c ∈ [(("a", 3) : Card), ("b", 4)], (twoCards c.1).isSome = true)
      ∧ ∀ r, cardProfit twoCards 4 [("a", 3), ("b", 4)] = some r →
        (0 ≤ r.1
          ∧ (∀ s : List Card, s.Sublist [("a", 3), ("b", 4)] → price s ≤ 4 →
            profit twoCards s ≤ r.1)
          ∧ (r.1 = 0 ∨ ∃ s : List Card, s.Sublist [("a", 3), ("b", 4)]
            ∧ price s ≤ 4 ∧ profit twoCards s = r.1))
        ∧ (r.1 = 0 → r.2 = 0)
        ∧ (r.1 ≠ 0 → ∃ i, FirstBest twoCards (kept [("a", 3), ("b", 4)] 4) 4 r i) :=
  slowPath_optimum twoCards [("a", 3), ("b", 4)] 4 (by decide) (by decide)
    (by decide)
    (fun _ hs _ => profitsInRange_of_margins (by decide) (by decide) _ hs)
    (by decide)

/-! ## One card more -/

/-- From 32 cards on the size of the power set is 0, and nothing is
searched. -/
theorem computeProfit_of_long (m : Market) (money : Int) (hp : 32 ≤ p.length) :
    computeProfit m p money = (0, 0) := by
  have hzero : powSetSize p.length = 0 :=
    Nat.mod_eq_zero_of_dvd (Nat.pow_dvd_pow 2 hp)
  rw [computeProfit, hzero]
  rfl

/-- Up to 30 cards, every affordable subset is still there. -/
theorem computeProfit_mono_of_short (m : Market) (money : Int) (c : Card)
    (hp : p.length ≤ 30) :
    (computeProfit m p money).1 ≤ (computeProfit m (p ++ [c]) money).1 := by
  obtain ⟨_, _, hbest⟩ := computeProfit_spec m money (p := p) (by omega)
  obtain ⟨hnonneg, hbound, _⟩ := computeProfit_spec m money (p := p ++ [c])
    (by rw [List.length_append, List.length_singleton]; omega)
  rcases hbest with hzero | ⟨s, hs, hspent, hprofit⟩
  · rw [hzero]
    exact hnonneg
  · rw [← hprofit]
    exact hbound s (hs.trans (List.sublist_append_left p [c])) hspent

/-- **Monotonicity in the offer** holds if and only if the offer has not 31
cards, or none of its affordable subsets has a profit, where the `int`s
`spent` and `cur_profit` say what is affordable and what the profit is. -/
theorem computeProfit_mono_iff (m : Market) (p : List Card) (c : Card)
    (money : Int) :
    (computeProfit m p money).1 ≤ (computeProfit m (p ++ [c]) money).1
      ↔ p.length ≠ 31
        ∨ ∀ s : List Card, s.Sublist p → spent s ≤ money → curProfit m s ≤ 0 := by
  have hlen : (p ++ [c]).length = p.length + 1 := List.length_append
  rcases Nat.lt_trichotomy p.length 31 with hlt | heq | hgt
  · exact iff_of_true (computeProfit_mono_of_short m money c (by omega))
      (Or.inl (by omega))
  · have hwrap := computeProfit_of_long m money (p := p ++ [c]) (by omega)
    obtain ⟨_, hbound, hbest⟩ := computeProfit_spec m money (p := p) (by omega)
    rw [hwrap]
    constructor
    · intro hle
      exact Or.inr fun s hs hspent => Int.le_trans (hbound s hs hspent) hle
    · rintro (hne | hnone)
      · exact absurd heq hne
      · rcases hbest with hzero | ⟨s, hs, hspent, hprofit⟩
        · exact Int.le_of_eq hzero
        · rw [← hprofit]
          exact hnone s hs hspent
  · rw [computeProfit_of_long m money (p := p) (by omega),
      computeProfit_of_long m money (p := p ++ [c]) (by omega)]
    exact iff_of_true (Int.le_refl 0) (Or.inl (by omega))

/-- 31 cards of price 3 that are traded at 5, and one more. -/
theorem offer_of_32_loses :
    ¬(computeProfit oneCard (List.replicate 31 ("card", 3)) 3).1
      ≤ (computeProfit oneCard (List.replicate 31 ("card", 3) ++ [("card", 3)]) 3).1 := by
  have hsub : [("card", 3)].Sublist (List.replicate 31 (("card", 3) : Card)) :=
    List.singleton_sublist.2 (by decide)
  obtain ⟨_, hbound, _⟩ := computeProfit_spec oneCard 3
    (p := List.replicate 31 ("card", 3)) (by decide)
  have hle := hbound _ hsub (by decide)
  have hprofit : curProfit oneCard [("card", 3)] = 2 := by decide
  have hwrap := computeProfit_of_long oneCard 3
    (p := List.replicate 31 ("card", 3) ++ [("card", 3)]) (by decide)
  rw [hwrap, Int.not_le]
  rw [hprofit] at hle
  exact Int.lt_of_lt_of_le (by decide) hle

end SchoolStuff.CardTrading
