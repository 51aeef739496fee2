import SchoolStuff.CardTrading.Basic

/-!
# CardTrading — the search over the subsets and the fast path

After each mask the loop of `compute_profit` holds the best profit so far
and the first subset that has it (`Scanned`). With money for every card the
best profit is the sum of the margins that are not negative, while the
fast path of `main` adds up all of them.
-/

namespace SchoolStuff.CardTrading

open Subsets (select exists_select select_sublist)

variable {m : Market} {p : List Card} {money : Int}

theorem subset_eq_select (i : Nat) (hp : p.length ≤ 32) :
    subset i p = select i p := by
  have hmod : (p.zipIdx.filter fun cj => i.testBit (cj.2 % 32))
      = p.zipIdx.filter fun cj => i.testBit cj.2 := by
    apply List.filter_congr
    intro cj hmem
    have hlt := List.snd_lt_of_mem_zipIdx hmem
    rw [Nat.mod_eq_of_lt (by omega)]
  rw [subset, hmod, Subsets.map_filter_zipIdx, Nat.pow_zero, Nat.div_one]

theorem powSetSize_eq {n : Nat} (hn : n < 32) : powSetSize n = 2 ^ n :=
  Nat.mod_eq_of_lt (Nat.pow_lt_pow_right (by decide) hn)

/-- The subset of mask `i` is affordable. -/
def Affordable (p : List Card) (money : Int) (i : Nat) : Prop :=
  spent (subset i p) ≤ money

/-- The loop variables after the masks below `k`. -/
structure Scanned (m : Market) (p : List Card) (money : Int) (k : Nat)
    (b : Best) : Prop where
  ret : b.ret = (b.maxProfit, b.cardsBought)
  bound : ∀ i, i < k → Affordable p money i →
    curProfit m (subset i p) ≤ b.maxProfit
  first : (b.maxProfit = 0 ∧ b.cardsBought = 0)
    ∨ ∃ i, i < k ∧ Affordable p money i ∧ 0 < b.maxProfit
      ∧ curProfit m (subset i p) = b.maxProfit
      ∧ ((subset i p).length : Int) = b.cardsBought
      ∧ ∀ j, j < i → Affordable p money j →
          curProfit m (subset j p) < b.maxProfit

theorem Scanned.nonneg {k : Nat} {b : Best} (h : Scanned m p money k b) :
    0 ≤ b.maxProfit := by
  rcases h.first with ⟨h0, _⟩ | ⟨_, _, _, hpos, _⟩
  · exact Int.le_of_eq h0.symm
  · exact Int.le_of_lt hpos

/-- **Step lemma**: one mask. -/
theorem Scanned.turn {k : Nat} {b : Best} (h : Scanned m p money k b) :
    Scanned m p money (k + 1) (b.turn m p money k) := by
  rw [Best.turn]
  split
  · -- the mask is better than all before it
    rename_i hbetter
    refine ⟨rfl, ?_, Or.inr ⟨k, Nat.lt_succ_self k, hbetter.2,
      Int.lt_of_le_of_lt h.nonneg hbetter.1, rfl, rfl, ?_⟩⟩
    · intro i hi haff
      rcases Nat.lt_succ_iff_lt_or_eq.mp hi with hlt | rfl
      · exact Int.le_trans (h.bound i hlt haff) (Int.le_of_lt hbetter.1)
      · exact Int.le_refl _
    · intro j hj haff
      exact Int.lt_of_le_of_lt (h.bound j hj haff) hbetter.1
  · rename_i hnot
    refine ⟨h.ret, ?_, ?_⟩
    · intro i hi haff
      rcases Nat.lt_succ_iff_lt_or_eq.mp hi with hlt | rfl
      · exact h.bound i hlt haff
      · exact Int.not_lt.mp fun hlt => hnot ⟨hlt, haff⟩
    · rcases h.first with h0 | ⟨i, hi, hrest⟩
      · exact Or.inl h0
      · exact Or.inr ⟨i, Nat.lt_succ_of_lt hi, hrest⟩

/-- **Run lemma**: all masks below `k`. -/
theorem scanned_foldl (m : Market) (p : List Card) (money : Int) (k : Nat) :
    Scanned m p money k
      ((List.range k).foldl (Best.turn m p money) ⟨0, 0, (0, 0)⟩) := by
  induction k with
  | zero =>
      exact ⟨rfl, fun i hi => absurd hi (Nat.not_lt_zero i), Or.inl ⟨rfl, rfl⟩⟩
  | succ k ih =>
      rw [List.range_succ, List.foldl_append]
      exact ih.turn

/-- What `compute_profit` returns: no affordable sublist of the cards has
more profit, and the profit is zero or that of an affordable sublist. -/
theorem computeProfit_spec (m : Market) (money : Int)
    (hp : p.length ≤ 31) :
    0 ≤ (computeProfit m p money).1
      ∧ (∀ s : List Card, s.Sublist p → spent s ≤ money →
          curProfit m s ≤ (computeProfit m p money).1)
      ∧ ((computeProfit m p money).1 = 0
        ∨ ∃ s : List Card, s.Sublist p ∧ spent s ≤ money
          ∧ curProfit m s = (computeProfit m p money).1) := by
  have hscan := scanned_foldl m p money (powSetSize p.length)
  have hsel : ∀ i, subset i p = select i p :=
    fun i => subset_eq_select i (by omega)
  rw [computeProfit, hscan.ret]
  refine ⟨hscan.nonneg, ?_, ?_⟩
  · intro s hs hspent
    obtain ⟨i, hi, rfl⟩ := exists_select hs
    rw [← hsel i] at hspent ⊢
    exact hscan.bound i (by rw [powSetSize_eq (by omega)]; exact hi) hspent
  · rcases hscan.first with ⟨h0, _⟩ | ⟨i, _, haff, _, heq, _⟩
    · exact Or.inl h0
    · exact Or.inr ⟨subset i p, hsel i ▸ select_sublist i p, haff, heq⟩

/-! ## The fast path -/

theorem buyAll_eq (m : Market) (p : List Card) :
    buyAll m p = (curProfit m p, (p.length : Int)) := by
  have hgen : ∀ (p : List Card) (a b : Int),
      p.foldl (fun st c => (CInt.wrap (st.1 + margin m c), st.2 + 1)) (a, b)
        = (p.foldl (fun profit c => CInt.wrap (profit + margin m c)) a,
          b + (p.length : Int)) := by
    intro p
    induction p with
    | nil => simp
    | cons c p ih =>
        intro a b
        rw [List.foldl_cons, ih, List.foldl_cons, List.length_cons]
        refine Prod.ext rfl ?_
        show b + 1 + _ = _
        push_cast
        omega
  rw [buyAll, hgen, Int.zero_add, curProfit]

/-- The cards that are affordable by themselves. -/
def kept (cards : List Card) (money : Int) : List Card :=
  cards.filter fun c => decide (c.2 ≤ money)

/-- What the loop over the offered cards leaves. -/
theorem readCards_kept {cards : List Card} {r : Int × List Card}
    (hread : readCards m money cards = some r) :
    r = (CInt.wrap (price cards), kept cards money) := by
  have hgen : ∀ (cards : List Card) (st r : Int × List Card),
      cards.foldlM (readCard m money) st = some r →
      r = (cards.foldl (fun total c => CInt.wrap (total + c.2)) st.1,
        st.2 ++ kept cards money) := by
    intro cards
    induction cards with
    | nil =>
        intro st r hrun
        simpa [kept, eq_comm] using hrun
    | cons c cards ih =>
        intro st r hrun
        rw [List.foldlM_cons, Option.bind_eq_bind,
          Option.bind_eq_some_iff] at hrun
        obtain ⟨st', hst', hrun⟩ := hrun
        rw [readCard] at hst'
        split at hst'
        · exact absurd hst' (by simp)
        · rw [Option.some.injEq] at hst'
          subst hst'
          rw [ih _ r hrun, kept, kept, List.filter_cons]
          refine Prod.ext rfl ?_
          by_cases hle : c.2 ≤ money
          · simp [hle]
          · simp [hle]
  have hrun := hgen cards (0, []) r hread
  rwa [List.nil_append, ← spent, spent_eq_wrap] at hrun

/-- Cards that are all affordable are all kept. -/
theorem readCards_eq {cards : List Card} {r : Int × List Card}
    (hread : readCards m money cards = some r)
    (hafford : ∀ c ∈ cards, c.2 ≤ money) :
    r = (CInt.wrap (price cards), cards) := by
  have hall : kept cards money = cards :=
    List.filter_eq_self.2 fun c hc => decide_eq_true (hafford c hc)
  rw [readCards_kept hread, hall]

/-- A price is at most the sum of all of them. -/
theorem le_price {cards : List Card} (hprice : ∀ c ∈ cards, 0 ≤ c.2) :
    ∀ c ∈ cards, c.2 ≤ price cards := by
  intro c hc
  have hsub : [c].Sublist cards := List.singleton_sublist.mpr hc
  have hle := Subsets.sum_le_of_sublist (f := Prod.snd) hsub hprice
  simpa [price] using hle

/-- With money for every card `main` takes the fast path, with all cards. -/
theorem cardProfit_eq_buyAll {r : Int × Int} (hprice : ∀ c ∈ p, 0 ≤ c.2)
    (hint : money ≤ CInt.max) (hmoney : price p ≤ money)
    (hr : cardProfit m money p = some r) : r = buyAll m p := by
  simp only [cardProfit, Option.bind_eq_bind, Option.bind_eq_some_iff,
    Option.some.injEq] at hr
  obtain ⟨st, hread, rfl⟩ := hr
  have hst : st = (spent p, p) := by
    rw [spent_eq_wrap]
    apply readCards_eq hread
    intro c hc
    exact Int.le_trans (le_price hprice c hc) hmoney
  have htotal := spent_of_sublist hprice (Int.le_trans hmoney hint)
    (List.Sublist.refl p)
  rw [hst, if_pos (htotal ▸ hmoney)]

theorem profit_middle (m : Market) (s t : List Card) (c : Card) :
    profit m (s ++ c :: t) = profit m (s ++ t) + (m.at c.1 - c.2) := by
  simp only [profit, List.map_append, List.map_cons, List.sum_append,
    List.sum_cons]
  omega

/-- No profit of a subset of the cards leaves `int`. -/
def ProfitsInRange (m : Market) (p : List Card) : Prop :=
  ∀ s : List Card, s.Sublist p → CInt.InRange (profit m s)

/-- Without a loss in the offer, the profit of all cards is the greatest. -/
theorem profitsInRange_of_margins (hmargin : ∀ c ∈ p, c.2 ≤ m.at c.1)
    (htotal : profit m p ≤ CInt.max) : ProfitsInRange m p := by
  intro s hs
  have hgain : ∀ c ∈ p, 0 ≤ m.at c.1 - c.2 := fun c hc =>
    Int.sub_nonneg.2 (hmargin c hc)
  have hnonneg : 0 ≤ profit m s := Subsets.sum_le_of_sublist (List.nil_sublist s)
    fun c hc => hgain c (hs.subset hc)
  have hle : profit m s ≤ profit m p := Subsets.sum_le_of_sublist hs hgain
  rw [CInt.inRange_iff]
  rw [CInt.max] at htotal
  omega

/-- The search finds nothing better than all cards exactly if no card loses
money. -/
theorem computeProfit_eq_all_iff (hlen : p.length ≤ 31)
    (hprice : ∀ c ∈ p, 0 ≤ c.2) (hint : money ≤ CInt.max)
    (hmoney : price p ≤ money) (hrange : ProfitsInRange m p) :
    curProfit m p = (computeProfit m p money).1
      ↔ ∀ c ∈ p, c.2 ≤ m.at c.1 := by
  obtain ⟨_, hbound, hbest⟩ := computeProfit_spec m money hlen
  have hafford : ∀ s : List Card, s.Sublist p → spent s ≤ money := by
    intro s hs
    rw [spent_of_sublist hprice (Int.le_trans hmoney hint) hs]
    exact Int.le_trans (Subsets.sum_le_of_sublist hs hprice) hmoney
  have hexact : ∀ s : List Card, s.Sublist p → curProfit m s = profit m s :=
    fun s hs => curProfit_of_inRange (hrange s hs)
  have hself := List.Sublist.refl p
  constructor
  · intro heq c hc
    by_contra hneg
    -- without this card the profit is higher
    obtain ⟨s, t, rfl⟩ := List.append_of_mem hc
    have hsub : (s ++ t).Sublist (s ++ c :: t) :=
      (List.sublist_cons_self c t).append_left s
    have hle := hbound _ hsub (hafford _ hsub)
    rw [← heq, hexact _ hsub, hexact _ hself, profit_middle] at hle
    omega
  · intro hmargin
    have hgain : ∀ c ∈ p, 0 ≤ m.at c.1 - c.2 := fun c hc =>
      Int.sub_nonneg.2 (hmargin c hc)
    apply Int.le_antisymm (hbound p hself (hafford p hself))
    rw [hexact p hself]
    cases hbest with
    | inl h0 =>
        rw [h0]
        exact Subsets.sum_le_of_sublist (List.nil_sublist p) hgain
    | inr hbest =>
        obtain ⟨s, hs, _, heq⟩ := hbest
        rw [← heq, hexact s hs]
        exact Subsets.sum_le_of_sublist hs hgain

/-- **The fast path against the search.** With money for every offered
card, `main` buys all of them. No profit overflows and `compute_profit`
would return the same profit, if and only if no card is offered above its
market price and the profit of all cards is an `int`. -/
theorem buyAll_eq_computeProfit_iff (m : Market) (p : List Card)
    (hlen : p.length ≤ 31) (hprice : ∀ c ∈ p, 0 ≤ c.2) (totalMoney : Int)
    (hint : totalMoney ≤ CInt.max) (hmoney : price p ≤ totalMoney) :
    (∀ r, cardProfit m totalMoney p = some r → r = buyAll m p)
      ∧ (ProfitsInRange m p
          ∧ (buyAll m p).1 = (computeProfit m p totalMoney).1
        ↔ (∀ c ∈ p, c.2 ≤ m.at c.1) ∧ profit m p ≤ CInt.max) := by
  constructor
  · intro r hr
    exact cardProfit_eq_buyAll hprice hint hmoney hr
  · rw [buyAll_eq]
    constructor
    · rintro ⟨hrange, heq⟩
      exact ⟨(computeProfit_eq_all_iff hlen hprice hint hmoney hrange).1 heq,
        (hrange p (List.Sublist.refl p)).2⟩
    · rintro ⟨hmargin, htotal⟩
      have hrange := profitsInRange_of_margins hmargin htotal
      exact ⟨hrange,
        (computeProfit_eq_all_iff hlen hprice hint hmoney hrange).2 hmargin⟩

/-- One card, traded at 5. -/
def oneCard : Market := fun card => if card = "card" then some 5 else none

theorem buyAll_eq_computeProfit_iff_one :
    (∀ r, cardProfit oneCard 10 [("card", 3)] = some r →
        r = buyAll oneCard [("card", 3)])
      ∧ (ProfitsInRange oneCard [("card", 3)]
          ∧ (buyAll oneCard [("card", 3)]).1
            = (computeProfit oneCard [("card", 3)] 10).1
        ↔ (∀ c ∈ [(("card", 3) : Card)], c.2 ≤ oneCard.at c.1)
          ∧ profit oneCard [("card", 3)] ≤ CInt.max) :=
  buyAll_eq_computeProfit_iff oneCard [("card", 3)] (by decide) (by decide) 10
    (by decide) (by decide)

/-- A card offered at 8 is bought for a loss. -/
theorem buyAll_loses :
    cardProfit oneCard 10 [("card", 8)] = some (-3, 1)
      ∧ computeProfit oneCard [("card", 8)] 10 = (0, 0) := by
  decide

/-- Two cards for nothing whose profit together is no `int`. -/
example :
    buyAll (fun _ => some CInt.max) [("a", 0), ("a", 0)] = (-2, 2)
      ∧ computeProfit (fun _ => some CInt.max) [("a", 0), ("a", 0)] 0
        = (CInt.max, 1) := by
  decide

end SchoolStuff.CardTrading
