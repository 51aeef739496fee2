import Mathlib.Data.Nat.Notation
import SchoolStuff.Lib.CInt
import SchoolStuff.Lib.Subsets

/-!
# CardTrading — buying and reselling cards (`cs375/prog1/prog1.cpp`)

An offer is a list of cards with their prices, the market map gives the
price a card is resold at. Sums of prices and profits are `int`s of 32 bits,
which wrap around where the source leaves an overflow undefined; the mask
and the size of the power set have their width too. A number of cards is at
most the `int` that counts the offer.
-/

namespace SchoolStuff.CardTrading

/-- `pair<string,int>`: a card and its price. -/
abbrev Card := String × Int

/-- `unordered_map<string,int>`: the market price of the cards it has. -/
abbrev Market := String → Option Int

/-- `m[name]`, which is 0 for a card the map does not have. -/
def Market.at (m : Market) (name : String) : Int := (m name).getD 0

/-! ## `compute_profit` -/

/-- `unsigned int pow_set_size = pow(2, p.size())`. -/
def powSetSize (n : Nat) : Nat := 2 ^ n % 2 ^ 32

/-- The cards `j` with `i & (1<<j)`; the shift count is taken modulo 32. -/
def subset (i : Nat) (p : List Card) : List Card :=
  (p.zipIdx.filter fun cj => i.testBit (cj.2 % 32)).map Prod.fst

/-- The profit of a card: its market price less its price. -/
def margin (m : Market) (c : Card) : Int := CInt.wrap (m.at c.1 - c.2)

/-- `cur_profit` after the cards of a subset. -/
def curProfit (m : Market) (s : List Card) : Int :=
  s.foldl (fun profit c => CInt.wrap (profit + margin m c)) 0

/-- `spent` after the cards of a subset. -/
def spent (s : List Card) : Int :=
  s.foldl (fun spent c => CInt.wrap (spent + c.2)) 0

/-- The local variables of the loop over the masks. -/
structure Best where
  maxProfit : Int
  cardsBought : Int
  ret : Int × Int
  deriving DecidableEq, Repr

/-- One turn of that loop. -/
def Best.turn (m : Market) (p : List Card) (money : Int) (b : Best) (i : Nat) :
    Best :=
  let s := subset i p
  if b.maxProfit < curProfit m s ∧ spent s ≤ money then
    { maxProfit := curProfit m s
      cardsBought := s.length
      ret := (curProfit m s, s.length) }
  else b

/-- `compute_profit`. -/
def computeProfit (m : Market) (p : List Card) (money : Int) : Int × Int :=
  ((List.range (powSetSize p.length)).foldl (Best.turn m p money)
    ⟨0, 0, (0, 0)⟩).ret

/-! ## One offer in `main` -/

/-- One card of the offer: the total price of all cards, and the cards that
are affordable by themselves. A card without market price ends the
program. -/
def readCard (m : Market) (totalMoney : Int) (st : Int × List Card)
    (c : Card) : Option (Int × List Card) :=
  if (m c.1).isNone then none
  else some (CInt.wrap (st.1 + c.2),
    if c.2 ≤ totalMoney then st.2 ++ [c] else st.2)

def readCards (m : Market) (totalMoney : Int) (cards : List Card) :
    Option (Int × List Card) :=
  cards.foldlM (readCard m totalMoney) (0, [])

/-- The branch that buys every card. -/
def buyAll (m : Market) (p : List Card) : Int × Int :=
  p.foldl (fun st c => (CInt.wrap (st.1 + margin m c), st.2 + 1)) (0, 0)

/-- `card_profit` of one offer. -/
def cardProfit (m : Market) (totalMoney : Int) (cards : List Card) :
    Option (Int × Int) := do
  let (totalCardPrice, p) ← readCards m totalMoney cards
  some (if totalCardPrice ≤ totalMoney then buyAll m p
    else computeProfit m p totalMoney)

/-! ## The sums without a width -/

/-- The market prices of the cards less their prices. -/
def profit (m : Market) (s : List Card) : Int :=
  (s.map fun c => m.at c.1 - c.2).sum

/-- The prices of the cards. -/
def price (s : List Card) : Int := (s.map Prod.snd).sum

theorem curProfit_eq_wrap (m : Market) (s : List Card) :
    curProfit m s = CInt.wrap (profit m s) := by
  simp only [curProfit, margin, CInt.wrap_add_wrap_right]
  rw [show (0 : Int) = CInt.wrap 0 from rfl, CInt.foldl_wrap, Int.zero_add, profit]

theorem spent_eq_wrap (s : List Card) : spent s = CInt.wrap (price s) := by
  rw [spent, show (0 : Int) = CInt.wrap 0 from rfl, CInt.foldl_wrap, Int.zero_add,
    price]

theorem curProfit_of_inRange {m : Market} {s : List Card}
    (h : CInt.InRange (profit m s)) : curProfit m s = profit m s := by
  rw [curProfit_eq_wrap, CInt.wrap_of_inRange h]

/-- Prices that are not negative add up to the sum they have, if all of
them together do. -/
theorem spent_of_sublist {s cards : List Card} (hprice : ∀ c ∈ cards, 0 ≤ c.2)
    (htotal : price cards ≤ CInt.max) (hs : s.Sublist cards) :
    spent s = price s := by
  have hnonneg : 0 ≤ price s :=
    Subsets.sum_le_of_sublist (List.nil_sublist s) fun c hc => hprice c (hs.subset hc)
  have hle : price s ≤ price cards := Subsets.sum_le_of_sublist hs hprice
  rw [spent_eq_wrap]
  apply CInt.wrap_of_inRange
  rw [CInt.inRange_iff]
  rw [CInt.max] at htotal
  omega

end SchoolStuff.CardTrading
