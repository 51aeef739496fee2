import SchoolStuff.Warehouse.Safety

/-!
# Warehouse — what the bench costs

The turns of the loop that were run so far tell how often each bin was
requested and how often a bin had to be fetched. The box table counts the
first, the empty slots and the cost follow from the second (`Tally`): the
first five fetches fill the bench, each later one replaces a bin.
-/

namespace SchoolStuff.Warehouse

/-! ## The history -/

/-- How often `bin` was requested. -/
def requests (past : List St) (bin : Int) : Nat :=
  past.countP fun st => st.bin = bin

/-- The bin of the next part is not on the bench. -/
def St.Away (st : St) : Prop := st.bin ∉ st.bench.slots

instance (st : St) : Decidable st.Away := by
  unfold St.Away
  exact inferInstance

/-- How often a bin had to be fetched. -/
def fetches (past : List St) : Nat := past.countP fun st => st.Away

/-- The parts that are still to be packed. -/
def St.remaining (st : St) : List Int :=
  if st.more then st.nextPart :: parts st.order else []

/-- What the bench and the box table know of the past, in a run on the
order `ps`. -/
structure Tally (ps : List Int) (past : List St) (st : St) : Prop where
  order : past.map St.nextPart ++ st.remaining = ps
  boxes : ∀ x, IsBin x → box st.boxes x = some (requests past x : Int)
  empty : st.bench.slots.count (-1) = NUMSLOTS - fetches past
  cost : st.bench.cost
    = 2 * fetches past + ((fetches past - NUMSLOTS : Nat) : Int)

variable {ps : List Int} {past : List St} {st : St} {b : Bench}
  {count : Int} {total : Nat}

theorem requests_snoc (past : List St) (st : St) (x : Int) :
    requests (past ++ [st]) x
      = requests past x + if st.bin = x then 1 else 0 := by
  simp [requests, List.countP_append, List.countP_singleton]

theorem fetches_snoc (past : List St) (st : St) :
    fetches (past ++ [st]) = fetches past + if st.Away then 1 else 0 := by
  simp [fetches, List.countP_append, List.countP_singleton]

theorem fnp_remaining (st : St) : st.fnp.remaining = parts st.order := by
  rw [St.fnp]
  cases hscan : scanInt st.order with
  | none => simp [St.remaining, parts_of_none hscan]
  | some r =>
      rw [parts_of_some hscan]
      rfl

/-- The box table with the request of this turn. -/
theorem box_packed {x : Int} (hst : IsBin st.bin) (hx : IsBin x)
    (hboxes : ∀ y, IsBin y → box st.boxes y = some (requests past y : Int))
    (hcount : box st.boxes st.bin = some count) :
    box (st.packed b count).boxes x
      = some (requests (past ++ [st]) x : Int) := by
  have hold := hboxes x hx
  rw [box, if_pos hx.1] at hold ⊢
  have hlt := (List.getElem?_eq_some_iff.mp hold).1
  rw [requests_snoc, St.packed, List.getElem?_set]
  by_cases heq : st.bin = x
  · have hat : box st.boxes st.bin = _ := hboxes st.bin hst
    rw [hcount, Option.some.injEq] at hat
    rw [heq] at hat ⊢
    simp [hlt, hat]
  · have hne : st.bin.toNat ≠ x.toNat := by
      have h₁ := hst.1
      have h₂ := hx.1
      omega
    simpa [hne, heq] using hold

/-! ## The bench -/

/-- A fetch into an empty slot takes one of these away, one into another
slot takes none; the costs differ by the bin that is returned. -/
theorem Brings.tally {boxes : List Int} {b' : Bench}
    (hb : Brings st.bench boxes st.bin b') (hbin : IsBin st.bin)
    (hempty : st.bench.slots.count (-1) = NUMSLOTS - fetches past)
    (hcost : st.bench.cost
      = 2 * fetches past + ((fetches past - NUMSLOTS : Nat) : Int)) :
    b'.slots.count (-1) = NUMSLOTS - fetches (past ++ [st])
      ∧ b'.cost = 2 * fetches (past ++ [st])
        + ((fetches (past ++ [st]) - NUMSLOTS : Nat) : Int) := by
  have hne : st.bin ≠ -1 := by
    have := hbin.1
    omega
  rw [fetches_snoc]
  cases hb with
  | there hin hb =>
      have haway : ¬ st.Away := not_not_intro hin
      subst hb
      rw [if_neg haway]
      exact ⟨hempty, hcost⟩
  | empty hin hk hold hb =>
      have haway : st.Away := hin
      have hlt := (List.getElem?_eq_some_iff.mp hold).1
      have hpos : 0 < st.bench.slots.count (-1) :=
        List.count_pos_iff.mpr (List.mem_of_getElem? hold)
      rw [List.getElem?_eq_getElem hlt, Option.some.injEq] at hold
      subst hb
      simp only [List.count_set hlt, hold, if_pos haway, beq_self_eq_true,
        if_true, beq_eq_false_iff_ne.mpr hne]
      simp only [NUMSLOTS] at hempty hcost ⊢
      simp
      omega
  | @full k old _ hin hfull hk hold _ _ hb =>
      have haway : st.Away := hin
      have hlt := (List.getElem?_eq_some_iff.mp hold).1
      have hzero : st.bench.slots.count (-1) = 0 :=
        List.count_eq_zero.mpr hfull
      have hold' : old ≠ -1 := fun heq =>
        hfull (List.mem_of_getElem? (heq ▸ hold))
      rw [List.getElem?_eq_getElem hlt, Option.some.injEq] at hold
      subst hb
      simp only [List.count_set hlt, hold, if_pos haway,
        beq_eq_false_iff_ne.mpr hne, beq_eq_false_iff_ne.mpr hold']
      simp only [NUMSLOTS] at hempty hcost ⊢
      simp
      omega

/-! ## A run -/

/-- **Step lemma**: a turn goes on with the tally. -/
theorem Tally.turn (h : Tally ps past st) (hinv : Inv total st)
    (hmore : st.more = true) {st' : St} (hturn : turn st = some st') :
    Tally ps (past ++ [st]) st' := by
  have hbin : IsBin st.bin := isBin_of_part (hinv.part hmore)
  obtain ⟨b, count, hcount, hcases, heq⟩ := hinv.turn_eq hmore
  rw [hturn, Option.some.injEq] at heq
  subst heq
  obtain ⟨hempty, hcost⟩ := hcases.tally hbin h.empty h.cost
  constructor
  · have horder := h.order
    rw [St.remaining, if_pos hmore] at horder
    rw [fnp_remaining, List.map_append, List.append_assoc]
    exact horder
  · intro x hx
    rw [fnp_boxes]
    exact box_packed hbin hx h.boxes hcount
  · rw [fnp_bench]
    exact hempty
  · rw [fnp_bench]
    exact hcost

theorem openOrder_tally {file : List Char} {st : St}
    (hopen : openOrder file = some st) : Tally (parts file) [] st := by
  rw [openOrder, Option.map_eq_some_iff] at hopen
  obtain ⟨r, hscan, rfl⟩ := hopen
  constructor
  · rw [parts_of_some hscan]
    rfl
  · intro x hx
    have h₁ := hx.1
    have h₂ := hx.2
    have hlt : x.toNat < 100 := by omega
    rw [box, if_pos h₁, List.getElem?_replicate_of_lt hlt]
    rfl
  · rfl
  · rfl

/-- **Run lemma**: the tally of a trace. -/
theorem tally_of_trace {st₀ : St} (hinv : Inv total st₀)
    (htally : Tally ps [] st₀) (ht : Loop.Trace St.more Warehouse.turn st₀ past st) :
    Inv total st ∧ Tally ps past st := by
  apply ht.invariant ⟨hinv, htally⟩
  intro pre s s' hs hmore hstep
  obtain ⟨s₁, hs₁, hinv₁, _⟩ := hs.1.turn hmore
  rw [hs₁, Option.some.injEq] at hstep
  exact hstep ▸ ⟨hinv₁, hs.2.turn hs.1 hmore hs₁⟩

/-- **The counts are `int`s** in an order of fewer than `2 ^ 31` parts. -/
theorem Tally.counts_inRange (h : Tally ps past st) (hinv : Inv ps.length st)
    (hps : ps.length < 2 ^ 31) :
    CInt.InRange st.bench.packed
      ∧ ∀ x count, IsBin x → box st.boxes x = some count →
        CInt.InRange count := by
  have hlen := congrArg List.length h.order
  rw [List.length_append, List.length_map] at hlen
  refine ⟨?_, fun x count hx hcount => ?_⟩
  · have hpacked : st.bench.packed + (st.left : Int) = ps.length := hinv.count
    have hleft : st.left = st.remaining.length := by
      rw [St.left, St.remaining]
      split
      · rw [List.length_cons, Nat.add_comm]
      · rfl
    rw [CInt.inRange_iff]
    omega
  · rw [h.boxes x hx, Option.some.injEq] at hcount
    have hle : requests past x ≤ past.length := List.countP_le_length
    rw [CInt.inRange_iff]
    omega

/-- On a full bench the slot of a least requested bin is given away. -/
theorem Tally.least (h : Tally ps past st) (hinv : Inv total st)
    (hmore : st.more = true) (haway : st.Away) (hfull : -1 ∉ st.bench.slots) :
    ∃ st' k old, Warehouse.turn st = some st' ∧ st.bench.slots[k]? = some old
      ∧ st'.bench.slots = st.bench.slots.set k st.bin
      ∧ ∀ x ∈ st.bench.slots,
        requests (past ++ [st]) old ≤ requests (past ++ [st]) x := by
  have hbin : IsBin st.bin := isBin_of_part (hinv.part hmore)
  obtain ⟨b, count, hcount, hcases, hturn⟩ := hinv.turn_eq hmore
  cases hcases with
  | there hin _ => exact absurd hin haway
  | empty _ _ hold _ => exact absurd (List.mem_of_getElem? hold) hfull
  | @full k old c _ _ _ hold hold' hmin hb =>
      refine ⟨_, k, old, hturn, hold, by rw [fnp_bench, hb]; rfl, ?_⟩
      -- the box table has the requests of all bins on the bench
      have hbox : ∀ x ∈ st.bench.slots,
          box (st.packed b count).boxes x
            = some (requests (past ++ [st]) x : Int) := by
        intro x hx
        rcases hinv.bench.bins x hx with rfl | hxbin
        · exact absurd hx hfull
        · exact box_packed hbin hxbin h.boxes hcount
      intro x hx
      have hle := hmin x hx _ (hbox x hx)
      rw [hbox old (List.mem_of_getElem? hold), Option.some.injEq] at hold'
      omega

/-- **Policy and cost.** On an order of part numbers below 1000, the loop
takes the parts of the file one after the other. When the bin of a part is
away and all slots are occupied, the slot that is given to it had a bin
that was requested least so far. At the end the cost, in quarters, is two
for each fetch and one more for each after the fifth. -/
theorem warehouse_cost (file : List Char) (hne : parts file ≠ [])
    (hrange : ∀ p ∈ parts file, 0 ≤ p ∧ p ≤ 999) :
    ∃ st₀ past st, openOrder file = some st₀
      ∧ (∀ fuel, (parts file).length ≤ fuel → runMain fuel file = some st)
      ∧ Loop.Trace St.more turn st₀ past st ∧ past.map St.nextPart = parts file
      ∧ (∀ pre t, Loop.Trace St.more turn st₀ pre t → t.more = true →
        t.Away → -1 ∉ t.bench.slots →
        ∃ t' k old, turn t = some t' ∧ t.bench.slots[k]? = some old
          ∧ t'.bench.slots = t.bench.slots.set k t.bin
          ∧ ∀ x ∈ t.bench.slots,
            requests (pre ++ [t]) old ≤ requests (pre ++ [t]) x)
      ∧ st.bench.cost
        = 2 * fetches past + max 0 ((fetches past : Int) - 5) := by
  obtain ⟨st₀, hopen, hinv, hleft⟩ := openOrder_inv rfl hne hrange
  obtain ⟨st, hrun, htops, _, hexit⟩ :=
    Loop.run_ends St.more turn (Inv (parts file).length) St.left
      (fun s hs hmore => hs.turn hmore) hinv (Nat.le_of_eq hleft)
  have htally := openOrder_tally hopen
  obtain ⟨past, hpast⟩ := htops.trace
  obtain ⟨_, hend⟩ := tally_of_trace hinv htally hpast
  refine ⟨st₀, past, st, hopen, ?_, hpast, ?_, ?_, ?_⟩
  · intro fuel hfuel
    rw [runMain, hopen]
    exact hrun fuel hfuel
  · have horder := hend.order
    rwa [St.remaining, hexit, if_neg Bool.false_ne_true, List.append_nil]
      at horder
  · intro pre t ht hmore haway hfull
    obtain ⟨hinvt, htallyt⟩ := tally_of_trace hinv htally ht
    exact htallyt.least hinvt hmore haway hfull
  · rw [hend.cost]
    simp only [NUMSLOTS]
    omega

/-- Six bins for five slots, and the first one again. -/
theorem warehouse_cost_seven :
    ∃ st₀ past st, openOrder "1 12 23 34 45 56 1".toList = some st₀
      ∧ runMain 7 "1 12 23 34 45 56 1".toList = some st
      ∧ Loop.Trace St.more turn st₀ past st
      ∧ past.map St.nextPart = [1, 12, 23, 34, 45, 56, 1]
      ∧ st.bench.cost
        = 2 * fetches past + max 0 ((fetches past : Int) - 5) := by
  obtain ⟨st₀, past, st, hopen, hrun, hpast, hparts, _, hcost⟩ :=
    warehouse_cost "1 12 23 34 45 56 1".toList (by decide) (by decide)
  exact ⟨st₀, past, st, hopen, hrun 7 (by decide), hpast,
    hparts.trans (by decide), hcost⟩

end SchoolStuff.Warehouse
