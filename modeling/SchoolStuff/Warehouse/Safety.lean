import SchoolStuff.Warehouse.Basic

/-!
# Warehouse — every part of the order is packed

`BenchOk` says that the occupied slots hold different bins, all of them bins
of the box table. Each way of bringing a bin keeps it and leaves the bin on
the bench (`Brings.benchOk`), so `getWidget` never fails, and what has been
packed and what is still in the order file add up (`Inv`).
-/

namespace SchoolStuff.Warehouse

/-! ## The part numbers of an order file -/

/-- What `fscanf` reads from a file, at most `fuel` numbers. -/
def partsFrom : Nat → List Char → List Int
  | 0, _ => []
  | fuel + 1, cs =>
      match scanInt cs with
      | some (part, rest) => part :: partsFrom fuel rest
      | none => []

/-- The part numbers of an order file. -/
def parts (file : List Char) : List Int := partsFrom file.length file

theorem digits_length (n : Nat) (cs : List Char) :
    (digits n cs).2.length ≤ cs.length := by
  induction cs generalizing n with
  | nil => exact Nat.le_refl 0
  | cons c cs ih =>
      rw [digits]
      split
      · exact Nat.le_succ_of_le (ih _)
      · exact Nat.le_refl _

theorem scanDigits_length {sign : Int} {cs rest : List Char} {part : Int}
    (h : scanDigits sign cs = some (part, rest)) : rest.length < cs.length := by
  rw [scanDigits] at h
  split at h
  · rename_i hdigit
    cases cs with
    | nil => simp at hdigit
    | cons c cs =>
        have hc : c.isDigit = true := by simpa using hdigit
        rw [Option.some.injEq, Prod.mk.injEq, digits, if_pos hc] at h
        rw [← h.2]
        exact Nat.lt_succ_of_le (digits_length _ cs)
  · exact absurd h (by simp)

/-- **A number that is read takes characters from the file.** -/
theorem scanInt_length {cs rest : List Char} {part : Int}
    (h : scanInt cs = some (part, rest)) : rest.length < cs.length := by
  have hdrop : (cs.dropWhile isSpace).length ≤ cs.length :=
    (List.dropWhile_sublist _).length_le
  rw [scanInt] at h
  split at h
  · rename_i cs' heq
    have := scanDigits_length h
    rw [heq, List.length_cons] at hdrop
    omega
  · rename_i cs' heq
    have := scanDigits_length h
    rw [heq, List.length_cons] at hdrop
    omega
  · have := scanDigits_length h
    omega

/-- As many characters as there are is fuel enough. -/
theorem partsFrom_fuel : ∀ (fuel fuel' : Nat) (cs : List Char),
    cs.length ≤ fuel → cs.length ≤ fuel' →
      partsFrom fuel cs = partsFrom fuel' cs := by
  intro fuel
  induction fuel with
  | zero =>
      intro fuel' cs hcs _
      obtain rfl := List.length_eq_zero_iff.mp (Nat.le_zero.mp hcs)
      cases fuel' <;> rfl
  | succ fuel ih =>
      intro fuel' cs hcs hcs'
      cases fuel' with
      | zero =>
          obtain rfl := List.length_eq_zero_iff.mp (Nat.le_zero.mp hcs')
          rfl
      | succ fuel' =>
          rw [partsFrom, partsFrom]
          cases hscan : scanInt cs with
          | none => rfl
          | some r =>
              have hlt := scanInt_length hscan
              exact congrArg (r.1 :: ·) (ih fuel' r.2 (by omega) (by omega))

theorem parts_of_none {cs : List Char} (h : scanInt cs = none) :
    parts cs = [] := by
  rw [parts]
  cases cs.length with
  | zero => rfl
  | succ n => rw [partsFrom, h]

theorem parts_of_some {cs rest : List Char} {part : Int}
    (h : scanInt cs = some (part, rest)) : parts cs = part :: parts rest := by
  have hlt := scanInt_length h
  obtain ⟨n, hn⟩ : ∃ n, cs.length = n + 1 := ⟨cs.length - 1, by omega⟩
  rw [parts, hn, partsFrom, h]
  exact congrArg (part :: ·)
    (partsFrom_fuel n rest.length rest (by omega) (Nat.le_refl _))

/-! ## The bench -/

/-- The bin of the part that is next. -/
def St.bin (st : St) : Int := st.nextPart.tdiv 10

/-- Bins have the numbers below 100. -/
def IsBin (bin : Int) : Prop := 0 ≤ bin ∧ bin < 100

/-- The occupied slots hold different bins. -/
def Distinct (slots : List Int) : Prop :=
  ∀ (i j : Nat) (x : Int), i ≠ j → slots[i]? = some x →
    slots[j]? = some x → x = -1

structure BenchOk (b : Bench) : Prop where
  length : b.slots.length = NUMSLOTS
  bins : ∀ x ∈ b.slots, x = -1 ∨ IsBin x
  distinct : Distinct b.slots

variable {b : Bench} {bin : Int} {boxes : List Int}

theorem Distinct.set {slots : List Int} (h : Distinct slots)
    (hbin : bin ∉ slots) (k : Nat) : Distinct (slots.set k bin) := by
  intro i j x hij hi hj
  rw [List.getElem?_set] at hi hj
  by_cases hki : k = i <;> by_cases hkj : k = j
  · exact absurd (hki.symm.trans hkj) hij
  · simp only [hki, if_true, if_neg (hki ▸ hkj)] at hi hj
    split at hi
    · rw [Option.some.injEq] at hi
      exact absurd (List.mem_of_getElem? (hi ▸ hj)) hbin
    · exact absurd hi (by simp)
  · simp only [hkj, if_true, if_neg (hkj ▸ hki)] at hi hj
    split at hj
    · rw [Option.some.injEq] at hj
      exact absurd (List.mem_of_getElem? (hj ▸ hi)) hbin
    · exact absurd hj (by simp)
  · rw [if_neg hki] at hi
    rw [if_neg hkj] at hj
    exact h i j x hij hi hj

theorem fetchBin_eq (h : BenchOk b) (bin : Int) {k : Nat} (hk : k < NUMSLOTS) :
    b.fetchBin bin k = some { b with
      slots := b.slots.set k bin
      cost := b.cost + (if b.slots[k]? ≠ some (-1) then 1 else 0) + 2 } := by
  have hlt : k < b.slots.length := h.length.symm ▸ hk
  have hslot : b.slot k = some b.slots[k] := by
    rw [Bench.slot, if_pos (Int.natCast_nonneg k), Int.toNat_natCast,
      List.getElem?_eq_getElem hlt]
  have hguard : ((k : Int) < NUMSLOTS) := Int.ofNat_lt.mpr hk
  simp [Bench.fetchBin, hguard, guard, hslot, hlt]

/-- **A fetched bin** is on the bench, and no other slot holds it. -/
theorem BenchOk.set (h : BenchOk b) (hbin : IsBin bin)
    (hnot : bin ∉ b.slots) {k : Nat} (hk : k < NUMSLOTS) (cost : Int) :
    BenchOk { b with slots := b.slots.set k bin, cost := cost }
      ∧ bin ∈ b.slots.set k bin := by
  have hlt : k < b.slots.length := h.length.symm ▸ hk
  constructor
  · constructor
    · simpa using h.length
    · intro x hx
      rcases List.mem_or_eq_of_mem_set hx with hx | rfl
      · exact h.bins x hx
      · exact Or.inr hbin
    · exact h.distinct.set hnot k
  · exact List.mem_iff_getElem?.mpr ⟨k, by simp [hlt]⟩

theorem BenchOk.slots_eq (h : BenchOk b) :
    ∃ s₀ s₁ s₂ s₃ s₄, b.slots = [s₀, s₁, s₂, s₃, s₄] := by
  obtain ⟨slots, cost, packed⟩ := b
  have hlen : slots.length = 5 := h.length
  match slots, hlen with
  | [s₀, s₁, s₂, s₃, s₄], _ => exact ⟨s₀, s₁, s₂, s₃, s₄, rfl⟩

/-! ## Bringing a bin -/

section Slots

variable {s₀ s₁ s₂ s₃ s₄ : Int}

theorem binInSlot_eq (hs : b.slots = [s₀, s₁, s₂, s₃, s₄]) :
    b.binInSlot 0 = some s₀ ∧ b.binInSlot 1 = some s₁
      ∧ b.binInSlot 2 = some s₂ ∧ b.binInSlot 3 = some s₃
      ∧ b.binInSlot 4 = some s₄ := by
  simp [Bench.binInSlot, Bench.slot, hs, NUMSLOTS, guard]

theorem fullBench_eq (hs : b.slots = [s₀, s₁, s₂, s₃, s₄]) :
    fullBench b = some (decide (-1 ∉ b.slots)) := by
  obtain ⟨h₀, h₁, h₂, h₃, h₄⟩ := binInSlot_eq hs
  simp only [fullBench, h₀, h₁, h₂, h₃, h₄, hs]
  simp [bne, beq_eq_decide, eq_comm, Bool.and_assoc]

theorem binInBench_eq (hs : b.slots = [s₀, s₁, s₂, s₃, s₄]) (bin : Int) :
    binInBench b bin = some (decide (bin ∈ b.slots)) := by
  obtain ⟨h₀, h₁, h₂, h₃, h₄⟩ := binInSlot_eq hs
  simp only [binInBench, h₀, h₁, h₂, h₃, h₄, hs]
  simp [beq_eq_decide, eq_comm, Bool.or_assoc]

/-- A bench that is not full has an empty slot for the bin. -/
theorem fillEmpty_eq (hs : b.slots = [s₀, s₁, s₂, s₃, s₄])
    (hempty : -1 ∈ b.slots) (bin : Int) :
    ∃ k : Nat, k < NUMSLOTS ∧ b.slots[k]? = some (-1)
      ∧ fillEmpty b bin = b.fetchBin bin k := by
  obtain ⟨h₀, h₁, h₂, h₃, h₄⟩ := binInSlot_eq hs
  simp only [fillEmpty, h₀, h₁, h₂, h₃, h₄, Option.bind_eq_bind,
    Option.bind_some]
  by_cases e₀ : s₀ = -1
  · exact ⟨0, by decide, by simp [hs, e₀], if_pos e₀⟩
  · rw [if_neg e₀]
    by_cases e₁ : s₁ = -1
    · exact ⟨1, by decide, by simp [hs, e₁], if_pos e₁⟩
    · rw [if_neg e₁]
      by_cases e₂ : s₂ = -1
      · exact ⟨2, by decide, by simp [hs, e₂], if_pos e₂⟩
      · rw [if_neg e₂]
        by_cases e₃ : s₃ = -1
        · exact ⟨3, by decide, by simp [hs, e₃], if_pos e₃⟩
        · rw [if_neg e₃]
          by_cases e₄ : s₄ = -1
          · exact ⟨4, by decide, by simp [hs, e₄], if_pos e₄⟩
          · -- no slot is left that could be the empty one
            simp [hs, Ne.symm e₀, Ne.symm e₁, Ne.symm e₂, Ne.symm e₃,
              Ne.symm e₄] at hempty

end Slots

/-- The victim is one of the slots, and none has a smaller count. -/
theorem victim_spec (bench : List Int) (hlen : bench.length = NUMSLOTS) :
    ∃ v, bench[victim bench]? = some v ∧ ∀ c ∈ bench, v ≤ c := by
  have hgen : ∀ (l : List (Int × Nat)) (acc : Int × Nat),
      bench[acc.2]? = some acc.1 → (∀ x ∈ l, bench[x.2]? = some x.1) →
      ∃ r, l.foldl (fun acc x => if x.1 < acc.1 then x else acc) acc = r
        ∧ bench[r.2]? = some r.1 ∧ r.1 ≤ acc.1 ∧ ∀ x ∈ l, r.1 ≤ x.1 := by
    intro l
    induction l with
    | nil => exact fun acc hacc _ => ⟨acc, rfl, hacc, Int.le_refl _, by simp⟩
    | cons x l ih =>
        intro acc hacc hl
        have hx := hl x List.mem_cons_self
        obtain ⟨r, hr, hget, hle, hall⟩ := ih (if x.1 < acc.1 then x else acc)
          (by split <;> assumption)
          (fun y hy => hl y (List.mem_cons_of_mem x hy))
        have hmin : r.1 ≤ x.1 ∧ r.1 ≤ acc.1 := by
          split at hle <;> omega
        exact ⟨r, hr, hget, hmin.2, List.forall_mem_cons.mpr ⟨hmin.1, hall⟩⟩
  have hlast : bench[4]? = some (bench.getD 4 0) := by
    have hlt : 4 < bench.length := hlen.symm ▸ by decide
    simp [hlt]
  obtain ⟨r, hr, hget, _, hall⟩ := hgen bench.zipIdx (bench.getD 4 0, 4) hlast
    (fun x hx => List.mem_zipIdx_iff_getElem?.mp hx)
  refine ⟨r.1, by rw [victim, hr]; exact hget, ?_⟩
  intro c hc
  obtain ⟨i, hi⟩ := List.mem_iff_getElem?.mp hc
  exact hall (c, i) (List.mem_zipIdx_iff_getElem?.mpr hi)

theorem box_eq {x : Int} (hlen : boxes.length = 100) (hx : IsBin x) :
    ∃ count, box boxes x = some count := by
  have hlt : x.toNat < boxes.length := by
    have := hx.1
    have := hx.2
    omega
  exact ⟨boxes[x.toNat], by rw [box, if_pos hx.1, List.getElem?_eq_getElem hlt]⟩

/-- On a full bench a slot gets another bin, one whose bin was requested
least. -/
theorem BenchOk.replace (h : BenchOk b) (hfull : -1 ∉ b.slots)
    (hlen : boxes.length = 100) (bin : Int) :
    ∃ k : Nat, k < NUMSLOTS ∧ replace b boxes bin = b.fetchBin bin k
      ∧ ∃ old count, b.slots[k]? = some old ∧ box boxes old = some count
        ∧ ∀ x ∈ b.slots, ∀ c, box boxes x = some c → count ≤ c := by
  obtain ⟨s₀, s₁, s₂, s₃, s₄, hs⟩ := h.slots_eq
  have hcount : ∀ x ∈ b.slots, ∃ count, box boxes x = some count := by
    intro x hx
    rcases h.bins x hx with rfl | hbin
    · exact absurd hx hfull
    · exact box_eq hlen hbin
  rw [hs] at hcount
  obtain ⟨c₀, hc₀⟩ := hcount s₀ (by simp)
  obtain ⟨c₁, hc₁⟩ := hcount s₁ (by simp)
  obtain ⟨c₂, hc₂⟩ := hcount s₂ (by simp)
  obtain ⟨c₃, hc₃⟩ := hcount s₃ (by simp)
  obtain ⟨c₄, hc₄⟩ := hcount s₄ (by simp)
  obtain ⟨h₀, h₁, h₂, h₃, h₄⟩ := binInSlot_eq hs
  have hboxes : b.slots.map (box boxes) = [c₀, c₁, c₂, c₃, c₄].map some := by
    simp [hs, hc₀, hc₁, hc₂, hc₃, hc₄]
  obtain ⟨v, hv, hmin⟩ := victim_spec [c₀, c₁, c₂, c₃, c₄] rfl
  have hk := (List.getElem?_eq_some_iff.mp hv).1
  have hslots : victim [c₀, c₁, c₂, c₃, c₄] < b.slots.length :=
    h.length.symm ▸ hk
  refine ⟨victim [c₀, c₁, c₂, c₃, c₄], hk, ?_, b.slots[_], v,
    List.getElem?_eq_getElem hslots, ?_, ?_⟩
  · simp [Warehouse.replace, h₀, h₁, h₂, h₃, h₄, hc₀, hc₁, hc₂, hc₃, hc₄]
  · have hget := congrArg (·[victim [c₀, c₁, c₂, c₃, c₄]]?) hboxes
    simp only [List.getElem?_map, hv, List.getElem?_eq_getElem hslots,
      Option.map_some, Option.some.injEq] at hget
    exact hget
  · intro x hx c hc
    apply hmin
    have hmem : some c ∈ b.slots.map (box boxes) :=
      List.mem_map.mpr ⟨x, hx, hc⟩
    rw [hboxes] at hmem
    simpa using hmem

/-- What bringing a bin does: nothing if it is on the bench, else the bin is
fetched into an empty slot, or into one whose bin was requested least. -/
inductive Brings (b : Bench) (boxes : List Int) (bin : Int) (b' : Bench) : Prop
  | there (hin : bin ∈ b.slots) (hb : b' = b)
  | empty {k : Nat} (hin : bin ∉ b.slots) (hk : k < NUMSLOTS)
      (hold : b.slots[k]? = some (-1))
      (hb : b' = { b with slots := b.slots.set k bin, cost := b.cost + 2 })
  | full {k : Nat} {old count : Int} (hin : bin ∉ b.slots)
      (hfull : -1 ∉ b.slots) (hk : k < NUMSLOTS)
      (hold : b.slots[k]? = some old) (hcount : box boxes old = some count)
      (hmin : ∀ x ∈ b.slots, ∀ c, box boxes x = some c → count ≤ c)
      (hb : b' = { b with slots := b.slots.set k bin, cost := b.cost + 3 })

/-- **However the bin is brought.** -/
theorem BenchOk.brings (h : BenchOk b) (bin : Int)
    (hlen : boxes.length = 100) :
    ∃ b', bringBin b boxes bin = some b' ∧ Brings b boxes bin b' := by
  obtain ⟨s₀, s₁, s₂, s₃, s₄, hs⟩ := h.slots_eq
  simp only [Warehouse.bringBin, fullBench_eq hs, binInBench_eq hs,
    Option.bind_eq_bind, Option.bind_some]
  by_cases hin : bin ∈ b.slots
  · exact ⟨b, by simp [hin], .there hin rfl⟩
  · by_cases hempty : -1 ∈ b.slots
    · obtain ⟨k, hk, hold, heq⟩ := fillEmpty_eq hs hempty bin
      rw [fetchBin_eq h bin hk, hold] at heq
      refine ⟨_, by simp [hin, hempty, heq], .empty hin hk hold rfl⟩
    · obtain ⟨k, hk, heq, old, count, hold, hcount, hmin⟩ :=
        h.replace hempty hlen bin
      have hne : old ≠ -1 := by
        rintro rfl
        exact hempty (List.mem_of_getElem? hold)
      rw [fetchBin_eq h bin hk, hold] at heq
      refine ⟨{ b with slots := b.slots.set k bin, cost := b.cost + 3 }, ?_,
        .full hin hempty hk hold hcount hmin rfl⟩
      simp [hin, hempty, heq, hne, Int.add_assoc]

theorem Brings.benchOk {b' : Bench} (hb : Brings b boxes bin b')
    (h : BenchOk b) (hbin : IsBin bin) :
    BenchOk b' ∧ bin ∈ b'.slots ∧ b'.packed = b.packed := by
  cases hb with
  | there hin hb =>
      subst hb
      exact ⟨h, hin, rfl⟩
  | empty hin hk _ hb =>
      obtain ⟨hok, hmem⟩ := h.set hbin hin hk (b.cost + 2)
      exact hb ▸ ⟨hok, hmem, rfl⟩
  | full hin _ hk _ _ _ hb =>
      obtain ⟨hok, hmem⟩ := h.set hbin hin hk (b.cost + 3)
      exact hb ▸ ⟨hok, hmem, rfl⟩

/-! ## A run -/

/-- At the top of the loop of an order of `total` parts. -/
structure Inv (total : Nat) (st : St) : Prop where
  bench : BenchOk st.bench
  boxes : st.boxes.length = 100
  part : st.more = true → 0 ≤ st.nextPart ∧ st.nextPart ≤ 999
  rest : ∀ p ∈ parts st.order, 0 ≤ p ∧ p ≤ 999
  count : st.bench.packed
    + (if st.more then 1 + (parts st.order).length else 0 : Nat) = total

variable {total : Nat} {st : St}

theorem isBin_of_part {p : Int} (h : 0 ≤ p ∧ p ≤ 999) : IsBin (p.tdiv 10) := by
  constructor
  · exact Int.tdiv_nonneg h.1 (by decide)
  · rw [Int.tdiv_eq_ediv_of_nonneg h.1]
    omega

/-- How many parts are still to be packed. -/
def St.left (st : St) : Nat :=
  if st.more then 1 + (parts st.order).length else 0

/-- Reading on takes the next part from the file. -/
theorem fnp_left (st : St) : st.fnp.left = (parts st.order).length := by
  rw [St.fnp]
  cases hscan : scanInt st.order with
  | none => simp [St.left, parts_of_none hscan]
  | some r =>
      rw [parts_of_some hscan, List.length_cons]
      show 1 + (parts r.2).length = _
      omega

@[simp] theorem fnp_bench (st : St) : st.fnp.bench = st.bench := by
  rw [St.fnp]
  split <;> rfl

@[simp] theorem fnp_boxes (st : St) : st.fnp.boxes = st.boxes := by
  rw [St.fnp]
  split <;> rfl

/-- The state in which a turn reads on: the part is counted, its bin
brought, and the part packed. -/
def St.packed (st : St) (b : Bench) (count : Int) : St :=
  { st with
    bench := { b with packed := b.packed + 1 }
    boxes := st.boxes.set st.bin.toNat (count + 1) }

/-- What a turn does. -/
theorem Inv.turn_eq (h : Inv total st) (hmore : st.more = true) :
    ∃ b count, box st.boxes st.bin = some count
      ∧ Brings st.bench (st.packed b count).boxes st.bin b
      ∧ turn st = some (st.packed b count).fnp := by
  have hbin : IsBin st.bin := isBin_of_part (h.part hmore)
  obtain ⟨count, hcount⟩ := box_eq h.boxes hbin
  have hlen : (st.boxes.set st.bin.toNat (count + 1)).length = 100 := by
    simpa using h.boxes
  obtain ⟨b, hbring, hcases⟩ := h.bench.brings st.bin hlen
  obtain ⟨_, hmem, _⟩ := hcases.benchOk h.bench hbin
  refine ⟨b, count, hcount, hcases, ?_⟩
  rw [St.bin] at hcount hbring hmem
  simp only [Warehouse.turn, hcount, hbring, Option.bind_eq_bind,
    Option.bind_some, St.fetchNextPart, Bench.getWidget, if_pos hmem]
  rfl

/-- **Step lemma**: a turn packs a part. -/
theorem Inv.turn (h : Inv total st) (hmore : st.more = true) :
    ∃ st', turn st = some st' ∧ Inv total st' ∧ st'.left < st.left := by
  obtain ⟨b, count, _, hcases, hturn⟩ := h.turn_eq hmore
  obtain ⟨hok, _, hpacked⟩ :=
    hcases.benchOk h.bench (isBin_of_part (h.part hmore))
  have hleft := fnp_left (st.packed b count)
  have htotal := h.count
  rw [if_pos hmore] at htotal
  refine ⟨_, hturn, ?_, ?_⟩
  · constructor
    · rw [fnp_bench]
      exact ⟨hok.length, hok.bins, hok.distinct⟩
    · rw [fnp_boxes]
      simpa [St.packed] using h.boxes
    · rw [St.fnp]
      split
      · rename_i part rest hscan
        intro _
        have hparts : parts st.order = part :: parts rest := parts_of_some hscan
        exact h.rest part (hparts ▸ List.mem_cons_self)
      · intro hmore'
        exact absurd hmore' (by simp)
    · rw [St.fnp]
      split
      · rename_i part rest hscan
        intro p hp
        have hparts : parts st.order = part :: parts rest := parts_of_some hscan
        exact h.rest p (hparts ▸ List.mem_cons_of_mem part hp)
      · exact h.rest
    · -- one part more is packed, and one less is left on the order
      rw [St.left] at hleft
      rw [hleft, ← htotal, fnp_bench]
      simp only [St.packed, hpacked]
      push_cast
      omega
  · rw [hleft, St.left, if_pos hmore]
    show (parts st.order).length < _
    omega

theorem openOrder_inv {file : List Char} {ps : List Int}
    (hps : parts file = ps) (hne : ps ≠ [])
    (hrange : ∀ p ∈ ps, 0 ≤ p ∧ p ≤ 999) :
    ∃ st, openOrder file = some st ∧ Inv ps.length st ∧ st.left = ps.length := by
  cases hscan : scanInt file with
  | none => exact absurd (hps.symm.trans (parts_of_none hscan)) hne
  | some r =>
      obtain ⟨part, rest⟩ := r
      rw [parts_of_some hscan] at hps
      subst hps
      refine ⟨_, by rw [openOrder, hscan]; rfl, ?_, ?_⟩
      · constructor
        · constructor
          · exact List.length_replicate
          · exact fun x hx => Or.inl (List.mem_replicate.mp hx).2
          · intro i j x _ hi _
            exact (List.mem_replicate.mp (List.mem_of_getElem? hi)).2
        · exact List.length_replicate
        · exact fun _ => hrange part List.mem_cons_self
        · exact fun p hp => hrange p (List.mem_cons_of_mem part hp)
        · show (0 : Int) + ((1 + (parts rest).length : Nat) : Int) = _
          rw [List.length_cons]
          omega
      · show 1 + (parts rest).length = _
        rw [List.length_cons, Nat.add_comm]

/-- **The warehouse packs every part.** For an order file with at least one
part number, all of them below 1000, the loop ends without a failed
assertion, the occupied slots hold different bins whenever the loop is at
its top, and at the end the number of packed parts is that of the order. -/
theorem warehouse_packs_all (file : List Char) (hne : parts file ≠ [])
    (hrange : ∀ p ∈ parts file, 0 ≤ p ∧ p ≤ 999) :
    ∃ st₀ st, openOrder file = some st₀
      ∧ (∀ fuel, (parts file).length ≤ fuel → runMain fuel file = some st)
      ∧ (∀ t, Loop.Tops St.more turn st₀ t → Distinct t.bench.slots)
      ∧ st.bench.packed = (parts file).length := by
  obtain ⟨st₀, hopen, hinv, hleft⟩ := openOrder_inv rfl hne hrange
  obtain ⟨st, hrun, _, hend, hexit⟩ :=
    Loop.run_ends St.more turn (Inv (parts file).length) St.left
      (fun s hs hmore => hs.turn hmore) hinv (Nat.le_of_eq hleft)
  refine ⟨st₀, st, hopen, ?_, ?_, ?_⟩
  · intro fuel hfuel
    rw [runMain, hopen]
    exact hrun fuel hfuel
  · intro t ht
    have htop : Inv (parts file).length t := by
      apply ht.invariant hinv
      intro s s' hs hmore hstep
      obtain ⟨s₁, hs₁, hinv₁, _⟩ := hs.turn hmore
      rw [hs₁, Option.some.injEq] at hstep
      exact hstep ▸ hinv₁
    exact htop.bench.distinct
  · have hcount := hend.count
    rw [hexit] at hcount
    simpa using hcount

/-- Six bins for five slots, and the first one again. -/
theorem warehouse_packs_all_seven :
    ∃ st₀ st, openOrder "1 12 23 34 45 56 1".toList = some st₀
      ∧ (∀ fuel, (parts "1 12 23 34 45 56 1".toList).length ≤ fuel →
          runMain fuel "1 12 23 34 45 56 1".toList = some st)
      ∧ (∀ t, Loop.Tops St.more turn st₀ t → Distinct t.bench.slots)
      ∧ st.bench.packed = (parts "1 12 23 34 45 56 1".toList).length :=
  warehouse_packs_all _ (by decide) (by decide)

end SchoolStuff.Warehouse
