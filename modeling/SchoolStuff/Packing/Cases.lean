import SchoolStuff.Lib.Loop
import SchoolStuff.Packing.Basic

/-!
# Packing — cutting the input file into test cases

`main` of `cs375/prog3` and of `cs375/prog4` reads two numbers a line into
`nums` and cuts them into test cases: the first number of a case counts its
items, and the line of the count and one line for each item belong to it.
Only the `while` asks whether `nums` is empty, so how far the `for` loop
goes, and whether the `while` loop ends, is up to the counts in the file
(`cutCases_splits_iff`). A file of the vectors that `compute` reads
(`testCase_isCase`) is cut into these (`cutCases_flatten`). A vector that is
empty where its first element is read or erased is `none`.
-/

namespace SchoolStuff.Packing

/-- `v.push_back(nums[0])` and `nums.erase(nums.begin())`, on `v` and
`nums`. -/
def moveFirst (st : List Int × List Int) : Option (List Int × List Int) :=
  match st.2 with
  | [] => none
  | x :: nums => some (st.1 ++ [x], nums)

/-- The turns of the `for` loop: each moves one line of the file. -/
def moveLines : Nat → List Int × List Int → Option (List Int × List Int)
  | 0, st => some st
  | lines + 1, st => do
      let st ← moveFirst st
      let st ← moveFirst st
      moveLines lines st

/-- One turn of the `while` loop on `nums` and `case_list`. The `for` loop
runs from `0` to `cases` inclusive. -/
def cutCase (st : List Int × List (List Int)) :
    Option (List Int × List (List Int)) := do
  let cases ← st.1[0]?
  let moved ← moveLines (cases + 1).toNat ([], st.1)
  some (moved.2, st.2 ++ [moved.1])

/-- `while (!nums.empty())`, from the empty `case_list` on. -/
def cutCases (fuel : Nat) (nums : List Int) :
    Option (List Int × List (List Int)) :=
  Loop.run (fun st => !st.1.isEmpty) cutCase fuel (nums, [])

/-- The loop comes to its end, reads and erases elements that are there
only, and its cases in a row are the numbers of the file. -/
def Splits (nums : List Int) : Prop :=
  ∃ fuel cases, cutCases fuel nums = some ([], cases) ∧ cases.flatten = nums

/-- A test case: the number of its items, a second number, and a line of two
numbers for each item. -/
def IsCase (v : List Int) : Prop :=
  ∃ items : Nat, v.head? = some (items : Int) ∧ v.length = 2 * (items + 1)

/-- The numbers are test cases in a row. -/
def CaseFile (nums : List Int) : Prop :=
  ∃ cut : List (List Int), (∀ v ∈ cut, IsCase v) ∧ cut.flatten = nums

/-! ## One turn of the loop -/

/-- The `for` loop moves two numbers a turn, and needs that many. -/
theorem moveLines_eq (lines : Nat) (v nums : List Int) :
    moveLines lines (v, nums) = if 2 * lines ≤ nums.length
      then some (v ++ nums.take (2 * lines), nums.drop (2 * lines))
      else none := by
  induction lines generalizing v nums with
  | zero => simp [moveLines]
  | succ lines ih =>
      match nums with
      | [] => simp [moveLines, moveFirst]
      | [x] =>
          rw [if_neg (by simp only [List.length_singleton]; omega)]
          rfl
      | x :: y :: nums =>
          show moveLines lines ((v ++ [x]) ++ [y], nums) = _
          rw [ih, show 2 * (lines + 1) = 2 * lines + 1 + 1 by omega]
          simp only [List.length_cons, Nat.add_le_add_iff_right,
            List.take_succ_cons, List.drop_succ_cons, List.append_assoc,
            List.cons_append, List.nil_append]

theorem cutCase_cons (items : Int) (nums : List Int)
    (cases : List (List Int)) :
    cutCase (items :: nums, cases)
      = (moveLines (items + 1).toNat ([], items :: nums)).map
          fun moved => (moved.2, cases ++ [moved.1]) := by
  simp only [cutCase, List.getElem?_cons_zero, Option.bind_eq_bind,
    Option.bind_some]
  cases moveLines (items + 1).toNat ([], items :: nums) <;> rfl

/-- A negative count moves nothing: `nums` is as long as before. -/
theorem cutCase_of_neg {items : Int} (hneg : items < 0) (nums : List Int)
    (cases : List (List Int)) :
    cutCase (items :: nums, cases) = some (items :: nums, cases ++ [[]]) := by
  rw [cutCase_cons, show (items + 1).toNat = 0 by omega]
  rfl

/-- A case at the front of `nums` is cut off. -/
theorem cutCase_of_isCase {v : List Int} (h : IsCase v) (rest : List Int)
    (cases : List (List Int)) :
    cutCase (v ++ rest, cases) = some (rest, cases ++ [v]) := by
  obtain ⟨items, hhead, hlen⟩ := h
  obtain ⟨lines, rfl⟩ := List.head?_eq_some_iff.mp hhead
  rw [List.cons_append, cutCase_cons,
    show ((items : Int) + 1).toNat = items + 1 by omega, moveLines_eq,
    ← List.cons_append, ← hlen, if_pos (by simp), List.take_left,
    List.drop_left]
  rfl

/-- With a count that is not negative, a turn that does not fail cuts off a
case. -/
theorem isCase_of_cutCase {items : Nat} {nums : List Int}
    {cases : List (List Int)} {st : List Int × List (List Int)}
    (h : cutCase ((items : Int) :: nums, cases) = some st) :
    ∃ v, IsCase v ∧ (items : Int) :: nums = v ++ st.1 := by
  rw [cutCase_cons, show ((items : Int) + 1).toNat = items + 1 by omega,
    moveLines_eq] at h
  by_cases hlen : 2 * (items + 1) ≤ ((items : Int) :: nums).length
  · rw [if_pos hlen, Option.map_some, Option.some.injEq] at h
    subst h
    refine ⟨((items : Int) :: nums).take (2 * (items + 1)),
      ⟨items, rfl, ?_⟩, (List.take_append_drop ..).symm⟩
    rw [List.length_take]
    omega
  · rw [if_neg hlen] at h
    exact absurd h (by simp)

/-! ## The loop -/

/-- With a negative count at its front the loop has no end. -/
theorem run_of_neg {items : Int} (hneg : items < 0) (nums : List Int)
    (fuel : Nat) (cases : List (List Int)) :
    Loop.run (fun st => !st.1.isEmpty) cutCase fuel (items :: nums, cases)
      = none := by
  induction fuel generalizing cases with
  | zero => rfl
  | succ fuel ih =>
      simp only [Loop.run, List.isEmpty_cons, Bool.not_false, if_true,
        cutCase_of_neg hneg, Option.bind_some]
      exact ih _

/-- Where the loop ends, it was cutting test cases all along. -/
theorem caseFile_of_run {fuel : Nat} {nums : List Int}
    {cases : List (List Int)} {st : List Int × List (List Int)}
    (h : Loop.run (fun st => !st.1.isEmpty) cutCase fuel (nums, cases)
      = some st) : CaseFile nums := by
  have hnil : CaseFile [] := ⟨[], by simp, rfl⟩
  induction fuel generalizing nums cases with
  | zero =>
      cases nums with
      | nil => exact hnil
      | cons x nums => simp [Loop.run] at h
  | succ fuel ih =>
      cases nums with
      | nil => exact hnil
      | cons x nums =>
          cases Int.lt_or_le x 0 with
          | inl hneg =>
              rw [run_of_neg hneg] at h
              exact absurd h (by simp)
          | inr hpos =>
              obtain ⟨items, rfl⟩ := Int.eq_ofNat_of_zero_le hpos
              simp only [Loop.run, List.isEmpty_cons, Bool.not_false, if_true,
                Option.bind_eq_some_iff] at h
              obtain ⟨st₁, hcut, hrest⟩ := h
              obtain ⟨v, hv, heq⟩ := isCase_of_cutCase hcut
              obtain ⟨cut, hcases, hflat⟩ := ih hrest
              refine ⟨v :: cut, ?_, by rw [List.flatten_cons, hflat, heq]⟩
              simpa using ⟨hv, hcases⟩

theorem run_of_cases {cut : List (List Int)} (h : ∀ v ∈ cut, IsCase v)
    (cases : List (List Int)) :
    Loop.run (fun st => !st.1.isEmpty) cutCase cut.length
      (cut.flatten, cases) = some ([], cases ++ cut) := by
  induction cut generalizing cases with
  | nil => simp [Loop.run]
  | cons v cut ih =>
      have hv : IsCase v := h v List.mem_cons_self
      have hne : (v ++ cut.flatten).isEmpty = false := by
        obtain ⟨items, hhead, _⟩ := hv
        cases v with
        | nil => exact absurd hhead (by simp)
        | cons x v => rfl
      simp only [List.length_cons, Loop.run, List.flatten_cons, hne,
        Bool.not_false, if_true, cutCase_of_isCase hv, Option.bind_some]
      rw [ih fun u hu => h u (List.mem_cons_of_mem v hu), List.append_assoc,
        List.singleton_append]

/-- **A file of test cases is cut into these.** -/
theorem cutCases_flatten {cut : List (List Int)} (h : ∀ v ∈ cut, IsCase v) :
    cutCases cut.length cut.flatten = some ([], cut) :=
  run_of_cases h []

/-- What `compute` reads is a test case. -/
theorem testCase_isCase (w : Int) (pairs : List (Int × Int)) :
    IsCase (testCase w pairs) := by
  refine ⟨pairs.length, rfl, ?_⟩
  have hlen : (pairs.flatMap fun x => [x.1, x.2]).length
      = 2 * pairs.length := by
    induction pairs with
    | nil => rfl
    | cons x pairs ih =>
        rw [List.flatMap_cons, List.length_append, ih]
        simp only [List.length_cons, List.length_nil]
        omega
  simp only [testCase, List.length_cons, hlen]
  omega

theorem caseFile_of_splits {nums : List Int} (h : Splits nums) :
    CaseFile nums := by
  obtain ⟨fuel, cases, hrun, _⟩ := h
  exact caseFile_of_run hrun

/-- The first count of a file of test cases, and what it promises. -/
theorem CaseFile.count_le {items : Int} {nums : List Int}
    (h : CaseFile (items :: nums)) :
    0 ≤ items ∧ 2 * items + 1 ≤ nums.length := by
  obtain ⟨cut, hcut, hflat⟩ := h
  cases cut with
  | nil => exact absurd hflat (by simp)
  | cons v cut =>
      obtain ⟨count, hhead, hlen⟩ := hcut v List.mem_cons_self
      obtain ⟨lines, rfl⟩ := List.head?_eq_some_iff.mp hhead
      rw [List.flatten_cons, List.cons_append, List.cons.injEq] at hflat
      obtain ⟨rfl, rfl⟩ := hflat
      rw [List.length_cons] at hlen
      rw [List.length_append]
      constructor <;> omega

/-- **What main makes of the file**: its loop comes to an end, stays within
`nums` and gives back the numbers exactly if they are test cases in a
row. -/
theorem cutCases_splits_iff (nums : List Int) :
    Splits nums ↔ CaseFile nums := by
  constructor
  · exact caseFile_of_splits
  · intro h
    obtain ⟨cut, hcut, hflat⟩ := h
    exact ⟨cut.length, cut, hflat ▸ cutCases_flatten hcut, hflat⟩

/-- A negative count and a count of items that the file does not have. -/
theorem malformed_count_fails : ¬ Splits [-1, 5] ∧ ¬ Splits [1, 10] := by
  constructor
  · intro h
    have hle := (caseFile_of_splits h).count_le
    exact absurd hle.1 (by decide)
  · intro h
    have hle := (caseFile_of_splits h).count_le
    exact absurd hle.2 (by decide)

/-- Two items in one case, none in the next. -/
example : cutCases 2 [2, 10, 5, 3, 4, 1, 0, 7]
    = some ([], [[2, 10, 5, 3, 4, 1], [0, 7]]) := by decide

end SchoolStuff.Packing
