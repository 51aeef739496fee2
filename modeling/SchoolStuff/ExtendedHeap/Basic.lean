import SchoolStuff.Lib.BinaryHeap
import SchoolStuff.Lib.CInt
import SchoolStuff.Lib.Loop

/-!
# ExtendedHeap — the contestant heap (`cs375/heap.cpp`)

`arr` is the binary heap of `(id, score)` pairs, `handle[id-1]` the 1-based
position of contestant `id` in it. The vector accesses of the source are
unchecked; here an access outside the vector is `none`. A score
is an `int` of 32 bits, which wraps around where the source leaves an
overflow undefined.
-/

namespace SchoolStuff.ExtendedHeap

open BinaryHeap (parent left right parent_lt lt_left left_lt_right)

/-- `class Heap`. -/
structure Heap where
  arr : List (Int × Int)
  capacity : Nat
  curSize : Nat
  handle : List Int
  deriving DecidableEq, Repr

/-- `Heap::Heap`. -/
def Heap.new (i : Nat) : Heap where
  arr := []
  capacity := i
  curSize := 0
  handle := List.replicate i 0

/-- The element `handle[id-1]`. -/
def Heap.handleAt (h : Heap) (id : Int) : Option Int :=
  if 1 ≤ id then h.handle[(id - 1).toNat]? else none

/-- `handle[id-1] = v`. -/
def Heap.setHandle (h : Heap) (id v : Int) : Option Heap :=
  if 1 ≤ id ∧ (id - 1).toNat < h.handle.length then
    some { h with handle := h.handle.set (id - 1).toNat v }
  else none

/-- `swap(&arr[p], &arr[q])`. -/
def Heap.swap (h : Heap) (p q : Nat) : Option Heap := do
  let temp ← h.arr[p]?
  let other ← h.arr[q]?
  let a ← h.handleAt temp.1
  let b ← h.handleAt other.1
  let h ← h.setHandle temp.1 b
  let h ← h.setHandle other.1 a
  some { h with arr := (h.arr.set p other).set q temp }

/-- The bubble-up loop of `insertContestant`. -/
def Heap.bubbleUp (h : Heap) (i : Nat) : Option Heap :=
  if _hi : i = 0 then some h
  else do
    let up ← h.arr[parent i]?
    let cur ← h.arr[i]?
    if cur.2 < up.2 then
      let h ← h.swap i (parent i)
      h.bubbleUp (parent i)
    else some h
termination_by i
decreasing_by exact parent_lt (Nat.pos_of_ne_zero _hi)

/-- `insertContestant`. -/
def Heap.insertContestant (h : Heap) (id score : Int) :
    Option (Bool × Heap) :=
  if h.curSize = h.capacity then some (false, h)
  else do
    let k ← h.handleAt id
    if k ≠ 0 then some (false, h)
    else
      let i := h.curSize
      if i ≤ h.arr.length then
        let h := { h with
          curSize := h.curSize + 1
          arr := h.arr.take i ++ (id, score) :: h.arr.drop i }
        -- `handle[id-1] = id`, where the position would be `i + 1`
        let h ← h.setHandle id id
        let h ← h.bubbleUp i
        some (true, h)
      else none

/-- `c < cur_size && arr[c].second < arr[i].second`. -/
def Heap.below (h : Heap) (c i : Nat) : Option Bool :=
  if c < h.curSize then do
    let child ← h.arr[c]?
    let cur ← h.arr[i]?
    some (decide (child.2 < cur.2))
  else some false

/-- The position `reheapify` picks. The right child is compared with the
node itself, not with the left child. -/
def Heap.smallest (h : Heap) (i : Nat) : Option Nat := do
  let l ← h.below (left i) i
  let r ← h.below (right i) i
  some (if r then right i else if l then left i else i)

theorem Heap.swap_curSize {h h' : Heap} {p q : Nat}
    (hs : h.swap p q = some h') : h'.curSize = h.curSize := by
  simp only [Heap.swap, Heap.setHandle, Option.bind_eq_bind,
    Option.bind_eq_some_iff] at hs
  obtain ⟨_, _, _, _, _, _, _, _, h₁, hh₁, h₂, hh₂, hs⟩ := hs
  split at hh₁ <;> simp only [Option.some.injEq, reduceCtorEq] at hh₁
  split at hh₂ <;> simp only [Option.some.injEq, reduceCtorEq] at hh₂
  subst hh₁ hh₂
  rw [← Option.some.inj hs]

theorem Heap.below_lt {h : Heap} {c i : Nat} (hb : h.below c i = some true) :
    c < h.curSize := by
  by_contra hc
  simp [Heap.below, hc] at hb

theorem Heap.smallest_cases {h : Heap} {i s : Nat}
    (hs : h.smallest i = some s) :
    (s = i ∧ h.below (left i) i = some false
        ∧ h.below (right i) i = some false)
      ∨ (s = left i ∧ h.below (left i) i = some true
        ∧ h.below (right i) i = some false)
      ∨ (s = right i ∧ h.below (right i) i = some true
        ∧ (h.below (left i) i).isSome) := by
  simp only [Heap.smallest, Option.bind_eq_bind,
    Option.bind_eq_some_iff] at hs
  obtain ⟨l, hl, r, hr, hs⟩ := hs
  have hs := (Option.some.inj hs).symm
  cases r with
  | true => exact Or.inr (Or.inr ⟨hs, hr, by rw [hl]; rfl⟩)
  | false =>
      cases l with
      | true => exact Or.inr (Or.inl ⟨hs, hl, hr⟩)
      | false => exact Or.inl ⟨hs, hl, hr⟩

theorem Heap.smallest_lt {h : Heap} {i s : Nat}
    (hs : h.smallest i = some s) (hne : s ≠ i) :
    i < s ∧ s < h.curSize := by
  rcases Heap.smallest_cases hs with ⟨rfl, _⟩ | ⟨rfl, hb, _⟩ | ⟨rfl, hb, _⟩
  · exact absurd rfl hne
  · exact ⟨lt_left i, Heap.below_lt hb⟩
  · exact ⟨Nat.lt_trans (lt_left i) (left_lt_right i), Heap.below_lt hb⟩

/-- `reheapify`. -/
def Heap.reheapify (h : Heap) (i : Nat) : Option Heap :=
  match _hs : h.smallest i with
  | none => none
  | some s =>
      if _hne : s = i then some h
      else
        match _hw : h.swap i s with
        | none => none
        | some h' => h'.reheapify s
termination_by h.curSize - i
decreasing_by
  have := Heap.smallest_lt _hs _hne
  have := Heap.swap_curSize _hw
  omega

theorem Heap.reheapify_stop {h : Heap} {i : Nat}
    (hs : h.smallest i = some i) : h.reheapify i = some h := by
  rw [Heap.reheapify]
  split
  · simp_all
  · rename_i s hs'
    rw [hs, Option.some.injEq] at hs'
    rw [dif_pos hs'.symm]

theorem Heap.reheapify_swap {h h' : Heap} {i s : Nat}
    (hs : h.smallest i = some s) (hne : s ≠ i) (hw : h.swap i s = some h') :
    h.reheapify i = h'.reheapify s := by
  rw [Heap.reheapify]
  split
  · simp_all
  · rename_i s' hs'
    rw [hs, Option.some.injEq] at hs'
    subst hs'
    rw [dif_neg hne]
    split
    · simp_all
    · rename_i h'' hw'
      rw [hw, Option.some.injEq] at hw'
      rw [hw']

/-- `points`: the score of `id` goes up by `points` when `b`, down
otherwise. -/
def Heap.points (h : Heap) (id points : Int) (b : Bool) :
    Option (Bool × Heap) := do
  let k ← h.handleAt id
  if k = -1 then some (false, h)
  else
    let index := k - 1
    if 0 ≤ index then do
      let e ← h.arr[index.toNat]?
      let score := CInt.wrap (if b then e.2 + points else e.2 - points)
      let h := { h with arr := h.arr.set index.toNat (e.1, score) }
      let h ← h.reheapify index.toNat
      some (true, h)
    else some (false, h)

/-- `earnPoints`. -/
def Heap.earnPoints (h : Heap) (id point : Int) : Option (Bool × Heap) :=
  h.points id point true

/-- `losePoints`. -/
def Heap.losePoints (h : Heap) (id point : Int) : Option (Bool × Heap) :=
  h.points id point false

/-- `eliminateWeakest`: the pair it returns, which is the contestant it
reports, and the heap after it. -/
def Heap.eliminateWeakest (h : Heap) (o : Int) :
    Option ((Int × Int) × Heap) :=
  if h.curSize = 0 then some ((0, 0), h)
  else if o = 2 then do
    let r ← h.arr[0]?
    some (r, h)
  else if h.curSize = 1 then do
    let r ← h.arr[0]?
    -- unlike below, the handle of `r` keeps its value
    some (r, { h with curSize := 0, arr := h.arr.tail })
  else do
    let p ← h.arr[0]?
    let last ← h.arr[h.curSize - 1]?
    let h := { h with arr := (h.arr.set 0 last).dropLast }
    let first ← h.arr[0]?
    let h ← h.setHandle first.1 1
    let h ← h.setHandle p.1 (-1)
    let h ← Heap.reheapify { h with curSize := h.curSize - 1 } 0
    some (p, h)

/-- `crownWinner`: the contestant it announces, and the heap after it. -/
def Heap.crownWinner (h : Heap) : Option ((Int × Int) × Heap) := do
  let h ← Loop.run (fun h : Heap => decide (1 < h.curSize))
    (fun h => (h.eliminateWeakest 1).map Prod.snd) h.curSize h
  h.eliminateWeakest 2

/-- `findContestant`: the score it prints for a contestant that is in the
heap. -/
def Heap.findContestant (h : Heap) (id : Int) : Option (Option Int) := do
  let k ← h.handleAt id
  if 0 ≤ k - 1 then do
    let e ← h.arr[(k - 1).toNat]?
    some (some e.2)
  else some none

/-- `showLocation`: the 1-based location it prints. -/
def Heap.showLocation (h : Heap) (id : Int) : Option (Option Int) := do
  let k ← h.handleAt id
  some (if 0 ≤ k - 1 then some k else none)

/-! ## Runs -/

/-- The calls of a command file that change the heap. -/
inductive Op
  | insertContestant (id score : Int)
  | earnPoints (id point : Int)
  | losePoints (id point : Int)
  | eliminateWeakest
  | crownWinner
  deriving DecidableEq, Repr

def step (h : Heap) : Op → Option Heap
  | .insertContestant id score => (h.insertContestant id score).map Prod.snd
  | .earnPoints id point => (h.earnPoints id point).map Prod.snd
  | .losePoints id point => (h.losePoints id point).map Prod.snd
  | .eliminateWeakest => (h.eliminateWeakest 0).map Prod.snd
  | .crownWinner => h.crownWinner.map Prod.snd

/-- The heap of capacity `n` after the calls `ops`. -/
def run (n : Nat) (ops : List Op) : Option Heap :=
  ops.foldlM step (Heap.new n)

theorem run_append (n : Nat) (ops : List Op) (op : Op) :
    run n (ops ++ [op]) = (run n ops).bind fun h => step h op := by
  simp [run, List.foldlM_append]

end SchoolStuff.ExtendedHeap
