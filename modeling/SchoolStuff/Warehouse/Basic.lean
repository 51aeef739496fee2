import Mathlib.Algebra.Order.Ring.Nat
import Mathlib.Tactic.Common
import SchoolStuff.Lib.CInt
import SchoolStuff.Lib.Loop

/-!
# Warehouse — packing orders (`cs220/proj1`)

`warehouse.c` takes part after part from the order file, sees to it that the
bin of the part is in one of the five slots of the workbench, and packs the
part. A failed `assert` and an access outside of an array are `none`. What
`fscanf` stores in an `int` is cut to 32 bits; the other `int`s count parts
of the order, and are in range for fewer than `2 ^ 31` of them
(`Tally.counts_inRange`). The static variables of `bench.c` and `order.c`
are fields.
-/

namespace SchoolStuff.Warehouse

/-! ## `bench.c` -/

def NUMSLOTS : Nat := 5

structure Bench where
  slots : List Int
  /-- In quarters of a dollar. -/
  cost : Int
  packed : Int
  deriving DecidableEq, Repr

/-- The bench before `clearBench`. -/
def Bench.init : Bench := ⟨List.replicate NUMSLOTS 0, 0, 0⟩

/-- `slots[slot]`. -/
def Bench.slot (b : Bench) (slot : Int) : Option Int :=
  if 0 ≤ slot then b.slots[slot.toNat]? else none

/-- `clearBench`. -/
def Bench.clearBench (b : Bench) : Bench :=
  { b with slots := List.replicate NUMSLOTS (-1) }

/-- `fetchBin`. -/
def Bench.fetchBin (b : Bench) (bin slot : Int) : Option Bench := do
  guard (slot < NUMSLOTS)
  let old ← b.slot slot
  -- returning a bin costs one quarter, retrieving one costs two
  some { b with
    slots := b.slots.set slot.toNat bin
    cost := b.cost + (if old ≠ -1 then 1 else 0) + 2 }

/-- `getWidget`. A bin that is not on the bench fails `assert(0)`. -/
def Bench.getWidget (b : Bench) (partNumber : Int) : Option Bench :=
  if partNumber.tdiv 10 ∈ b.slots then some { b with packed := b.packed + 1 }
  else none

/-- `binInSlot`. -/
def Bench.binInSlot (b : Bench) (slot : Int) : Option Int := do
  guard (slot < NUMSLOTS)
  b.slot slot

/-! ## `order.c` -/

def isSpace (c : Char) : Bool :=
  c = ' ' || (9 ≤ c.toNat && c.toNat ≤ 13)

/-- The digits at the front, and what is left. -/
def digits (n : Nat) : List Char → Nat × List Char
  | [] => (n, [])
  | c :: cs => if c.isDigit then digits (10 * n + (c.toNat - '0'.toNat)) cs
      else (n, c :: cs)

/-- What `%d` stores for the number: a `long` that is cut to an `int`. -/
def toInt32 (n : Int) : Int :=
  (max (-2 ^ 63) (min n (2 ^ 63 - 1))).bmod (2 ^ 32)

/-- A number without its sign, of at least one digit. -/
def scanDigits (sign : Int) (cs : List Char) : Option (Int × List Char) :=
  if cs.head?.any Char.isDigit then
    some (toInt32 (sign * (digits 0 cs).1), (digits 0 cs).2)
  else none

/-- `fscanf(order, "%d", &nextPart)` in a file of which `cs` is unread. -/
def scanInt (cs : List Char) : Option (Int × List Char) :=
  match cs.dropWhile isSpace with
  | '-' :: cs => scanDigits (-1) cs
  | '+' :: cs => scanDigits 1 cs
  | cs => scanDigits 1 cs

/-! ## `warehouse.c` -/

structure St where
  bench : Bench
  /-- What of the order file is unread. -/
  order : List Char
  nextPart : Int
  boxes : List Int
  /-- What `fetchNextPart` returned last. -/
  more : Bool
  deriving DecidableEq, Repr

/-- `fnp`, and the end of `fetchNextPart`. -/
def St.fnp (st : St) : St :=
  match scanInt st.order with
  | some (part, rest) => { st with order := rest, nextPart := part, more := true }
  | none => { st with more := false }

/-- `fetchNextPart`. -/
def St.fetchNextPart (st : St) : Option St := do
  let bench ← st.bench.getWidget st.nextPart
  some { st with bench := bench }.fnp

/-- `openOrder`, and what `main` declares. An order file without a first
part number ends the program. -/
def openOrder (file : List Char) : Option St :=
  (scanInt file).map fun part =>
    { bench := Bench.init.clearBench
      order := part.2
      nextPart := part.1
      boxes := List.replicate 100 0
      more := true }

/-- `boxes[i]`. -/
def box (boxes : List Int) (i : Int) : Option Int :=
  if 0 ≤ i then boxes[i.toNat]? else none

/-- `full_bench`. -/
def fullBench (b : Bench) : Option Bool := do
  some ((← b.binInSlot 0) != -1 && (← b.binInSlot 1) != -1
    && (← b.binInSlot 2) != -1 && (← b.binInSlot 3) != -1
    && (← b.binInSlot 4) != -1)

/-- `bin_in_bench`. -/
def binInBench (b : Bench) (bin : Int) : Option Bool := do
  some ((← b.binInSlot 0) == bin || (← b.binInSlot 1) == bin
    || (← b.binInSlot 2) == bin || (← b.binInSlot 3) == bin
    || (← b.binInSlot 4) == bin)

/-- The first slot that is empty gets the bin. -/
def fillEmpty (b : Bench) (bin : Int) : Option Bench := do
  if (← b.binInSlot 0) = -1 then b.fetchBin bin 0
  else if (← b.binInSlot 1) = -1 then b.fetchBin bin 1
  else if (← b.binInSlot 2) = -1 then b.fetchBin bin 2
  else if (← b.binInSlot 3) = -1 then b.fetchBin bin 3
  else if (← b.binInSlot 4) = -1 then b.fetchBin bin 4
  else some b

/-- The loop that looks for the least requested of the five bins, which
starts with the last one. -/
def victim (bench : List Int) : Nat :=
  (bench.zipIdx.foldl (fun (acc : Int × Nat) x =>
    if x.1 < acc.1 then x else acc) (bench.getD 4 0, 4)).2

/-- The slot of a bin that was requested least so far is given to the bin. -/
def replace (b : Bench) (boxes : List Int) (bin : Int) : Option Bench := do
  let bench ← [0, 1, 2, 3, 4].mapM fun slot => do
    box boxes (← b.binInSlot slot)
  b.fetchBin bin (victim bench)

/-- The part of the loop body that sees to the bench. -/
def bringBin (b : Bench) (boxes : List Int) (bin : Int) : Option Bench := do
  let full ← fullBench b
  let inBench ← binInBench b bin
  if !inBench then
    if !full then fillEmpty b bin else replace b boxes bin
  else some b

/-- One turn of the loop, up to the test of `while(fetchNextPart())`. -/
def turn (st : St) : Option St := do
  let bin := st.nextPart.tdiv 10
  let count ← box st.boxes bin
  let boxes := st.boxes.set bin.toNat (count + 1)
  let bench ← bringBin st.bench boxes bin
  { st with bench := bench, boxes := boxes }.fetchNextPart

/-- `main`, with at most `fuel` turns of its loop. The body runs before the
first test, which `more` in the first state stands for. -/
def runMain (fuel : Nat) (file : List Char) : Option St := do
  let st ← openOrder file
  Loop.run St.more turn fuel st

end SchoolStuff.Warehouse
