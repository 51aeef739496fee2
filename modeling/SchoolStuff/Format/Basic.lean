import SchoolStuff.Lib.Buffer
import SchoolStuff.Lib.Loop

/-!
# Format — drawing C data structures (`cs220/lab05/format.c`)

Each formatter fills an array of lines, ends it with the empty line and
hands it to `pointsTo`, which puts a box with the address before them and
returns an array of lines again. Arrays are `Buffer`s, so a line that was
never written cannot be read and nothing can be written outside of what
`malloc` returned; the texts themselves have room, and the freeing of what
is no longer used is left out. Dimensions are counted without overflow.
-/

namespace SchoolStuff.Format

/-- An array of lines, `""` being `nullLine`. -/
abbrev Lines := Buffer String

/-- A `float`, known by what `%f` prints of it. -/
structure Cfloat where
  text : String
  text_ne : text ≠ ""

/-- A pointer: its address, and what it points to at each index. -/
structure Ptr (α : Type) where
  addr : Nat
  get : Nat → α

def PTRSIZE : Nat := 8

/-- `%8lx`. -/
def hex8 (n : Nat) : String :=
  let digits := String.ofList (Nat.toDigits 16 n)
  "".pushn ' ' (8 - digits.length) ++ digits

/-- `%-*s`. -/
def padRight (width : Nat) (s : String) : String :=
  s ++ "".pushn ' ' (width - s.length)

/-- How many lines there are before the empty one: the loops over
`lines[nl][0]!=0x00`. -/
def countLines (lines : Lines) : Option Nat :=
  (lines.upTo "").map List.length

def formatPointer (data : Nat) : Option Lines := do
  let line1 := "+" ++ "".pushn '-' PTRSIZE ++ "+"
  let line2 := "|" ++ hex8 data ++ "|"
  let ret : Lines := Buffer.alloc 4
  let ret ← ret.write 0 line1
  let ret ← ret.write 1 line2
  let ret ← ret.write 2 line1
  ret.write 3 ""

def pointsTo (ptr : Nat) (lines : Lines) : Option Lines := do
  let nl ← countLines lines
  let plines ← formatPointer ptr
  let nlines : Lines := Buffer.alloc (if nl > 2 then nl + 2 else 4)
  let nlines ← nlines.write 0 (← plines.read 0)
  let newLine1 := (← plines.read 1) ++ " -> "
  let offset := newLine1.length
  let nlines ← nlines.write 1 (newLine1 ++ (← lines.read 0))
  let line2 ← (if nl > 1 then do
      some (padRight offset (← plines.read 2) ++ (← lines.read 1))
    else plines.read 2)
  let nlines ← nlines.write 2 line2
  let nlines ← (List.range' 2 (nl - 2)).foldlM (fun nlines ln => do
    nlines.write (ln + 1) (padRight offset " " ++ (← lines.read ln))) nlines
  let nl := if nl < 2 then 2 else nl
  nlines.write (nl + 1) ""

/-! ## The formatters

Each one is the array of lines it builds, handed to `pointsTo`. -/

def scalarLines (data : Ptr Cfloat) : Option Lines := do
  let lines : Lines := Buffer.alloc 2
  let lines ← lines.write 0 (data.get 0).text
  lines.write 1 ""

def formatScalar (data : Ptr Cfloat) : Option Lines := do
  pointsTo data.addr (← scalarLines data)

def vectorLines (data : Ptr Cfloat) (len : Nat) : Option Lines := do
  let value := (List.range' 1 (len - 1)).foldl
    (fun value i => value ++ ", " ++ (data.get i).text) (data.get 0).text
  let lines : Lines := Buffer.alloc 2
  let lines ← lines.write 0 value
  lines.write 1 ""

def formatVector (data : Ptr Cfloat) (len : Nat) : Option Lines := do
  pointsTo data.addr (← vectorLines data len)

def matrixLines (data : Ptr Cfloat) (rows cols : Nat) : Option Lines := do
  let lines : Lines := Buffer.alloc (rows + 1)
  let lines ← (List.range rows).foldlM (fun lines r =>
    let values := (List.range' 1 (cols - 1)).foldl
      (fun values c => values ++ "," ++ (data.get (r * cols + c)).text)
      (data.get (r * cols)).text
    lines.write r values) lines
  lines.write rows ""

def formatMatrix (data : Ptr Cfloat) (rows cols : Nat) : Option Lines := do
  pointsTo data.addr (← matrixLines data rows cols)

/-- A turn of the loops over `nptrs`: three lines of `slines` are taken. -/
def takeThree (lines : Lines) (i : Nat) (slines : Lines) : Option Lines := do
  let lines ← lines.write (i * 3) (← slines.read 0)
  let lines ← lines.write (i * 3 + 1) (← slines.read 1)
  lines.write (i * 3 + 2) (← slines.read 2)

def pointerLines (data : Ptr (Ptr Cfloat)) (nptrs : Nat) : Option Lines := do
  let lines : Lines := Buffer.alloc (3 * nptrs + 1)
  let lines ← (List.range nptrs).foldlM (fun lines i => do
    takeThree lines i (← formatScalar (data.get i))) lines
  lines.write (3 * nptrs) ""

def formatPointerList (data : Ptr (Ptr Cfloat)) (nptrs : Nat) :
    Option Lines := do
  pointsTo data.addr (← pointerLines data nptrs)

def pointerVectorLines (data : Ptr (Ptr Cfloat)) (nptrs len : Nat) :
    Option Lines := do
  let lines : Lines := Buffer.alloc (3 * nptrs + 1)
  let lines ← (List.range nptrs).foldlM (fun lines i => do
    takeThree lines i (← formatVector (data.get i) len)) lines
  lines.write (3 * nptrs) ""

def formatPointerVectorList (data : Ptr (Ptr Cfloat)) (nptrs len : Nat) :
    Option Lines := do
  pointsTo data.addr (← pointerVectorLines data nptrs len)

/-- The inner loop of `formatPointerPointerList`. -/
def copyLines (start : Nat) (lines slines : Lines) : Option Lines := do
  let n ← countLines slines
  (List.range n).foldlM (fun lines j => do
    lines.write (start + j) (← slines.read j)) lines

/-- The loop of `formatPointerPointerList`. -/
def nestedLoop (data : Ptr (Ptr (Ptr Cfloat))) (nptr1 nptr2 : Nat) :
    Option Lines :=
  (List.range nptr1).foldlM (fun lines i => do
    let slines ← formatPointerList (data.get i) nptr2
    copyLines (i * (nptr2 * 3 + 1)) lines slines)
    (Buffer.alloc (3 * nptr1 * nptr2 + 4))

def pointerPointerLines (data : Ptr (Ptr (Ptr Cfloat))) (nptr1 nptr2 : Nat) :
    Option Lines := do
  let lines ← nestedLoop data nptr1 nptr2
  lines.write (nptr1 * 3 * nptr2 + 3) ""

def formatPointerPointerList (data : Ptr (Ptr (Ptr Cfloat)))
    (nptr1 nptr2 : Nat) : Option Lines := do
  pointsTo data.addr (← pointerPointerLines data nptr1 nptr2)

/-- The lines `printFormat` prints. -/
def printFormat (descr : String) (lines : Lines) : Option (List String) := do
  let rows ← lines.upTo ""
  some ((descr ++ "\n") :: rows.map fun line => "   " ++ line ++ "\n")

end SchoolStuff.Format
