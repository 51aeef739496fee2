import SchoolStuff.Lib.Loop
import SchoolStuff.Lib.CText

/-!
# Mix — the byte encoder (`cs220/lab11/mix.c`)

`mix` turns a script of lines into bytes. `nextLine` reads every line into
one static buffer, so what an earlier line left behind the NUL of a later
one is still there; `dstring` is a position in that buffer. A `char` is a
`UInt8`, and an access outside of the buffer is `none`.
-/

namespace SchoolStuff.Mix

open CText

/-- `enum lineTypes`. -/
inductive LineType where
  | string
  | hex
  | address
  | comment
  | eof
  | error
  deriving DecidableEq, Repr

/-- `sizeof(buffer)`. -/
def BUFSIZE : Nat := 256

structure St where
  /-- What of `stdin` is unread. -/
  stdin : List UInt8
  /-- `feof(stdin)`. -/
  atEof : Bool
  /-- The static `buffer` of `nextLine`. -/
  buffer : List UInt8
  /-- Where `dstring` points. At the end of the script it is `NULL`, but
  then nothing reads it. -/
  dstring : Nat
  stdout : List UInt8
  stderr : List UInt8
  /-- What `main` returned, once it has. -/
  status : Option Nat
  deriving DecidableEq, Repr

def St.init (script : List UInt8) : St :=
  { stdin := script
    atEof := false
    buffer := List.replicate BUFSIZE 0
    dstring := 0
    stdout := []
    stderr := []
    status := none }

/-! ## The conversions of `sscanf` -/

/-- `%2hhx`. -/
def scan2hhx (s : List UInt8) : Option UInt8 :=
  (scanHex ((s.dropWhile isSpace).take 2)).map UInt8.ofInt

/-- What `strtoul` makes of a number: the largest one if it is too large. -/
def toUInt64 (n : Int) : UInt64 :=
  if n.natAbs < 2 ^ 64 then UInt64.ofInt n else UInt64.ofNat (2 ^ 64 - 1)

def toLower (c : UInt8) : UInt8 := if 65 ≤ c && c ≤ 90 then c + 32 else c

/-- What `%p` prints for a null pointer, in letters of either case. -/
def isNil (s : List UInt8) : Bool := (s.take 5).map toLower = ascii "(nil)"

/-- `%p`. -/
def scanP (s : List UInt8) : Option UInt64 :=
  let item := s.dropWhile isSpace
  match scanHex item with
  | some n => some (toUInt64 n)
  | none => if isNil item then some 0 else none

/-! ## `nextLine` -/

/-- The type of a line that starts with `c`. -/
def lineType (c : UInt8) : LineType :=
  if c = 83 then .string
  else if c = 88 then .hex
  else if c = 65 then .address
  else if c = 35 then .comment
  else .error

/-- `fgets(buffer, sizeof(buffer), stdin)`, and whether it is not `NULL`. -/
def St.fgets (st : St) : Bool × St :=
  let line := takeLine (BUFSIZE - 1) st.stdin
  if line = [] then (false, { st with atEof := true })
  else (true,
    { st with
      stdin := st.stdin.drop line.length
      -- the end is seen when it is what the line ended at
      atEof := line.getLast? ≠ some newline && line.length < BUFSIZE - 1
      buffer := line ++ 0 :: st.buffer.drop (line.length + 1) })

/-- `nextLine`. A line that starts with a NUL makes it write in front of the
buffer. -/
def St.nextLine (st : St) : Option (LineType × St) :=
  if st.atEof then some (.eof, st)
  else
    match st.fgets with
    | (false, st) => some (.eof, st)
    | (true, st) => do
        let line ← cstr st.buffer 0
        guard (line ≠ [])
        let buffer := st.buffer.set (line.length - 1) 0
        some (lineType (buffer.getD 0 0), { st with buffer := buffer, dstring := 2 })

/-! ## `main` -/

/-- The string at `dstring`. -/
def St.text (st : St) : Option (List UInt8) := cstr st.buffer st.dstring

/-- What `%2hhx` prints. -/
def hex2 (c : UInt8) : List UInt8 :=
  let ds := Nat.toDigits 16 c.toNat
  ascii (String.ofList (List.replicate (2 - ds.length) ' ' ++ ds))

/-- A message to `stderr`, and `return`. -/
def St.fail (st : St) (status : Nat) (message : List UInt8) : St :=
  { st with stderr := st.stderr ++ message, status := some status }

/-- A turn of the loop over a hex line that is not at a blank. -/
def St.hexPair (st : St) (c : UInt8) : Option St := do
  let s ← st.text
  match scan2hhx s with
  | none => some (st.fail 1
      (ascii "Please use only hexadecimal characters on hex lines... got "
        ++ s ++ ascii " (that starts with " ++ hex2 c ++ ascii ")\n"))
  | some hexVal =>
      some { st with stdout := st.stdout ++ [hexVal], dstring := st.dstring + 2 }

/-- The body of the loop over a hex line. -/
def hexBody (st : St) : Option St := do
  let c ← st.buffer[st.dstring]?
  if c = blank then some { st with dstring := st.dstring + 1 } else st.hexPair c

/-- `(*dstring) != 0x00`, as long as `main` has not returned. -/
def hexCond (st : St) : Bool :=
  st.status.isNone && st.buffer[st.dstring]? != some 0

/-- `ach.bytes`, on a little-endian host. -/
def addrBytes (addr : UInt64) : List UInt8 :=
  (List.range 8).map fun i => UInt8.ofNat (addr.toNat / 256 ^ i)

/-- The `switch` on the type of a line. -/
def St.switch (fuel : Nat) (st : St) : LineType → Option St
  | .comment => some st
  | .string => do
      let s ← st.text
      some { st with stdout := st.stdout ++ s }
  | .hex => Loop.run hexCond hexBody fuel st
  | .address => do
      let s ← st.text
      match scanP s with
      | none => some (st.fail 2
          (ascii "Please use only hexadecimal values on address lines... got "
            ++ s ++ ascii "\n"))
      | some addr => some { st with stdout := st.stdout ++ addrBytes addr }
  | _ => do
      let s ← st.text
      some (st.fail 3 (ascii "Invalid input line: " ++ s ++ ascii "\n"))

/-- A turn of the loop of `main`: the next line, and what it stands for. -/
def mainBody (fuel : Nat) (st : St) : Option St := do
  let (lt, st) ← st.nextLine
  if lt = .eof then some { st with status := some 0 } else st.switch fuel lt

/-- `main`, with at most `fuel` turns for each of its loops. -/
def main (fuel : Nat) (script : List UInt8) : Option St :=
  Loop.run (fun st => st.status.isNone) (mainBody fuel) fuel (St.init script)

example : (main 300 (ascii "X 4 1\n")).map (·.status) = some (some 0) := by
  decide +kernel

end SchoolStuff.Mix
