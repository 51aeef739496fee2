import Mathlib.Algebra.Order.Ring.Int
import Mathlib.Data.List.Basic

/-!
# CacheSim — the cache simulator of `cs320/project2/main.cpp`

`main` reads a trace of `(kind, address)` token pairs and drives, in one
pass, four direct-mapped caches, four set-associative caches under four
policies, a fully associative LRU cache and a "hot/cold" one. A vector is
a `List`, an `unsigned` a `UInt32`. The hit counters are `Nat`: the loop
runs at most `INT_MAX` times and raises each by at most one a turn, so the
`int`s of the source never wrap.

The `set_ass*`/`sets*` pair that every call of `find` passes by reference
is one `Store`.
-/

namespace SchoolStuff.CacheSim

/-! ## Trace tokens -/

/-- One trace record: the kind (`"L"` or `"S"`) and the address token. -/
abbrev Access := String × String

/-- Value of a hexadecimal digit. -/
def hexVal (c : Char) : Option Nat :=
  if '0' ≤ c ∧ c ≤ '9' then some (c.toNat - '0'.toNat)
  else if 'a' ≤ c ∧ c ≤ 'f' then some (c.toNat - 'a'.toNat + 10)
  else if 'A' ≤ c ∧ c ≤ 'F' then some (c.toNat - 'A'.toNat + 10)
  else none

/-- Value of the longest run of leading hexadecimal digits, on top of `n`. -/
def hexDigits (n : Nat) : List Char → Nat
  | [] => n
  | c :: cs =>
      match hexVal c with
      | some d => hexDigits (16 * n + d) cs
      | none => n

/-- An optional `0x` before at least one digit. -/
def dropHexPrefix : List Char → List Char
  | '0' :: x :: c :: cs =>
      if (x = 'x' ∨ x = 'X') ∧ (hexVal c).isSome then c :: cs
      else '0' :: x :: c :: cs
  | cs => cs

/-- `strtoll(s, nullptr, 16)`: blanks, a sign, an optional `0x`, digits up
to the first other character, clamped to the range of `long long`. -/
def strtoll (s : String) : Int :=
  let magnitude (cs : List Char) : Int := hexDigits 0 (dropHexPrefix cs)
  let value :=
    match s.toList.dropWhile Char.isWhitespace with
    | '-' :: cs => -magnitude cs
    | '+' :: cs => magnitude cs
    | cs => magnitude cs
  max (-2 ^ 63) (min value (2 ^ 63 - 1))

/-- The block number of an access: the address shifted right by five and
truncated to `unsigned`. -/
def block (a : Access) : UInt32 :=
  UInt32.ofInt (strtoll a.2 >>> (5 : Nat))

/-- What every cache line starts with: `-1` as an `unsigned`. -/
def filler : UInt32 := 0xFFFFFFFF

/-! ## The set-associative engine -/

/-- A family of set-associative caches (`set_ass[i][set][way]`) with its
hit counters (`sets[i]`). -/
structure Store where
  setAss : List (List (List UInt32))
  sets : List Nat
  deriving DecidableEq

/-- The lines of set `s` in configuration `i`, from front to back. -/
def Store.lines (st : Store) (i s : Nat) : List UInt32 :=
  (st.setAss.getD i []).getD s []

/-- Number of sets of configuration `i`. -/
def Store.size (st : Store) (i : Nat) : Nat :=
  (st.setAss.getD i []).length

/-- Replace set `s` of configuration `i`. -/
def Store.put (st : Store) (i s : Nat) (v : List UInt32) : Store :=
  { st with setAss := st.setAss.modify i fun cache => cache.set s v }

/-- `sets[i]++`. -/
def Store.hit (st : Store) (i : Nat) : Store :=
  { st with sets := st.sets.modify i (· + 1) }

/-- The block `find` looks up: the accessed one, or its successor. -/
def target (a : Access) (prefetch : Bool) : UInt32 :=
  if prefetch then block a + 1 else block a

/-- `find`: look a block up in configuration `i`, move it to the back of
its set on a hit, and on a miss replace the front entry — for a store only
when `lmiss` is off. -/
def find (st : Store) (lmiss : Bool) (a : Access) (i : Nat)
    (prefetch : Bool) : Bool × Store :=
  let addr := target a prefetch
  let ls := a.1
  let set2 := addr.toNat % st.size i
  let v := st.lines i set2
  match v.findIdx? (· == addr) with
  | some j =>
      -- a prefetched block moves to the back, but is no hit
      let st := if prefetch then st else st.hit i
      (true, st.put i set2 (v.eraseIdx j ++ [addr]))
  | none =>
      if lmiss && ls == "L" then (false, st.put i set2 (v.tail ++ [addr]))
      else if !lmiss then (false, st.put i set2 (v.tail ++ [addr]))
      -- a store that misses does not allocate
      else (false, st)

/-! ## The main loop -/

/-- Everything the trace loop of `main` updates. -/
structure Sim where
  direct : List (List UInt32)
  directHit : List Nat
  /-- `set_ass`, `sets1`: plain. -/
  store1 : Store
  /-- `set_ass2`, `sets2`: no allocation on a store miss. -/
  store2 : Store
  /-- `set_ass3`, `sets3`: next-line prefetch on every access. -/
  store3 : Store
  /-- `set_ass4`, `sets4`: next-line prefetch on a miss. -/
  store4 : Store
  fullAss : List UInt32
  full1 : Nat
  fullAss2 : List UInt32
  fullCount : List UInt32
  full2 : Nat

/-- The associativities of `for(int i = 2; i < 17; i*=2)`. -/
def assocs : List Nat := [2, 4, 8, 16]

/-- The set-associative caches before the first access: `512/i` sets of
`i` fillers for each associativity `i`. -/
def Store.init : Store where
  setAss := assocs.map fun i => List.replicate (512 / i) (List.replicate i filler)
  sets := List.replicate 4 0

/-- The state in which `main` enters the trace loop. -/
def Sim.init : Sim where
  direct := [32, 128, 512, 1024].map fun n => List.replicate n filler
  directHit := List.replicate 4 0
  store1 := .init
  store2 := .init
  store3 := .init
  store4 := .init
  fullAss := [filler]
  full1 := 0
  fullAss2 := [filler]
  fullCount := List.replicate 512 0
  full2 := 0

/-- The direct-mapped step of configuration `i`. -/
def Sim.directStep (s : Sim) (addr : UInt32) (i : Nat) : Sim :=
  let cache := s.direct.getD i []
  if cache.getD (addr.toNat % cache.length) 0 = addr then
    { s with directHit := s.directHit.modify i (· + 1) }
  else
    { s with direct :=
        s.direct.modify i fun c => c.set (addr.toNat % c.length) addr }

/-- The body of `for(int i = 0; i < 4; i ++)`. -/
def Sim.configStep (s : Sim) (a : Access) (i : Nat) : Sim :=
  let s := s.directStep (block a) i
  let s := { s with store1 := (find s.store1 false a i false).2 }
  let s := { s with store2 := (find s.store2 true a i false).2 }
  let s := { s with store3 := (find s.store3 false a i false).2 }
  let s := { s with store3 := (find s.store3 false a i true).2 }
  let r := find s.store4 false a i false
  { s with store4 := if !r.1 then (find r.2 false a i true).2 else r.2 }

/-- The fully associative LRU step. -/
def Sim.fullAssStep (s : Sim) (addr : UInt32) : Sim :=
  match s.fullAss.findIdx? (· == addr) with
  | some i =>
      { s with
        full1 := s.full1 + 1
        fullAss := s.fullAss.eraseIdx i ++ [addr] }
  | none =>
      -- the filler that the vector starts with counts as an entry
      if s.fullAss.length < 512 then { s with fullAss := s.fullAss ++ [addr] }
      else { s with fullAss := s.fullAss.tail ++ [addr] }

/-- The hot/cold victim search: the index of a smallest entry below
1000000, or 0. The source keeps `min` in an `int` that it compares, and
assigns, through `unsigned`; the value is the same. -/
def minIndex (v : List UInt32) : Nat :=
  (v.zipIdx.foldl (fun (acc : Nat × UInt32) x =>
    if x.1 < acc.2 then (x.2, x.1) else acc) (0, 1000000)).1

/-- The hot/cold step. -/
def Sim.hotColdStep (s : Sim) (addr : UInt32) : Sim :=
  match s.fullAss2.findIdx? (· == addr) with
  | some i =>
      { s with
        full2 := s.full2 + 1
        fullCount := s.fullCount.modify i (· + 1) }
  | none =>
      let index := minIndex s.fullAss2
      { s with
        fullAss2 := s.fullAss2.set index addr
        fullCount := s.fullCount.set index 0 }

/-- One turn of the trace loop. -/
def Sim.step (s : Sim) (a : Access) : Sim :=
  let s := (List.range 4).foldl (fun s i => s.configStep a i) s
  (s.fullAssStep (block a)).hotColdStep (block a)

/-- The state after the loop has processed the accesses `input`. -/
def Sim.run (input : List Access) : Sim :=
  input.foldl Sim.step Sim.init

/-! ## What each part of a turn leaves alone -/

theorem Sim.configStep_frame (s : Sim) (a : Access) (i : Nat) :
    s.configStep a i
      = { s.configStep a i with
          fullAss := s.fullAss
          full1 := s.full1
          fullAss2 := s.fullAss2
          fullCount := s.fullCount
          full2 := s.full2 } := by
  simp only [Sim.configStep, Sim.directStep]
  split <;> rfl

theorem Sim.fullAssStep_frame (s : Sim) (addr : UInt32) :
    s.fullAssStep addr
      = { s with
          fullAss := (s.fullAssStep addr).fullAss
          full1 := (s.fullAssStep addr).full1 } := by
  simp only [Sim.fullAssStep]
  split
  · rfl
  · split <;> rfl

theorem Sim.hotColdStep_frame (s : Sim) (addr : UInt32) :
    s.hotColdStep addr
      = { s with
          fullAss2 := (s.hotColdStep addr).fullAss2
          fullCount := (s.hotColdStep addr).fullCount
          full2 := (s.hotColdStep addr).full2 } := by
  simp only [Sim.hotColdStep]
  split <;> rfl

/-- What no configuration writes is as it was after all of them. -/
theorem Sim.foldl_configStep {α : Type} (f : Sim → α) {a : Access}
    (hf : ∀ (s : Sim) i, f (s.configStep a i) = f s) (l : List Nat) (s : Sim) :
    f (l.foldl (fun s i => s.configStep a i) s) = f s := by
  induction l generalizing s with
  | nil => rfl
  | cons i l ih => rw [List.foldl_cons, ih, hf]

theorem Sim.run_append (input : List Access) (a : Access) :
    Sim.run (input ++ [a]) = (Sim.run input).step a := by
  simp only [Sim.run, List.foldl_append, List.foldl_cons, List.foldl_nil]

end SchoolStuff.CacheSim
