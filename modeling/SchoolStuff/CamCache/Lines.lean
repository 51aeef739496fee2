import Mathlib.Algebra.Order.Ring.Nat
import Mathlib.Tactic.Common
import SchoolStuff.Lib.CInt

/-!
# CamCache — line table and CAMs (`cs220/lab13/lines.c`, `cam.c`)

A failed `assert` and an access outside of an array are faults. The clock
of `lines.c`, a static variable there, is a field of the line table here; it
is an `int` of 32 bits, which wraps around where the source leaves an
overflow undefined. The other counts grow by at most one with an access, so
they are in the range of `int` for fewer than `2 ^ 31` of them
(`counts_inRange`). An `unsigned long` is a 64-bit vector.
-/

namespace SchoolStuff.CamCache

/-- Ways for the program to stop. -/
inductive Fault
  /-- An `assert` fails. -/
  | assertion
  /-- An array is accessed outside of its bounds. -/
  | outOfBounds
  /-- Something that is no line table is used as one. -/
  | badPointer
  /-- A division by zero. -/
  | division
  deriving DecidableEq, Repr

/-- `assert(p)`. -/
def ensure (p : Prop) [Decidable p] : Except Fault Unit :=
  if p then .ok () else .error .assertion

/-! ## `lines.c` -/

/-- `struct line_struct`. -/
structure LineStruct where
  valid : Bool
  dirty : Bool
  lastUsed : Int
  deriving DecidableEq, Repr

/-- `struct lines_data`, and the clock. -/
structure Lines where
  n : Int
  lines : List LineStruct
  misses : Int
  hits : Int
  writes : Int
  time : Int
  deriving DecidableEq, Repr

/-- `lines_create`. -/
def linesCreate (n : Int) : Lines where
  n := n
  lines := List.replicate n.toNat ⟨false, false, 0⟩
  misses := 0
  hits := 0
  writes := 0
  time := 1

/-- `lines->lines[line]`. -/
def Lines.get (d : Lines) (line : Int) : Except Fault LineStruct :=
  if 0 ≤ line then
    match d.lines[line.toNat]? with
    | some l => .ok l
    | none => .error .outOfBounds
  else .error .outOfBounds

def Lines.set (d : Lines) (line : Int) (l : LineStruct) : Lines :=
  { d with lines := d.lines.set line.toNat l }

/-- A `linesptr`: the table `main` creates, or an `int` that is passed as
one. -/
inductive LinesPtr
  | table
  | ofInt (n : Int)

/-- The table behind the pointer, after `assert(lines)`. -/
def LinesPtr.deref (p : LinesPtr) (d : Lines) : Except Fault Lines :=
  match p with
  | .table => .ok d
  | .ofInt n => if n = 0 then .error .assertion else .error .badPointer

/-- `line_setValid`. -/
def lineSetValid (p : LinesPtr) (d : Lines) (line : Int) :
    Except Fault Lines := do
  let d ← p.deref d
  ensure (line < d.n)
  let d := { d with misses := d.misses + 1 }
  let l ← d.get line
  let d := if l.valid && l.dirty then { d with writes := d.writes + 1 } else d
  .ok (d.set line { l with valid := true, dirty := false })

/-- `line_isValid`. -/
def lineIsValid (d : Lines) (line : Int) : Except Fault Bool := do
  ensure (line < d.n)
  let l ← d.get line
  .ok l.valid

/-- `line_setUsed`. -/
def lineSetUsed (d : Lines) (line : Int) : Except Fault Lines := do
  ensure (line < d.n)
  let l ← d.get line
  ensure (l.valid = true)
  let d := { d with hits := d.hits + 1 }
  let d := d.set line { l with lastUsed := d.time }
  .ok { d with time := CInt.wrap (d.time + 1) }

/-- The loop of `line_firstUsed`, with `turns` turns to go. -/
def firstUsedLoop (d : Lines) : Nat → Int → Int → Int → Except Fault Int
  | 0, _, first, _ => .ok first
  | turns + 1, i, first, oldest => do
      let l ← d.get i
      if !l.valid then .ok i
      else if l.lastUsed < oldest then firstUsedLoop d turns (i + 1) i l.lastUsed
      else firstUsedLoop d turns (i + 1) first oldest

/-- `line_firstUsed`. -/
def lineFirstUsed (d : Lines) (start stop : Int) : Except Fault Int := do
  ensure (0 ≤ start)
  ensure (start < stop)
  ensure (stop ≤ d.n)
  firstUsedLoop d (stop - start).toNat start start (CInt.wrap (d.time + 1))

/-- `line_setDirty`. -/
def lineSetDirty (d : Lines) (line : Int) : Except Fault Lines := do
  ensure (line < d.n)
  let l ← d.get line
  .ok (d.set line { l with dirty := true })

/-! ## `cam.c` -/

/-- `unsigned long`. -/
abbrev Word := BitVec 64

/-- `struct cam_data`. -/
structure Cam where
  rows : Int
  data : List Word
  deriving DecidableEq, Repr

/-- `cam_create`. The array of a negative number of rows is not allocated. -/
def camCreate (rows : Int) (initval : Word) : Except Fault Cam := do
  ensure (0 ≤ rows)
  .ok { rows := rows, data := List.replicate rows.toNat initval }

/-- `cam_write`. -/
def camWrite (cam : Cam) (address : Int) (value : Word) : Except Fault Cam := do
  ensure (address < cam.rows)
  if 0 ≤ address ∧ address.toNat < cam.data.length then
    .ok { cam with data := cam.data.set address.toNat value }
  else .error .outOfBounds

/-- `cam_read`: the first row with the value, or -1. -/
def camRead (cam : Cam) (value : Word) : Int :=
  match cam.data.findIdx? (· == value) with
  | some i => i
  | none => -1

/-! ## What a call does in range -/

/-- The entry of a line, for lines that exist. -/
def Lines.at (d : Lines) (i : Nat) : LineStruct :=
  d.lines[i]?.getD ⟨false, false, 0⟩

/-- The table has the `n` lines it says. -/
def Lines.Sized (d : Lines) (n : Nat) : Prop :=
  d.n = n ∧ d.lines.length = n

variable {d : Lines} {n i : Nat}

@[simp] theorem ensure_pos {p : Prop} [Decidable p] (h : p) :
    ensure p = .ok () :=
  if_pos h

theorem ensure_neg {p : Prop} [Decidable p] (h : ¬ p) :
    ensure p = .error .assertion :=
  if_neg h

theorem Lines.Sized.get (h : d.Sized n) (hi : i < n) :
    d.get i = .ok (d.at i) := by
  have hlt : i < d.lines.length := by rw [h.2]; exact hi
  simp [Lines.get, Lines.at, hlt]

theorem Lines.at_set (hi : i < d.lines.length) (l : LineStruct) (j : Nat) :
    (d.set i l).at j = if j = i then l else d.at j := by
  by_cases hj : j = i
  · subst hj
    simp [Lines.at, Lines.set, hi]
  · rw [if_neg hj, Lines.at, Lines.at, Lines.set, Int.toNat_natCast,
      List.getElem?_set_ne (Ne.symm hj)]

theorem Lines.Sized.isValid (h : d.Sized n) (hi : i < n) :
    lineIsValid d i = .ok (d.at i).valid := by
  have hlt : (i : Int) < d.n := by rw [h.1]; exact Int.ofNat_lt.mpr hi
  simp only [lineIsValid, ensure_pos hlt, h.get hi]
  rfl

theorem linesCreate_sized (n : Nat) : (linesCreate n).Sized n := by
  simp [Lines.Sized, linesCreate]

theorem linesCreate_at (n i : Nat) :
    (linesCreate n).at i = ⟨false, false, 0⟩ := by
  by_cases hi : i < n <;> simp [Lines.at, linesCreate, hi]

theorem ok_bind {ε α β : Type} (a : α) (f : α → Except ε β) :
    (Except.ok a : Except ε α) >>= f = f a := rfl

theorem error_bind {ε α β : Type} (e : ε) (f : α → Except ε β) :
    (Except.error e : Except ε α) >>= f = .error e := rfl

theorem bind_eq_ok {ε α β : Type} {x : Except ε α} {f : α → Except ε β}
    {b : β} : x >>= f = .ok b ↔ ∃ a, x = .ok a ∧ f a = .ok b := by
  cases x with
  | error e => simp [error_bind]
  | ok a => simp [ok_bind]

theorem ensure_eq_ok {p : Prop} [Decidable p] {u : Unit} :
    ensure p = .ok u ↔ p := by
  by_cases h : p
  · simp [ensure_pos, h]
  · simp [ensure_neg, h]

/-! ## The search for a victim -/

theorem firstUsedLoop_succ (h : d.Sized n) (hi : i < n) (turns : Nat)
    (first oldest : Int) :
    firstUsedLoop d (turns + 1) i first oldest
      = if (d.at i).valid = false then .ok i
        else if (d.at i).lastUsed < oldest then
          firstUsedLoop d turns (i + 1 : Nat) i (d.at i).lastUsed
        else firstUsedLoop d turns (i + 1 : Nat) first oldest := by
  rw [firstUsedLoop, h.get hi, ok_bind]
  cases (d.at i).valid <;> rfl

/-- The first invalid line is taken. -/
theorem firstUsedLoop_invalid (h : d.Sized n) {j : Nat}
    (hj : (d.at j).valid = false) :
    ∀ (turns i : Nat) (first oldest : Int), i + turns ≤ n → i ≤ j →
      j < i + turns → (∀ i', i ≤ i' → i' < j → (d.at i').valid = true) →
      firstUsedLoop d turns i first oldest = .ok j := by
  intro turns
  induction turns with
  | zero => intro i first oldest _ hij hji; omega
  | succ turns ih =>
      intro i first oldest hn hij hji hvalid
      rw [firstUsedLoop_succ h (by omega)]
      rcases Nat.eq_or_lt_of_le hij with rfl | hlt
      · rw [if_pos hj]
      · have hi := hvalid i (Nat.le_refl i) hlt
        rw [if_neg (by simp [hi])]
        split <;> exact ih (i + 1) _ _ (by omega) (by omega) (by omega)
          fun i' hi' => hvalid i' (by omega)

/-- Nothing older than `oldest` leaves the line found so far. -/
theorem firstUsedLoop_none (h : d.Sized n) :
    ∀ (turns i : Nat) (first oldest : Int), i + turns ≤ n →
      (∀ i', i ≤ i' → i' < i + turns → (d.at i').valid = true) →
      (∀ i', i ≤ i' → i' < i + turns → oldest ≤ (d.at i').lastUsed) →
      firstUsedLoop d turns i first oldest = .ok first := by
  intro turns
  induction turns with
  | zero => exact fun _ _ _ _ _ _ => rfl
  | succ turns ih =>
      intro i first oldest hn hvalid hold
      rw [firstUsedLoop_succ h (by omega),
        if_neg (by simp [hvalid i (Nat.le_refl i) (by omega)]),
        if_neg (Int.not_lt.mpr (hold i (Nat.le_refl i) (by omega)))]
      exact ih (i + 1) first oldest (by omega)
        (fun i' hi' hlt => hvalid i' (by omega) (by omega))
        (fun i' hi' hlt => hold i' (by omega) (by omega))

/-- **Among valid lines the one used first is taken.** -/
theorem firstUsedLoop_oldest (h : d.Sized n) {j : Nat} :
    ∀ (turns i : Nat) (first oldest : Int), i + turns ≤ n → i ≤ j →
      j < i + turns →
      (∀ i', i ≤ i' → i' < i + turns → (d.at i').valid = true) →
      (d.at j).lastUsed < oldest →
      (∀ i', i ≤ i' → i' < i + turns → i' ≠ j →
        (d.at j).lastUsed < (d.at i').lastUsed) →
      firstUsedLoop d turns i first oldest = .ok j := by
  intro turns
  induction turns with
  | zero => intro i first oldest _ hij hji; omega
  | succ turns ih =>
      intro i first oldest hn hij hji hvalid hold hmin
      rw [firstUsedLoop_succ h (by omega),
        if_neg (by simp [hvalid i (Nat.le_refl i) (by omega)])]
      have hvalid' : ∀ i', i + 1 ≤ i' → i' < i + 1 + turns →
          (d.at i').valid = true :=
        fun i' hi' hlt => hvalid i' (by omega) (by omega)
      rcases Nat.eq_or_lt_of_le hij with rfl | hlt
      · rw [if_pos hold]
        exact firstUsedLoop_none h turns (i + 1) i _ (by omega) hvalid'
          fun i' hi' hlt =>
            Int.le_of_lt (hmin i' (by omega) (by omega) (by omega))
      · have hi := hmin i (Nat.le_refl i) (by omega) (by omega)
        split
        · exact ih (i + 1) _ _ (by omega) (by omega) (by omega) hvalid' hi
            fun i' hi' hlt => hmin i' (by omega) (by omega)
        · exact ih (i + 1) _ _ (by omega) (by omega) (by omega) hvalid' hold
            fun i' hi' hlt => hmin i' (by omega) (by omega)

/-- In any case one of the lines that were searched is taken. -/
theorem firstUsedLoop_range (h : d.Sized n) :
    ∀ (turns i first : Nat) (oldest : Int), i + turns ≤ n →
      ∃ j : Nat, firstUsedLoop d turns i first oldest = .ok j
        ∧ (j = first ∨ (i ≤ j ∧ j < i + turns)) := by
  intro turns
  induction turns with
  | zero => exact fun i first oldest _ => ⟨first, rfl, Or.inl rfl⟩
  | succ turns ih =>
      intro i first oldest hn
      rw [firstUsedLoop_succ h (by omega)]
      split
      · exact ⟨i, rfl, Or.inr ⟨Nat.le_refl i, by omega⟩⟩
      · split
        · obtain ⟨j, hj, hrange⟩ := ih (i + 1) i (d.at i).lastUsed (by omega)
          exact ⟨j, hj, Or.inr (by omega)⟩
        · obtain ⟨j, hj, hrange⟩ := ih (i + 1) first oldest (by omega)
          exact ⟨j, hj, by omega⟩

theorem lineFirstUsed_eq (h : d.Sized n) {a b : Nat} (hab : a < b)
    (hb : b ≤ n) :
    lineFirstUsed d a b
      = firstUsedLoop d (b - a) a a (CInt.wrap (d.time + 1)) := by
  have hbn : (b : Int) ≤ d.n := by rw [h.1]; exact Int.ofNat_le.mpr hb
  simp only [lineFirstUsed, ensure_pos (Int.natCast_nonneg a),
    ensure_pos (Int.ofNat_lt.mpr hab), ensure_pos hbn, ok_bind]
  rw [show ((b : Int) - a).toNat = b - a by omega]

end SchoolStuff.CamCache
