import Mathlib.Algebra.Order.Ring.Nat
import Mathlib.Tactic.Common

/-!
# CText — bytes as the C library reads them

A string is a memory and a position in it, and ends before the first NUL
(`cstr`). `takeLine` is what `fgets` takes of a stream, and `scanHex` the
number that a hexadecimal conversion of `scanf` finds in an item. Each has
its reading lemma on a text of the right shape (`cstr_append`,
`takeLine_line`, `scanHex_digits`, `scanHex_base`).
-/

namespace SchoolStuff.CText

def newline : UInt8 := 10

def blank : UInt8 := 32

/-- The bytes of an ASCII text. -/
def ascii (s : String) : List UInt8 := s.toList.map fun c => c.toNat.toUInt8

/-- `isspace`, in the C locale. -/
def isSpace (c : UInt8) : Bool := c = blank || (9 ≤ c && c ≤ 13)

/-! ## Strings -/

/-- The string at `p`, if a NUL ends it. -/
def cstr (mem : List UInt8) (p : Nat) : Option (List UInt8) :=
  if 0 ∈ mem.drop p then some ((mem.drop p).takeWhile (· ≠ 0)) else none

/-- What `fgets` takes when there is room for `n` bytes and the NUL. -/
def takeLine : Nat → List UInt8 → List UInt8
  | 0, _ => []
  | _, [] => []
  | n + 1, c :: cs => if c = newline then [c] else c :: takeLine n cs

@[simp] theorem takeLine_nil (n : Nat) : takeLine n [] = [] := by
  cases n <;> rfl

theorem takeWhile_append_zero {s : List UInt8} (hs : 0 ∉ s) (post : List UInt8) :
    (s ++ 0 :: post).takeWhile (· ≠ 0) = s := by
  induction s with
  | nil => simp
  | cons c s ih =>
      simp only [List.mem_cons, not_or] at hs
      have hc : c ≠ 0 := Ne.symm hs.1
      rw [List.cons_append, List.takeWhile_cons, if_pos (by simpa using hc),
        ih hs.2]

theorem cstr_append (before : List UInt8) {s : List UInt8} (hs : 0 ∉ s)
    (post : List UInt8) :
    cstr (before ++ (s ++ 0 :: post)) before.length = some s := by
  simp only [cstr, List.drop_left]
  rw [if_pos (by simp), takeWhile_append_zero hs]

theorem takeLine_line {line : List UInt8} (hline : newline ∉ line)
    (rest : List UInt8) {n : Nat} (hn : line.length < n) :
    takeLine n (line ++ newline :: rest) = line ++ [newline] := by
  induction line generalizing n with
  | nil =>
      obtain ⟨n, rfl⟩ : ∃ k, n = k + 1 := ⟨n - 1, by simp at hn; omega⟩
      simp [takeLine]
  | cons c line ih =>
      simp only [List.mem_cons, not_or] at hline
      obtain ⟨n, rfl⟩ : ∃ k, n = k + 1 := ⟨n - 1, by simp at hn; omega⟩
      simp only [List.cons_append, takeLine, if_neg (Ne.symm hline.1)]
      rw [ih hline.2 (by simpa using hn)]

/-- The last line of a stream may end without a newline. -/
theorem takeLine_all {line : List UInt8} (hline : newline ∉ line) {n : Nat}
    (hn : line.length ≤ n) : takeLine n line = line := by
  induction line generalizing n with
  | nil => exact takeLine_nil n
  | cons c line ih =>
      simp only [List.mem_cons, not_or] at hline
      simp only [List.length_cons] at hn
      obtain ⟨n, rfl⟩ : ∃ k, n = k + 1 := ⟨n - 1, by omega⟩
      rw [takeLine, if_neg (Ne.symm hline.1), ih hline.2 (by omega)]

/-! ## Hexadecimal numbers -/

/-- The value of a hexadecimal digit. -/
def hexVal (c : UInt8) : Option Nat :=
  if 48 ≤ c.toNat ∧ c.toNat ≤ 57 then some (c.toNat - 48)
  else if 65 ≤ c.toNat ∧ c.toNat ≤ 70 then some (c.toNat - 55)
  else if 97 ≤ c.toNat ∧ c.toNat ≤ 102 then some (c.toNat - 87)
  else none

/-- The digits at the front of a text. -/
def hexDigits : List UInt8 → List Nat
  | [] => []
  | c :: cs =>
      match hexVal c with
      | some d => d :: hexDigits cs
      | none => []

def ofHexDigits (ds : List Nat) : Nat := ds.foldl (fun n d => 16 * n + d) 0

/-- The `0x` in front of a number. -/
def isBase (a b : UInt8) : Bool := a = 48 && (b = 120 || b = 88)

/-- A text without its `0x`. -/
def dropBase : List UInt8 → List UInt8
  | a :: b :: cs => if isBase a b then cs else a :: b :: cs
  | cs => cs

/-- A number without a sign, of at least one digit. The 0 of a `0x` is one,
so a `0x` without a digit behind it is 0. -/
def scanDigits (item : List UInt8) : Option Nat :=
  if hexDigits item = [] then none
  else some (ofHexDigits (hexDigits (dropBase item)))

/-- The number at the front of an item, as `strtoul` reads it in base 16. -/
def scanHex : List UInt8 → Option Int
  | [] => none
  | c :: cs =>
      if c = 45 then (scanDigits cs).map fun n : Nat => -(n : Int)
      else if c = 43 then (scanDigits cs).map Int.ofNat
      else (scanDigits (c :: cs)).map Int.ofNat

/-- The three ranges of the digits. -/
theorem hexVal_eq {c : UInt8} {d : Nat} (h : hexVal c = some d) :
    (48 ≤ c.toNat ∧ c.toNat ≤ 57 ∧ d = c.toNat - 48)
    ∨ (65 ≤ c.toNat ∧ c.toNat ≤ 70 ∧ d = c.toNat - 55)
    ∨ (97 ≤ c.toNat ∧ c.toNat ≤ 102 ∧ d = c.toNat - 87) := by
  unfold hexVal at h
  split at h
  · cases h
    omega
  · split at h
    · cases h
      omega
    · split at h
      · cases h
        omega
      · cases h

/-- No digit is the NUL, a newline or a sign, and none belongs to `0x`. -/
theorem digit_ne {c e : UInt8} {d : Nat} (h : hexVal c = some d)
    (he : hexVal e = none) : c ≠ e := by
  rintro rfl
  rw [h] at he
  cases he

theorem digit_not_space {c : UInt8} {d : Nat} (h : hexVal c = some d) :
    isSpace c = false := by
  have hc := hexVal_eq h
  have hblank : c ≠ blank := digit_ne h (by decide)
  have hlt : ¬c ≤ 13 := by
    rw [UInt8.le_iff_toNat_le]
    change ¬c.toNat ≤ 13
    omega
  simp [isSpace, hblank, hlt]

theorem hexDigits_all {text : List UInt8} {ds : List Nat}
    (h : text.map hexVal = ds.map some) : hexDigits text = ds := by
  induction text generalizing ds with
  | nil =>
      cases ds with
      | nil => rfl
      | cons d ds => simp at h
  | cons c text ih =>
      cases ds with
      | nil => simp at h
      | cons d ds =>
          simp only [List.map_cons, List.cons.injEq] at h
          simp only [hexDigits, h.1, ih h.2]

theorem hexDigits_cons {c : UInt8} {d : Nat} (h : hexVal c = some d)
    (cs : List UInt8) : hexDigits (c :: cs) = d :: hexDigits cs := by
  simp only [hexDigits, h]

theorem hexDigits_of_none {c : UInt8} (h : hexVal c = none) (cs : List UInt8) :
    hexDigits (c :: cs) = [] := by
  simp only [hexDigits, h]

/-- A `0x` is behind a digit. -/
theorem hexDigits_dropBase {text : List UInt8} (h : hexDigits text = []) :
    hexDigits (dropBase text) = [] := by
  match text, h with
  | [], h => exact h
  | [_], h => exact h
  | a :: b :: cs, h =>
      by_cases hbase : isBase a b = true
      · have ha : a = 48 := by
          simp only [isBase, Bool.and_eq_true, decide_eq_true_eq] at hbase
          exact hbase.1
        rw [ha, hexDigits_cons (d := 0) (by decide)] at h
        exact absurd h (by simp)
      · rwa [dropBase, if_neg hbase]

theorem scanDigits_of {text : List UInt8} {ds : List Nat} (hds : ds ≠ [])
    (h : (dropBase text).map hexVal = ds.map some) :
    scanDigits text = some (ofHexDigits ds) := by
  have hne : hexDigits text ≠ [] := fun hnil =>
    hds ((hexDigits_all h).symm.trans (hexDigits_dropBase hnil))
  simp only [scanDigits, hexDigits_all h, if_neg hne]

/-- In a text of digits only there is no `0x` to drop. -/
theorem dropBase_digits {text : List UInt8} {ds : List Nat}
    (h : text.map hexVal = ds.map some) : dropBase text = text := by
  match text, ds, h with
  | [], _, _ => rfl
  | [_], _, _ => rfl
  | a :: b :: cs, [], h => simp at h
  | a :: b :: cs, [_], h => simp at h
  | a :: b :: cs, d :: e :: ds, h =>
      simp only [List.map_cons, List.cons.injEq] at h
      have hx : b ≠ 120 := digit_ne h.2.1 (by decide)
      have hX : b ≠ 88 := digit_ne h.2.1 (by decide)
      simp [dropBase, isBase, hx, hX]

/-- An item that starts with a digit has no sign. -/
theorem scanHex_unsigned {c : UInt8} {d : Nat} (h : hexVal c = some d)
    (cs : List UInt8) :
    scanHex (c :: cs) = (scanDigits (c :: cs)).map Int.ofNat := by
  have hminus : c ≠ 45 := digit_ne h (by decide)
  have hplus : c ≠ 43 := digit_ne h (by decide)
  simp only [scanHex, if_neg hminus, if_neg hplus]

theorem scanHex_digits {text : List UInt8} {ds : List Nat} (hds : ds ≠ [])
    (h : text.map hexVal = ds.map some) :
    scanHex text = some (ofHexDigits ds : Int) := by
  have hscan := scanDigits_of hds ((dropBase_digits h).symm ▸ h)
  cases text with
  | nil =>
      cases ds with
      | nil => exact absurd rfl hds
      | cons d ds => simp at h
  | cons c cs =>
      cases ds with
      | nil => exact absurd rfl hds
      | cons d ds =>
          simp only [List.map_cons, List.cons.injEq] at h
          rw [scanHex_unsigned h.1, hscan]
          rfl

theorem scanHex_base {a b : UInt8} (hbase : isBase a b = true)
    {text : List UInt8} {ds : List Nat} (hds : ds ≠ [])
    (h : text.map hexVal = ds.map some) :
    scanHex (a :: b :: text) = some (ofHexDigits ds : Int) := by
  have hdrop : dropBase (a :: b :: text) = text := by simp [dropBase, hbase]
  have ha : a = 48 := by
    simp only [isBase, Bool.and_eq_true, decide_eq_true_eq] at hbase
    exact hbase.1
  have hzero : hexVal a = some 0 := by
    rw [ha]
    decide
  rw [scanHex_unsigned hzero, scanDigits_of hds (hdrop.symm ▸ h)]
  rfl

end SchoolStuff.CText
