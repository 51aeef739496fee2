import Mathlib.Algebra.Order.Ring.Int
import Mathlib.Tactic.Ring

/-!
# Bits — fields of a word (`cs220/lav07/bits.c`)

A `long` is a word of 64 bits, its arithmetic is that of two's complement,
and `>>` of a `long` copies the sign. A failed assertion is `none`. The
single bits come from `nthbit`, a field from `bitRange`, which masks with
`n1bits`. For `x > 0` that is a word of `x` ones, but `n1bits(0)` is 1, so
an empty field has the bit at its position.
-/

namespace SchoolStuff.Bits

abbrev Long := BitVec 64

/-! ## `bits.c` -/

def power2 (x : Int) : Option Long :=
  if 0 ≤ x ∧ x < 64 then some (1#64 <<< x.toNat) else none

def n1bits (x : Int) : Option Long :=
  if 0 ≤ x ∧ x < 64 then do
    let mask ← power2 x
    if x ≠ 0 then some (mask - 1#64) else some mask
  else none

/-- `nthbit`. The `int` of the result is returned as a `char`. -/
def nthbit (x : Long) (n : Int) : Option (BitVec 8) :=
  if 0 ≤ n ∧ n < 64 then
    let ret := (x.sshiftRight n.toNat &&& 1#64).setWidth 32
    some (ret.setWidth 8)
  else none

def bitRange (x : Long) (fb nbits : Int) : Option Long :=
  if 0 ≤ fb ∧ 0 ≤ nbits ∧ fb < 64 ∧ fb + nbits < 64 then do
    let mask ← n1bits nbits
    let mask := mask <<< fb.toNat
    let mask := x &&& mask
    some (mask.sshiftRight fb.toNat)
  else none

/-- The sum over `i < nbits` of `nthbit(x, fb + i) * 2^i`. -/
def bitSum (x : Long) (fb : Int) : Nat → Option Int
  | 0 => some 0
  | i + 1 => do
      let sum ← bitSum x fb i
      let bit ← nthbit x (fb + i)
      some (sum + bit.toInt * 2 ^ i)

/-! ## Single bits -/

/-- `nthbit` is the bit. -/
theorem nthbit_eq (x : Long) {n : Nat} (hn : n < 64) :
    nthbit x n = some (if x.getLsbD n then 1#8 else 0#8) := by
  have hbit : ((x.sshiftRight n &&& 1#64).setWidth 32).setWidth 8
      = if x.getLsbD n then 1#8 else 0#8 := by
    apply BitVec.eq_of_getLsbD_eq
    intro i hi
    by_cases h0 : i = 0
    · subst h0
      have hlow : (x.sshiftRight n).getLsbD 0 = x.getLsbD n := by
        rw [BitVec.getLsbD_sshiftRight, Nat.add_zero, if_pos hn]
        rfl
      rw [BitVec.getLsbD_setWidth, BitVec.getLsbD_setWidth, BitVec.getLsbD_and,
        hlow]
      cases x.getLsbD n <;> rfl
    · cases x.getLsbD n <;> simp [h0]
  rw [nthbit, if_pos ⟨by omega, by omega⟩, Int.toNat_natCast]
  exact congrArg some hbit

theorem toInt_nthbit (x : Long) (n : Nat) :
    (if x.getLsbD n then 1#8 else 0#8 : BitVec 8).toInt
      = (x.toNat / 2 ^ n % 2 : Nat) := by
  rw [← Nat.toNat_testBit]
  cases hx : x.getLsbD n with
  | true =>
      have hx : x.toNat.testBit n = true := hx
      rw [hx]
      rfl
  | false =>
      have hx : x.toNat.testBit n = false := hx
      rw [hx]
      rfl

/-- The sum of the bits of a field is the field. -/
theorem bitSum_eq (x : Long) {fb n : Nat} (hn : fb + n ≤ 64) :
    bitSum x fb n = some ((x.toNat / 2 ^ fb % 2 ^ n : Nat) : Int) := by
  induction n with
  | zero => simp [bitSum, Nat.mod_one]
  | succ n ih =>
      have hbit : nthbit x ((fb : Int) + n)
          = some (if x.getLsbD (fb + n) then 1#8 else 0#8) := by
        rw [← Nat.cast_add]
        exact nthbit_eq x (by omega)
      simp only [bitSum, ih (by omega), hbit, Option.bind_eq_bind,
        Option.bind_some, toInt_nthbit]
      rw [Nat.mod_pow_succ, Nat.div_div_eq_div_mul, ← Nat.pow_add]
      congr 1
      push_cast
      ring

/-! ## Fields -/

theorem n1bits_pos {n : Nat} (h0 : 0 < n) (hn : n < 64) :
    n1bits n = some (1#64 <<< n - 1#64) := by
  rw [n1bits, if_pos ⟨by omega, by omega⟩, power2,
    if_pos ⟨by omega, by omega⟩, Int.toNat_natCast]
  show (if (n : Int) ≠ 0 then _ else _) = _
  rw [if_pos (by omega)]

/-- A word of `n` ones. -/
theorem getLsbD_ones {n : Nat} (hn : n < 64) (i : Nat) :
    (1#64 <<< n - 1#64).getLsbD i = decide (i < n) := by
  have hle : 2 ^ n ≤ 2 ^ 63 := Nat.pow_le_pow_right (by decide) (by omega)
  have hpos : 0 < 2 ^ n := Nat.two_pow_pos n
  have htoNat : (1#64 <<< n - 1#64).toNat = 2 ^ n - 1 := by
    rw [BitVec.toNat_sub, BitVec.toNat_shiftLeft, BitVec.toNat_ofNat,
      Nat.shiftLeft_eq]
    omega
  rw [BitVec.getLsbD, htoNat, Nat.testBit_two_pow_sub_one]

/-- What is masked out and shifted down, bit by bit. -/
theorem getLsbD_field (x mask : Long) {fb i : Nat} (hi : fb + i < 64) :
    ((x &&& mask <<< fb).sshiftRight fb).getLsbD i
      = (x.getLsbD (fb + i) && mask.getLsbD i) := by
  rw [BitVec.getLsbD_sshiftRight, if_pos hi, BitVec.getLsbD_and,
    BitVec.getLsbD_shiftLeft, Nat.add_sub_cancel_left]
  simp [hi, show ¬ 64 ≤ i from by omega]

/-- A mask of `n` ones does not reach the sign, so no copies of it are
shifted in. -/
theorem getLsbD_onesField (x : Long) {fb n i : Nat} (hn : fb + n < 64)
    (hi : i < 64) :
    ((x &&& (1#64 <<< n - 1#64) <<< fb).sshiftRight fb).getLsbD i
      = (decide (i < n) && x.getLsbD (fb + i)) := by
  by_cases hlow : fb + i < 64
  · rw [getLsbD_field x _ hlow, getLsbD_ones (by omega), Bool.and_comm]
  · have hsign : (x &&& (1#64 <<< n - 1#64) <<< fb).msb = false := by
      rw [BitVec.msb_eq_getLsbD_last, BitVec.getLsbD_and,
        BitVec.getLsbD_shiftLeft, getLsbD_ones (by omega)]
      simp [show ¬ 63 - fb < n from by omega]
    rw [BitVec.getLsbD_sshiftRight, if_neg hlow, hsign]
    simp [show ¬ i < n from by omega]

/-- With at least one bit the field is what its bits add up to. -/
theorem bitRange_pos (x : Long) {fb n : Nat} (h0 : 0 < n) (hn : fb + n < 64) :
    ∃ r, bitRange x fb n = some r
      ∧ r.toInt = (x.toNat / 2 ^ fb % 2 ^ n : Nat) := by
  refine ⟨(x &&& (1#64 <<< n - 1#64) <<< fb).sshiftRight fb, ?_, ?_⟩
  · rw [bitRange, if_pos ⟨by omega, by omega, by omega, by omega⟩,
      n1bits_pos h0 (by omega)]
    rfl
  · have htoNat : ((x &&& (1#64 <<< n - 1#64) <<< fb).sshiftRight fb).toNat
        = x.toNat / 2 ^ fb % 2 ^ n := by
      apply Nat.eq_of_testBit_eq
      intro i
      rw [Nat.testBit_mod_two_pow, Nat.testBit_div_two_pow, Nat.add_comm i]
      by_cases hi : i < 64
      · exact getLsbD_onesField x hn hi
      · rw [Nat.testBit_lt_two_pow (Nat.lt_of_lt_of_le (BitVec.isLt _)
          (Nat.pow_le_pow_right (by decide) (Nat.not_lt.mp hi)))]
        simp [show ¬ i < n from by omega]
    have hlt : x.toNat / 2 ^ fb % 2 ^ n < 2 ^ 63 :=
      Nat.lt_of_lt_of_le (Nat.mod_lt _ (Nat.two_pow_pos n))
        (Nat.pow_le_pow_right (by decide) (by omega))
    rw [BitVec.toInt_eq_toNat_of_lt (by omega), htoNat]

/-- An empty field is 0 if and only if the bit at its position is. -/
theorem bitRange_zero (x : Long) {fb : Nat} (hfb : fb < 64) :
    ∃ r, bitRange x fb 0 = some r
      ∧ (r.toInt = 0 ↔ x.getLsbD fb = false) := by
  refine ⟨(x &&& 1#64 <<< fb).sshiftRight fb, ?_, ?_⟩
  · rw [bitRange, if_pos ⟨by omega, by omega, by omega, by omega⟩]
    rfl
  · constructor
    · intro hr
      have hzero : (x &&& 1#64 <<< fb).sshiftRight fb = 0#64 :=
        BitVec.eq_of_toInt_eq hr
      have hbit := getLsbD_field x 1#64 (show fb + 0 < 64 from hfb)
      rw [hzero] at hbit
      simpa using hbit.symm
    · intro hx
      have hmask : x &&& 1#64 <<< fb = 0#64 := by
        apply BitVec.eq_of_getLsbD_eq
        intro i hi
        rw [BitVec.getLsbD_and, BitVec.getLsbD_shiftLeft]
        by_cases heq : i = fb
        · rw [heq, hx]
          simp
        · by_cases hlt : i < fb
          · simp [hlt]
          · simp [show i - fb ≠ 0 from by omega]
      rw [hmask]
      simp

/-- **Fields and single bits.** In the domain of the assertions, `bitRange`
returns the sum of the bits if and only if the field is not empty or the bit
at its position is 0. -/
theorem bitRange_eq_iff (x : Long) (fb nbits : Int) (hfb : 0 ≤ fb)
    (hnbits : 0 ≤ nbits) (hsum : fb + nbits < 64) :
    ((∃ r, bitRange x fb nbits = some r
        ∧ bitSum x fb nbits.toNat = some r.toInt)
      ↔ 0 < nbits ∨ nthbit x fb = some 0) := by
  obtain ⟨fb, rfl⟩ := Int.eq_ofNat_of_zero_le hfb
  obtain ⟨n, rfl⟩ := Int.eq_ofNat_of_zero_le hnbits
  rw [Int.toNat_natCast, bitSum_eq x (by omega)]
  rcases Nat.eq_zero_or_pos n with rfl | hn
  · obtain ⟨r, hr, hiff⟩ := bitRange_zero x (show fb < 64 by omega)
    have hbit : nthbit x fb = some 0 ↔ x.getLsbD fb = false := by
      rw [nthbit_eq x (by omega)]
      cases x.getLsbD fb <;> decide
    rw [hbit, ← hiff, Nat.pow_zero, Nat.mod_one]
    constructor
    · rintro ⟨r', hr', hsum⟩
      obtain rfl : r = r' := Option.some.inj (hr.symm.trans hr')
      exact .inr (Option.some.inj hsum).symm
    · rintro (h | h)
      · exact absurd h (by decide)
      · exact ⟨r, hr, congrArg some h.symm⟩
  · obtain ⟨r, hr, hval⟩ := bitRange_pos x hn (show fb + n < 64 by omega)
    exact iff_of_true ⟨r, hr, congrArg some hval.symm⟩ (.inl (by omega))

theorem bitRange_eq_iff_nibble :
    (∃ r, bitRange 0x5A#64 4 3 = some r ∧ bitSum 0x5A#64 4 3 = some r.toInt)
      ↔ (0 : Int) < 3 ∨ nthbit 0x5A#64 4 = some 0 :=
  bitRange_eq_iff 0x5A#64 4 3 (by decide) (by decide) (by decide)

/-- The empty field at the lowest bit of 1 is 1. -/
theorem bitRange_empty :
    ¬ ∀ (x : Long) (fb nbits : Int), 0 ≤ fb → 0 ≤ nbits → fb + nbits < 64 →
      ∃ r, bitRange x fb nbits = some r
        ∧ bitSum x fb nbits.toNat = some r.toInt := by
  intro h
  obtain ⟨r, hr, hsum⟩ := h 1#64 0 0 (by decide) (by decide) (by decide)
  obtain rfl : 1#64 = r := Option.some.inj hr
  exact absurd hsum (by decide)

end SchoolStuff.Bits
