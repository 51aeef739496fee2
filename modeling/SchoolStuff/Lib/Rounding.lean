import Mathlib.Algebra.Order.Ring.Nat
import Mathlib.Tactic.Common

/-!
# Rounding — integers in a floating-point format

The value of an integer converted to a format with `p` significant bits,
rounding half to even. All that is used of it is that the conversion does
not reverse an order (`ofInt_mono`).
-/

namespace SchoolStuff.Rounding

/-- `n / u` to the nearest integer, half to even. -/
def halfEven (n u : Nat) : Nat :=
  if u < 2 * (n % u) ∨ (2 * (n % u) = u ∧ n / u % 2 = 1) then n / u + 1
  else n / u

/-- `n` to `p` significant bits. -/
def roundBits (p n : Nat) : Nat :=
  halfEven n (2 ^ (n.log2 + 1 - p)) * 2 ^ (n.log2 + 1 - p)

/-- An integer to `p` significant bits. -/
def ofInt (p : Nat) (x : Int) : Int :=
  if 0 ≤ x then roundBits p x.toNat else -(roundBits p (-x).toNat : Int)

theorem le_halfEven (n u : Nat) : n / u ≤ halfEven n u := by
  unfold halfEven
  split <;> omega

theorem halfEven_le (n u : Nat) : halfEven n u ≤ n / u + 1 := by
  unfold halfEven
  split <;> omega

theorem halfEven_mono {n m u : Nat} (h : n ≤ m) :
    halfEven n u ≤ halfEven m u := by
  rcases Nat.lt_or_ge (n / u) (m / u) with hlt | hge
  · exact Nat.le_trans (halfEven_le n u) (Nat.le_trans hlt (le_halfEven m u))
  · -- the same quotient, so the remainders are in order
    have hq : n / u = m / u := Nat.le_antisymm (Nat.div_le_div_right h) hge
    have hr : n % u ≤ m % u := by
      have hn := Nat.div_add_mod n u
      have hm := Nat.div_add_mod m u
      rw [hq] at hn
      omega
    rw [halfEven, halfEven, hq]
    split <;> split <;> omega

theorem log2_mono {n m : Nat} (hn : n ≠ 0) (h : n ≤ m) : n.log2 ≤ m.log2 := by
  have hlt : 2 ^ n.log2 < 2 ^ (m.log2 + 1) :=
    Nat.lt_of_le_of_lt (Nat.log2_self_le hn)
      (Nat.lt_of_le_of_lt h Nat.lt_log2_self)
  have := (Nat.pow_lt_pow_iff_right (by decide)).mp hlt
  omega

/-- A rounded number does not leave its binade, except for the power of two
that ends it. -/
theorem roundBits_le (p n : Nat) : roundBits p n ≤ 2 ^ (n.log2 + 1) := by
  have he : n.log2 + 1 - p ≤ n.log2 + 1 := Nat.sub_le _ _
  have hsplit : 2 ^ (n.log2 + 1)
      = 2 ^ (n.log2 + 1 - (n.log2 + 1 - p)) * 2 ^ (n.log2 + 1 - p) := by
    rw [← Nat.pow_add, Nat.sub_add_cancel he]
  unfold roundBits
  generalize n.log2 + 1 - p = e at hsplit ⊢
  have hlt : n / 2 ^ e < 2 ^ (n.log2 + 1 - e) := by
    rw [Nat.div_lt_iff_lt_mul (Nat.two_pow_pos e), ← hsplit]
    exact Nat.lt_log2_self
  calc halfEven n (2 ^ e) * 2 ^ e
      ≤ 2 ^ (n.log2 + 1 - e) * 2 ^ e :=
        Nat.mul_le_mul_right _ (Nat.le_trans (halfEven_le _ _) hlt)
    _ = 2 ^ (n.log2 + 1) := hsplit.symm

theorem le_roundBits {p n : Nat} (hp : 0 < p) (hn : n ≠ 0) :
    2 ^ n.log2 ≤ roundBits p n := by
  have hsplit : 2 ^ n.log2
      = 2 ^ (n.log2 - (n.log2 + 1 - p)) * 2 ^ (n.log2 + 1 - p) := by
    rw [← Nat.pow_add, Nat.sub_add_cancel (by omega)]
  unfold roundBits
  generalize n.log2 + 1 - p = e at hsplit ⊢
  have hle : 2 ^ (n.log2 - e) ≤ n / 2 ^ e := by
    rw [Nat.le_div_iff_mul_le (Nat.two_pow_pos e), ← hsplit]
    exact Nat.log2_self_le hn
  calc 2 ^ n.log2 = 2 ^ (n.log2 - e) * 2 ^ e := hsplit
    _ ≤ halfEven n (2 ^ e) * 2 ^ e :=
        Nat.mul_le_mul_right _ (Nat.le_trans hle (le_halfEven _ _))

theorem roundBits_mono {p n m : Nat} (hp : 0 < p) (h : n ≤ m) :
    roundBits p n ≤ roundBits p m := by
  rcases Nat.eq_zero_or_pos n with rfl | hpos
  · simp [roundBits, halfEven]
  · have hn : n ≠ 0 := Nat.ne_of_gt hpos
    have hm : m ≠ 0 := by omega
    rcases Nat.lt_or_ge n.log2 m.log2 with hlt | hge
    · calc roundBits p n ≤ 2 ^ (n.log2 + 1) := roundBits_le p n
        _ ≤ 2 ^ m.log2 := Nat.pow_le_pow_right (by decide) hlt
        _ ≤ roundBits p m := le_roundBits hp hm
    · have heq : n.log2 = m.log2 := Nat.le_antisymm (log2_mono hn h) hge
      rw [roundBits, roundBits, heq]
      exact Nat.mul_le_mul_right _ (halfEven_mono h)

/-- **Conversion keeps the order** of numbers that are not negative. -/
theorem ofInt_mono {p : Nat} (hp : 0 < p) {x y : Int} (hx : 0 ≤ x)
    (h : x ≤ y) : ofInt p x ≤ ofInt p y := by
  rw [ofInt, ofInt, if_pos hx, if_pos (Int.le_trans hx h)]
  exact Int.ofNat_le.mpr (roundBits_mono hp (by omega))

end SchoolStuff.Rounding
