import Mathlib.Algebra.Order.Ring.Int

/-!
# CInt — the 32-bit `int` of C over the integers

`wrap x` is `x` as an `int` of two's complement holds it; an overflow, which
C leaves undefined, wraps around. A sum that is wrapped at each step is the
wrapped sum (`foldl_wrap`), so it is the sum itself wherever that is in
range, whatever the sums on the way were.
-/

namespace SchoolStuff.CInt

/-- `INT_MAX`. -/
def max : Int := 2147483647

/-- `INT_MIN`. -/
def min : Int := -2147483648

/-- The values of an `int`. -/
def InRange (x : Int) : Prop := min ≤ x ∧ x ≤ max

instance (x : Int) : Decidable (InRange x) :=
  inferInstanceAs (Decidable (_ ∧ _))

/-- The value that an `int` holds after `x` is stored in it. -/
def wrap (x : Int) : Int := x.bmod 4294967296

theorem inRange_iff {x : Int} :
    InRange x ↔ -2147483648 ≤ x ∧ x ≤ 2147483647 := Iff.rfl

/-- In range, nothing wraps. -/
theorem wrap_of_inRange {x : Int} (h : InRange x) : wrap x = x := by
  rw [inRange_iff] at h
  exact Int.bmod_eq_of_le (by omega) (by omega)

theorem wrap_add_wrap (x y : Int) : wrap (wrap x + y) = wrap (x + y) :=
  Int.bmod_add_bmod

theorem wrap_add_wrap_right (x y : Int) : wrap (x + wrap y) = wrap (x + y) :=
  Int.add_bmod_bmod

/-- **A running sum**, wrapped at each step, is the wrapped sum. -/
theorem foldl_wrap {α : Type*} (f : α → Int) (l : List α) (a : Int) :
    l.foldl (fun s x => wrap (s + f x)) (wrap a) = wrap (a + (l.map f).sum) := by
  induction l generalizing a with
  | nil => simp
  | cons x l ih =>
      rw [List.foldl_cons, wrap_add_wrap, ih, List.map_cons, List.sum_cons,
        Int.add_assoc]

end SchoolStuff.CInt
