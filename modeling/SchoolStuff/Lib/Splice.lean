import Mathlib.Tactic.Common

/-!
# Splice — writing into an array, or past its end
-/

namespace SchoolStuff

variable {α : Type*}

/-- `src` in place of the entries of `f` from offset `off` on. -/
def splice (f : List α) (off : Nat) (src : List α) : List α :=
  f.take off ++ src ++ f.drop (off + src.length)

theorem length_splice {f : List α} {off : Nat} {src : List α}
    (h : off ≤ f.length) :
    (splice f off src).length = max f.length (off + src.length) := by
  simp only [splice, List.length_append, List.length_take, List.length_drop]
  omega

theorem splice_append (l post src : List α) :
    splice (l ++ post) l.length src = l ++ src ++ post.drop src.length := by
  rw [splice, List.take_left, List.drop_length_add_append]

/-- One write after the other. -/
theorem splice_splice {f : List α} {off : Nat} (h : off ≤ f.length) (a b : List α) :
    splice (splice f off a) (off + a.length) b = splice f off (a ++ b) := by
  have hlen : (f.take off ++ a).length = off + a.length := by
    rw [List.length_append, List.length_take]
    omega
  have hpre : splice f off a = f.take off ++ a ++ f.drop (off + a.length) := rfl
  rw [hpre, ← hlen, splice_append, List.drop_drop, hlen, splice, List.length_append,
    List.append_assoc (f.take off), Nat.add_assoc]

theorem splice_nil (f : List α) (off : Nat) : splice f off [] = f := by
  rw [splice, List.append_nil, List.length_nil, Nat.add_zero, List.take_append_drop]

theorem getElem?_splice {f : List α} {off : Nat} {src : List α} (h : off ≤ f.length)
    (p : Nat) : (splice f off src)[p]?
      = if off ≤ p ∧ p < off + src.length then src[p - off]? else f[p]? := by
  have htake : (f.take off).length = off := by
    rw [List.length_take]
    omega
  unfold splice
  by_cases hlt : p < off
  · rw [if_neg (by omega), List.getElem?_append_left (by rw [List.length_append]; omega),
      List.getElem?_append_left (by omega), List.getElem?_take_of_lt hlt]
  · by_cases hin : p < off + src.length
    · rw [if_pos ⟨by omega, hin⟩,
        List.getElem?_append_left (by rw [List.length_append]; omega),
        List.getElem?_append_right (by omega), htake]
    · rw [if_neg (by omega),
        List.getElem?_append_right (by rw [List.length_append]; omega),
        List.getElem?_drop, List.length_append, htake]
      congr 1
      omega

end SchoolStuff
