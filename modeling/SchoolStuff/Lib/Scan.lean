import Mathlib.Tactic.Common

/-!
# Scan — a cursor over a text

A cursor is a position in a text, and what is left from there is `drop`. `skip`
is the loop that moves the cursor over the bytes of a class.
-/

namespace SchoolStuff.Scan

variable {α : Type*} {P : α → Bool} {text : List α} {s : Nat}

/-- `while (s < end && P(*s)) s++;` -/
def skip (P : α → Bool) (text : List α) (s : Nat) : Nat :=
  s + ((text.drop s).takeWhile P).length

theorem drop_skip (P : α → Bool) (text : List α) (s : Nat) :
    text.drop (skip P text s) = (text.drop s).dropWhile P := by
  rw [skip, ← List.drop_drop]
  generalize text.drop s = l
  calc l.drop (l.takeWhile P).length
      = (l.takeWhile P ++ l.dropWhile P).drop (l.takeWhile P).length := by
        rw [List.takeWhile_append_dropWhile]
    _ = l.dropWhile P := List.drop_left

/-- What a loop goes over, and where it stops. -/
theorem skip_eq {l rest : List α} (htext : text.drop s = l ++ rest) (hl : ∀ c ∈ l, P c = true)
    (hrest : ∀ c ∈ rest.head?, P c = false) : skip P text s = s + l.length := by
  have htake : (l ++ rest).takeWhile P = l := by
    rw [List.takeWhile_append_of_pos hl]
    cases rest with
    | nil => rw [List.takeWhile_nil, List.append_nil]
    | cons c rest =>
        rw [List.takeWhile_cons, hrest c rfl]
        exact List.append_nil l
  rw [skip, htext, htake]

/-- The byte at the cursor, and the NUL at the end. -/
theorem getD_eq_head (text : List α) (s : Nat) (x : α) :
    text.getD s x = (text.drop s).head?.getD x := by
  rw [List.getD_eq_getElem?_getD, List.head?_drop]

theorem drop_add {l rest : List α} (htext : text.drop s = l ++ rest) :
    text.drop (s + l.length) = rest := by
  rw [← List.drop_drop, htext, List.drop_left]

end SchoolStuff.Scan
