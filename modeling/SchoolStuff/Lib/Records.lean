import Mathlib.Data.List.Basic
import SchoolStuff.Lib.Splice

/-!
# Records — a file of records that are of one size

The records `as` are `as.flatMap f` when they are laid out, with `n` bytes for
each. Record `k` is at offset `n * k`.
-/

namespace SchoolStuff

variable {α β : Type*} {n : Nat} {f : α → List β}

theorem length_records (hf : ∀ a, (f a).length = n) (as : List α) :
    (as.flatMap f).length = n * as.length := by
  induction as with
  | nil => rfl
  | cons a as ih =>
      rw [List.flatMap_cons, List.length_append, hf, ih, List.length_cons, Nat.mul_succ,
        Nat.add_comm]

theorem take_records (hf : ∀ a, (f a).length = n) (as : List α) (k : Nat) :
    (as.flatMap f).take (n * k) = (as.take k).flatMap f := by
  induction as generalizing k with
  | nil => rw [List.take_nil, List.flatMap_nil, List.take_nil]
  | cons a as ih =>
      cases k with
      | zero => rw [Nat.mul_zero, List.take_zero, List.take_zero, List.flatMap_nil]
      | succ k =>
          have hlen : n * (k + 1) = (f a).length + n * k := by
            rw [hf, Nat.mul_succ, Nat.add_comm]
          rw [List.flatMap_cons, hlen, List.take_length_add_append, ih, List.take_succ_cons,
            List.flatMap_cons]

theorem drop_records (hf : ∀ a, (f a).length = n) (as : List α) (k : Nat) :
    (as.flatMap f).drop (n * k) = (as.drop k).flatMap f := by
  induction as generalizing k with
  | nil => rw [List.drop_nil, List.flatMap_nil, List.drop_nil]
  | cons a as ih =>
      cases k with
      | zero => rw [Nat.mul_zero, List.drop_zero, List.drop_zero]
      | succ k =>
          have hlen : n * (k + 1) = (f a).length + n * k := by
            rw [hf, Nat.mul_succ, Nat.add_comm]
          rw [List.flatMap_cons, hlen, List.drop_length_add_append, ih, List.drop_succ_cons]

/-- Reading a record. -/
theorem slice_records (hf : ∀ a, (f a).length = n) {as : List α} {k : Nat}
    (hk : k < as.length) : ((as.flatMap f).drop (n * k)).take n = f as[k] := by
  rw [drop_records hf, List.drop_eq_getElem_cons hk, List.flatMap_cons]
  exact List.take_left' (hf _)

/-- Writing a record in place of another one, or after the last one. -/
theorem splice_records (hf : ∀ a, (f a).length = n) {as : List α} {k : Nat}
    (hk : k ≤ as.length) (a : α) : splice (as.flatMap f) (n * k) (f a)
      = (if k < as.length then as.set k a else as ++ [a]).flatMap f := by
  have hend : n * k + (f a).length = n * (k + 1) := by rw [hf, Nat.mul_succ]
  unfold splice
  rw [hend, take_records hf, drop_records hf]
  split
  · rename_i hlt
    rw [List.set_eq_take_append_cons_drop, if_pos hlt, List.flatMap_append, List.flatMap_cons,
      List.append_assoc]
  · rename_i hge
    rw [List.take_of_length_le (by omega), List.drop_of_length_le (by omega),
      List.flatMap_append, List.flatMap_nil, List.append_nil, List.flatMap_singleton]

end SchoolStuff
