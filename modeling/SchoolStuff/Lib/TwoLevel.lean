import Mathlib.Logic.Function.Basic
import Mathlib.Tactic.Common

/-!
# TwoLevel — tables of tables

A directory holds tables of `width` entries each, and a table is only there
once an entry of it is needed. Read through both levels (`get`) it is a flat
map: a new table changes nothing (`get_ensure`), and a write changes one
entry (`get_set`).
-/

namespace SchoolStuff.TwoLevel

/-- A directory; a table that is not there is `none`. -/
abbrev Dir (α : Type*) := Nat → Option (Nat → Option α)

variable {α : Type*} (width : Nat) (d : Dir α)

def get (v : Nat) : Option α := (d (v / width)).bind (· (v % width))

/-- An empty table at `i`. -/
def ensure (i : Nat) : Dir α := Function.update d i (some fun _ => none)

/-- A write to entry `j` of table `i`, which must be there. -/
def set (i j : Nat) (e : Option α) : Dir α :=
  Function.update d i ((d i).map fun table => Function.update table j e)

variable {width d}

theorem get_of_none {v : Nat} (h : d (v / width) = none) : get width d v = none := by
  rw [get, h]
  rfl

theorem get_ensure {i : Nat} (h : d i = none) (v : Nat) :
    get width (ensure d i) v = get width d v := by
  by_cases hv : v / width = i
  · have hnone : d (v / width) = none := by rw [hv]; exact h
    rw [get_of_none hnone, get, ensure, hv, Function.update_self]
    rfl
  · rw [get, get, ensure, Function.update_of_ne hv]

theorem get_set {v : Nat} (h : (d (v / width)).isSome) (e : Option α)
    (w : Nat) :
    get width (set d (v / width) (v % width) e) w
      = if w = v then e else get width d w := by
  obtain ⟨table, htable⟩ := Option.isSome_iff_exists.mp h
  by_cases hw : w / width = v / width
  · rw [get, get, set, hw, Function.update_self, htable]
    show Function.update table (v % width) e (w % width) = _
    by_cases hmod : w % width = v % width
    · have heq : w = v := by
        rw [← Nat.div_add_mod w width, ← Nat.div_add_mod v width, hw, hmod]
      rw [if_pos heq, hmod, Function.update_self]
    · rw [if_neg (fun heq : w = v => hmod (by rw [heq])), Function.update_of_ne hmod]
      rfl
  · rw [if_neg (fun heq : w = v => hw (by rw [heq])), get, get, set,
      Function.update_of_ne hw]

end SchoolStuff.TwoLevel
