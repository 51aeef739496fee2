import Mathlib.Algebra.BigOperators.Group.Finset.Basic
import Mathlib.Data.List.Induction

/-!
# Residency — what became of the writes to cached blocks

A write-back table of lines serves accesses to blocks, under any rule for
choosing victims: an access fills a line with its block or finds the block
in a line. A residency interval runs from a fill to the next fill of the
same line, or to the present. A dirty line is one whose interval has seen a
write (`dirty_iff`), and each interval with a write is accounted for, by a
write-back or by a dirty line (`writes_add_dirty`).
-/

namespace SchoolStuff.Residency

variable {ι α : Type*}

/-- One access: the line that serves it, its block, whether the line was
filled with the block for it, and whether it is a write. -/
structure Event (ι α : Type*) where
  line : ι
  block : α
  fill : Bool
  write : Bool

/-! ## Intervals of a history -/

section Intervals

variable [DecidableEq ι] [DecidableEq α]

def Event.fills (e : Event ι α) (i : ι) : Bool := decide (e.line = i) && e.fill

/-- The accesses up to the next fill of line `i`. -/
def residence (i : ι) (h : List (Event ι α)) : List (Event ι α) :=
  h.takeWhile fun e => !e.fills i

/-- Some access writes block `a`. -/
def writesBlock (a : α) (h : List (Event ι α)) : Bool :=
  h.any fun e => decide (e.block = a) && e.write

/-- How many residency intervals have a write to their block. -/
def writtenIntervals : List (Event ι α) → Nat
  | [] => 0
  | e :: h =>
      (if e.fill && writesBlock e.block (e :: residence e.line h) then 1 else 0)
        + writtenIntervals h

/-- Block `a` has been written since line `i` was last filled. -/
def WrittenSince (h : List (Event ι α)) (i : ι) (a : α) : Prop :=
  ∃ pre e post, h = pre ++ e :: post ∧ e.fills i = true
    ∧ (∀ x ∈ post, x.fills i = false) ∧ writesBlock a (e :: post) = true

end Intervals

/-! ## The table -/

/-- The blocks in the lines, the dirty bits and the write-backs so far. -/
structure Table (ι α : Type*) where
  held : ι → Option α
  dirty : ι → Bool
  writes : Nat

def Table.empty : Table ι α := ⟨fun _ => none, fun _ => false, 0⟩

variable [DecidableEq ι]

/-- One access: filling a dirty line writes its block back. -/
def Table.access (t : Table ι α) (e : Event ι α) : Table ι α where
  held := if e.fill then Function.update t.held e.line (some e.block) else t.held
  dirty := Function.update t.dirty e.line
    (if e.fill then e.write else t.dirty e.line || e.write)
  writes := t.writes + if e.fill && t.dirty e.line then 1 else 0

def Table.run (t : Table ι α) (h : List (Event ι α)) : Table ι α :=
  h.foldl Table.access t

/-- The access is one the table can serve: a block is filled into a line
when no line holds it, and else found in the line that does. -/
structure Serves (t : Table ι α) (e : Event ι α) : Prop where
  fill : e.fill = true → ∀ i, t.held i ≠ some e.block
  hit : e.fill = false → t.held e.line = some e.block

/-- All accesses of a history are. -/
def ServesAll : Table ι α → List (Event ι α) → Prop
  | _, [] => True
  | t, e :: h => Serves t e ∧ ServesAll (t.access e) h

theorem run_snoc (t : Table ι α) (h : List (Event ι α)) (e : Event ι α) :
    t.run (h ++ [e]) = (t.run h).access e := by
  rw [Table.run, List.foldl_append]
  rfl

theorem servesAll_snoc {t : Table ι α} {h : List (Event ι α)}
    {e : Event ι α} :
    ServesAll t (h ++ [e]) ↔ ServesAll t h ∧ Serves (t.run h) e := by
  induction h generalizing t with
  | nil => simp [ServesAll, Table.run]
  | cons x h ih =>
      rw [List.cons_append, ServesAll, ServesAll, ih, and_assoc]
      rfl

/-- No block is in two lines, and a line without a block is clean. -/
structure Ok (t : Table ι α) : Prop where
  exclusive : ∀ {i j a}, t.held i = some a → t.held j = some a → i = j
  clean : ∀ {i}, t.held i = none → t.dirty i = false

omit [DecidableEq ι] in
theorem ok_empty : Ok (Table.empty : Table ι α) :=
  ⟨fun h => absurd h (by simp [Table.empty]), fun _ => rfl⟩

/-- What line `i` holds after an access. -/
theorem Serves.held_access {t : Table ι α} {e : Event ι α}
    (hs : Serves t e) (i : ι) :
    (t.access e).held i = if i = e.line then some e.block else t.held i := by
  rw [Table.access]
  cases hf : e.fill with
  | true => simp [Function.update_apply]
  | false =>
      by_cases hi : i = e.line
      · rw [if_pos hi, hi, ← hs.hit hf]
        rfl
      · rw [if_neg hi]
        rfl

theorem Ok.access {t : Table ι α} (h : Ok t) {e : Event ι α}
    (hs : Serves t e) : Ok (t.access e) := by
  -- a block other lines hold is not the one of the access
  have hother : ∀ i, i ≠ e.line → t.held i ≠ some e.block := by
    intro i hi heq
    cases hf : e.fill with
    | true => exact hs.fill hf i heq
    | false => exact hi (h.exclusive heq (hs.hit hf))
  constructor
  · intro i j a hi hj
    rw [hs.held_access] at hi hj
    by_cases hil : i = e.line <;> by_cases hjl : j = e.line
    · rw [hil, hjl]
    · rw [if_pos hil, Option.some.injEq] at hi
      rw [if_neg hjl, ← hi] at hj
      exact absurd hj (hother j hjl)
    · rw [if_pos hjl, Option.some.injEq] at hj
      rw [if_neg hil, ← hj] at hi
      exact absurd hi (hother i hil)
    · rw [if_neg hil] at hi
      rw [if_neg hjl] at hj
      exact h.exclusive hi hj
  · intro i hi
    rw [hs.held_access] at hi
    by_cases hil : i = e.line
    · rw [if_pos hil] at hi
      exact absurd hi (by simp)
    · rw [if_neg hil] at hi
      simpa [Table.access, Function.update_of_ne hil] using h.clean hi

/-! ## Dirty lines -/

section Dirty

variable [DecidableEq α]

omit [DecidableEq ι] in
theorem writesBlock_snoc (a : α) (h : List (Event ι α)) (e : Event ι α) :
    writesBlock a (h ++ [e])
      = (writesBlock a h || decide (e.block = a) && e.write) := by
  simp [writesBlock]

omit [DecidableEq α] in
/-- A line that was filled was filled for a last time. -/
theorem exists_last_fill {i : ι} {h : List (Event ι α)}
    (hfill : ∃ x ∈ h, x.fills i = true) :
    ∃ pre x post, h = pre ++ x :: post ∧ x.fills i = true
      ∧ ∀ y ∈ post, y.fills i = false := by
  induction h using List.reverseRecOn with
  | nil => simp at hfill
  | append_singleton h e ih =>
      cases he : e.fills i with
      | true => exact ⟨h, e, [], rfl, he, by simp⟩
      | false =>
          have hold : ∃ x ∈ h, x.fills i = true := by
            obtain ⟨x, hx, hxf⟩ := hfill
            rcases List.mem_append.mp hx with hx | hx
            · exact ⟨x, hx, hxf⟩
            · rw [List.mem_singleton.mp hx, he] at hxf
              exact absurd hxf (by decide)
          obtain ⟨pre, x, post, rfl, hx, hpost⟩ := ih hold
          refine ⟨pre, x, post ++ [e], by simp, hx, ?_⟩
          intro y hy
          rcases List.mem_append.mp hy with hy | hy
          · exact hpost y hy
          · rw [List.mem_singleton.mp hy, he]

/-- A fill starts a new interval, another access adds to the present one. -/
theorem writtenSince_snoc {h : List (Event ι α)} {e : Event ι α} {i : ι}
    {a : α} (hfilled : e.fills i = false → ∃ x ∈ h, x.fills i = true) :
    WrittenSince (h ++ [e]) i a
      ↔ (e.block = a ∧ e.write = true)
        ∨ (e.fills i = false ∧ WrittenSince h i a) := by
  constructor
  · rintro ⟨pre, x, post, heq, hx, hpost, hw⟩
    -- either `e` is the fill itself, or it comes after the fill
    rcases List.eq_nil_or_concat post with rfl | ⟨post, y, rfl⟩
    · obtain ⟨_, hxe⟩ := List.append_inj' heq rfl
      obtain rfl := List.singleton_inj.mp hxe
      exact Or.inl (by simpa [writesBlock] using hw)
    · rw [List.concat_eq_append, ← List.cons_append, ← List.append_assoc] at heq
      obtain ⟨rfl, hye⟩ := List.append_inj' heq rfl
      obtain rfl := List.singleton_inj.mp hye
      have he : e.fills i = false := hpost e (by simp)
      rw [List.concat_eq_append, ← List.cons_append, writesBlock_snoc,
        Bool.or_eq_true] at hw
      rcases hw with hw | hw
      · exact Or.inr ⟨he, pre, x, post, rfl, hx,
          fun z hz => hpost z (by simp [hz]), hw⟩
      · exact Or.inl (by simpa using hw)
  · rintro (⟨hblock, hwrite⟩ | ⟨he, pre, x, post, rfl, hx, hpost, hw⟩)
    · cases he : e.fills i with
      | true =>
          refine ⟨h, e, [], rfl, he, by simp, ?_⟩
          simp [writesBlock, hblock, hwrite]
      | false =>
          obtain ⟨pre, x, post, rfl, hx, hpost⟩ := exists_last_fill (hfilled he)
          refine ⟨pre, x, post ++ [e], by simp, hx, ?_, ?_⟩
          · intro y hy
            rcases List.mem_append.mp hy with hy | hy
            · exact hpost y hy
            · rw [List.mem_singleton.mp hy, he]
          · rw [← List.cons_append, writesBlock_snoc]
            simp [hblock, hwrite]
    · refine ⟨pre, x, post ++ [e], by simp, hx, ?_, ?_⟩
      · intro y hy
        rcases List.mem_append.mp hy with hy | hy
        · exact hpost y hy
        · rw [List.mem_singleton.mp hy, he]
      · rw [← List.cons_append, writesBlock_snoc, hw, Bool.true_or]

omit [DecidableEq α] in
theorem run_ok {t : Table ι α} (ht : Ok t) {h : List (Event ι α)}
    (hs : ServesAll t h) : Ok (t.run h) := by
  induction h generalizing t with
  | nil => exact ht
  | cons e h ih => exact ih (ht.access hs.1) hs.2

/-- The interval of a line, as the table knows it. -/
theorem held_written {h : List (Event ι α)} (hs : ServesAll Table.empty h)
    {i : ι} {a : α} (hi : (Table.empty.run h).held i = some a) :
    (∃ x ∈ h, x.fills i = true)
      ∧ ((Table.empty.run h).dirty i = true ↔ WrittenSince h i a) := by
  induction h using List.reverseRecOn generalizing a with
  | nil => exact absurd hi (by simp [Table.run, Table.empty])
  | append_singleton h e ih =>
      obtain ⟨hall, hse⟩ := servesAll_snoc.mp hs
      have hok := run_ok ok_empty hall
      have hheld := hse.held_access i
      rw [run_snoc] at hi ⊢
      rw [hi] at hheld
      by_cases hil : i = e.line
      · subst hil
        rw [if_pos rfl, Option.some.injEq] at hheld
        subst hheld
        cases hf : e.fill with
        | true =>
            have hfills : e.fills e.line = true := by simp [Event.fills, hf]
            refine ⟨⟨e, by simp, hfills⟩, ?_⟩
            rw [writtenSince_snoc (by simp [hfills])]
            simp [Table.access, hf, hfills]
        | false =>
            have hfills : e.fills e.line = false := by simp [Event.fills, hf]
            obtain ⟨⟨x, hx, hxf⟩, hdirty⟩ := ih hall (hse.hit hf)
            refine ⟨⟨x, by simp [hx], hxf⟩, ?_⟩
            rw [writtenSince_snoc fun _ => ⟨x, hx, hxf⟩, ← hdirty]
            simp [Table.access, hf, hfills, or_comm]
      · rw [if_neg hil] at hheld
        have hfills : e.fills i = false := by
          simp [Event.fills, Ne.symm hil]
        obtain ⟨⟨x, hx, hxf⟩, hdirty⟩ := ih hall hheld.symm
        refine ⟨⟨x, by simp [hx], hxf⟩, ?_⟩
        -- the accessed block is in another line
        have hne : e.block ≠ a := by
          rintro rfl
          have hmine := hse.held_access e.line
          rw [if_pos rfl] at hmine
          exact hil ((hok.access hse).exclusive hi hmine)
        rw [writtenSince_snoc fun _ => ⟨x, hx, hxf⟩, ← hdirty]
        simp [Table.access, Function.update_of_ne hil, hne, hfills]

/-- **Dirty lines**: those whose block was written since they were filled. -/
theorem dirty_iff {h : List (Event ι α)} (hs : ServesAll Table.empty h)
    (i : ι) :
    (Table.empty.run h).dirty i = true
      ↔ ∃ a, (Table.empty.run h).held i = some a ∧ WrittenSince h i a := by
  have hok := run_ok ok_empty hs
  constructor
  · intro hd
    cases hi : (Table.empty.run h).held i with
    | none => exact absurd hd (by simp [hok.clean hi])
    | some a => exact ⟨a, rfl, (held_written hs hi).2.mp hd⟩
  · rintro ⟨a, hi, hw⟩
    exact (held_written hs hi).2.mpr hw

end Dirty

/-! ## Write-backs -/

/-- Some access to line `i` is a write. -/
def writesLine (i : ι) (h : List (Event ι α)) : Bool :=
  h.any fun e => decide (e.line = i) && e.write

/-- Line `i` is dirty now, or a write makes it so before it is filled
again. -/
def Table.pending (t : Table ι α) (h : List (Event ι α)) (i : ι) : Bool :=
  t.dirty i || writesLine i (residence i h)

theorem residence_cons (i : ι) (e : Event ι α) (h : List (Event ι α)) :
    residence i (e :: h) = if e.fills i then [] else e :: residence i h := by
  rw [residence, List.takeWhile_cons]
  cases e.fills i <;> rfl

/-- In its interval the line of a block serves the accesses to it. -/
theorem line_iff_block {t : Table ι α} (ht : Ok t) {h : List (Event ι α)}
    (hs : ServesAll t h) {i : ι} {a : α} (hi : t.held i = some a) :
    ∀ e ∈ residence i h, e.line = i ↔ e.block = a := by
  induction h generalizing t with
  | nil => simp [residence]
  | cons x h ih =>
      intro e he
      rw [residence_cons] at he
      cases hx : x.fills i with
      | true => simp [hx] at he
      | false =>
          have hfirst : x.line = i ↔ x.block = a := by
            cases hf : x.fill with
            | true =>
                have hline : x.line ≠ i := by simpa [Event.fills, hf] using hx
                refine iff_of_false hline ?_
                rintro rfl
                exact hs.1.fill hf i hi
            | false =>
                have hhit := hs.1.hit hf
                constructor
                · rintro rfl
                  exact Option.some.inj (hhit.symm.trans hi)
                · rintro rfl
                  exact ht.exclusive hhit hi
          rw [hx, if_neg (by decide), List.mem_cons] at he
          rcases he with rfl | he
          · exact hfirst
          · refine ih (ht.access hs.1) hs.2 ?_ e he
            rw [hs.1.held_access]
            split
            · rename_i hline
              rw [hfirst.mp hline.symm]
            · exact hi

theorem writesLine_eq [DecidableEq α] {t : Table ι α} (ht : Ok t)
    {h : List (Event ι α)} (hs : ServesAll t h) {i : ι} {a : α}
    (hi : t.held i = some a) :
    writesLine i (residence i h) = writesBlock a (residence i h) := by
  have hiff := line_iff_block ht hs hi
  rw [writesLine, writesBlock, Bool.eq_iff_iff, List.any_eq_true,
    List.any_eq_true]
  constructor
  · rintro ⟨e, he, hw⟩
    exact ⟨e, he, by simpa [hiff e he] using hw⟩
  · rintro ⟨e, he, hw⟩
    exact ⟨e, he, by simpa [hiff e he] using hw⟩

/-- How many of the lines `s` satisfy `p`. -/
def countLines (s : Finset ι) (p : ι → Bool) : Nat :=
  ∑ i ∈ s, if p i then 1 else 0

theorem countLines_eq_of_ne {s : Finset ι} {p q : ι → Bool} {i : ι}
    (hi : i ∈ s) (hpq : ∀ j, j ≠ i → p j = q j) :
    countLines s p + (if q i then 1 else 0)
      = countLines s q + if p i then 1 else 0 := by
  have hrest : ∑ j ∈ s.erase i, (if p j then 1 else 0)
      = ∑ j ∈ s.erase i, if q j then 1 else 0 := by
    apply Finset.sum_congr rfl
    intro j hj
    rw [hpq j (Finset.ne_of_mem_erase hj)]
  rw [countLines, countLines, ← Finset.add_sum_erase s _ hi,
    ← Finset.add_sum_erase s (fun j => if q j then 1 else 0) hi, hrest]
  omega

/-- Lines kept in a list. -/
theorem countLines_range {β : Type*} (f : β → Bool) (d : β) (l : List β) :
    countLines (Finset.range l.length) (fun i => f (l[i]?.getD d))
      = l.countP f := by
  induction l using List.reverseRecOn with
  | nil => rfl
  | append_singleton l x ih =>
      have hold : ∀ i ∈ Finset.range l.length,
          (if f ((l ++ [x])[i]?.getD d) then 1 else 0)
            = if f (l[i]?.getD d) then 1 else 0 := by
        intro i hi
        rw [List.getElem?_append_left (Finset.mem_range.mp hi)]
      rw [countLines, List.length_append, List.length_singleton,
        Finset.sum_range_succ, Finset.sum_congr rfl hold, List.countP_append,
        ← ih, countLines]
      simp [List.countP_cons]

/-- One access: what a fill writes back it had pending, and what the new
interval is going to see is pending now. -/
theorem pending_access [DecidableEq α] {t : Table ι α} (ht : Ok t)
    {e : Event ι α} {h : List (Event ι α)} (hs : ServesAll t (e :: h))
    {s : Finset ι} (he : e.line ∈ s) :
    (if e.fill && t.dirty e.line then 1 else 0)
        + countLines s ((t.access e).pending h)
      = countLines s (t.pending (e :: h))
        + if e.fill && writesBlock e.block (e :: residence e.line h) then 1
          else 0 := by
  -- of the other lines the future is the same
  have hne : ∀ j, j ≠ e.line →
      (t.access e).pending h j = t.pending (e :: h) j := by
    intro j hj
    have hfills : e.fills j = false := by simp [Event.fills, Ne.symm hj]
    rw [Table.pending, Table.pending, residence_cons, hfills,
      if_neg (by decide), writesLine, writesLine, List.any_cons]
    simp [Table.access, Function.update_of_ne hj, Ne.symm hj]
  have hcount := countLines_eq_of_ne he hne
  have hheld := hs.1.held_access e.line
  rw [if_pos rfl] at hheld
  have hline := writesLine_eq (ht.access hs.1) hs.2 hheld
  cases hf : e.fill with
  | true =>
      -- a fill: what the line held is settled, and a new interval begins
      have hfills : e.fills e.line = true := by simp [Event.fills, hf]
      have hold : t.pending (e :: h) e.line = t.dirty e.line := by
        rw [Table.pending, residence_cons, hfills, if_pos rfl]
        simp [writesLine]
      have hnew : (t.access e).pending h e.line
          = writesBlock e.block (e :: residence e.line h) := by
        rw [Table.pending, hline]
        simp [Table.access, hf, writesBlock]
      rw [hold, hnew] at hcount
      simp only [Bool.true_and]
      omega
  | false =>
      -- a hit: the interval it lies in goes on
      have hfills : e.fills e.line = false := by simp [Event.fills, hf]
      have hsame : (t.access e).pending h e.line
          = t.pending (e :: h) e.line := by
        rw [Table.pending, Table.pending, residence_cons, hfills,
          if_neg (by decide), writesLine, writesLine, List.any_cons]
        simp [Table.access, hf, Bool.or_assoc]
      rw [hsame] at hcount
      simp only [Bool.false_and, Bool.false_eq_true, if_false]
      omega

/-- **No write is lost**: every interval with a write has been written back
or is the one of a dirty line. -/
theorem writes_add_dirty [DecidableEq α] {t : Table ι α} (ht : Ok t)
    {h : List (Event ι α)} (hs : ServesAll t h) {s : Finset ι}
    (hlines : ∀ e ∈ h, e.line ∈ s) :
    (t.run h).writes + countLines s (t.run h).dirty
      = t.writes + countLines s (t.pending h) + writtenIntervals h := by
  induction h generalizing t with
  | nil =>
      have hpend : t.pending [] = t.dirty := by
        funext i
        simp [Table.pending, writesLine, residence]
      rw [hpend]
      rfl
  | cons e h ih =>
      have hrest := ih (ht.access hs.1) hs.2
        fun x hx => hlines x (List.mem_cons_of_mem e hx)
      have hone := pending_access ht hs (hlines e List.mem_cons_self)
      rw [show t.run (e :: h) = (t.access e).run h from rfl, hrest,
        writtenIntervals, show (t.access e).writes
          = t.writes + if e.fill && t.dirty e.line then 1 else 0 from rfl]
      omega

/-- A line is not used before it is filled. -/
theorem line_ne {t : Table ι α} {h : List (Event ι α)} (hs : ServesAll t h)
    {i : ι} (hi : t.held i = none) : ∀ e ∈ residence i h, e.line ≠ i := by
  induction h generalizing t with
  | nil => simp [residence]
  | cons x h ih =>
      intro e he
      rw [residence_cons] at he
      cases hx : x.fills i with
      | true => simp [hx] at he
      | false =>
          have hfirst : x.line ≠ i := by
            rintro rfl
            have hf : x.fill = false := by simpa [Event.fills] using hx
            exact absurd (hs.1.hit hf) (by simp [hi])
          rw [hx, if_neg (by decide), List.mem_cons] at he
          rcases he with rfl | he
          · exact hfirst
          · refine ih hs.2 ?_ e he
            rw [hs.1.held_access, if_neg (Ne.symm hfirst), hi]

/-- The same for a table that starts empty. -/
theorem writes_add_dirty_empty [DecidableEq α] {h : List (Event ι α)}
    (hs : ServesAll Table.empty h) {s : Finset ι}
    (hlines : ∀ e ∈ h, e.line ∈ s) :
    (Table.empty.run h).writes + countLines s (Table.empty.run h).dirty
      = writtenIntervals h := by
  have hpend : Table.empty.pending h = fun _ => false := by
    funext i
    simp only [Table.pending, Table.empty, Bool.false_or, writesLine,
      List.any_eq_false]
    intro e he
    simp [line_ne hs rfl e he]
  rw [writes_add_dirty ok_empty hs hlines, hpend]
  simp [countLines, Table.empty]

end SchoolStuff.Residency
