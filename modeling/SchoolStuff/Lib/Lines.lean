import Mathlib.Tactic.Common

/-!
# Lines — a text and its terminated lines

A line ends at a separator. `lines` are the lines that have theirs, and
`rest` is what comes after the last separator; together they are the text
(`unlines_lines_append_rest`). A text is taken apart at its first separator
(`line_induction`), and a text in two parts by `lines_append`.
-/

namespace SchoolStuff.Lines

variable {α : Type*}

/-- Lines with their separators. -/
def unlines (sep : α) (ls : List (List α)) : List α := ls.flatMap (· ++ [sep])

theorem unlines_append (sep : α) (ls ls' : List (List α)) :
    unlines sep (ls ++ ls') = unlines sep ls ++ unlines sep ls' :=
  List.flatMap_append

variable [DecidableEq α]

/-- The lines that a separator ends. -/
def lines (sep : α) (t : List α) : List (List α) := (t.splitOn sep).dropLast

/-- What comes after the last separator. -/
def rest (sep : α) (t : List α) : List α := (t.splitOn sep).getLastD []

variable {sep : α} {l t : List α}

theorem lines_of_not_mem (h : sep ∉ l) : lines sep l = [] := by
  rw [lines, List.splitOn_eq_singleton h]
  rfl

theorem rest_of_not_mem (h : sep ∉ l) : rest sep l = l := by
  rw [rest, List.splitOn_eq_singleton h]
  rfl

theorem lines_cons (h : sep ∉ l) (t : List α) :
    lines sep (l ++ sep :: t) = l :: lines sep t := by
  rw [lines, List.splitOn_append_cons_self, List.splitOn_eq_singleton h,
    List.singleton_append, List.dropLast_cons_of_ne_nil (List.splitOn_ne_nil _ _)]
  rfl

theorem rest_cons (l t : List α) : rest sep (l ++ sep :: t) = rest sep t := by
  rw [rest, List.splitOn_append_cons_self, rest, List.getLastD_eq_getLast?,
    List.getLastD_eq_getLast?, List.getLast?_append,
    List.getLast?_eq_some_getLast (List.splitOn_ne_nil sep t)]
  rfl

/-- Induction along the lines of a text. -/
theorem line_induction (sep : α) {P : List α → Prop} (last : ∀ l, sep ∉ l → P l)
    (line : ∀ l t, sep ∉ l → P t → P (l ++ sep :: t)) (t : List α) : P t := by
  by_cases h : sep ∈ t
  · obtain ⟨l, t', heq, hl⟩ := List.eq_append_cons_of_mem h
    have hlt : t'.length < t.length := by
      rw [heq, List.length_append, List.length_cons]
      omega
    rw [heq]
    exact line l t' hl (line_induction sep last line t')
  · exact last t h
termination_by t.length

theorem unlines_lines_append_rest (t : List α) :
    unlines sep (lines sep t) ++ rest sep t = t := by
  induction t using line_induction sep with
  | last l h => rw [lines_of_not_mem h, rest_of_not_mem h]; rfl
  | line l t h ih =>
      rw [lines_cons h, rest_cons, unlines, List.flatMap_cons]
      simpa [unlines] using ih

theorem rest_suffix (t : List α) : rest sep t <:+ t :=
  ⟨_, unlines_lines_append_rest t⟩

theorem not_mem_rest (t : List α) : sep ∉ rest sep t := by
  induction t using line_induction sep with
  | last l h => rwa [rest_of_not_mem h]
  | line l t h ih => rwa [rest_cons]

/-- Of a first part only its rest is needed. -/
theorem lines_append (s t : List α) :
    lines sep (s ++ t) = lines sep s ++ lines sep (rest sep s ++ t) := by
  induction s using line_induction sep with
  | last l h => rw [lines_of_not_mem h, rest_of_not_mem h, List.nil_append]
  | line l s h ih =>
      rw [List.append_assoc, List.cons_append, lines_cons h, lines_cons h, ih,
        rest_cons, List.cons_append]

theorem rest_append_of_mem (s : List α) (h : sep ∈ t) :
    rest sep (s ++ t) = rest sep t := by
  obtain ⟨l, t', rfl⟩ := List.append_of_mem h
  rw [rest_cons, ← List.append_assoc, rest_cons]

theorem length_lines_le (t : List α) : (lines sep t).length ≤ t.length := by
  induction t using line_induction sep with
  | last l h => rw [lines_of_not_mem h]; exact Nat.zero_le _
  | line l t h ih =>
      rw [lines_cons h, List.length_cons, List.length_append, List.length_cons]
      omega

theorem length_rest_le (t : List α) : (rest sep t).length ≤ t.length := by
  have htext := congrArg List.length (@unlines_lines_append_rest _ _ sep t)
  rw [List.length_append] at htext
  omega

theorem length_rest_lt (h : sep ∈ t) : (rest sep t).length < t.length := by
  obtain ⟨l, t', rfl⟩ := List.append_of_mem h
  have hle := @length_rest_le _ _ sep t'
  rw [rest_cons, List.length_append, List.length_cons]
  omega

/-- What precedes a text adds to its first line. -/
theorem length_lines_append (s : List α) (h : sep ∈ t) :
    (unlines sep (lines sep (s ++ t))).length
      = s.length + (unlines sep (lines sep t)).length := by
  have happend := congrArg List.length (@unlines_lines_append_rest _ _ sep (s ++ t))
  have htext := congrArg List.length (@unlines_lines_append_rest _ _ sep t)
  rw [rest_append_of_mem s h, List.length_append, List.length_append] at happend
  rw [List.length_append] at htext
  omega

end SchoolStuff.Lines
