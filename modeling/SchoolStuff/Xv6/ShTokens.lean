import SchoolStuff.Xv6.ShGrammar

/-!
# Xv6 — the tokens that the shell reads

At a cursor with the tokens `ts` ahead, `peek` tells whether the first of them
is one of its characters, and `gettoken` takes it. Of a word it finds the bounds.
-/

namespace SchoolStuff.Xv6.Sh

open CText (ascii)
open Scan (skip)

variable {text : List UInt8} {s : Nat} {t : Tok} {ts us : List Tok}

/-- The tokens ahead of the cursor. -/
structure At (text : List UInt8) (s : Nat) (ts : List Tok) : Prop where
  le : s ≤ text.length
  spells : Spells ts (text.drop s)

theorem not_space_of_word {c : UInt8} (h : isWord c = true) : isSpace c = false := by
  unfold isWord at h
  unfold isSpace
  exact decide_eq_false (of_decide_eq_true h).1

theorem not_symbol_of_word {c : UInt8} (h : isWord c = true) : c ∉ symbols := by
  unfold isWord at h
  exact (of_decide_eq_true h).2

/-- The first byte of a token. -/
theorem Tok.chars_cons (t : Tok) : ∃ c cs, t.chars = c :: cs ∧ c ≠ 0 ∧ isSpace c = false := by
  cases t with
  | word w =>
      obtain ⟨w, hne, hw⟩ := w
      obtain ⟨c, cs, rfl⟩ := List.exists_cons_of_ne_nil hne
      obtain ⟨hzero, hword⟩ := hw c (List.mem_cons_self ..)
      exact ⟨c, cs, rfl, hzero, not_space_of_word hword⟩
  | redir r =>
      cases r with
      | lt => exact ⟨60, [], rfl, by decide, by decide⟩
      | gt => exact ⟨62, [], rfl, by decide, by decide⟩
      | gtgt => exact ⟨62, [62], rfl, by decide, by decide⟩
  | bar => exact ⟨124, [], rfl, by decide, by decide⟩
  | amp => exact ⟨38, [], rfl, by decide, by decide⟩
  | semi => exact ⟨59, [], rfl, by decide, by decide⟩
  | lparen => exact ⟨40, [], rfl, by decide, by decide⟩
  | rparen => exact ⟨41, [], rfl, by decide, by decide⟩

/-- A text that begins with what it spells. -/
inductive Begins : List Tok → List UInt8 → Prop where
  | nil : Begins [] []
  | tok (t : Tok) {ts : List Tok} {text : List UInt8} (hend : t.EndsAt text)
      (h : Spells ts text) : Begins (t :: ts) (t.chars ++ text)

/-- White space is skipped. -/
theorem Spells.begins {text : List UInt8} (h : Spells ts text) :
    Begins ts (text.dropWhile isSpace) := by
  induction h with
  | nil => exact .nil
  | space c hc _ ih =>
      rw [List.dropWhile_cons_of_pos hc]
      exact ih
  | tok t hend h =>
      obtain ⟨c, cs, hchars, _, hspace⟩ := t.chars_cons
      have := Begins.tok t hend h
      rw [hchars, List.cons_append] at this ⊢
      rw [List.dropWhile_cons_of_neg (by rw [hspace]; decide)]
      exact this

theorem Begins.spells {text : List UInt8} (h : Begins ts text) : Spells ts text := by
  cases h with
  | nil => exact .nil
  | tok t hend h => exact .tok t hend h

theorem skip_le (P : UInt8 → Bool) (hs : s ≤ text.length) : skip P text s ≤ text.length := by
  have := (List.takeWhile_sublist P (l := text.drop s)).length_le
  rw [List.length_drop] at this
  unfold skip
  omega

theorem At.trim (h : At text s ts) :
    At text (skip isSpace text s) ts ∧ Begins ts (text.drop (skip isSpace text s)) := by
  have hbegins : Begins ts (text.drop (Scan.skip isSpace text s)) := by
    rw [Scan.drop_skip]
    exact h.spells.begins
  exact ⟨⟨skip_le isSpace h.le, hbegins.spells⟩, hbegins⟩

/-- At the end `peek` moves the cursor to the end. -/
theorem At.end_eq (h : At text s []) : skip isSpace text s = text.length := by
  obtain ⟨⟨hle, _⟩, hbegins⟩ := h.trim
  have hnil : text.drop (Scan.skip isSpace text s) = [] := by
    generalize text.drop (Scan.skip isSpace text s) = l at hbegins
    cases hbegins
    rfl
  have := List.drop_eq_nil_iff.1 hnil
  omega

/-! ## `peek` -/

/-- The token begins with one of the characters. -/
def Tok.startsIn (toks : List UInt8) (t : Tok) : Bool := t.chars.head?.any (· ∈ toks)

theorem startsIn_word (w : Word) {toks : List UInt8} (htoks : toks ⊆ symbols) :
    (Tok.word w).startsIn toks = false := by
  obtain ⟨c, cs, hchars, _⟩ := (Tok.word w).chars_cons
  have hw : w.1 = c :: cs := hchars
  have hword := (w.2.2 c (by rw [hw]; exact List.mem_cons_self ..)).2
  rw [Tok.startsIn, hchars]
  exact decide_eq_false fun hmem => not_symbol_of_word hword (htoks hmem)

theorem byteAt_eq (text : List UInt8) (s : Nat) : byteAt text s = (text.drop s).head?.getD 0 :=
  Scan.getD_eq_head text s 0

theorem peek_spec (toks : List UInt8) (h : At text s ts) :
    ∃ s', peek text s toks = (s', ts.head?.any (·.startsIn toks)) ∧ At text s' ts := by
  obtain ⟨hat, hbegins⟩ := h.trim
  refine ⟨_, ?_, hat⟩
  unfold peek
  simp only [byteAt_eq]
  generalize text.drop (Scan.skip isSpace text s) = l at hbegins
  congr 1
  cases hbegins with
  | nil => rfl
  | tok t hend h =>
      obtain ⟨c, cs, hchars, hzero, _⟩ := t.chars_cons
      rw [List.head?_cons, Option.any_some, Tok.startsIn, hchars]
      exact decide_eq_decide.2 (and_iff_right hzero)

theorem peek_hit (toks : List UInt8) (ht : t.startsIn toks = true) (h : At text s (t :: ts)) :
    ∃ s', peek text s toks = (s', true) ∧ At text s' (t :: ts) := by
  obtain ⟨s', hpeek, hat⟩ := peek_spec toks h
  exact ⟨s', by rw [hpeek, ← ht]; rfl, hat⟩

theorem peek_other (toks : List UInt8) (ht : t.startsIn toks = false) (h : At text s (t :: ts)) :
    ∃ s', peek text s toks = (s', false) ∧ At text s' (t :: ts) := by
  obtain ⟨s', hpeek, hat⟩ := peek_spec toks h
  exact ⟨s', by rw [hpeek, ← ht]; rfl, hat⟩

theorem peek_miss (toks : List UInt8) (hts : ts.head?.any (·.startsIn toks) = false)
    (h : At text s ts) : ∃ s', peek text s toks = (s', false) ∧ At text s' ts := by
  obtain ⟨s', hpeek, hat⟩ := peek_spec toks h
  exact ⟨s', by rw [hpeek, hts], hat⟩

/-! ## `gettoken` -/

/-- What `gettoken` returns for a token. -/
def Tok.code : Tok → UInt8
  | .word _ => 97
  | .redir .lt => 60
  | .redir .gt => 62
  | .redir .gtgt => 43
  | .bar => 124
  | .amp => 38
  | .semi => 59
  | .lparen => 40
  | .rparen => 41

/-- A word of the text, between its bounds. -/
def slice (text : List UInt8) (p : Ptr) : List UInt8 := (text.drop p.q).take (p.eq - p.q)

/-- The bounds of a word: a byte that is none comes after it. -/
structure Bounds (text : List UInt8) (p : Ptr) : Prop where
  q_le : p.q ≤ p.eq
  eq_le : p.eq ≤ text.length
  word : ∀ c ∈ slice text p, c ≠ 0 ∧ isWord c = true
  stop : ∀ c ∈ (text.drop p.eq).head?, isWord c = false

theorem ops_subset : ascii "|();&<" ⊆ symbols := by decide

theorem gt_subset : ascii ">" ⊆ symbols := by decide

/-- The token and its end. -/
theorem tokenAt_spec {rest : List UInt8} (htext : text.drop s = t.chars ++ rest)
    (hend : t.EndsAt rest) : tokenAt text s = (t.code, s + t.chars.length) := by
  have hbyte : byteAt text s = (t.chars ++ rest).head?.getD 0 := by
    rw [byteAt_eq, htext]
  unfold tokenAt
  rw [hbyte]
  cases t with
  | word w =>
      obtain ⟨c, cs, hchars, hzero, _⟩ := (Tok.word w).chars_cons
      have hw : w.1 = c :: cs := hchars
      have hsymbol := not_symbol_of_word (w.2.2 c (by rw [hw]; exact List.mem_cons_self ..)).2
      have hskip : skip isWord text s = s + w.1.length :=
        Scan.skip_eq htext (fun c hc => (w.2.2 c hc).2) hend
      have hhead : ((Tok.word w).chars ++ rest).head?.getD 0 = c := by
        rw [hchars]
        rfl
      simp only [hhead]
      rw [if_neg hzero, if_neg fun hmem => hsymbol (ops_subset hmem),
        if_neg fun hmem => hsymbol (gt_subset hmem), hskip]
      rfl
  | redir r =>
      -- `>` and `>>` differ in the next character
      cases r with
      | lt => rfl
      | gt =>
          have hnext : byteAt text (s + 1) = rest.head?.getD 0 := by
            rw [byteAt_eq]
            exact congrArg (fun l => l.head?.getD 0) (Scan.drop_add (l := [62]) htext)
          have hnot : rest.head?.getD 0 ∉ ascii ">" := by
            cases rest with
            | nil => decide
            | cons c rest => exact hend c rfl
          simp only [hnext, if_neg hnot]
          rfl
      | gtgt =>
          have hnext : byteAt text (s + 1) = 62 := by
            rw [byteAt_eq]
            exact congrArg (fun l => l.head?.getD 0)
              (Scan.drop_add (l := [62]) htext)
          rw [hnext]
          rfl
  | bar => rfl
  | amp => rfl
  | semi => rfl
  | lparen => rfl
  | rparen => rfl

/-- `gettoken` takes the first token. -/
theorem gettoken_spec (h : At text s (t :: ts)) :
    ∃ p s', gettoken text s = (t.code, p, s') ∧ At text s' ts
      ∧ p.eq = p.q + t.chars.length ∧ p.eq ≤ text.length
      ∧ ∃ rest, text.drop p.q = t.chars ++ rest ∧ t.EndsAt rest := by
  obtain ⟨⟨hle, _⟩, hbegins⟩ := h.trim
  generalize hq : Scan.skip isSpace text s = q at hle hbegins
  generalize hl : text.drop q = l at hbegins
  cases hbegins with
  | tok t hend h =>
      rename_i rest
      have hlen : q + t.chars.length ≤ text.length := by
        have := congrArg List.length hl
        rw [List.length_drop, List.length_append] at this
        omega
      have hat : At text (q + t.chars.length) ts := by
        refine ⟨hlen, ?_⟩
        rw [Scan.drop_add hl]
        exact h
      refine ⟨⟨q, q + t.chars.length⟩, _, ?_, hat.trim.1, rfl, hlen, rest, hl, hend⟩
      unfold gettoken
      simp only [hq, tokenAt_spec hl hend]

/-- `gettoken` finds the bounds of a word. -/
theorem gettoken_word {w : Word} (h : At text s (.word w :: ts)) :
    ∃ p s', gettoken text s = (97, p, s') ∧ At text s' ts
      ∧ slice text p = w.1 ∧ Bounds text p := by
  obtain ⟨p, s', hget, hat, heq, hle, rest, htext, hend⟩ := gettoken_spec h
  have hslice : slice text p = w.1 := by
    rw [slice, htext, heq, Nat.add_sub_cancel_left]
    exact List.take_left
  refine ⟨p, s', hget, hat, hslice, by omega, hle, ?_, ?_⟩
  · rw [hslice]
    exact w.2.2
  · rw [heq, Scan.drop_add htext]
    exact hend

/-- At the end `gettoken` returns 0. -/
theorem gettoken_end (h : At text s []) :
    ∃ p s', gettoken text s = (0, p, s') ∧ At text s' [] := by
  have hend : At text text.length [] := by
    refine ⟨Nat.le_refl _, ?_⟩
    rw [List.drop_length]
    exact .nil
  have hbyte : byteAt text text.length = 0 := by
    rw [byteAt_eq, List.drop_length]
    rfl
  refine ⟨⟨text.length, text.length⟩, _, ?_, hend.trim.1⟩
  unfold gettoken
  simp only [h.end_eq, tokenAt, hbyte, if_true]

end SchoolStuff.Xv6.Sh
