import SchoolStuff.Lib.CText
import SchoolStuff.Lib.Letters

/-!
# GrepMatch — the regular expressions of `grep` (`grep.c`)

A NUL-terminated string is the list of its characters, and `re[0]`, `re[1]`
and `*text` look at the front of a list. The abstract side reads a pattern
as a sequence of items, each of which stands for a language (`parse`,
`Pattern.language`): a text matches if it is in the language of the pattern.
-/

namespace SchoolStuff.Xv6.Grep

open Computability Letters

/-! ## The matcher -/

def caret : UInt8 := 94
def dot : UInt8 := 46
def star : UInt8 := 42
def dollar : UInt8 := 36

mutual

def matchhere (re text : List UInt8) : Bool :=
  match re with
  | [] => true
  | c :: re =>
      if re.head? = some star then matchstar c re.tail text
      else if c = dollar ∧ re = [] then text.isEmpty
      else
        match text with
        | [] => false
        | t :: text => (c = dot || c = t) && matchhere re text
termination_by (re.length, text.length, 0)

/-- `matchstar`. The loop goes on with the next character as its call on the
rest of the text. -/
def matchstar (c : UInt8) (re text : List UInt8) : Bool :=
  matchhere re text
    || match text with
      | [] => false
      | t :: text => (t = c || c = dot) && matchstar c re text
termination_by (re.length, text.length, 1)

end

/-- The loop of `match`, which also looks at the empty text. -/
def matchAnywhere (re : List UInt8) : List UInt8 → Bool
  | [] => matchhere re []
  | t :: text => matchhere re (t :: text) || matchAnywhere re text

/-- `match`. -/
def reMatch (re text : List UInt8) : Bool :=
  match re with
  | [] => matchAnywhere [] text
  | c :: re =>
      if c = caret then matchhere re text else matchAnywhere (c :: re) text

/-! ## What a pattern means -/

/-- A character of a pattern, with a `*` behind it or without. -/
structure Item where
  c : UInt8
  starred : Bool

/-- What a pattern consists of, and whether it stops at the end of the
text. -/
structure Body where
  items : List Item
  stop : Bool

/-- A pattern, and whether a match starts at the start of the text. -/
structure Pattern where
  start : Bool
  body : Body

def Body.cons (i : Item) (b : Body) : Body := { b with items := i :: b.items }

/-- The body of a pattern. A `*` with nothing before it and a `$` with
something behind it stand for themselves. -/
def parseBody : List UInt8 → Body
  | [] => ⟨[], false⟩
  | [c] => if c = dollar then ⟨[], true⟩ else ⟨[⟨c, false⟩], false⟩
  | c :: c' :: re =>
      if c' = star then (parseBody re).cons ⟨c, true⟩
      else (parseBody (c' :: re)).cons ⟨c, false⟩

def parse : List UInt8 → Pattern
  | [] => ⟨false, parseBody []⟩
  | c :: re =>
      if c = caret then ⟨true, parseBody re⟩ else ⟨false, parseBody (c :: re)⟩

/-- The characters that `c` stands for. -/
def Fits (c t : UInt8) : Prop := c = dot ∨ c = t

def Item.language (i : Item) : Language UInt8 :=
  if i.starred then (letter (Fits i.c))∗ else letter (Fits i.c)

/-- The texts that begin with the items, and end there if `stop`. -/
def Body.language (b : Body) : Language UInt8 :=
  (b.items.map Item.language).prod * if b.stop then 1 else ⊤

def Pattern.language (p : Pattern) : Language UInt8 :=
  (if p.start then 1 else ⊤) * p.body.language

/-! ## The matcher decides the language -/

variable {c : UInt8} {re text : List UInt8}

theorem Body.language_cons (i : Item) (b : Body) :
    (b.cons i).language = i.language * b.language := by
  rw [Body.language, Body.cons, List.map_cons, List.prod_cons, mul_assoc]
  rfl

theorem matchhere_nil (text : List UInt8) : matchhere [] text = true := by
  rw [matchhere.eq_def]

theorem matchhere_star (text : List UInt8) :
    matchhere (c :: star :: re) text = matchstar c re text := by
  rw [matchhere.eq_def]
  rfl

theorem matchhere_dollar (text : List UInt8) :
    matchhere [dollar] text = text.isEmpty := by
  rw [matchhere.eq_def]
  rfl

theorem matchstar_iff {L : Language UInt8}
    (h : ∀ text, matchhere re text ↔ text ∈ L) :
    matchstar c re text ↔ text ∈ (letter (Fits c))∗ * L := by
  induction text with
  | nil =>
      rw [matchstar, mem_star_mul]
      simp [h, nil_not_mem_letter_mul]
  | cons t text ih =>
      rw [matchstar, mem_star_mul, cons_mem_letter_mul, ← ih]
      simp only [Bool.or_eq_true, Bool.and_eq_true, decide_eq_true_eq, h, Fits]
      rw [eq_comm (a := t), or_comm (a := c = t)]

theorem matchhere_letter {L : Language UInt8} (hstar : re.head? ≠ some star)
    (hdollar : ¬ (c = dollar ∧ re = []))
    (h : ∀ text, matchhere re text ↔ text ∈ L) (text : List UInt8) :
    matchhere (c :: re) text ↔ text ∈ letter (Fits c) * L := by
  rw [matchhere.eq_def]
  simp only [if_neg hstar, if_neg hdollar]
  cases text with
  | nil => simp [nil_not_mem_letter_mul]
  | cons t text =>
      rw [cons_mem_letter_mul, ← h]
      simp [Fits]

theorem matchhere_nil_iff (text : List UInt8) :
    matchhere [] text ↔ text ∈ (parseBody []).language := by
  rw [matchhere_nil, parseBody, Body.language]
  simp only [List.map_nil, List.prod_nil, one_mul]
  exact iff_of_true trivial trivial

/-- **`matchhere`** finds the texts that begin with what the pattern means. -/
theorem matchhere_iff (re : List UInt8) :
    ∀ text, matchhere re text ↔ text ∈ (parseBody re).language := by
  induction re using parseBody.induct with
  | case1 => exact matchhere_nil_iff
  | case2 =>
      intro text
      rw [matchhere_dollar, parseBody, if_pos rfl, Body.language]
      simp
  | case3 c hc =>
      intro text
      rw [parseBody, if_neg hc]
      show _ ↔ text ∈ (Body.cons ⟨c, false⟩ (parseBody [])).language
      rw [Body.language_cons]
      exact matchhere_letter (by simp) (by simp [hc]) matchhere_nil_iff text
  | case4 c re ih =>
      intro text
      rw [matchhere_star, parseBody, if_pos rfl, Body.language_cons]
      exact matchstar_iff ih
  | case5 c c' re hstar ih =>
      intro text
      rw [parseBody, if_neg hstar, Body.language_cons]
      exact matchhere_letter (by simpa using hstar) (by simp) ih text

theorem matchAnywhere_iff (re text : List UInt8) :
    matchAnywhere re text ↔ ∃ s, s <:+ text ∧ matchhere re s := by
  induction text with
  | nil => simp [matchAnywhere]
  | cons t text ih => simp [matchAnywhere, ih, List.suffix_cons_iff]

/-- **The matcher of `grep`** returns 1 for the texts of the pattern's
language, and for no other. -/
theorem reMatch_iff (re text : List UInt8) :
    reMatch re text ↔ text ∈ (parse re).language := by
  have hanywhere : ∀ re : List UInt8,
      matchAnywhere re text ↔ text ∈ Pattern.language ⟨false, parseBody re⟩ := by
    intro re
    rw [matchAnywhere_iff, Pattern.language]
    simp only [Bool.false_eq_true, if_false, mem_top_mul, matchhere_iff]
  cases re with
  | nil => exact hanywhere []
  | cons c re =>
      rw [reMatch, parse]
      split
      · rw [matchhere_iff, Pattern.language, if_pos rfl, one_mul]
      · exact hanywhere (c :: re)

end SchoolStuff.Xv6.Grep
