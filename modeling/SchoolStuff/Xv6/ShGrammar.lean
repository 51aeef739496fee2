import SchoolStuff.Xv6.Sh

/-!
# Xv6 — the grammar of the shell

What the parser is for, apart from how it works: trees of commands, tokens, the
lists of tokens that derive a tree (`Derives`), and the texts that spell tokens
(`Spells`). `Tree.tokens` renders a tree, with parentheses where a command
stands in a place for another level of the grammar.
-/

namespace SchoolStuff.Xv6.Sh

open CText (ascii)

/-- A word that is one token. -/
abbrev Word := { w : List UInt8 // w ≠ [] ∧ ∀ c ∈ w, c ≠ 0 ∧ isWord c = true }

inductive Redir where
  | lt
  | gt
  | gtgt
  deriving DecidableEq

inductive Tree where
  | exec (argv : List Word) (h : argv.length < MAXARGS)
  | redir (t : Tree) (r : Redir) (file : Word)
  | pipe (left right : Tree)
  | list (left right : Tree)
  | back (t : Tree)

/-- The command of a redirection: `>>` is as `>`. -/
def Redir.cmd {α : Type} : Redir → Cmd α → α → Cmd α
  | .lt, cmd, file => .redir cmd file O_RDONLY 0
  | .gt, cmd, file => .redir cmd file (O_WRONLY ||| O_CREATE) 1
  | .gtgt, cmd, file => .redir cmd file (O_WRONLY ||| O_CREATE) 1

/-- The command that a tree stands for. -/
def Tree.cmd : Tree → Cmd (List UInt8)
  | .exec argv _ => .exec (argv.map (·.1))
  | .redir t r file => r.cmd t.cmd file.1
  | .pipe left right => .pipe left.cmd right.cmd
  | .list left right => .list left.cmd right.cmd
  | .back t => .back t.cmd

/-! ## Tokens -/

inductive Tok where
  | word (w : Word)
  | redir (r : Redir)
  | bar
  | amp
  | semi
  | lparen
  | rparen

def Redir.chars : Redir → List UInt8
  | .lt => ascii "<"
  | .gt => ascii ">"
  | .gtgt => ascii ">>"

def Tok.chars : Tok → List UInt8
  | .word w => w.1
  | .redir r => r.chars
  | .bar => ascii "|"
  | .amp => ascii "&"
  | .semi => ascii ";"
  | .lparen => ascii "("
  | .rparen => ascii ")"

/-- A token ends where the text goes on with `rest`. -/
def Tok.EndsAt : Tok → List UInt8 → Prop
  | .word _, rest => ∀ c ∈ rest.head?, isWord c = false
  | .redir .gt, rest => ∀ c ∈ rest.head?, c ∉ ascii ">"
  | _, _ => True

/-- A text of tokens, with white space between them. -/
inductive Spells : List Tok → List UInt8 → Prop where
  | nil : Spells [] []
  | space {ts : List Tok} {text : List UInt8} (c : UInt8) (hc : isSpace c = true)
      (h : Spells ts text) : Spells ts (c :: text)
  | tok {ts : List Tok} {text : List UInt8} (t : Tok) (hend : t.EndsAt text)
      (h : Spells ts text) : Spells (t :: ts) (t.chars ++ text)

/-! ## Derivations -/

/-- The levels of the grammar: a command or a block, a pipe, one with `&` behind
it, a line. -/
inductive Level where
  | exec
  | pipe
  | back
  | line
  deriving DecidableEq

/-- What a command without parentheses consists of, in any order. -/
inductive Item where
  | arg (w : Word)
  | redir (r : Redir) (file : Word)

def Item.tokens : Item → List Tok
  | .arg w => [.word w]
  | .redir r file => [.redir r, .word file]

def Item.word? : Item → Option Word
  | .arg w => some w
  | .redir _ _ => none

/-- A redirection goes around what there is. -/
def Tree.wrap (t : Tree) : Item → Tree
  | .arg _ => t
  | .redir r file => .redir t r file

/-- The tokens that derive a tree. -/
inductive Derives : Level → Tree → List Tok → Prop where
  | items (items : List Item) (h : (items.filterMap Item.word?).length < MAXARGS) :
      Derives .exec (items.foldl Tree.wrap (.exec (items.filterMap Item.word?) h))
        (items.flatMap Item.tokens)
  | block {t : Tree} {ts : List Tok} (h : Derives .line t ts) (redirs : List (Redir × Word)) :
      Derives .exec (redirs.foldl (fun t r => .redir t r.1 r.2) t)
        (.lparen :: (ts ++ .rparen :: redirs.flatMap fun r => [.redir r.1, .word r.2]))
  | cmd {t : Tree} {ts : List Tok} (h : Derives .exec t ts) : Derives .pipe t ts
  | pipe {l r : Tree} {ls rs : List Tok} (hl : Derives .exec l ls) (hr : Derives .pipe r rs) :
      Derives .pipe (.pipe l r) (ls ++ .bar :: rs)
  | fore {t : Tree} {ts : List Tok} (h : Derives .pipe t ts) : Derives .back t ts
  | back {t : Tree} {ts : List Tok} (h : Derives .back t ts) :
      Derives .back (.back t) (ts ++ [.amp])
  | last {t : Tree} {ts : List Tok} (h : Derives .back t ts) : Derives .line t ts
  | list {l r : Tree} {ls rs : List Tok} (hl : Derives .back l ls) (hr : Derives .line r rs) :
      Derives .line (.list l r) (ls ++ .semi :: rs)

/-- The texts of a tree. -/
def Renders (t : Tree) (text : List UInt8) : Prop := ∃ ts, Derives .line t ts ∧ Spells ts text

/-! ## Rendering -/

def paren (ts : List Tok) : List Tok := .lparen :: (ts ++ [.rparen])

/-- The tokens of a tree at a place for a level. -/
def Tree.tokens : Tree → Level → List Tok
  | .exec argv _, _ => argv.map .word
  | .redir t r file, _ => t.tokens .exec ++ [.redir r, .word file]
  | .pipe left right, level =>
      let ts := left.tokens .exec ++ .bar :: right.tokens .pipe
      if level = .exec then paren ts else ts
  | .back t, level =>
      let ts := t.tokens .back ++ [.amp]
      if level = .exec ∨ level = .pipe then paren ts else ts
  | .list left right, level =>
      let ts := left.tokens .back ++ .semi :: right.tokens .line
      if level = .line then ts else paren ts

/-- The text of tokens, with a blank behind each. -/
def spell (ts : List Tok) : List UInt8 := ts.flatMap fun t => t.chars ++ ascii " "

/-- The text of a tree. -/
def Tree.text (t : Tree) : List UInt8 := spell (t.tokens .line)

theorem isWord_blank : isWord 32 = false := by decide

theorem spells_spell (ts : List Tok) : Spells ts (spell ts) := by
  induction ts with
  | nil => exact .nil
  | cons t ts ih =>
      have hspace : Spells ts (32 :: spell ts) := .space 32 (by decide) ih
      have hend : t.EndsAt (32 :: spell ts) := by
        cases t with
        | word w =>
            intro c hc
            cases hc
            exact isWord_blank
        | redir r =>
            cases r with
            | gt =>
                intro c hc
                cases hc
                decide
            | lt => trivial
            | gtgt => trivial
        | _ => trivial
      have := Spells.tok t hend hspace
      rw [spell, List.flatMap_cons, List.append_assoc]
      exact this

/-- One more redirection behind a command or a block. -/
theorem Derives.redir {t : Tree} {ts : List Tok} (h : Derives .exec t ts) (r : Redir)
    (file : Word) : Derives .exec (.redir t r file) (ts ++ [.redir r, .word file]) := by
  cases h with
  | items items hlt =>
      have hwords : (items ++ [Item.redir r file]).filterMap Item.word?
          = items.filterMap Item.word? := by
        rw [List.filterMap_append]
        exact List.append_nil _
      have := Derives.items (items ++ [Item.redir r file]) (by rw [hwords]; exact hlt)
      rw [List.foldl_append, List.flatMap_append] at this
      simp only [hwords] at this
      exact this
  | block hline redirs =>
      have := Derives.block hline (redirs ++ [(r, file)])
      rw [List.foldl_append, List.flatMap_append] at this
      simp only [List.cons_append, List.append_assoc]
      exact this

/-- A command without redirections. -/
theorem derives_exec (argv : List Word) (h : argv.length < MAXARGS) :
    Derives .exec (.exec argv h) (argv.map .word) := by
  have hwords : (argv.map Item.arg).filterMap Item.word? = argv := by
    rw [List.filterMap_map]
    exact List.filterMap_some
  have hwrap : ∀ (l : List Word) (t : Tree), (l.map Item.arg).foldl Tree.wrap t = t := by
    intro l t
    induction l with
    | nil => rfl
    | cons w l ih => exact ih
  have htokens : (argv.map Item.arg).flatMap Item.tokens = argv.map Tok.word := by
    rw [List.flatMap_map]
    exact List.map_eq_flatMap.symm
  have := Derives.items (argv.map Item.arg) (by rw [hwords]; exact h)
  rw [hwrap, htokens] at this
  simp only [hwords] at this
  exact this

theorem Derives.paren {t : Tree} {ts : List Tok} (h : Derives .line t ts) :
    Derives .exec t (Sh.paren ts) := Derives.block h []

/-- A command stands at each level above its own. -/
theorem Derives.at_level {t : Tree} {ts : List Tok} (h : Derives .exec t ts) (level : Level) :
    Derives level t ts := by
  cases level with
  | exec => exact h
  | pipe => exact h.cmd
  | back => exact h.cmd.fore
  | line => exact h.cmd.fore.last

/-- **A tree is derived from the tokens that render it**, at each level. -/
theorem derives_tokens (t : Tree) (level : Level) : Derives level t (t.tokens level) := by
  induction t generalizing level with
  | exec argv h => exact (derives_exec argv h).at_level level
  | redir t r file ih => exact ((ih .exec).redir r file).at_level level
  | pipe left right ihl ihr =>
      have hpipe := Derives.pipe (ihl .exec) (ihr .pipe)
      cases level with
      | exec => exact hpipe.fore.last.paren
      | pipe => exact hpipe
      | back => exact hpipe.fore
      | line => exact hpipe.fore.last
  | back t ih =>
      have hback := Derives.back (ih .back)
      cases level with
      | exec => exact hback.last.paren
      | pipe => exact hback.last.paren.cmd
      | back => exact hback
      | line => exact hback.last
  | list left right ihl ihr =>
      have hlist := Derives.list (ihl .back) (ihr .line)
      cases level with
      | exec => exact hlist.paren
      | pipe => exact hlist.paren.cmd
      | back => exact hlist.paren.cmd.fore
      | line => exact hlist

theorem renders_text (t : Tree) : Renders t t.text :=
  ⟨_, derives_tokens t .line, spells_spell _⟩

end SchoolStuff.Xv6.Sh
