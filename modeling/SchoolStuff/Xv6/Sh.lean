import SchoolStuff.Lib.CText
import SchoolStuff.Lib.Scan

/-!
# Xv6 — the parser of the shell (`sh.c`)

A pointer into the text is a position. `es` is the end of the text, and the
byte there is the NUL. The functions call each other to any depth, so they take
fuel. `malloc` always has memory.
-/

namespace SchoolStuff.Xv6.Sh

open CText (ascii)
open Scan (skip)

abbrev MAXARGS : Nat := 10

def O_RDONLY : UInt32 := 0

def O_WRONLY : UInt32 := 1

def O_CREATE : UInt32 := 0x200

def whitespace : List UInt8 := ascii " \t\r\n" ++ [11]

def symbols : List UInt8 := ascii "<|>&;()"

/-- `struct cmd` and the structures for its types, over what the words are. -/
inductive Cmd (α : Type) where
  | exec (argv : List α)
  | redir (cmd : Cmd α) (file : α) (mode : UInt32) (fd : Int)
  | pipe (left right : Cmd α)
  | list (left right : Cmd α)
  | back (cmd : Cmd α)
  deriving DecidableEq

/-- Where a word of the text begins and ends. -/
structure Ptr where
  q : Nat
  eq : Nat
  deriving DecidableEq

/-- The calls of `panic`. -/
inductive Stop where
  /-- "syntax", after "leftovers". -/
  | leftovers
  /-- "syntax". -/
  | notWord
  /-- "missing file for redirection". -/
  | missingFile
  /-- "parseblock". -/
  | parseblock
  /-- "syntax - missing )". -/
  | missingParen
  /-- "too many args". -/
  | tooManyArgs
  /-- No panic: the fuel is used up. -/
  | fuel
  deriving DecidableEq

/-! ## Tokens -/

/-- `strchr(whitespace, c)`. -/
def isSpace (c : UInt8) : Bool := c ∈ whitespace

/-- A byte of a word. -/
def isWord (c : UInt8) : Bool := c ∉ whitespace ∧ c ∉ symbols

/-- `*s`. -/
def byteAt (text : List UInt8) (s : Nat) : UInt8 := text.getD s 0

/-- The `switch` of `gettoken`: the token at `s`, and where it ends. -/
def tokenAt (text : List UInt8) (s : Nat) : UInt8 × Nat :=
  let c := byteAt text s
  if c = 0 then (0, s)
  else if c ∈ ascii "|();&<" then (c, s + 1)
  else if c ∈ ascii ">" then
    if byteAt text (s + 1) ∈ ascii ">" then (43, s + 2) else (c, s + 1)
  else (97, skip isWord text s)

/-- `gettoken`. -/
def gettoken (text : List UInt8) (s : Nat) : UInt8 × Ptr × Nat :=
  let q := skip isSpace text s
  let (ret, eq) := tokenAt text q
  (ret, ⟨q, eq⟩, skip isSpace text eq)

/-- `peek`. -/
def peek (text : List UInt8) (s : Nat) (toks : List UInt8) : Nat × Bool :=
  let s := skip isSpace text s
  (s, byteAt text s ≠ 0 ∧ byteAt text s ∈ toks)

/-! ## Commands -/

/-- `cmd->argv[argc] = q`, for the command inside the redirections. -/
def Cmd.addArg {α : Type} (word : α) : Cmd α → Cmd α
  | .exec argv => .exec (argv ++ [word])
  | .redir cmd file mode fd => .redir (cmd.addArg word) file mode fd
  | cmd => cmd

/-- The redirection of a token. -/
def redircmd {α : Type} (tok : UInt8) (cmd : Cmd α) (file : α) : Cmd α :=
  if tok ∈ ascii "<" then .redir cmd file O_RDONLY 0
  else if tok ∈ ascii ">+" then .redir cmd file (O_WRONLY ||| O_CREATE) 1
  else cmd

/-- `parseredirs`. -/
def parseredirs (text : List UInt8) : Nat → Cmd Ptr → Nat → Except Stop (Cmd Ptr × Nat)
  | 0, _, _ => .error .fuel
  | fuel + 1, cmd, s =>
      let (s, more) := peek text s (ascii "<>")
      if more then
        let (tok, _, s) := gettoken text s
        let (word, file, s) := gettoken text s
        if word ≠ 97 then .error .missingFile
        else parseredirs text fuel (redircmd tok cmd file) s
      else .ok (cmd, s)

/-- The loop of `parseexec`. -/
def parseargs (text : List UInt8) : Nat → Cmd Ptr → Nat → Nat → Except Stop (Cmd Ptr × Nat)
  | 0, _, _, _ => .error .fuel
  | fuel + 1, ret, argc, s =>
      let (s, stop) := peek text s (ascii "|)&;")
      if stop then .ok (ret, s)
      else
        let (tok, word, s) := gettoken text s
        if tok = 0 then .ok (ret, s)
        else if tok ≠ 97 then .error .notWord
        else if argc + 1 ≥ MAXARGS then .error .tooManyArgs
        else do
          let (ret, s) ← parseredirs text fuel (ret.addArg word) s
          parseargs text fuel ret (argc + 1) s

/-- The loop of `parseline`. -/
def parseback (text : List UInt8) : Nat → Cmd Ptr → Nat → Except Stop (Cmd Ptr × Nat)
  | 0, _, _ => .error .fuel
  | fuel + 1, cmd, s =>
      let (s, more) := peek text s (ascii "&")
      if more then
        let (_, _, s) := gettoken text s
        parseback text fuel (.back cmd) s
      else .ok (cmd, s)

mutual

/-- `parseline`. -/
def parseline (text : List UInt8) : Nat → Nat → Except Stop (Cmd Ptr × Nat)
  | 0, _ => .error .fuel
  | fuel + 1, s => do
      let (cmd, s) ← parsepipe text fuel s
      let (cmd, s) ← parseback text fuel cmd s
      let (s, more) := peek text s (ascii ";")
      if more then do
        let (_, _, s) := gettoken text s
        let (right, s) ← parseline text fuel s
        .ok (.list cmd right, s)
      else .ok (cmd, s)

/-- `parsepipe`. -/
def parsepipe (text : List UInt8) : Nat → Nat → Except Stop (Cmd Ptr × Nat)
  | 0, _ => .error .fuel
  | fuel + 1, s => do
      let (cmd, s) ← parseexec text fuel s
      let (s, more) := peek text s (ascii "|")
      if more then do
        let (_, _, s) := gettoken text s
        let (right, s) ← parsepipe text fuel s
        .ok (.pipe cmd right, s)
      else .ok (cmd, s)

/-- `parseexec`. -/
def parseexec (text : List UInt8) : Nat → Nat → Except Stop (Cmd Ptr × Nat)
  | 0, _ => .error .fuel
  | fuel + 1, s =>
      let (s, block) := peek text s (ascii "(")
      if block then parseblock text fuel s
      else do
        let (ret, s) ← parseredirs text fuel (.exec []) s
        parseargs text fuel ret 0 s

/-- `parseblock`. -/
def parseblock (text : List UInt8) : Nat → Nat → Except Stop (Cmd Ptr × Nat)
  | 0, _ => .error .fuel
  | fuel + 1, s =>
      let (s, opening) := peek text s (ascii "(")
      if opening = false then .error .parseblock
      else do
        let (_, _, s) := gettoken text s
        let (cmd, s) ← parseline text fuel s
        let (s, closing) := peek text s (ascii ")")
        if closing = false then .error .missingParen
        else do
          let (_, _, s) := gettoken text s
          parseredirs text fuel cmd s

end

/-- `nulterminate`. -/
def nulterminate : Cmd Ptr → List UInt8 → List UInt8
  | .exec argv, mem => argv.foldl (fun mem p => mem.set p.eq 0) mem
  | .redir cmd file _ _, mem => (nulterminate cmd mem).set file.eq 0
  | .pipe left right, mem => nulterminate right (nulterminate left mem)
  | .list left right, mem => nulterminate right (nulterminate left mem)
  | .back cmd, mem => nulterminate cmd mem

/-- `parsecmd`: the command, and the memory of the text. -/
def parsecmd (fuel : Nat) (text : List UInt8) : Except Stop (Cmd Ptr × List UInt8) := do
  let es := text.length
  let (cmd, s) ← parseline text fuel 0
  let (s, _) := peek text s []
  if s ≠ es then .error .leftovers
  else .ok (cmd, nulterminate cmd (text ++ [0]))

/-- A command with what `read` finds for the words. -/
def Cmd.map {α β : Type} (read : α → β) : Cmd α → Cmd β
  | .exec argv => .exec (argv.map read)
  | .redir cmd file mode fd => .redir (cmd.map read) (read file) mode fd
  | .pipe left right => .pipe (left.map read) (right.map read)
  | .list left right => .list (left.map read) (right.map read)
  | .back cmd => .back (cmd.map read)

/-- The words of a command, as strings. -/
def Cmd.strings (cmd : Cmd Ptr) (mem : List UInt8) : Cmd (Option (List UInt8)) :=
  cmd.map fun p => CText.cstr mem p.q

end SchoolStuff.Xv6.Sh
