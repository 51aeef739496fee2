import Mathlib.Data.List.Induction
import SchoolStuff.Xv6.ShTokens

/-!
# Xv6 — the shell parses what its grammar derives

For each level of the grammar the function for it takes the tokens that derive
a tree, and returns the command of the tree, if what comes behind the tokens
cannot go on with them. The induction is on the derivation (`parses`). What
`nulterminate` writes is behind words only, and every word can be read back.
-/

namespace SchoolStuff.Xv6.Sh

open CText (ascii)

variable {text : List UInt8} {s : Nat} {t' : Tok} {ts us : List Tok}

/-! ## Commands over the text -/

/-- The words of a command, from the inside out. -/
def Cmd.words {α : Type} : Cmd α → List α
  | .exec argv => argv
  | .redir cmd file _ _ => cmd.words ++ [file]
  | .pipe left right => left.words ++ right.words
  | .list left right => left.words ++ right.words
  | .back cmd => cmd.words

/-- The command has the words that are between its bounds. -/
structure Reads (text : List UInt8) (cmd : Cmd Ptr) (c : Cmd (List UInt8)) : Prop where
  words : cmd.map (slice text) = c
  bounds : ∀ p ∈ cmd.words, Bounds text p

theorem map_addArg {α β : Type} (f : α → β) (cmd : Cmd α) (word : α) :
    (cmd.addArg word).map f = (cmd.map f).addArg (f word) := by
  induction cmd with
  | exec argv =>
      simp only [Cmd.addArg, Cmd.map, List.map_append]
      rfl
  | redir cmd file mode fd ih => simp only [Cmd.addArg, Cmd.map, ih]
  | pipe left right => rfl
  | list left right => rfl
  | back cmd => rfl

theorem mem_words_addArg {α : Type} {cmd : Cmd α} {word p : α}
    (hp : p ∈ (cmd.addArg word).words) : p ∈ cmd.words ∨ p = word := by
  induction cmd with
  | exec argv =>
      rcases List.mem_append.1 hp with hp | hp
      · exact Or.inl hp
      · exact Or.inr (List.mem_singleton.1 hp)
  | redir cmd file mode fd ih =>
      rcases List.mem_append.1 hp with hp | hp
      · exact (ih hp).imp_left fun hmem => List.mem_append_left [file] hmem
      · exact Or.inl (List.mem_append_right cmd.words hp)
  | pipe left right => exact Or.inl hp
  | list left right => exact Or.inl hp
  | back cmd => exact Or.inl hp

theorem Reads.addArg {cmd : Cmd Ptr} {c : Cmd (List UInt8)} (h : Reads text cmd c) {p : Ptr}
    {w : List UInt8} (hslice : slice text p = w) (hp : Bounds text p) :
    Reads text (cmd.addArg p) (c.addArg w) := by
  constructor
  · rw [map_addArg, h.words, hslice]
  · intro p' hp'
    rcases mem_words_addArg hp' with hold | rfl
    · exact h.bounds p' hold
    · exact hp

/-- The command of the token of a redirection. -/
theorem Reads.redir {cmd : Cmd Ptr} {c : Cmd (List UInt8)} (h : Reads text cmd c) {p : Ptr}
    {w : List UInt8} (hslice : slice text p = w) (hp : Bounds text p) (r : Redir) :
    Reads text (redircmd (Tok.redir r).code cmd p) (r.cmd c w) := by
  have hbounds : ∀ p' ∈ cmd.words ++ [p], Bounds text p' := by
    intro p' hp'
    rcases List.mem_append.1 hp' with hold | hnew
    · exact h.bounds p' hold
    · rw [List.mem_singleton.1 hnew]
      exact hp
  cases r with
  | lt => exact ⟨congrArg₂ (fun c w => Cmd.redir c w O_RDONLY 0) h.words hslice, hbounds⟩
  | gt =>
      exact ⟨congrArg₂ (fun c w => Cmd.redir c w (O_WRONLY ||| O_CREATE) 1) h.words hslice, hbounds⟩
  | gtgt =>
      exact ⟨congrArg₂ (fun c w => Cmd.redir c w (O_WRONLY ||| O_CREATE) 1) h.words hslice, hbounds⟩

theorem Reads.pair {left right : Cmd Ptr} {c c' : Cmd (List UInt8)} (h : Reads text left c)
    (h' : Reads text right c') :
    Reads text (.pipe left right) (.pipe c c') ∧ Reads text (.list left right) (.list c c') := by
  have hbounds : ∀ p ∈ left.words ++ right.words, Bounds text p := by
    intro p hp
    exact (List.mem_append.1 hp).elim (h.bounds p) (h'.bounds p)
  exact ⟨⟨congrArg₂ Cmd.pipe h.words h'.words, hbounds⟩,
    ⟨congrArg₂ Cmd.list h.words h'.words, hbounds⟩⟩

/-! ## The levels -/

theorem ok_bind {α β : Type} (a : α) (f : α → Except Stop β) : (Except.ok a >>= f) = f a := rfl

/-- Given fuel enough, `x` returns the command `c` and has the tokens `us` left. -/
def Yields (text : List UInt8) (x : Nat → Except Stop (Cmd Ptr × Nat)) (c : Cmd (List UInt8))
    (us : List Tok) : Prop :=
  ∃ n cmd s, Reads text cmd c ∧ At text s us ∧ ∀ fuel, n ≤ fuel → x fuel = .ok (cmd, s)

/-- The tokens that can come behind a level. -/
def Tok.Closes (t : Tok) : Level → Prop
  | .exec => t = .bar ∨ t = .amp ∨ t = .semi ∨ t = .rparen
  | .pipe => t = .amp ∨ t = .semi ∨ t = .rparen
  | .back => t = .amp ∨ t = .semi ∨ t = .rparen
  | .line => t = .rparen

def Level.Follow (level : Level) (us : List Tok) : Prop := ∀ t ∈ us.head?, t.Closes level

theorem follow_cons {level : Level} (h : t'.Closes level) : level.Follow (t' :: us) := by
  intro t ht
  cases ht
  exact h

theorem not_any {level : Level} (h : level.Follow us) {toks : List UInt8}
    (hnot : ∀ t : Tok, t.Closes level → t.startsIn toks = false) :
    us.head?.any (·.startsIn toks) = false := by
  cases us with
  | nil => rfl
  | cons t us => exact hnot t (h t rfl)

theorem redirs_subset : ascii "<>" ⊆ symbols := by decide

theorem paren_subset : ascii "(" ⊆ symbols := by decide

theorem closers_subset : ascii "|)&;" ⊆ symbols := by decide

/-- **A turn** of `parseredirs` takes one redirection. -/
theorem parseredirs_turn {r : Redir} {w : Word} {cmd : Cmd Ptr} {c : Cmd (List UInt8)}
    (hcmd : Reads text cmd c) (h : At text s (.redir r :: .word w :: us)) :
    ∃ cmd' s', Reads text cmd' (r.cmd c w.1) ∧ At text s' us ∧
      ∀ fuel, parseredirs text (fuel + 1) cmd s = parseredirs text fuel cmd' s' := by
  have hmore : (Tok.redir r).startsIn (ascii "<>") = true := by
    cases r <;> rfl
  obtain ⟨s₁, hpeek, h₁⟩ := peek_hit _ hmore h
  obtain ⟨_, s₂, hget, h₂, _⟩ := gettoken_spec h₁
  obtain ⟨p, s₃, hword, h₃, hslice, hp⟩ := gettoken_word h₂
  refine ⟨_, s₃, hcmd.redir hslice hp r, h₃, fun fuel => ?_⟩
  simp only [parseredirs, hpeek, hget, hword]
  rfl

/-- Redirections wrap the command from the inside out. -/
theorem parseredirs_spec (redirs : List (Redir × Word))
    (hus : us.head?.any (·.startsIn (ascii "<>")) = false) {cmd : Cmd Ptr}
    {c : Cmd (List UInt8)} (hcmd : Reads text cmd c)
    (h : At text s (redirs.flatMap (fun r => [.redir r.1, .word r.2]) ++ us)) :
    Yields text (fun fuel => parseredirs text fuel cmd s)
      (redirs.foldl (fun c r => r.1.cmd c r.2.1) c) us := by
  induction redirs generalizing cmd c s with
  | nil =>
      obtain ⟨s', hpeek, hat⟩ := peek_miss _ hus h
      refine ⟨1, cmd, s', hcmd, hat, fun fuel hfuel => ?_⟩
      obtain ⟨fuel, rfl⟩ := Nat.exists_eq_add_of_le' hfuel
      change parseredirs text (fuel + 1) cmd s = _
      simp only [parseredirs, hpeek]
      rfl
  | cons r redirs ih =>
      obtain ⟨cmd₁, s₁, hcmd₁, h₁, hturn⟩ := parseredirs_turn hcmd h
      obtain ⟨n, cmd', s', hcmd', hat', hrun⟩ := ih hcmd₁ h₁
      refine ⟨n + 1, cmd', s', hcmd', hat', fun fuel hfuel => ?_⟩
      obtain ⟨fuel, rfl⟩ := Nat.exists_eq_add_of_le' hfuel
      rw [← hrun (fuel + n) (Nat.le_add_left n fuel)]
      exact hturn (fuel + n)

/-- What an item does to a command. -/
def Cmd.addItem (c : Cmd (List UInt8)) : Item → Cmd (List UInt8)
  | .arg w => c.addArg w.1
  | .redir r file => r.cmd c file.1

/-- The loop of `parseexec` stops in front of what follows a command. -/
theorem parseargs_end (hus : Level.exec.Follow us) (cmd : Cmd Ptr) (argc : Nat)
    (h : At text s us) : ∃ s', At text s' us ∧
      ∀ fuel, parseargs text (fuel + 1) cmd argc s = .ok (cmd, s') := by
  cases us with
  | nil =>
      obtain ⟨s₁, hpeek, h₁⟩ := peek_miss (ascii "|)&;") rfl h
      obtain ⟨p, s₂, hget, h₂⟩ := gettoken_end h₁
      refine ⟨s₂, h₂, fun fuel => ?_⟩
      simp only [parseargs, hpeek, hget]
      rfl
  | cons t us =>
      have hstop : t.startsIn (ascii "|)&;") = true := by
        rcases hus t rfl with rfl | rfl | rfl | rfl <;> rfl
      obtain ⟨s₁, hpeek, h₁⟩ := peek_hit _ hstop h
      refine ⟨s₁, h₁, fun fuel => ?_⟩
      simp only [parseargs, hpeek]
      rfl

/-- The loop of `parseexec`, with the redirections in front of a word. -/
theorem parseargs_spec (items : List Item) (hus : Level.exec.Follow us) {cmd : Cmd Ptr}
    {c : Cmd (List UInt8)} (hcmd : Reads text cmd c) {argc : Nat}
    (hargc : argc + (items.filterMap Item.word?).length < MAXARGS)
    (h : At text s (items.flatMap Item.tokens ++ us)) :
    ∃ n cmd' s', Reads text cmd' (items.foldl Cmd.addItem c) ∧ At text s' us ∧
      ∀ fuel, n ≤ fuel → ∀ fuel', n ≤ fuel' →
        (parseredirs text fuel cmd s >>= fun x => parseargs text fuel' x.1 argc x.2)
          = .ok (cmd', s') := by
  induction items generalizing cmd c s argc with
  | nil =>
      have hmiss : us.head?.any (·.startsIn (ascii "<>")) = false :=
        not_any hus (by rintro t (rfl | rfl | rfl | rfl) <;> rfl)
      obtain ⟨s₁, hpeek, h₁⟩ := peek_miss _ hmiss h
      obtain ⟨s₂, h₂, hend⟩ := parseargs_end hus cmd argc h₁
      refine ⟨1, cmd, s₂, hcmd, h₂, fun fuel hfuel fuel' hfuel' => ?_⟩
      obtain ⟨fuel, rfl⟩ := Nat.exists_eq_add_of_le' hfuel
      obtain ⟨fuel', rfl⟩ := Nat.exists_eq_add_of_le' hfuel'
      rw [parseredirs, hpeek]
      exact hend fuel'
  | cons item items ih =>
      cases item with
      | redir r file =>
          obtain ⟨cmd₁, s₁, hcmd₁, h₁, hturn⟩ := parseredirs_turn hcmd h
          obtain ⟨n, cmd', s', hcmd', hat', hrun⟩ := ih hcmd₁ hargc h₁
          refine ⟨n + 1, cmd', s', hcmd', hat', fun fuel hfuel fuel' hfuel' => ?_⟩
          obtain ⟨fuel, rfl⟩ := Nat.exists_eq_add_of_le' hfuel
          rw [← hrun (fuel + n) (Nat.le_add_left n fuel) fuel' (Nat.le_of_succ_le hfuel')]
          congr 1
          exact hturn (fuel + n)
      | arg w =>
          have hargc' : argc + 1 + (items.filterMap Item.word?).length < MAXARGS := by
            change argc + (w :: items.filterMap Item.word?).length < MAXARGS at hargc
            rw [List.length_cons] at hargc
            omega
          obtain ⟨s₁, hpeek₁, h₁⟩ := peek_other _ (startsIn_word w redirs_subset) h
          obtain ⟨s₂, hpeek₂, h₂⟩ := peek_other _ (startsIn_word w closers_subset) h₁
          obtain ⟨p, s₃, hword, h₃, hslice, hp⟩ := gettoken_word h₂
          obtain ⟨n, cmd', s', hcmd', hat', hrun⟩ := ih (hcmd.addArg hslice hp) hargc' h₃
          refine ⟨n + 1, cmd', s', hcmd', hat', fun fuel hfuel fuel' hfuel' => ?_⟩
          obtain ⟨fuel, rfl⟩ := Nat.exists_eq_add_of_le' hfuel
          obtain ⟨fuel', rfl⟩ := Nat.exists_eq_add_of_le' hfuel'
          have hle := Nat.le_add_left n fuel'
          rw [← hrun (fuel' + n) hle (fuel' + n) hle]
          change parseredirs text (fuel + n + 1) cmd s >>= _ = _
          rw [parseredirs, hpeek₁]
          change parseargs text (fuel' + n + 1) cmd argc s₁ = _
          have hfew : ¬argc + 1 ≥ MAXARGS := by omega
          simp only [parseargs, hpeek₂, hword, if_neg hfew]
          rfl

/-- A redirection goes around what there is, on commands. -/
def Cmd.wrap (c : Cmd (List UInt8)) : Item → Cmd (List UInt8)
  | .arg _ => c
  | .redir r file => r.cmd c file.1

theorem wrap_addArg (items : List Item) (c : Cmd (List UInt8)) (w : List UInt8) :
    (items.foldl Cmd.wrap c).addArg w = items.foldl Cmd.wrap (c.addArg w) := by
  induction items generalizing c with
  | nil => rfl
  | cons item items ih =>
      rw [List.foldl_cons, List.foldl_cons, ih]
      congr 1
      cases item with
      | arg w' => rfl
      | redir r file => cases r <;> rfl

theorem cmd_wrap (items : List Item) (t : Tree) :
    (items.foldl Tree.wrap t).cmd = items.foldl Cmd.wrap t.cmd := by
  induction items generalizing t with
  | nil => rfl
  | cons item items ih =>
      rw [List.foldl_cons, List.foldl_cons, ih]
      cases item <;> rfl

/-- The words of a command may come before, between and after its redirections:
they are those of the `EXEC` inside. -/
theorem addItem_eq_wrap (items : List Item) :
    items.foldl Cmd.addItem (.exec [])
      = items.foldl Cmd.wrap (.exec ((items.filterMap Item.word?).map (·.1))) := by
  induction items using List.reverseRecOn with
  | nil => rfl
  | append_singleton items item ih =>
      rw [List.foldl_append, List.foldl_append, ih, List.filterMap_append, List.map_append]
      cases item with
      | arg w =>
          exact wrap_addArg items _ w.1
      | redir r file =>
          have hnil : [Item.redir r file].filterMap Item.word? = [] := rfl
          rw [hnil, List.map_nil, List.append_nil]
          rfl

/-! ## The functions -/

/-- The function for a level takes the tokens `ts` for the tree `t`. For a
command with `&` behind it that is the loop of `parseline`. -/
def Parses (text : List UInt8) (t : Tree) (ts : List Tok) : Level → Prop
  | .exec => ∀ us s, Level.exec.Follow us → At text s (ts ++ us) →
      Yields text (fun fuel => parseexec text fuel s) t.cmd us
  | .pipe => ∀ us s, Level.pipe.Follow us → At text s (ts ++ us) →
      Yields text (fun fuel => parsepipe text fuel s) t.cmd us
  | .back => ∀ us s, Level.back.Follow us → At text s (ts ++ us) →
      ∃ n m cmd s', Reads text cmd t.cmd ∧ At text s' us ∧
        ∀ fuel, n ≤ fuel → ∀ k, (parsepipe text fuel s >>= fun x =>
          parseback text (k + m) x.1 x.2) = parseback text k cmd s'
  | .line => ∀ us s, Level.line.Follow us → At text s (ts ++ us) →
      Yields text (fun fuel => parseline text fuel s) t.cmd us

theorem parses_items (items : List Item)
    (h : (items.filterMap Item.word?).length < MAXARGS) :
    Parses text (items.foldl Tree.wrap (.exec (items.filterMap Item.word?) h))
      (items.flatMap Item.tokens) .exec := by
  intro us s hus hat
  have hblock : (items.flatMap Item.tokens ++ us).head?.any (·.startsIn (ascii "(")) = false := by
    cases items with
    | nil => exact not_any hus (by rintro t (rfl | rfl | rfl | rfl) <;> rfl)
    | cons item items =>
        cases item with
        | arg w => exact startsIn_word w paren_subset
        | redir r file => cases r <;> rfl
  obtain ⟨s₁, hpeek, h₁⟩ := peek_miss _ hblock hat
  have hempty : Reads text (.exec []) (.exec []) := ⟨rfl, fun p hp => nomatch hp⟩
  obtain ⟨n, cmd, s', hcmd, hat', hrun⟩ := parseargs_spec items hus hempty
    (by rw [Nat.zero_add]; exact h) h₁
  refine ⟨n + 1, cmd, s', ?_, hat', fun fuel hfuel => ?_⟩
  · rw [cmd_wrap]
    rw [addItem_eq_wrap] at hcmd
    exact hcmd
  · obtain ⟨fuel, rfl⟩ := Nat.exists_eq_add_of_le' hfuel
    have hle := Nat.le_add_left n fuel
    rw [← hrun (fuel + n) hle (fuel + n) hle]
    change parseexec text (fuel + n + 1) s = _
    simp only [parseexec, hpeek]
    rfl

theorem cmd_redirs (redirs : List (Redir × Word)) (t : Tree) :
    (redirs.foldl (fun t r => .redir t r.1 r.2) t).cmd
      = redirs.foldl (fun c r => r.1.cmd c r.2.1) t.cmd := by
  induction redirs generalizing t with
  | nil => rfl
  | cons r redirs ih => exact ih (.redir t r.1 r.2)

theorem parses_block {t : Tree} (h : Parses text t ts .line) (redirs : List (Redir × Word)) :
    Parses text (redirs.foldl (fun t r => .redir t r.1 r.2) t)
      (.lparen :: (ts ++ .rparen :: redirs.flatMap fun r => [.redir r.1, .word r.2]))
      .exec := by
  intro us s hus hat
  rw [List.cons_append] at hat
  obtain ⟨s₁, hpeek₁, h₁⟩ := peek_hit (ascii "(") rfl hat
  obtain ⟨s₂, hpeek₂, h₂⟩ := peek_hit (ascii "(") rfl h₁
  obtain ⟨_, s₃, hget, h₃, _⟩ := gettoken_spec h₂
  rw [List.append_assoc, List.cons_append] at h₃
  obtain ⟨n, cmd, s₄, hcmd, h₄, hline⟩ := h _ s₃ (follow_cons rfl) h₃
  obtain ⟨s₅, hpeek₅, h₅⟩ := peek_hit (ascii ")") rfl h₄
  obtain ⟨_, s₆, hget₆, h₆, _⟩ := gettoken_spec h₅
  have hmiss : us.head?.any (·.startsIn (ascii "<>")) = false :=
    not_any hus (by rintro t (rfl | rfl | rfl | rfl) <;> rfl)
  obtain ⟨n', cmd', s', hcmd', hat', hrun⟩ := parseredirs_spec redirs hmiss hcmd h₆
  refine ⟨n + n' + 2, cmd', s', ?_, hat', fun fuel hfuel => ?_⟩
  · rw [cmd_redirs]
    exact hcmd'
  · obtain ⟨fuel, rfl⟩ := Nat.exists_eq_add_of_le' hfuel
    have hline' : parseline text (fuel + (n + n')) s₃ = .ok (cmd, s₄) := hline _ (by omega)
    rw [← hrun (fuel + (n + n')) (by omega)]
    change parseexec text (fuel + (n + n') + 1 + 1) s = _
    simp only [parseexec, parseblock, hpeek₁, hpeek₂, hget, hline', ok_bind, hpeek₅, hget₆]
    rfl

theorem parses_cmd {t : Tree} (h : Parses text t ts .exec) : Parses text t ts .pipe := by
  intro us s hus hat
  have hfollow : Level.exec.Follow us := fun t ht => Or.inr (hus t ht)
  obtain ⟨n, cmd, s₁, hcmd, h₁, hexec⟩ := h us s hfollow hat
  have hbar : us.head?.any (·.startsIn (ascii "|")) = false :=
    not_any hus (by rintro t (rfl | rfl | rfl) <;> rfl)
  obtain ⟨s₂, hpeek, h₂⟩ := peek_miss _ hbar h₁
  refine ⟨n + 1, cmd, s₂, hcmd, h₂, fun fuel hfuel => ?_⟩
  obtain ⟨fuel, rfl⟩ := Nat.exists_eq_add_of_le' hfuel
  have hexec' : parseexec text (fuel + n) s = .ok (cmd, s₁) := hexec _ (Nat.le_add_left n fuel)
  change parsepipe text (fuel + n + 1) s = _
  simp only [parsepipe, hexec', ok_bind, hpeek]
  rfl

theorem parses_pipe {l r : Tree} {ls rs : List Tok} (hl : Parses text l ls .exec)
    (hr : Parses text r rs .pipe) : Parses text (.pipe l r) (ls ++ .bar :: rs) .pipe := by
  intro us s hus hat
  rw [List.append_assoc, List.cons_append] at hat
  obtain ⟨n, left, s₁, hleft, h₁, hexec⟩ := hl _ s (follow_cons (Or.inl rfl)) hat
  obtain ⟨s₂, hpeek, h₂⟩ := peek_hit (ascii "|") rfl h₁
  obtain ⟨_, s₃, hget, h₃, _⟩ := gettoken_spec h₂
  obtain ⟨n', right, s', hright, hat', hpipe⟩ := hr us s₃ hus h₃
  refine ⟨n + n' + 1, .pipe left right, s', (hleft.pair hright).1, hat', fun fuel hfuel => ?_⟩
  obtain ⟨fuel, rfl⟩ := Nat.exists_eq_add_of_le' hfuel
  have hexec' : parseexec text (fuel + (n + n')) s = .ok (left, s₁) := hexec _ (by omega)
  have hpipe' : parsepipe text (fuel + (n + n')) s₃ = .ok (right, s') := hpipe _ (by omega)
  change parsepipe text (fuel + (n + n') + 1) s = _
  simp only [parsepipe, hexec', ok_bind, hpeek, hget, if_true, hpipe']

theorem parses_fore {t : Tree} (h : Parses text t ts .pipe) : Parses text t ts .back := by
  intro us s hus hat
  obtain ⟨n, cmd, s', hcmd, hat', hpipe⟩ := h us s hus hat
  refine ⟨n, 0, cmd, s', hcmd, hat', fun fuel hfuel k => ?_⟩
  have hpipe' : parsepipe text fuel s = .ok (cmd, s') := hpipe fuel hfuel
  rw [hpipe', ok_bind]
  rfl

theorem parses_back {t : Tree} (h : Parses text t ts .back) :
    Parses text (.back t) (ts ++ [.amp]) .back := by
  intro us s hus hat
  rw [List.append_assoc] at hat
  obtain ⟨n, m, cmd, s₁, hcmd, h₁, hloop⟩ := h (.amp :: us) s (follow_cons (Or.inl rfl)) hat
  obtain ⟨s₂, hpeek, h₂⟩ := peek_hit (ascii "&") rfl h₁
  obtain ⟨_, s₃, hget, h₃, _⟩ := gettoken_spec h₂
  refine ⟨n, m + 1, .back cmd, s₃, ⟨congrArg Cmd.back hcmd.words, hcmd.bounds⟩, h₃,
    fun fuel hfuel k => ?_⟩
  have := hloop fuel hfuel (k + 1)
  rw [Nat.add_right_comm, Nat.add_assoc] at this
  rw [this]
  simp only [parseback, hpeek, hget, if_true]

/-- The loop of `parseline` takes all there are. -/
theorem parseback_spec {t : Tree} (h : Parses text t ts .back) (hus : Level.back.Follow us)
    (hamp : us.head?.any (·.startsIn (ascii "&")) = false) (hat : At text s (ts ++ us)) :
    Yields text (fun fuel => parsepipe text fuel s >>= fun x =>
      parseback text fuel x.1 x.2) t.cmd us := by
  obtain ⟨n, m, cmd, s₁, hcmd, h₁, hloop⟩ := h us s hus hat
  obtain ⟨s₂, hpeek, h₂⟩ := peek_miss _ hamp h₁
  refine ⟨n + m + 1, cmd, s₂, hcmd, h₂, fun fuel hfuel => ?_⟩
  obtain ⟨k, rfl⟩ : ∃ k, fuel = k + 1 + m := ⟨fuel - m - 1, by omega⟩
  have hloop' := hloop (k + 1 + m) (by omega) (k + 1)
  simp only [parseback, hpeek] at hloop'
  exact hloop'

theorem bind_eq_ok {α β : Type} {x : Except Stop α} {f : α → Except Stop β} {b : β}
    (h : (x >>= f) = .ok b) : ∃ a, x = .ok a ∧ f a = .ok b := by
  cases x with
  | error e => cases h
  | ok a => exact ⟨a, rfl, h⟩

theorem parses_last {t : Tree} (h : Parses text t ts .back) : Parses text t ts .line := by
  intro us s hus hat
  have hamp : us.head?.any (·.startsIn (ascii "&")) = false :=
    not_any hus (by rintro t rfl; rfl)
  have hsemi : us.head?.any (·.startsIn (ascii ";")) = false :=
    not_any hus (by rintro t rfl; rfl)
  obtain ⟨n, cmd, s₁, hcmd, h₁, hback⟩ :=
    parseback_spec h (fun t ht => Or.inr (Or.inr (hus t ht))) hamp hat
  obtain ⟨s₂, hpeek, h₂⟩ := peek_miss _ hsemi h₁
  refine ⟨n + 1, cmd, s₂, hcmd, h₂, fun fuel hfuel => ?_⟩
  obtain ⟨fuel, rfl⟩ := Nat.exists_eq_add_of_le' hfuel
  obtain ⟨x, hpipe, hloop⟩ := bind_eq_ok (hback (fuel + n) (Nat.le_add_left n fuel))
  change parseline text (fuel + n + 1) s = _
  simp only [parseline, hpipe, ok_bind, hloop, hpeek]
  rfl

theorem parses_list {l r : Tree} {ls rs : List Tok} (hl : Parses text l ls .back)
    (hr : Parses text r rs .line) : Parses text (.list l r) (ls ++ .semi :: rs) .line := by
  intro us s hus hat
  rw [List.append_assoc, List.cons_append] at hat
  obtain ⟨n, left, s₁, hleft, h₁, hback⟩ :=
    parseback_spec hl (follow_cons (Or.inr (Or.inl rfl))) rfl hat
  obtain ⟨s₂, hpeek, h₂⟩ := peek_hit (ascii ";") rfl h₁
  obtain ⟨_, s₃, hget, h₃, _⟩ := gettoken_spec h₂
  obtain ⟨n', right, s', hright, hat', hline⟩ := hr us s₃ hus h₃
  refine ⟨n + n' + 1, .list left right, s', (hleft.pair hright).2, hat', fun fuel hfuel => ?_⟩
  obtain ⟨fuel, rfl⟩ := Nat.exists_eq_add_of_le' hfuel
  obtain ⟨x, hpipe, hloop⟩ := bind_eq_ok (hback (fuel + (n + n')) (by omega))
  have hline' : parseline text (fuel + (n + n')) s₃ = .ok (right, s') := hline _ (by omega)
  change parseline text (fuel + (n + n') + 1) s = _
  simp only [parseline, hpipe, ok_bind, hloop, hpeek, hget, if_true, hline']

/-- **What the grammar derives is parsed**, at each level. -/
theorem parses {level : Level} {t : Tree} (h : Derives level t ts) : Parses text t ts level := by
  induction h with
  | items items hlt => exact parses_items items hlt
  | block _ redirs ih => exact parses_block ih redirs
  | cmd _ ih => exact parses_cmd ih
  | pipe _ _ ihl ihr => exact parses_pipe ihl ihr
  | fore _ ih => exact parses_fore ih
  | back _ ih => exact parses_back ih
  | last _ ih => exact parses_last ih
  | list _ _ ihl ihr => exact parses_list ihl ihr

end SchoolStuff.Xv6.Sh
