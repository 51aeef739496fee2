import SchoolStuff.Mix.Basic

/-!
# Mix — what a line means

`decode` is the meaning of a line without its newline: the bytes it adds to
the output, and the status it ends the run with, if it does. `decodeAll` is
that of a script. `nextLine` leaves the line in the buffer in front of two
NULs, whether a newline or a byte of the line was chopped
(`nextLine_taken`), and from there `main` does what `decode` says
(`switch_decode`): so it does on every script whose lines fit into the
buffer (`mainLoop_lines`).
-/

namespace SchoolStuff.Mix

open CText

/-! ## The meaning of a script -/

/-- The loop over the payload of a hex line. -/
def hexDecode : List UInt8 → List UInt8 × Option Nat
  | [] => ([], none)
  | [c] =>
      if c = blank then ([], none)
      else
        match scan2hhx [c] with
        | none => ([], some 1)
        | some hexVal => ([hexVal], none)
  | c :: d :: p =>
      if c = blank then hexDecode (d :: p)
      else
        match scan2hhx (c :: d :: p) with
        | none => ([], some 1)
        | some hexVal => (hexVal :: (hexDecode p).1, (hexDecode p).2)

/-- A line without its newline: its letter, a separator and the payload. -/
def decode (line : List UInt8) : List UInt8 × Option Nat :=
  let payload := line.drop 2
  match lineType (line.headD 0) with
  | .comment => ([], none)
  | .string => (payload, none)
  | .hex => hexDecode payload
  | .address =>
      match scanP payload with
      | none => ([], some 2)
      | some addr => (addrBytes addr, none)
  | _ => ([], some 3)

/-- The lines of a script, and `rest` for what comes after them. -/
def decodeAll (rest : List UInt8 × Nat) :
    List (List UInt8) → List UInt8 × Nat
  | [] => rest
  | l :: ls =>
      match (decode l).2 with
      | some status => ((decode l).1, status)
      | none => ((decode l).1 ++ (decodeAll rest ls).1, (decodeAll rest ls).2)

/-- Lines as they stand in a script. -/
def unlines (ls : List (List UInt8)) : List UInt8 :=
  ls.flatMap (· ++ [newline])

theorem hexDecode_blank (p : List UInt8) :
    hexDecode (blank :: p) = hexDecode p := by
  cases p <;> simp [hexDecode]

theorem hexDecode_pair {c : UInt8} (hc : c ≠ blank) (p : List UInt8) :
    hexDecode (c :: p)
      = match scan2hhx (c :: p) with
        | none => ([], some 1)
        | some hexVal =>
            (hexVal :: (hexDecode (p.drop 1)).1, (hexDecode (p.drop 1)).2) := by
  cases p with
  | nil =>
      rw [hexDecode, if_neg hc]
      rfl
  | cons d p =>
      rw [hexDecode, if_neg hc]
      rfl

/-! ## Reading a line -/

/-- The state between two lines: the last byte of the buffer is never
written but with a NUL. -/
structure Between (st : St) : Prop where
  running : st.status = none
  more : st.atEof = false
  length : st.buffer.length = BUFSIZE
  last : st.buffer[BUFSIZE - 1]? = some 0

theorem between_init (script : List UInt8) : Between (St.init script) :=
  ⟨rfl, rfl, List.length_replicate, List.getElem?_replicate_of_lt (by decide)⟩

/-- What is behind a line and its two NULs. -/
def St.behind (st : St) (taken : List UInt8) : List UInt8 :=
  st.buffer.drop (taken.length + 1)

/-- The state in which `main` looks at the line `fgets` took. -/
def St.loaded (st : St) (taken : List UInt8) : St :=
  { st with
    stdin := st.stdin.drop taken.length
    atEof := taken.getLast? ≠ some newline && taken.length < BUFSIZE - 1
    buffer := taken.dropLast ++ 0 :: 0 :: st.behind taken
    dstring := 2 }

/-- **Reading a line** chops its last byte, whatever it is. -/
theorem nextLine_taken {st : St} {taken : List UInt8} (hmore : st.atEof = false)
    (htake : takeLine (BUFSIZE - 1) st.stdin = taken) (hne : taken ≠ [])
    (hnul : 0 ∉ taken) :
    st.nextLine
      = some (lineType (taken.dropLast.headD 0), st.loaded taken) := by
  obtain ⟨line, last, rfl⟩ : ∃ line last, taken = line ++ [last] :=
    ⟨taken.dropLast, taken.getLast hne, (List.dropLast_concat_getLast hne).symm⟩
  have hstr : cstr ((line ++ [last]) ++ 0 :: st.behind (line ++ [last])) 0
      = some (line ++ [last]) := by
    simpa using cstr_append [] hnul (st.behind (line ++ [last]))
  have hset : ((line ++ [last]) ++ 0 :: st.behind (line ++ [last])).set
        ((line ++ [last]).length - 1) 0
      = line ++ 0 :: 0 :: st.behind (line ++ [last]) := by
    simp
  have htype : (line ++ 0 :: 0 :: st.behind (line ++ [last])).getD 0 0
      = line.headD 0 := by
    cases line <;> rfl
  rw [St.nextLine, if_neg (by simp [hmore]), St.fgets, htake, if_neg hne]
  show (cstr ((line ++ [last]) ++ 0 :: st.behind (line ++ [last])) 0).bind _ = _
  rw [hstr]
  simp only [Option.bind_some, guard, if_pos hne]
  show some (lineType (List.getD (List.set _ _ 0) 0 0), _) = _
  rw [St.loaded, List.dropLast_concat, ← htype, ← hset]
  rfl

/-- The loaded buffer is still one of `BUFSIZE` bytes, the last one a NUL. -/
theorem loaded_buffer {st : St} {taken : List UInt8} (hst : Between st)
    (hne : taken ≠ []) (hlen : taken.length < BUFSIZE) :
    (st.loaded taken).buffer.length = BUFSIZE
      ∧ (st.loaded taken).buffer[BUFSIZE - 1]? = some 0 := by
  have hpos : 0 < taken.length := List.length_pos_iff.mpr hne
  have hsize := hst.length
  have hlast := hst.last
  simp only [St.loaded, St.behind, BUFSIZE] at hlen hsize hlast ⊢
  constructor
  · simp only [List.length_append, List.length_dropLast, List.length_cons,
      List.length_drop]
    omega
  · rw [List.getElem?_append_right (by rw [List.length_dropLast]; omega),
      List.length_dropLast]
    by_cases hfull : taken.length = 255
    · rw [hfull]
      rfl
    · obtain ⟨k, hk⟩ : ∃ k, 256 - 1 - (taken.length - 1) = k + 2 :=
        ⟨256 - 1 - (taken.length - 1) - 2, by omega⟩
      rw [hk, List.getElem?_cons_succ, List.getElem?_cons_succ,
        List.getElem?_drop, ← hlast]
      congr 1
      omega

/-! ## Decoding it -/

/-- The hex loop does what `hexDecode` says. A last single digit makes it
step over the first NUL onto the second. -/
theorem hexLoop_decode {p : List UInt8} (hp : 0 ∉ p) :
    ∀ (fuel : Nat) (st : St) (before post : List UInt8),
      st.buffer = before ++ (p ++ 0 :: 0 :: post) →
      st.dstring = before.length → st.status = none → p.length ≤ fuel →
      ∃ st', Loop.run hexCond hexBody fuel st = some st'
        ∧ st'.stdout = st.stdout ++ (hexDecode p).1
        ∧ st'.status = (hexDecode p).2 ∧ st'.stdin = st.stdin
        ∧ st'.atEof = st.atEof ∧ st'.buffer = st.buffer := by
  induction hn : p.length using Nat.strong_induction_on generalizing p with
  | _ n ih =>
  intro fuel st before post hbuf hat hstatus hfuel
  cases p with
  | nil =>
      have hexit : hexCond st = false := by simp [hexCond, hbuf, hat]
      exact ⟨st, Loop.run_of_exit hexit _, by simp [hexDecode], hstatus, rfl,
        rfl, rfl⟩
  | cons c p =>
      simp only [List.mem_cons, not_or] at hp
      simp only [List.length_cons] at hn hfuel
      obtain ⟨fuel, rfl⟩ : ∃ k, fuel = k + 1 := ⟨fuel - 1, by omega⟩
      have hc : st.buffer[st.dstring]? = some c := by simp [hbuf, hat]
      have hcond : hexCond st = true := by
        simp [hexCond, hc, hstatus, Ne.symm hp.1]
      rw [Loop.run, if_pos hcond]
      by_cases hblank : c = blank
      · -- a blank is stepped over
        have hbody : hexBody st = some { st with dstring := st.dstring + 1 } := by
          simp [hexBody, hc, hblank]
        rw [hbody, Option.bind_some, hblank, hexDecode_blank]
        exact ih p.length (by omega) hp.2 rfl fuel
          { st with dstring := st.dstring + 1 } (before ++ [c]) post
          (by simpa using hbuf) (by simp [hat]) hstatus (by omega)
      · have htext : st.text = some (c :: p) := by
          rw [St.text, hbuf, hat]
          exact cstr_append before (by simpa using hp) (0 :: post)
        rw [hexDecode_pair hblank]
        cases hscan : scan2hhx (c :: p) with
        | none =>
            have hbody : ∃ message, hexBody st = some (st.fail 1 message) :=
              ⟨_, by simp [hexBody, hc, hblank, St.hexPair, htext, hscan]; rfl⟩
            obtain ⟨message, hbody⟩ := hbody
            refine ⟨st.fail 1 message, ?_, by simp [St.fail], rfl, rfl, rfl, rfl⟩
            rw [hbody, Option.bind_some]
            exact Loop.run_of_exit rfl _
        | some hexVal =>
            have hbody : hexBody st = some { st with
                stdout := st.stdout ++ [hexVal], dstring := st.dstring + 2 } := by
              simp [hexBody, hc, hblank, St.hexPair, htext, hscan]
            rw [hbody, Option.bind_some]
            cases p with
            | nil =>
                have hexit : hexCond { st with
                    stdout := st.stdout ++ [hexVal]
                    dstring := st.dstring + 2 } = false := by
                  simp [hexCond, hbuf, hat]
                exact ⟨_, Loop.run_of_exit hexit _, by simp [hexDecode], hstatus,
                  rfl, rfl, rfl⟩
            | cons d p =>
                simp only [List.mem_cons, not_or] at hp
                simp only [List.length_cons] at hn hfuel
                obtain ⟨st', hrun, hout, hst'⟩ := ih p.length (by omega) hp.2.2 rfl
                  fuel { st with
                    stdout := st.stdout ++ [hexVal], dstring := st.dstring + 2 }
                  (before ++ [c, d]) post (by simpa using hbuf) (by simp [hat])
                  hstatus (by omega)
                exact ⟨st', hrun, by simpa using hout, hst'⟩

/-- A string that some NUL ends. -/
theorem cstr_isSome {mem : List UInt8} {p i : Nat} (hi : mem[i]? = some 0)
    (hle : p ≤ i) : ∃ s, cstr mem p = some s := by
  have hmem : 0 ∈ mem.drop p := by
    have hget : (mem.drop p)[i - p]? = some 0 := by
      rw [List.getElem?_drop, Nat.add_sub_cancel' hle, hi]
    exact List.mem_of_getElem? hget
  exact ⟨_, if_pos hmem⟩

/-- The string at `dstring` is the payload. -/
theorem text_line {st : St} {line post : List UInt8}
    (hbuf : st.buffer = line ++ 0 :: 0 :: post) (hat : st.dstring = 2)
    (hnul : 0 ∉ line) (hne : line ≠ []) : st.text = some (line.drop 2) := by
  rw [St.text, hbuf, hat]
  match line, hnul, hne with
  | [c], _, _ => exact cstr_append [c, 0] (s := []) (by simp) post
  | c :: s :: p, hnul, _ =>
      have hp : 0 ∉ p := fun h =>
        hnul (List.mem_cons_of_mem _ (List.mem_cons_of_mem _ h))
      exact cstr_append [c, s] hp (0 :: post)

/-- On a hex line. -/
theorem hexLoop_line {st : St} {line post : List UInt8} {fuel : Nat}
    (hbuf : st.buffer = line ++ 0 :: 0 :: post) (hat : st.dstring = 2)
    (hnul : 0 ∉ line) (hne : line ≠ []) (hstatus : st.status = none)
    (hfuel : line.length ≤ fuel) :
    ∃ st', Loop.run hexCond hexBody fuel st = some st'
      ∧ st'.stdout = st.stdout ++ (hexDecode (line.drop 2)).1
      ∧ st'.status = (hexDecode (line.drop 2)).2 ∧ st'.stdin = st.stdin
      ∧ st'.atEof = st.atEof ∧ st'.buffer = st.buffer := by
  match line, hbuf, hnul, hne, hfuel with
  | [c], hbuf, _, _, _ =>
      have hexit : hexCond st = false := by simp [hexCond, hbuf, hat]
      exact ⟨st, Loop.run_of_exit hexit _, by simp [hexDecode], hstatus, rfl,
        rfl, rfl⟩
  | c :: s :: p, hbuf, hnul, _, hfuel =>
      have hp : 0 ∉ p := fun h =>
        hnul (List.mem_cons_of_mem _ (List.mem_cons_of_mem _ h))
      simp only [List.length_cons] at hfuel
      exact hexLoop_decode hp fuel st [c, s] post hbuf hat hstatus (by omega)

/-- What `main` does with a line that is in the buffer. -/
theorem switch_decode {st : St} {line post : List UInt8} {fuel : Nat}
    (hbuf : st.buffer = line ++ 0 :: 0 :: post) (hat : st.dstring = 2)
    (hnul : 0 ∉ line) (hlast : st.buffer[BUFSIZE - 1]? = some 0)
    (hstatus : st.status = none) (hfuel : line.length ≤ fuel) :
    ∃ st', st.switch fuel (lineType (line.headD 0)) = some st'
      ∧ st'.stdout = st.stdout ++ (decode line).1
      ∧ st'.status = (decode line).2 ∧ st'.stdin = st.stdin
      ∧ st'.atEof = st.atEof ∧ st'.buffer = st.buffer := by
  have herror : ∃ st', (do
        let s ← st.text
        some (st.fail 3 (ascii "Invalid input line: " ++ s ++ ascii "\n")))
        = some st' ∧ st'.stdout = st.stdout ++ [] ∧ st'.status = some 3
      ∧ st'.stdin = st.stdin ∧ st'.atEof = st.atEof
      ∧ st'.buffer = st.buffer := by
    obtain ⟨s, hs⟩ := cstr_isSome hlast (p := st.dstring) (by rw [hat]; decide)
    refine ⟨st.fail 3 (ascii "Invalid input line: " ++ s ++ ascii "\n"), ?_,
      by simp [St.fail], rfl, rfl, rfl, rfl⟩
    rw [St.text, hs]
    rfl
  by_cases hne : line = []
  · rw [hne]
    exact herror
  · have htext := text_line hbuf hat hnul hne
    rw [decode]
    cases htype : lineType (line.headD 0) with
    | string =>
        refine ⟨{ st with stdout := st.stdout ++ line.drop 2 }, ?_, rfl,
          hstatus, rfl, rfl, rfl⟩
        rw [St.switch, htext]
        rfl
    | hex => exact hexLoop_line hbuf hat hnul hne hstatus hfuel
    | address =>
        cases hscan : scanP (line.drop 2) with
        | none =>
            refine ⟨st.fail 2 (ascii
              "Please use only hexadecimal values on address lines... got "
              ++ line.drop 2 ++ ascii "\n"), ?_, by simp [St.fail], rfl, rfl, rfl,
              rfl⟩
            rw [St.switch, htext]
            show (match scanP (line.drop 2) with | none => _ | some _ => _) = _
            rw [hscan]
        | some addr =>
            refine ⟨{ st with stdout := st.stdout ++ addrBytes addr }, ?_, rfl,
              hstatus, rfl, rfl, rfl⟩
            rw [St.switch, htext]
            show (match scanP (line.drop 2) with | none => _ | some _ => _) = _
            rw [hscan]
    | comment => exact ⟨st, rfl, by simp, hstatus, rfl, rfl, rfl⟩
    | eof => exact herror
    | error => exact herror

/-! ## The script -/

/-- A line that `fgets` takes at once, and as a string. -/
structure Readable (line : List UInt8) : Prop where
  no_nul : 0 ∉ line
  no_newline : newline ∉ line
  length : line.length ≤ 254

theorem lineType_ne_eof (c : UInt8) : lineType c ≠ .eof := by
  unfold lineType
  split_ifs <;> decide

/-- **A turn of `main`** does what the line says that it read. -/
theorem mainBody_taken {st : St} {taken : List UInt8} {fuel : Nat}
    (hst : Between st) (htake : takeLine (BUFSIZE - 1) st.stdin = taken)
    (hne : taken ≠ []) (hnul : 0 ∉ taken) (hlen : taken.length < BUFSIZE)
    (hfuel : BUFSIZE ≤ fuel) :
    ∃ st', mainBody fuel st = some st'
      ∧ st'.stdout = st.stdout ++ (decode taken.dropLast).1
      ∧ st'.status = (decode taken.dropLast).2
      ∧ st'.stdin = st.stdin.drop taken.length
      ∧ st'.atEof = (taken.getLast? ≠ some newline
        && taken.length < BUFSIZE - 1)
      ∧ st'.buffer.length = BUFSIZE ∧ st'.buffer[BUFSIZE - 1]? = some 0 := by
  obtain ⟨hsize, hlast⟩ := loaded_buffer hst hne hlen
  obtain ⟨st', hswitch, hout, hstatus, hin, hend, hbuf⟩ :=
    switch_decode
      (show (st.loaded taken).buffer = taken.dropLast ++ 0 :: 0 :: _ from rfl) rfl
      (fun h => hnul (List.dropLast_subset _ h)) hlast hst.running
      (show taken.dropLast.length ≤ fuel by rw [List.length_dropLast]; omega)
  refine ⟨st', ?_, hout, hstatus, hin, hend, by rw [hbuf]; exact hsize,
    by rw [hbuf]; exact hlast⟩
  simp only [mainBody, nextLine_taken hst.more htake hne hnul, Option.bind_eq_bind,
    Option.bind_some, if_neg (lineType_ne_eof _)]
  exact hswitch

/-- A line with its newline. -/
theorem mainBody_line {st : St} {line script : List UInt8} {fuel : Nat}
    (hst : Between st) (hline : Readable line)
    (hin : st.stdin = line ++ newline :: script) (hfuel : BUFSIZE ≤ fuel) :
    ∃ st', mainBody fuel st = some st'
      ∧ st'.stdout = st.stdout ++ (decode line).1
      ∧ st'.status = (decode line).2 ∧ st'.stdin = script
      ∧ (st'.status = none → Between st') := by
  have hlen := hline.length
  have htake : takeLine (BUFSIZE - 1) st.stdin = line ++ [newline] := by
    rw [hin]
    exact takeLine_line hline.no_newline script (by simp only [BUFSIZE]; omega)
  have hnul : 0 ∉ line ++ [newline] := by
    simpa using ⟨hline.no_nul, by decide⟩
  obtain ⟨st', hbody, hout, hstatus, hrest, hend, hsize, hlast⟩ :=
    mainBody_taken hst htake (by simp) hnul
      (by simp only [BUFSIZE, List.length_append, List.length_singleton]; omega)
      hfuel
  rw [List.dropLast_concat] at hout hstatus
  refine ⟨st', hbody, hout, hstatus, ?_, fun hnone =>
    ⟨hnone, by rw [hend]; simp, hsize, hlast⟩⟩
  have hsplit : line ++ newline :: script = (line ++ [newline]) ++ script := by
    simp
  rw [hrest, hin, hsplit, List.drop_left]

/-- The loop of `main`. -/
abbrev mainLoop (fuel turns : Nat) (st : St) : Option St :=
  Loop.run (fun st => st.status.isNone) (mainBody fuel) turns st

/-- From `st` on, `main` writes `rest.1` and returns `rest.2`. -/
def Ends (fuel turns : Nat) (st : St) (rest : List UInt8 × Nat) : Prop :=
  ∃ st', mainLoop fuel turns st = some st'
    ∧ st'.stdout = st.stdout ++ rest.1 ∧ st'.status = some rest.2

theorem Ends.turn {fuel turns : Nat} {st st₁ : St}
    {rest : List UInt8 × Nat} {out : List UInt8} (hstatus : st.status = none)
    (hbody : mainBody fuel st = some st₁) (hout : st₁.stdout = st.stdout ++ out)
    (h : Ends fuel turns st₁ rest) :
    Ends fuel (turns + 1) st (out ++ rest.1, rest.2) := by
  obtain ⟨st', hrun, hout', hst'⟩ := h
  refine ⟨st', ?_, by rw [hout', hout, List.append_assoc], hst'⟩
  rw [mainLoop, Loop.run, if_pos (by rw [hstatus]; rfl), hbody, Option.bind_some]
  exact hrun

/-- A run that a line has ended. -/
theorem Ends.stopped {fuel turns : Nat} {st : St} {status : Nat}
    (hstatus : st.status = some status) : Ends fuel turns st ([], status) :=
  ⟨st, Loop.run_of_exit (by rw [hstatus]; rfl) _, by simp, hstatus⟩

/-- A turn that does what line `l` says, and what comes after it unless it
ends the run. -/
theorem Ends.line {fuel turns : Nat} {st st₁ : St} {l : List UInt8}
    {ls : List (List UInt8)} {rest : List UInt8 × Nat} (hrun : st.status = none)
    (hbody : mainBody fuel st = some st₁)
    (hout : st₁.stdout = st.stdout ++ (decode l).1)
    (hstatus : st₁.status = (decode l).2)
    (h : st₁.status = none → Ends fuel turns st₁ (decodeAll rest ls)) :
    Ends fuel (turns + 1) st (decodeAll rest (l :: ls)) := by
  rw [decodeAll]
  cases hdecode : (decode l).2 with
  | some status =>
      rw [hdecode] at hstatus
      have hstop : Ends fuel turns st₁ ([], status) := Ends.stopped hstatus
      have hends := Ends.turn hrun hbody hout hstop
      rwa [List.append_nil] at hends
  | none =>
      rw [hdecode] at hstatus
      exact Ends.turn hrun hbody hout (h hstatus)

/-- At the end of the input `main` returns 0. -/
theorem ends_eof {fuel turns : Nat} {st : St} (hstatus : st.status = none)
    (hturns : 1 ≤ turns) (hend : st.atEof = true ∨ st.stdin = []) :
    Ends fuel turns st ([], 0) := by
  obtain ⟨turns, rfl⟩ : ∃ k, turns = k + 1 := ⟨turns - 1, by omega⟩
  have hread : ∃ st₁, st.nextLine = some (.eof, st₁) ∧ st₁.stdout = st.stdout := by
    cases heof : st.atEof with
    | true => exact ⟨st, by rw [St.nextLine, if_pos heof], rfl⟩
    | false =>
        have hin : st.stdin = [] := hend.resolve_left (by simp [heof])
        exact ⟨{ st with atEof := true },
          by simp [St.nextLine, St.fgets, heof, hin], rfl⟩
  obtain ⟨st₁, hread, hout⟩ := hread
  have hbody : mainBody fuel st = some { st₁ with status := some 0 } := by
    simp [mainBody, hread]
  have hout' : st₁.stdout = st.stdout ++ [] := by rw [hout, List.append_nil]
  exact Ends.turn hstatus hbody hout' (Ends.stopped rfl)

/-- **Run lemma**: the lines of a script are decoded one after the other, up
to one that ends the run; `tail` is what comes after them. -/
theorem mainLoop_lines {fuel : Nat} (hfuel : BUFSIZE ≤ fuel)
    {rest : List UInt8 × Nat} (tail : List UInt8)
    (htail : ∀ st turns, Between st → st.stdin = tail → 2 ≤ turns →
      Ends fuel turns st rest) :
    ∀ (ls : List (List UInt8)) (st : St) (turns : Nat),
      (∀ l ∈ ls, Readable l) → st.stdin = unlines ls ++ tail → Between st →
      ls.length + 2 ≤ turns → Ends fuel turns st (decodeAll rest ls) := by
  intro ls
  induction ls with
  | nil =>
      intro st turns _ hin hst hturns
      exact htail st turns hst hin (by simpa using hturns)
  | cons l ls ih =>
      intro st turns hls hin hst hturns
      obtain ⟨hl, hls⟩ := List.forall_mem_cons.mp hls
      simp only [List.length_cons] at hturns
      obtain ⟨turns, rfl⟩ : ∃ k, turns = k + 1 := ⟨turns - 1, by omega⟩
      have hin' : st.stdin = l ++ newline :: (unlines ls ++ tail) := by
        rw [hin, unlines, List.flatMap_cons]
        simp [unlines]
      obtain ⟨st₁, hbody, hout, hstatus, hrest, hbetween⟩ :=
        mainBody_line hst hl hin' hfuel
      exact Ends.line hst.running hbody hout hstatus fun hnone =>
        ih st₁ turns hls hrest (hbetween hnone) (by omega)

/-- A last line without a newline loses its last byte. -/
theorem ends_unfinished {fuel turns : Nat} {st : St} {last : List UInt8}
    (hfuel : BUFSIZE ≤ fuel) (hst : Between st) (hlast : Readable last)
    (hne : last ≠ []) (hin : st.stdin = last) (hturns : 2 ≤ turns) :
    Ends fuel turns st (decodeAll ([], 0) [last.dropLast]) := by
  have hlen := hlast.length
  have htake : takeLine (BUFSIZE - 1) st.stdin = last := by
    rw [hin]
    exact takeLine_all hlast.no_newline (by simp only [BUFSIZE]; omega)
  obtain ⟨turns, rfl⟩ : ∃ k, turns = k + 1 := ⟨turns - 1, by omega⟩
  obtain ⟨st₁, hbody, hout, hstatus, -, hend, -⟩ :=
    mainBody_taken hst htake hne hlast.no_nul (by simp only [BUFSIZE]; omega)
      hfuel
  have heof : st₁.atEof = true := by
    have hnl : last.getLast? ≠ some newline := fun h =>
      hlast.no_newline (List.mem_of_getLast? h)
    have hroom : last.length < BUFSIZE - 1 := by
      simp only [BUFSIZE]
      omega
    rw [hend]
    simp [hnl, hroom]
  exact Ends.line hst.running hbody hout hstatus fun hnone =>
    ends_eof hnone (by omega) (.inl heof)

/-- **`main` means `decodeAll`** on a script of readable lines. -/
theorem main_unlines {ls : List (List UInt8)} (hls : ∀ l ∈ ls, Readable l)
    {fuel : Nat} (hfuel : BUFSIZE + ls.length + 2 ≤ fuel) :
    ∃ st, main fuel (unlines ls) = some st
      ∧ st.stdout = (decodeAll ([], 0) ls).1
      ∧ st.status = some (decodeAll ([], 0) ls).2 :=
  mainLoop_lines (by omega) []
    (fun _ _ hst hin hturns =>
      ends_eof hst.running (by omega) (.inr hin))
    ls (St.init _) fuel hls (List.append_nil _).symm (between_init _) (by omega)

/-- The same where the last line has no newline. -/
theorem main_unfinished {ls : List (List UInt8)} {last : List UInt8}
    (hls : ∀ l ∈ ls, Readable l) (hlast : Readable last) (hne : last ≠ [])
    {fuel : Nat} (hfuel : BUFSIZE + ls.length + 2 ≤ fuel) :
    ∃ st, main fuel (unlines ls ++ last) = some st
      ∧ st.stdout = (decodeAll (decodeAll ([], 0) [last.dropLast]) ls).1
      ∧ st.status
        = some (decodeAll (decodeAll ([], 0) [last.dropLast]) ls).2 :=
  mainLoop_lines (by omega) last
    (fun _ _ hst hin hturns =>
      ends_unfinished (by omega) hst hlast hne hin hturns)
    ls (St.init _) fuel hls rfl (between_init _) (by omega)

end SchoolStuff.Mix
