import SchoolStuff.Mix.Decode

/-!
# Mix — what is rendered is written

A script is rendered line by line: a letter, a separator, a payload and a
newline. Reading one line back leaves the payload in front of two NULs in
the buffer (`nextLine_render`); the four kinds of payload then have one
lemma each, and `mainBody_render` puts them together. `round_trip` is the
induction over the script.
-/

namespace SchoolStuff.Mix

open CText

/-! ## Scripts -/

/-- `text` writes `vals` in pairs of digits, with blanks between the pairs. -/
inductive HexText : List UInt8 → List UInt8 → Prop
  | nil : HexText [] []
  | blank {vals text : List UInt8} :
      HexText vals text → HexText vals (CText.blank :: text)
  | pair {val c d : UInt8} {vals text : List UInt8} :
      hexVal c = some (val.toNat / 16) → hexVal d = some (val.toNat % 16) →
      HexText vals text → HexText (val :: vals) (c :: d :: text)

/-- `text` writes `v` in hexadecimal, with or without a `0x`. -/
inductive AddrText (v : UInt64) : List UInt8 → Prop
  | plain {text : List UInt8} {ds : List Nat} : ds ≠ [] →
      text.map hexVal = ds.map some → ofHexDigits ds = v.toNat → AddrText v text
  | base {a b : UInt8} {text : List UInt8} {ds : List Nat} :
      isBase a b = true → ds ≠ [] → text.map hexVal = ds.map some →
      ofHexDigits ds = v.toNat → AddrText v (a :: b :: text)

/-- A directive, with the payload that renders it. -/
inductive Directive where
  | string (text : List UInt8)
  | hex (vals text : List UInt8) (h : HexText vals text)
  | address (v : UInt64) (text : List UInt8) (h : AddrText v text)
  | comment (text : List UInt8)

namespace Directive

def letter : Directive → UInt8
  | string _ => 83
  | hex _ _ _ => 88
  | address _ _ _ => 65
  | comment _ => 35

def payload : Directive → List UInt8
  | string text => text
  | hex _ text _ => text
  | address _ text _ => text
  | comment text => text

/-- The bytes that a directive stands for. -/
def bytes : Directive → List UInt8
  | string text => text
  | hex vals _ _ => vals
  | address v _ _ => addrBytes v
  | comment _ => []

def type : Directive → LineType
  | string _ => .string
  | hex _ _ _ => .hex
  | address _ _ _ => .address
  | comment _ => .comment

end Directive

/-- A directive and the separator behind its letter. -/
structure Line where
  dir : Directive
  sep : UInt8

/-- A line without its newline. -/
def Line.text (l : Line) : List UInt8 := l.dir.letter :: l.sep :: l.dir.payload

def Line.render (l : Line) : List UInt8 := l.text ++ [newline]

/-- The limits of a line: `fgets` takes the line at once, and as a string. -/
def Line.Fits (l : Line) : Prop := 0 ∉ l.render ∧ l.render.length < BUFSIZE

instance (l : Line) : Decidable l.Fits := by
  unfold Line.Fits
  exact inferInstance

/-- The line is one line: neither separator nor payload is or has a newline. -/
def Line.OneLine (l : Line) : Prop := newline ∉ l.sep :: l.dir.payload

instance (l : Line) : Decidable l.OneLine := by
  unfold Line.OneLine
  exact inferInstance

/-! ## The payloads -/

theorem HexText.no_nul {vals text : List UInt8} (h : HexText vals text) :
    0 ∉ text := by
  induction h with
  | nil => simp
  | blank _ ih =>
      simp only [List.mem_cons, not_or]
      exact ⟨by decide, ih⟩
  | pair hc hd _ ih =>
      simp only [List.mem_cons, not_or]
      exact ⟨(digit_ne hc (by decide)).symm, (digit_ne hd (by decide)).symm, ih⟩

theorem ofInt_toNat (c : UInt8) : UInt8.ofInt (c.toNat : Int) = c := by
  have hc : c.toNat < 256 := c.toNat_lt
  have hmod : ((c.toNat : Int) % 2 ^ 8).toNat = c.toNat := by omega
  rw [UInt8.ofInt, hmod, UInt8.ofNat_toNat]

/-- Two digits are a byte, whatever comes after them. -/
theorem scan2hhx_pair {val c d : UInt8} (hc : hexVal c = some (val.toNat / 16))
    (hd : hexVal d = some (val.toNat % 16)) (text : List UInt8) :
    scan2hhx (c :: d :: text) = some val := by
  have hdigits : [c, d].map hexVal = [val.toNat / 16, val.toNat % 16].map some := by
    simp [hc, hd]
  have hval : ofHexDigits [val.toNat / 16, val.toNat % 16] = val.toNat := by
    simp only [ofHexDigits, List.foldl_cons, List.foldl_nil]
    omega
  have hspace : (c :: d :: text).dropWhile isSpace = c :: d :: text := by
    rw [List.dropWhile_cons, digit_not_space hc]
    rfl
  have htake : (c :: d :: text).take 2 = [c, d] := rfl
  rw [scan2hhx, hspace, htake, scanHex_digits (by simp) hdigits, hval,
    Option.map_some, ofInt_toNat]

theorem toUInt64_toNat (v : UInt64) : toUInt64 (v.toNat : Int) = v := by
  have hv := v.toNat_lt
  have hmod : ((v.toNat : Int) % 2 ^ 64).toNat = v.toNat := by omega
  rw [toUInt64, if_pos (by simpa using hv), UInt64.ofInt, hmod,
    UInt64.ofNat_toNat]

/-- `%p` reads back what writes an address. -/
theorem scanP_addrText {v : UInt64} {text : List UInt8} (h : AddrText v text) :
    scanP text = some v := by
  cases h with
  | @plain _ ds hne hds hv =>
      have hspace : text.dropWhile isSpace = text := by
        match text, ds, hds with
        | [], _, _ => rfl
        | c :: cs, [], hds => simp at hds
        | c :: cs, d :: ds, hds =>
            simp only [List.map_cons, List.cons.injEq] at hds
            rw [List.dropWhile_cons, digit_not_space hds.1]
            rfl
      simp only [scanP, hspace, scanHex_digits hne hds, hv, toUInt64_toNat]
  | @base a b text ds hbase hne hds hv =>
      have ha : isSpace a = false := by
        simp only [isBase, Bool.and_eq_true, decide_eq_true_eq] at hbase
        rw [hbase.1]
        decide
      have hspace : (a :: b :: text).dropWhile isSpace = a :: b :: text := by
        rw [List.dropWhile_cons, ha]
        rfl
      simp only [scanP, hspace, scanHex_base hbase hne hds, hv, toUInt64_toNat]

/-! ## Reading a line -/

/-- The bytes of the buffer behind the NULs of a line. -/
def St.rest (st : St) (l : Line) : List UInt8 :=
  st.buffer.drop (l.text.length + 2)

/-- The state after a line has been read. -/
def St.after (st : St) (l : Line) (script : List UInt8) : St :=
  { st with
    stdin := script
    buffer := l.text ++ 0 :: 0 :: st.rest l
    dstring := 2 }

theorem lineType_letter (d : Directive) : lineType d.letter = d.type := by
  cases d <;> rfl

theorem letter_ne (d : Directive) : d.letter ≠ newline := by
  cases d <;> simp only [Directive.letter] <;> decide

theorem Line.text_no_newline {l : Line} (h : l.OneLine) : newline ∉ l.text := by
  rw [Line.text, List.mem_cons, not_or]
  exact ⟨(letter_ne l.dir).symm, h⟩

theorem Line.text_no_nul {l : Line} (h : l.Fits) : 0 ∉ l.text := by
  intro hmem
  exact h.1 (List.mem_append_left _ hmem)

theorem Line.length_render (l : Line) : l.render.length = l.text.length + 1 := by
  simp [Line.render]

/-- `fgets` takes a rendered line and its newline. -/
theorem fgets_render {st : St} {l : Line} {script : List UInt8}
    (hfits : l.Fits) (hline : l.OneLine)
    (hin : st.stdin = l.render ++ script) (hend : st.atEof = false) :
    st.fgets = (true,
      { st with
        stdin := script
        buffer := l.render ++ 0 :: st.rest l }) := by
  have hlen := hfits.2
  rw [Line.length_render] at hlen
  have htake : takeLine (BUFSIZE - 1) st.stdin = l.render := by
    rw [hin, Line.render, List.append_assoc, List.singleton_append]
    exact takeLine_line (Line.text_no_newline hline) script (by omega)
  have hne : l.render ≠ [] := by simp [Line.render]
  have hlast : l.render.getLast? = some newline := by simp [Line.render]
  have hdrop : st.stdin.drop l.render.length = script := by
    rw [hin, List.drop_left]
  have hroom : l.render.length + 1 = l.text.length + 2 := by
    rw [Line.length_render]
  unfold St.fgets
  simp only [htake, if_neg hne, hlast, hdrop, hroom, ne_eq, not_true_eq_false,
    decide_false, Bool.false_and, hend]
  rfl

/-- **Reading a rendered line** leaves its payload in front of two NULs: the
one `fgets` wrote, and the one that replaced the newline. -/
theorem nextLine_render {st : St} {l : Line} {script : List UInt8}
    (hfits : l.Fits) (hline : l.OneLine)
    (hin : st.stdin = l.render ++ script) (hend : st.atEof = false) :
    st.nextLine = some (l.dir.type, st.after l script) := by
  have hstr : cstr (l.render ++ 0 :: st.rest l) 0 = some l.render := by
    have := cstr_append [] hfits.1 (st.rest l)
    simpa using this
  have hne : l.render ≠ [] := by simp [Line.render]
  have hset : (l.render ++ 0 :: st.rest l).set (l.render.length - 1) 0
      = l.text ++ 0 :: 0 :: st.rest l := by
    simp [Line.render]
  unfold St.nextLine
  rw [if_neg (by simp [hend]), fgets_render hfits hline hin hend]
  change (cstr (l.render ++ 0 :: st.rest l) 0).bind _ = _
  rw [hstr]
  simp only [Option.bind_some, guard, if_pos hne]
  rw [St.after, ← hset]
  have htype : lineType ((l.text ++ 0 :: 0 :: st.rest l).getD 0 0) = l.dir.type :=
    lineType_letter l.dir
  rw [← hset] at htype
  rw [← htype]
  rfl

/-- The string at `dstring` is the payload. -/
theorem text_after {st : St} {l : Line} {script : List UInt8} (hfits : l.Fits) :
    (st.after l script).text = some l.dir.payload := by
  have hpay : 0 ∉ l.dir.payload := by
    have := Line.text_no_nul hfits
    simp only [Line.text, List.mem_cons, not_or] at this
    exact this.2.2
  exact cstr_append [l.dir.letter, l.sep] hpay (0 :: st.rest l)

/-! ## The loop over a hex line -/

/-- A text that writes bytes is decoded to them. -/
theorem HexText.hexDecode_eq {vals text : List UInt8} (h : HexText vals text) :
    hexDecode text = (vals, none) := by
  -- on the text: a blank is one turn of the loop, a pair of digits another
  induction h with
  | nil => rfl
  | blank _ ih => rw [hexDecode_blank, ih]
  | pair hc hd _ ih =>
      rw [hexDecode_pair (digit_ne hc (by decide)), scan2hhx_pair hc hd,
        List.drop_one, List.tail_cons, ih]

/-! ## The script -/

/-- **A turn of `main`** takes one rendered line and writes its bytes. -/
theorem mainBody_render {st : St} {l : Line} {script : List UInt8} {fuel : Nat}
    (hfits : l.Fits) (hline : l.OneLine) (hfuel : BUFSIZE ≤ fuel)
    (hin : st.stdin = l.render ++ script) (hend : st.atEof = false)
    (hstatus : st.status = none) :
    ∃ st', mainBody fuel st = some st' ∧ st'.stdin = script
      ∧ st'.atEof = false ∧ st'.status = none
      ∧ st'.stdout = st.stdout ++ l.dir.bytes := by
  have hread := nextLine_render hfits hline hin hend
  have htext : (st.after l script).text = some l.dir.payload := text_after hfits
  have heof : l.dir.type ≠ .eof := by
    cases l.dir <;> simp [Directive.type]
  have hbody : mainBody fuel st = (st.after l script).switch fuel l.dir.type := by
    simp only [mainBody, hread, Option.bind_eq_bind, Option.bind_some, if_neg heof]
  have hlen : l.dir.payload.length ≤ fuel := by
    have := hfits.2
    simp only [Line.length_render, Line.text, List.length_cons] at this
    omega
  rw [hbody]
  obtain ⟨dir, sep⟩ := l
  cases dir with
  | string text =>
      refine ⟨{ st.after ⟨.string text, sep⟩ script with
        stdout := st.stdout ++ text }, ?_, rfl, hend, hstatus, rfl⟩
      simp only [Directive.type, St.switch, htext, Option.bind_eq_bind,
        Option.bind_some]
      rfl
  | hex vals text h =>
      obtain ⟨st', hloop, hout, hdone, hin', hend', -⟩ :=
        hexLoop_decode h.no_nul fuel (st.after ⟨.hex vals text h, sep⟩ script)
          [88, sep] (st.rest ⟨.hex vals text h, sep⟩) rfl rfl hstatus hlen
      rw [h.hexDecode_eq] at hout hdone
      exact ⟨st', hloop, hin', hend'.trans hend, hdone, hout⟩
  | address v text h =>
      refine ⟨{ st.after ⟨.address v text h, sep⟩ script with
        stdout := st.stdout ++ addrBytes v }, ?_, rfl, hend, hstatus, rfl⟩
      simp only [Directive.type, St.switch, htext, Option.bind_eq_bind,
        Option.bind_some, Directive.payload, scanP_addrText h]
      rfl
  | comment text =>
      exact ⟨st.after ⟨.comment text, sep⟩ script, rfl, rfl, hend, hstatus,
        (List.append_nil _).symm⟩

/-- At the end of the script `main` returns 0. -/
theorem mainBody_end {st : St} {fuel : Nat} (hin : st.stdin = [])
    (hend : st.atEof = false) :
    mainBody fuel st = some { st with atEof := true, status := some 0 } := by
  have hread : st.nextLine = some (.eof, { st with atEof := true }) := by
    simp [St.nextLine, St.fgets, hend, hin]
  simp [mainBody, hread]

/-- The loop of `main` over what is left of a rendered script. -/
theorem mainLoop_render (fuel : Nat) (hfuel : BUFSIZE ≤ fuel) :
    ∀ (ls : List Line) (st : St) (turns : Nat), (∀ l ∈ ls, l.Fits ∧ l.OneLine) →
      st.stdin = ls.flatMap Line.render → st.atEof = false → st.status = none →
      ls.length < turns →
      ∃ st', Loop.run (fun st => st.status.isNone) (mainBody fuel) turns st = some st'
        ∧ st'.status = some 0
        ∧ st'.stdout = st.stdout ++ ls.flatMap fun l => l.dir.bytes := by
  intro ls
  induction ls with
  | nil =>
      intro st turns _ hin hend hstatus hturns
      obtain ⟨turns, rfl⟩ : ∃ k, turns = k + 1 :=
        ⟨turns - 1, by simp at hturns; omega⟩
      have hcond : st.status.isNone = true := by simp [hstatus]
      refine ⟨{ st with atEof := true, status := some 0 }, ?_, rfl, by simp⟩
      rw [Loop.run, if_pos hcond, mainBody_end hin hend, Option.bind_some,
        Loop.run_of_exit rfl]
  | cons l ls ih =>
      intro st turns hls hin hend hstatus hturns
      obtain ⟨turns, rfl⟩ : ∃ k, turns = k + 1 :=
        ⟨turns - 1, by simp at hturns; omega⟩
      have hcond : st.status.isNone = true := by simp [hstatus]
      have hl := hls l List.mem_cons_self
      rw [List.flatMap_cons] at hin
      obtain ⟨st₁, hbody, hin₁, hend₁, hstatus₁, hout₁⟩ :=
        mainBody_render hl.1 hl.2 hfuel hin hend hstatus
      obtain ⟨st₂, hrun, hstatus₂, hout₂⟩ :=
        ih st₁ turns (fun l h => hls l (List.mem_cons_of_mem _ h)) hin₁ hend₁
          hstatus₁ (by simpa using hturns)
      refine ⟨st₂, ?_, hstatus₂, ?_⟩
      · rw [Loop.run, if_pos hcond, hbody, Option.bind_some, hrun]
      · rw [hout₂, hout₁, List.flatMap_cons, List.append_assoc]

/-- **The round trip**: on a rendered script of one-line directives `mix`
succeeds, and writes the bytes of the directives. -/
theorem round_trip (ls : List Line) (hls : ∀ l ∈ ls, l.Fits ∧ l.OneLine)
    (fuel : Nat) (hfuel : BUFSIZE + ls.length ≤ fuel) :
    ∃ st, main fuel (ls.flatMap Line.render) = some st ∧ st.status = some 0
      ∧ st.stdout = ls.flatMap fun l => l.dir.bytes := by
  have hpos : 0 < BUFSIZE := by decide
  exact mainLoop_render fuel (by omega) ls (St.init (ls.flatMap Line.render)) fuel
    hls rfl rfl rfl (by omega)

theorem round_trip_three :
    ∃ st, main 300 (ascii "S hi\nX 0A fF\nA 0x1f\n") = some st
      ∧ st.status = some 0
      ∧ st.stdout = [104, 105, 10, 255, 31, 0, 0, 0, 0, 0, 0, 0] := by
  exact round_trip
    [⟨.string (ascii "hi"), blank⟩,
      ⟨.hex [10, 255] (ascii "0A fF")
        (.pair rfl rfl (.blank (.pair rfl rfl .nil))), blank⟩,
      ⟨.address 31 (ascii "0x1f")
        (@AddrText.base 31 48 120 [49, 102] [1, 15] rfl (by decide) rfl rfl), blank⟩]
    (by decide +kernel) 300 (by decide)

/-- A text with a newline is more than one line: `mix` takes what comes
after the newline for a directive. -/
theorem string_with_newline_fails :
    ¬∀ ls : List Line, (∀ l ∈ ls, l.Fits) → ∀ fuel, BUFSIZE + ls.length ≤ fuel →
      ∃ st, main fuel (ls.flatMap Line.render) = some st ∧ st.status = some 0
        ∧ st.stdout = ls.flatMap fun l => l.dir.bytes := by
  intro h
  obtain ⟨st, hrun, hstatus, _⟩ :=
    h [⟨.string [97, newline, 98], blank⟩] (by decide +kernel) 300 (by decide)
  have hthree : (main 300 [83, 32, 97, 10, 98, 10]).map (·.status) = some (some 3) := by
    decide +kernel
  have hzero : (main 300 [83, 32, 97, 10, 98, 10]).map (·.status) = some st.status :=
    congrArg (Option.map (·.status)) hrun
  rw [hthree, hstatus] at hzero
  simp at hzero

end SchoolStuff.Mix
