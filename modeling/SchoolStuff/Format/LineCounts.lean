import Mathlib.Tactic.Ring
import SchoolStuff.Format.Basic

/-!
# Format — how many lines the formatters return

The arrays are filled in order, so the state of every loop is a
`Buffer.Upto`. `pointsTo` returns one line more than it is given, and three
lines where it is given only one (`pointsTo_spec`); with that the closed
formulas of the formatters can be compared with what the nested ones return.
-/

namespace SchoolStuff.Format

open Buffer (Upto upto_alloc)

/-- `k` non-empty lines and the empty one. -/
abbrev Terminated (lines : Lines) (k : Nat) : Prop :=
  Buffer.Ready (· ≠ "") "" lines k

/-- The first `n` of `size` lines are there. -/
abbrev Partly (lines : Lines) (size n : Nat) : Prop :=
  Upto (· ≠ "") lines size n

variable {lines slines : Lines} {size n k : Nat}

/-! ## `pointsTo` -/

theorem append_ne_right (s : String) {t : String} (ht : t ≠ "") :
    s ++ t ≠ "" :=
  fun h => ht (String.append_eq_empty_iff.mp h).2

theorem countLines_eq (h : Terminated lines k) : countLines lines = some k := by
  obtain ⟨texts, hupTo, hlen, -⟩ := h.upTo fun _ ht => ht
  rw [countLines, hupTo, Option.map_some, hlen]

/-- The box has three lines. -/
theorem formatPointer_spec (data : Nat) :
    ∃ plines, formatPointer data = some plines ∧ Terminated plines 3 := by
  have hbar : "+" ++ "".pushn '-' PTRSIZE ++ "+" ≠ "" := by decide
  have haddr : "|" ++ hex8 data ++ "|" ≠ "" := append_ne_right _ (by decide)
  obtain ⟨b1, hw1, h1⟩ := (upto_alloc (· ≠ "") 4).write (by decide) hbar
  obtain ⟨b2, hw2, h2⟩ := h1.write (by decide) haddr
  obtain ⟨b3, hw3, h3⟩ := h2.write (by decide) hbar
  obtain ⟨b4, hw4, h4⟩ := h3.terminate (by decide) ""
  refine ⟨b4, ?_, h4⟩
  simp only [formatPointer, Option.bind_eq_bind, hw1, hw2, hw3,
    Option.bind_some]
  exact hw4

/-- The loop of `pointsTo` over the lines from the third on, each of which
goes one place further down. -/
theorem shiftLines_spec {nlines : Lines} {size : Nat} (pad : String)
    (h : Terminated lines k) (hnlines : Partly nlines size 3)
    (hsize : max k 2 + 1 ≤ size) :
    ∃ nlines', (List.range' 2 (k - 2)).foldlM (fun nlines ln => do
        nlines.write (ln + 1) (pad ++ (← lines.read ln))) nlines = some nlines'
      ∧ Partly nlines' size (max k 2 + 1) := by
  obtain ⟨nlines', hloop, hpart⟩ := Loop.foldlM_range'
    (f := fun nlines ln => do
      nlines.write (ln + 1) (pad ++ (← lines.read ln)))
    (I := fun ln nlines => Partly nlines size (ln + 1)) hnlines (k - 2)
    (fun ln nlines hge hlt hpart => by
      obtain ⟨l, hl, hnel⟩ := h.filled ln (by omega)
      obtain ⟨b, hw, hb⟩ := hpart.write (by omega) (append_ne_right pad hnel)
      refine ⟨b, ?_, hb⟩
      rw [hl]
      exact hw)
  rw [show 2 + (k - 2) = max k 2 by omega] at hpart
  exact ⟨nlines', hloop, hpart⟩

/-- What `pointsTo` returns: one line more, and at least three. -/
theorem pointsTo_spec (ptr : Nat) (hk : 0 < k) (h : Terminated lines k) :
    ∃ out, pointsTo ptr lines = some out ∧ Terminated out (max k 2 + 1) := by
  obtain ⟨plines, hplines, hbox⟩ := formatPointer_spec ptr
  obtain ⟨p0, hp0, hne0⟩ := hbox.filled 0 (by decide)
  obtain ⟨p1, hp1, -⟩ := hbox.filled 1 (by decide)
  obtain ⟨p2, hp2, hne2⟩ := hbox.filled 2 (by decide)
  obtain ⟨l0, hl0, hnel0⟩ := h.filled 0 hk
  have hsize : (if k > 2 then k + 2 else 4) = max k 2 + 2 := by
    split <;> omega
  obtain ⟨line2, hline2, hneline2⟩ : ∃ line2,
      (if k > 1 then do
        some (padRight (p1 ++ " -> ").length (← plines.read 2)
          ++ (← lines.read 1))
      else plines.read 2) = some line2 ∧ line2 ≠ "" := by
    by_cases hk1 : k > 1
    · obtain ⟨l1, hl1, hnel1⟩ := h.filled 1 hk1
      refine ⟨padRight (p1 ++ " -> ").length p2 ++ l1, ?_,
        append_ne_right _ hnel1⟩
      rw [if_pos hk1, hp2, hl1]
      rfl
    · exact ⟨p2, by rw [if_neg hk1, hp2], hne2⟩
  obtain ⟨b1, hw1, h1⟩ :=
    (upto_alloc (· ≠ "") (max k 2 + 2)).write (by omega) hne0
  obtain ⟨b2, hw2, h2⟩ :=
    h1.write (by omega) (append_ne_right (p1 ++ " -> ") hnel0)
  obtain ⟨b3, hw3, h3⟩ := h2.write (by omega) hneline2
  obtain ⟨b4, hloop, h4⟩ := shiftLines_spec
    (padRight (p1 ++ " -> ").length " ") h h3 (Nat.le_succ _)
  have hlast : (if k < 2 then 2 else k) = max k 2 := by split <;> omega
  obtain ⟨b5, hw5, h5⟩ := h4.terminate (by omega) ""
  refine ⟨b5, ?_, h5⟩
  simp only [pointsTo, Option.bind_eq_bind, countLines_eq h, hplines, hsize,
    hp0, hp1, hl0, hw1, hw2, Option.bind_some]
  simp only [Option.bind_eq_bind] at hline2 hloop
  rw [hline2, Option.bind_some, hw3, Option.bind_some, hloop, Option.bind_some,
    hlast]
  exact hw5

theorem printFormat_length (descr : String) (h : Terminated lines k) :
    ∃ texts, printFormat descr lines = some ((descr ++ "\n") :: texts)
      ∧ texts.length = k := by
  obtain ⟨rows, hupTo, hlen, -⟩ := h.upTo fun _ ht => ht
  refine ⟨rows.map fun line => "   " ++ line ++ "\n", ?_, ?_⟩
  · rw [printFormat, hupTo]
    rfl
  · rw [List.length_map, hlen]

/-! ## The formatters -/

theorem foldl_text_ne {f : String → Nat → String}
    (hf : ∀ text i, text ≠ "" → f text i ≠ "") (is : List Nat) {text : String}
    (htext : text ≠ "") : is.foldl f text ≠ "" := by
  induction is generalizing text with
  | nil => exact htext
  | cons i is ih => exact ih (hf text i htext)

/-- One line, as `formatScalar` and `formatVector` build it. -/
theorem oneLine_spec {text : String} (htext : text ≠ "") :
    ∃ lines, (do
        let lines : Lines := Buffer.alloc 2
        let lines ← lines.write 0 text
        lines.write 1 "") = some lines ∧ Terminated lines 1 := by
  obtain ⟨b1, hw1, h1⟩ := (upto_alloc (· ≠ "") 2).write (by decide) htext
  obtain ⟨b2, hw2, h2⟩ := h1.terminate (by decide) ""
  refine ⟨b2, ?_, h2⟩
  simp only [Option.bind_eq_bind, hw1, Option.bind_some]
  exact hw2

theorem formatScalar_spec (data : Ptr Cfloat) :
    ∃ out, formatScalar data = some out ∧ Terminated out 3 := by
  obtain ⟨lines, hlines, hterm⟩ := oneLine_spec (data.get 0).text_ne
  obtain ⟨out, hout, h⟩ := pointsTo_spec data.addr (by decide) hterm
  exact ⟨out, by rw [formatScalar, scalarLines, hlines]; exact hout, h⟩

theorem formatVector_spec (data : Ptr Cfloat) (len : Nat) :
    ∃ out, formatVector data len = some out ∧ Terminated out 3 := by
  have htext := foldl_text_ne
    (f := fun value i => value ++ ", " ++ (data.get i).text)
    (fun _ i _ => append_ne_right _ (data.get i).text_ne)
    (List.range' 1 (len - 1)) (data.get 0).text_ne
  obtain ⟨lines, hlines, hterm⟩ := oneLine_spec htext
  obtain ⟨out, hout, h⟩ := pointsTo_spec data.addr (by decide) hterm
  exact ⟨out, by rw [formatVector, vectorLines, hlines]; exact hout, h⟩

theorem matrixLines_spec (data : Ptr Cfloat) (rows cols : Nat) :
    ∃ lines, matrixLines data rows cols = some lines
      ∧ Terminated lines rows := by
  obtain ⟨b, hloop, hb⟩ := Loop.foldlM_range
    (f := fun (lines : Lines) r => lines.write r
      ((List.range' 1 (cols - 1)).foldl
        (fun values c => values ++ "," ++ (data.get (r * cols + c)).text)
        (data.get (r * cols)).text))
    (I := fun r lines => Partly lines (rows + 1) r) (upto_alloc _ _) rows
    (fun r lines hr hpart => hpart.write (by omega) (foldl_text_ne
      (fun _ c _ => append_ne_right _ (data.get (r * cols + c)).text_ne)
      _ (data.get (r * cols)).text_ne))
  obtain ⟨b', hw, hterm⟩ := hb.terminate (by omega) ""
  refine ⟨b', ?_, hterm⟩
  simp only [matrixLines, Option.bind_eq_bind, hloop, Option.bind_some]
  exact hw

theorem takeThree_spec {i : Nat} (hpart : Partly lines size (i * 3))
    (hsize : i * 3 + 3 ≤ size) (h : Terminated slines 3) :
    ∃ lines', takeThree lines i slines = some lines'
      ∧ Partly lines' size ((i + 1) * 3) := by
  obtain ⟨l0, hl0, hne0⟩ := h.filled 0 (by decide)
  obtain ⟨l1, hl1, hne1⟩ := h.filled 1 (by decide)
  obtain ⟨l2, hl2, hne2⟩ := h.filled 2 (by decide)
  obtain ⟨b1, hw1, h1⟩ := hpart.write (by omega) hne0
  obtain ⟨b2, hw2, h2⟩ := h1.write (by omega) hne1
  obtain ⟨b3, hw3, h3⟩ := h2.write (by omega) hne2
  rw [Nat.succ_mul]
  refine ⟨b3, ?_, h3⟩
  simp only [takeThree, Option.bind_eq_bind, hl0, hl1, hl2, hw1, hw2,
    Option.bind_some]
  exact hw3

/-- The arrays of the two pointer lists, `format` being what draws an
element. -/
theorem threes_spec {format : Nat → Option Lines} (nptrs : Nat)
    (hformat : ∀ i, ∃ out, format i = some out ∧ Terminated out 3) :
    ∃ lines, (do
        let lines : Lines := Buffer.alloc (3 * nptrs + 1)
        let lines ← (List.range nptrs).foldlM (fun lines i => do
          takeThree lines i (← format i)) lines
        lines.write (3 * nptrs) "") = some lines
      ∧ Terminated lines (3 * nptrs) := by
  obtain ⟨b, hloop, hb⟩ := Loop.foldlM_range
    (f := fun lines i => do takeThree lines i (← format i))
    (I := fun i lines => Partly lines (3 * nptrs + 1) (i * 3))
    (upto_alloc _ _) nptrs
    (fun i lines hi hpart => by
      obtain ⟨slines, hslines, h⟩ := hformat i
      rw [hslines]
      exact takeThree_spec hpart (by omega) h)
  rw [Nat.mul_comm nptrs 3] at hb
  obtain ⟨b', hw, hterm⟩ := hb.terminate (by omega) ""
  refine ⟨b', ?_, hterm⟩
  simp only [Option.bind_eq_bind] at hloop ⊢
  rw [hloop, Option.bind_some]
  exact hw

theorem pointerLines_spec (data : Ptr (Ptr Cfloat)) (nptrs : Nat) :
    ∃ lines, pointerLines data nptrs = some lines
      ∧ Terminated lines (3 * nptrs) :=
  threes_spec nptrs fun i => formatScalar_spec (data.get i)

theorem pointerVectorLines_spec (data : Ptr (Ptr Cfloat)) (nptrs len : Nat) :
    ∃ lines, pointerVectorLines data nptrs len = some lines
      ∧ Terminated lines (3 * nptrs) :=
  threes_spec nptrs fun i => formatVector_spec (data.get i) len

theorem formatPointerList_spec (data : Ptr (Ptr Cfloat)) {nptrs : Nat}
    (hn : 0 < nptrs) :
    ∃ out, formatPointerList data nptrs = some out
      ∧ Terminated out (nptrs * 3 + 1) := by
  obtain ⟨lines, hlines, hterm⟩ := pointerLines_spec data nptrs
  obtain ⟨out, hout, h⟩ := pointsTo_spec data.addr (by omega) hterm
  rw [show max (3 * nptrs) 2 = nptrs * 3 from by omega] at h
  exact ⟨out, by rw [formatPointerList, hlines]; exact hout, h⟩

/-! ## The nested list -/

theorem copyLines_spec {start : Nat} (hpart : Partly lines size start)
    (h : Terminated slines n) (hsize : start + n ≤ size) :
    ∃ lines', copyLines start lines slines = some lines'
      ∧ Partly lines' size (start + n) := by
  rw [copyLines, countLines_eq h]
  refine Loop.foldlM_range (I := fun j lines => Partly lines size (start + j))
    hpart n fun j lines hj hpart => ?_
  obtain ⟨l, hl, hne⟩ := h.filled j hj
  rw [hl]
  exact hpart.write (by omega) hne

/-- Up to four outer pointers, the lines of the elements stand one after the
other. -/
theorem nestedLoop_spec (data : Ptr (Ptr (Ptr Cfloat))) {nptr1 nptr2 : Nat}
    (h1 : nptr1 ≤ 4) (h2 : 0 < nptr2) :
    ∃ lines, nestedLoop data nptr1 nptr2 = some lines
      ∧ Partly lines (3 * nptr1 * nptr2 + 4) (nptr1 * (nptr2 * 3 + 1)) := by
  refine Loop.foldlM_range
    (I := fun i lines => Partly lines (3 * nptr1 * nptr2 + 4)
      (i * (nptr2 * 3 + 1)))
    (by rw [Nat.zero_mul]; exact upto_alloc _ _) nptr1
    fun i lines hi hpart => ?_
  obtain ⟨slines, hslines, hterm⟩ := formatPointerList_spec (data.get i) h2
  have hroom : (i + 1) * (nptr2 * 3 + 1) ≤ 3 * nptr1 * nptr2 + 4 :=
    calc (i + 1) * (nptr2 * 3 + 1)
        ≤ nptr1 * (nptr2 * 3 + 1) := Nat.mul_le_mul_right _ hi
      _ = 3 * nptr1 * nptr2 + nptr1 := by ring
      _ ≤ 3 * nptr1 * nptr2 + 4 := by omega
  rw [Nat.succ_mul i (nptr2 * 3 + 1)] at hroom ⊢
  rw [hslines]
  exact copyLines_spec hpart hterm hroom

theorem nestedLoop_length {data : Ptr (Ptr (Ptr Cfloat))} {nptr1 nptr2 : Nat}
    (h : nestedLoop data nptr1 nptr2 = some lines) :
    lines.length = 3 * nptr1 * nptr2 + 4 := by
  refine Loop.foldlM_invariant
    (I := fun lines : Lines => lines.length = 3 * nptr1 * nptr2 + 4)
    (fun i s s' hs hturn => ?_) List.length_replicate h
  obtain ⟨slines, -, hcopy⟩ := Option.bind_eq_some_iff.mp hturn
  obtain ⟨m, -, hcopy⟩ := Option.bind_eq_some_iff.mp hcopy
  refine Loop.foldlM_invariant
    (I := fun lines : Lines => lines.length = 3 * nptr1 * nptr2 + 4)
    (fun j s s' hs hwrite => ?_) hs hcopy
  obtain ⟨l, -, hwrite⟩ := Option.bind_eq_some_iff.mp hwrite
  rw [Buffer.length_write hwrite, hs]

/-- **The nested list is for three pointers.** The terminator of
`formatPointerPointerList` follows the last line if and only if `nptr1` is
3, the one shape the program uses. -/
theorem pointerPointerLines_iff (data : Ptr (Ptr (Ptr Cfloat)))
    {nptr1 nptr2 : Nat} (h1 : 0 < nptr1) (h2 : 0 < nptr2) :
    (∃ lines, pointerPointerLines data nptr1 nptr2 = some lines
      ∧ Terminated lines (nptr1 * (nptr2 * 3 + 1))) ↔ nptr1 = 3 := by
  have hcount : nptr1 * (nptr2 * 3 + 1) = 3 * nptr1 * nptr2 + nptr1 := by ring
  have hstop : nptr1 * 3 * nptr2 + 3 = 3 * nptr1 * nptr2 + 3 := by ring
  constructor
  · rintro ⟨lines, hlines, hterm⟩
    obtain ⟨b, hb, hwrite⟩ := Option.bind_eq_some_iff.mp hlines
    have hlt := Buffer.read_lt hterm.stop
    rw [Buffer.length_write hwrite, nestedLoop_length hb] at hlt
    obtain ⟨b', hb', hpart⟩ :=
      nestedLoop_spec data (show nptr1 ≤ 4 by omega) h2
    obtain rfl : b = b' := Option.some.inj (hb.symm.trans hb')
    by_contra hne
    exact hpart.not_ready (by omega) hwrite hterm
  · rintro rfl
    obtain ⟨b, hb, hpart⟩ := nestedLoop_spec data (by decide : 3 ≤ 4) h2
    obtain ⟨b', hw, hterm⟩ := hpart.terminate (by omega) ""
    refine ⟨b', ?_, hterm⟩
    rw [pointerPointerLines, hb, hstop, ← hcount]
    exact hw

/-! ## The counts -/

/-- `handed` goes to `pointsTo` with `k` lines and the terminator right
after them, and the result prints `n` lines. -/
def Formats (handed result : Option Lines) (k n : Nat) : Prop :=
  ∃ lines out, handed = some lines ∧ Terminated lines k ∧ result = some out
    ∧ ∀ descr, ∃ texts, printFormat descr out = some ((descr ++ "
") :: texts)
      ∧ texts.length = n

theorem formats_of_lines {handed : Option Lines} (ptr : Nat) (hk : 0 < k)
    (h : ∃ lines, handed = some lines ∧ Terminated lines k) :
    Formats handed (handed.bind (pointsTo ptr)) k (max k 2 + 1) := by
  obtain ⟨lines, rfl, hterm⟩ := h
  obtain ⟨out, hout, h⟩ := pointsTo_spec ptr hk hterm
  exact ⟨lines, out, rfl, hterm, hout, fun descr => printFormat_length descr h⟩

/-- The number of lines printed is determined. -/
theorem Formats.printed_eq {handed result : Option Lines} {k k' n n' : Nat}
    (h : Formats handed result k n) (h' : Formats handed result k' n') :
    n = n' := by
  obtain ⟨-, out, -, -, hout, hprint⟩ := h
  obtain ⟨-, out', -, -, hout', hprint'⟩ := h'
  obtain rfl : out = out' := Option.some.inj (hout.symm.trans hout')
  obtain ⟨texts, htexts, hlen⟩ := hprint ""
  obtain ⟨texts', htexts', hlen'⟩ := hprint' ""
  have heq := Option.some.inj (htexts.symm.trans htexts')
  rw [← hlen, ← hlen', (List.cons.inj heq).2]

/-- **The line counts.** Every formatter hands `pointsTo` an array whose
entries before the terminator are all written, inside of it, and which ends
after the lines it should have: one for each row, three for each pointer,
and for the nested list of three pointers what their lists are drawn with.
One more line is printed, and three for a matrix of one row. -/
theorem format_line_counts :
    (∀ (data : Ptr Cfloat) (rows cols : Nat), 0 < rows →
      Formats (matrixLines data rows cols) (formatMatrix data rows cols)
        rows (max rows 2 + 1))
    ∧ (∀ (data : Ptr (Ptr Cfloat)) (nptrs : Nat), 0 < nptrs →
      Formats (pointerLines data nptrs) (formatPointerList data nptrs)
        (3 * nptrs) (3 * nptrs + 1))
    ∧ (∀ (data : Ptr (Ptr Cfloat)) (nptrs len : Nat), 0 < nptrs →
      Formats (pointerVectorLines data nptrs len)
        (formatPointerVectorList data nptrs len) (3 * nptrs) (3 * nptrs + 1))
    ∧ (∀ (data : Ptr (Ptr (Ptr Cfloat))) (nptr2 : Nat), 0 < nptr2 →
      Formats (pointerPointerLines data 3 nptr2)
        (formatPointerPointerList data 3 nptr2)
        (3 * (3 * nptr2 + 1)) (3 * (3 * nptr2 + 1) + 1)) := by
  refine ⟨fun data rows cols hrows => ?_, fun data nptrs hn => ?_,
    fun data nptrs len hn => ?_, fun data nptr2 h2 => ?_⟩
  · exact formats_of_lines data.addr hrows (matrixLines_spec data rows cols)
  · have h := formats_of_lines data.addr (by omega) (pointerLines_spec data nptrs)
    rwa [show max (3 * nptrs) 2 = 3 * nptrs from by omega] at h
  · have h := formats_of_lines data.addr (by omega)
      (pointerVectorLines_spec data nptrs len)
    rwa [show max (3 * nptrs) 2 = 3 * nptrs from by omega] at h
  · have h := formats_of_lines data.addr (by omega)
      ((pointerPointerLines_iff data (by decide) h2).mpr rfl)
    rwa [show max (3 * (nptr2 * 3 + 1)) 2 = 3 * (nptr2 * 3 + 1) from by omega,
      Nat.mul_comm nptr2 3] at h

/-- An array of zeros. -/
def zeros : Ptr Cfloat := ⟨4096, fun _ => ⟨"0.000000", by decide⟩⟩

theorem format_line_counts_small :
    Formats (matrixLines zeros 2 3) (formatMatrix zeros 2 3) 2 3
    ∧ Formats (pointerLines ⟨8192, fun _ => zeros⟩ 2)
        (formatPointerList ⟨8192, fun _ => zeros⟩ 2) 6 7
    ∧ Formats (pointerVectorLines ⟨8192, fun _ => zeros⟩ 2 4)
        (formatPointerVectorList ⟨8192, fun _ => zeros⟩ 2 4) 6 7
    ∧ Formats (pointerPointerLines ⟨12288, fun _ => ⟨8192, fun _ => zeros⟩⟩ 3 4)
        (formatPointerPointerList ⟨12288, fun _ => ⟨8192, fun _ => zeros⟩⟩ 3 4)
        39 40 :=
  ⟨format_line_counts.1 zeros 2 3 (by decide),
    format_line_counts.2.1 ⟨8192, fun _ => zeros⟩ 2 (by decide),
    format_line_counts.2.2.1 ⟨8192, fun _ => zeros⟩ 2 4 (by decide),
    format_line_counts.2.2.2 ⟨12288, fun _ => ⟨8192, fun _ => zeros⟩⟩ 4
      (by decide)⟩

/-- A matrix of one row is drawn in three lines, those of the box. -/
theorem single_row_three_lines :
    ¬ ∀ (data : Ptr Cfloat) (rows cols : Nat), 0 < rows → 0 < cols →
      Formats (matrixLines data rows cols) (formatMatrix data rows cols)
        rows (rows + 1) := by
  intro h
  have hthree := formats_of_lines zeros.addr (by decide)
    (matrixLines_spec zeros 1 1)
  have heq := (h zeros 1 1 (by decide) (by decide)).printed_eq hthree
  exact absurd heq (by decide)

end SchoolStuff.Format
