import SchoolStuff.Lib.Lines
import SchoolStuff.Lib.Splice
import SchoolStuff.Xv6.GrepMatch

/-!
# Grep — the lines of a stream (`grep.c`)

`grep` reads into what is free of its buffer, looks at the lines that have
their newline and carries the rest over to the next read. But when a read
brings no newline, `p == buf` and nothing is carried over (`leftOver`): the
lines that are looked at (`kept`) are those of the stream if and only if
each read that comes before a newline brings one.
-/

namespace SchoolStuff.Xv6.Grep

open CText Lines

/-! ## The loops of `grep` -/

/-- `sizeof(buf)`. -/
def BUFSIZE : Nat := 1024

structure St where
  buf : List UInt8
  m : Nat
  /-- A position in `buf`. -/
  p : Nat
  /-- What has been written to the standard output. -/
  out : List UInt8

/-- `strchr`: where `c` is in the string at `p`. -/
def strchr (buf : List UInt8) (p : Nat) (c : UInt8) : Option (Option Nat) := do
  let s ← cstr buf p
  some (if c ∈ s then some (p + s.idxOf c) else none)

/-- The line that ends at `q`. -/
def St.line (pattern : List UInt8) (q : Nat) (st : St) : Option St := do
  let buf := st.buf.set q 0
  let line ← cstr buf st.p
  if reMatch pattern line then
    let buf := buf.set q newline
    some { st with
      buf := buf
      p := q + 1
      out := st.out ++ (buf.drop st.p).take (q + 1 - st.p) }
  else some { st with buf := buf, p := q + 1 }

/-- The loop over the lines of the buffer. -/
def scanLines (pattern : List UInt8) : Nat → St → Option St
  | 0, _ => none
  | fuel + 1, st => do
      match ← strchr st.buf st.p newline with
      | none => some st
      | some q => scanLines pattern fuel (← st.line pattern q)

/-- What follows that loop. -/
def St.carry (st : St) : St :=
  let m := if st.p = 0 then 0 else st.m
  if m > 0 then
    { st with
      m := m - st.p
      buf := splice st.buf 0 ((st.buf.drop st.p).take (m - st.p)) }
  else { st with m := m }

/-- A turn of `grep` for a read that returned `bytes`. -/
def St.turn (pattern : List UInt8) (fuel : Nat) (st : St) (bytes : List UInt8) :
    Option St := do
  guard (bytes.length ≤ BUFSIZE - st.m - 1)
  let m := st.m + bytes.length
  let buf := (splice st.buf st.m bytes).set m 0
  let st ← scanLines pattern fuel { st with buf := buf, m := m, p := 0 }
  some st.carry

/-- `grep`, where `reads` are what the calls of `read` returned up to the end
of the file. -/
def grep (pattern : List UInt8) (fuel : Nat) (buf : List UInt8)
    (reads : List (List UInt8)) : Option St :=
  reads.foldlM (St.turn pattern fuel) { buf := buf, m := 0, p := 0, out := [] }

/-! ## What it looks at -/

/-- The lines of a text that match, with their newlines. -/
def matching (pattern t : List UInt8) : List UInt8 :=
  unlines newline ((lines newline t).filter (reMatch pattern))

/-- What a read leaves in the buffer. -/
def leftOver (bytes : List UInt8) : List UInt8 :=
  if newline ∈ bytes then rest newline bytes else []

/-- The lines that `grep` looks at, when `carried` is left from before. -/
def kept : List UInt8 → List (List UInt8) → List (List UInt8)
  | _, [] => []
  | carried, bytes :: reads =>
      lines newline (carried ++ bytes) ++ kept (leftOver bytes) reads

/-- Each read returns at least one byte and at most what it is asked for. -/
def Reads : List UInt8 → List (List UInt8) → Prop
  | _, [] => True
  | carried, bytes :: reads =>
      bytes ≠ [] ∧ bytes.length ≤ BUFSIZE - carried.length - 1
        ∧ Reads (leftOver bytes) reads

/-! ## A turn -/

variable {pattern : List UInt8}

theorem strchr_append (before : List UInt8) {data : List UInt8} (hdata : 0 ∉ data)
    (post : List UInt8) (c : UInt8) :
    strchr (before ++ (data ++ 0 :: post)) before.length c
      = some (if c ∈ data then some (before.length + data.idxOf c) else none) := by
  rw [strchr, cstr_append before hdata]
  rfl

/-- A line is written if it matches, and the bytes after it stay. -/
theorem line_spec (pattern : List UInt8) {st : St} {before l post : List UInt8}
    (hbuf : st.buf = before ++ (l ++ newline :: post)) (hp : st.p = before.length)
    (hl : 0 ∉ l) :
    ∃ before', st.line pattern (st.p + l.length)
        = some { st with
            buf := before' ++ post
            p := before'.length
            out := st.out
              ++ unlines newline ([l].filter (reMatch pattern)) }
      ∧ before'.length = st.p + l.length + 1 := by
  have hset : ∀ x y : UInt8, (before ++ (l ++ x :: post)).set (st.p + l.length) y
      = before ++ (l ++ y :: post) := by
    intro x y
    rw [hp, List.set_append_right _ _ (by omega), List.set_append_right _ _ (by omega)]
    simp
  have hline : cstr (before ++ (l ++ 0 :: post)) st.p = some l := by
    rw [hp]
    exact cstr_append before hl post
  have hlen : ∀ x : UInt8, (before ++ (l ++ [x])).length = st.p + l.length + 1 := by
    intro x
    simp [hp]
    omega
  rw [St.line, hbuf, hset, hline]
  cases hmatch : reMatch pattern l with
  | true =>
      refine ⟨before ++ (l ++ [newline]), ?_, hlen newline⟩
      have hwritten : ((before ++ (l ++ newline :: post)).drop st.p).take
          (st.p + l.length + 1 - st.p) = l ++ [newline] := by
        rw [hp, List.drop_left, show before.length + l.length + 1 - before.length
          = l.length + 1 by omega, List.take_length_add_append]
        rfl
      simp only [Option.bind_eq_bind, Option.bind_some, hmatch, if_true, hset,
        hwritten, hlen]
      simp [unlines, hmatch]
  | false =>
      refine ⟨before ++ (l ++ [0]), ?_, hlen 0⟩
      simp only [Option.bind_eq_bind, Option.bind_some, hmatch, hlen]
      simp [unlines, hmatch]

theorem matching_last {l : List UInt8} (h : newline ∉ l) : matching pattern l = [] := by
  rw [matching, lines_of_not_mem h]
  rfl

theorem matching_line {l : List UInt8} (h : newline ∉ l) (t : List UInt8) :
    matching pattern (l ++ newline :: t)
      = unlines newline ([l].filter (reMatch pattern)) ++ matching pattern t := by
  rw [matching, lines_cons h, ← List.singleton_append, List.filter_append,
    unlines_append]
  rfl

/-- **The loop over the lines** writes those that match, and stops at what is
left of the data. -/
theorem scanLines_spec (pattern : List UInt8) {data : List UInt8} (hdata : 0 ∉ data)
    (post : List UInt8) :
    ∀ (fuel : Nat) (st : St) (before : List UInt8),
      st.buf = before ++ (data ++ 0 :: post) → st.p = before.length →
      (lines newline data).length < fuel →
      ∃ before', scanLines pattern fuel st
          = some { st with
              buf := before' ++ (rest newline data ++ 0 :: post)
              p := before'.length
              out := st.out ++ matching pattern data }
        ∧ before'.length + (rest newline data).length = st.p + data.length := by
  induction data using line_induction newline with
  | last l hl =>
      intro fuel st before hbuf hp hfuel
      obtain ⟨fuel, rfl⟩ : ∃ k, fuel = k + 1 := ⟨fuel - 1, by omega⟩
      refine ⟨before, ?_, by rw [rest_of_not_mem hl, hp]⟩
      rw [scanLines, hbuf, hp, strchr_append before hdata, if_neg hl,
        rest_of_not_mem hl, matching_last hl, List.append_nil, ← hbuf, ← hp]
      rfl
  | line l t hl ih =>
      intro fuel st before hbuf hp hfuel
      obtain ⟨fuel, rfl⟩ : ∃ k, fuel = k + 1 := ⟨fuel - 1, by omega⟩
      have hdata' : 0 ∉ l ∧ 0 ∉ t := by
        simpa [newline, not_or] using hdata
      have hbuf' : st.buf = before ++ (l ++ newline :: (t ++ 0 :: post)) := by
        simpa using hbuf
      obtain ⟨before₁, hline, hlen₁⟩ := line_spec pattern hbuf' hp hdata'.1
      rw [lines_cons hl, List.length_cons] at hfuel
      obtain ⟨before', hrun, hlen'⟩ := ih hdata'.2 fuel
        { st with
          buf := before₁ ++ (t ++ 0 :: post)
          p := before₁.length
          out := st.out ++ unlines newline ([l].filter (reMatch pattern)) }
        before₁ rfl rfl (by omega)
      refine ⟨before', ?_, ?_⟩
      · have hidx : (l ++ newline :: t).idxOf newline = l.length := by
          rw [List.idxOf_append_of_notMem hl, List.idxOf_cons_self, Nat.add_zero]
        rw [scanLines, hbuf, hp, strchr_append before hdata, if_pos (by simp), hidx,
          ← hp]
        simp only [Option.bind_eq_bind, Option.bind_some, hline]
        rw [hrun, rest_cons, matching_line hl, List.append_assoc]
      · change _ = before₁.length + t.length at hlen'
        rw [rest_cons, List.length_append, List.length_cons]
        omega

/-- What is left behind the last line is moved to the front. -/
theorem carry_rest {before r post out : List UInt8} {m : Nat}
    (hbefore : 0 < before.length) (hm : m = before.length + r.length) :
    St.carry { buf := before ++ (r ++ post), m := m, p := before.length, out := out }
      = { buf := r ++ (before ++ (r ++ post)).drop r.length, m := r.length,
          p := before.length, out := out } := by
  have hpos : 0 < before.length + r.length := by omega
  have hp : before.length ≠ 0 := by omega
  have hmove : ((before ++ (r ++ post)).drop before.length).take r.length = r := by
    rw [List.drop_left, List.take_left]
  simp only [St.carry, if_neg hp, hm, if_pos hpos, Nat.add_sub_cancel_left, hmove,
    splice]
  simp

/-- Between two reads the buffer begins with what is carried over. -/
structure Carries (carried : List UInt8) (st : St) : Prop where
  buf : ∃ post, st.buf = carried ++ post
  size : st.buf.length = BUFSIZE
  m : st.m = carried.length
  no_nul : 0 ∉ carried
  no_newline : newline ∉ carried

/-- The read puts its bytes behind what is carried over, and a NUL behind
these. -/
theorem Carries.read {carried bytes : List UInt8} {st : St} (h : Carries carried st)
    (hne : bytes ≠ []) (hroom : bytes.length ≤ BUFSIZE - carried.length - 1) :
    ∃ post, (splice st.buf st.m bytes).set (st.m + bytes.length) 0
        = (carried ++ bytes) ++ 0 :: post
      ∧ ((carried ++ bytes) ++ 0 :: post).length = BUFSIZE := by
  obtain ⟨post, hpost⟩ := h.buf
  have hsize := h.size
  have hbytes : 0 < bytes.length := List.length_pos_iff.mpr hne
  have hpos : bytes.length < post.length := by
    rw [hpost, List.length_append] at hsize
    simp only [BUFSIZE] at hsize hroom
    omega
  have hread : (splice st.buf st.m bytes).set (st.m + bytes.length) 0
      = (carried ++ bytes) ++ 0 :: (post.drop bytes.length).tail := by
    rw [hpost, h.m, splice_append, ← List.length_append,
      List.set_append_right _ _ (Nat.le_refl _), Nat.sub_self]
    obtain ⟨x, xs, hxs⟩ := List.exists_cons_of_length_pos
      (show 0 < (post.drop bytes.length).length by rw [List.length_drop]; omega)
    rw [hxs]
    rfl
  refine ⟨_, hread, ?_⟩
  rw [← hread, List.length_set, length_splice (by rw [h.m, hpost]; simp), hsize, h.m]
  simp only [BUFSIZE] at hroom ⊢
  omega

/-- The turn up to what is carried over. -/
theorem Carries.scan (pattern : List UInt8) {carried bytes : List UInt8} {st : St}
    (h : Carries carried st) {fuel : Nat} (hfuel : BUFSIZE ≤ fuel) (hnul : 0 ∉ bytes)
    (hne : bytes ≠ []) (hroom : bytes.length ≤ BUFSIZE - carried.length - 1) :
    ∃ before post, st.turn pattern fuel bytes = some (St.carry
        { buf := before ++ (rest newline (carried ++ bytes) ++ 0 :: post)
          m := st.m + bytes.length
          p := before.length
          out := st.out ++ matching pattern (carried ++ bytes) })
      ∧ before.length + (rest newline (carried ++ bytes)).length = (carried ++ bytes).length
      ∧ ((carried ++ bytes) ++ 0 :: post).length = BUFSIZE := by
  have hdata : 0 ∉ carried ++ bytes := by
    rw [List.mem_append, not_or]
    exact ⟨h.no_nul, hnul⟩
  obtain ⟨post, hread, hlong⟩ := h.read hne hroom
  have hturns : (lines newline (carried ++ bytes)).length < fuel := by
    have hle := @length_lines_le _ _ newline (carried ++ bytes)
    rw [List.length_append] at hle
    simp only [BUFSIZE] at hroom hfuel
    have hbytes : 0 < bytes.length := List.length_pos_iff.mpr hne
    omega
  obtain ⟨before, hscan, hlen⟩ := scanLines_spec pattern hdata post fuel
    { st with
      buf := (splice st.buf st.m bytes).set (st.m + bytes.length) 0
      m := st.m + bytes.length
      p := 0 } [] hread rfl hturns
  have hguard : (guard (bytes.length ≤ BUFSIZE - st.m - 1) : Option Unit) = some () := by
    rw [h.m]
    exact if_pos hroom
  refine ⟨before, post, ?_, hlen.trans (Nat.zero_add _), hlong⟩
  rw [St.turn, hguard]
  simp only [Option.bind_eq_bind, Option.bind_some, hscan]

/-- **Step lemma**: a read. -/
theorem Carries.turn (pattern : List UInt8) {carried : List UInt8} {st : St}
    (h : Carries carried st) {fuel : Nat} (hfuel : BUFSIZE ≤ fuel) {bytes : List UInt8}
    (hnul : 0 ∉ bytes) (hne : bytes ≠ [])
    (hroom : bytes.length ≤ BUFSIZE - carried.length - 1) :
    ∃ st', st.turn pattern fuel bytes = some st'
      ∧ st'.out = st.out ++ matching pattern (carried ++ bytes)
      ∧ Carries (leftOver bytes) st' := by
  obtain ⟨before, post, hrun, hlen, hlong⟩ := h.scan pattern hfuel hnul hne hroom
  rw [hrun]
  by_cases hnewline : newline ∈ bytes
  · have hrest : rest newline (carried ++ bytes) = rest newline bytes :=
      rest_append_of_mem carried hnewline
    have hlt : (rest newline bytes).length < bytes.length := length_rest_lt hnewline
    rw [hrest, List.length_append] at hlen
    rw [hrest, leftOver, if_pos hnewline, carry_rest (by omega) (by rw [h.m]; omega)]
    refine ⟨_, rfl, rfl, ⟨⟨_, rfl⟩, ?_, rfl, ?_, not_mem_rest bytes⟩⟩
    · simp only [List.length_append, List.length_drop, List.length_cons] at hlong ⊢
      omega
    · exact fun hmem => hnul ((rest_suffix bytes).mem hmem)
  · have hdata' : newline ∉ carried ++ bytes := by
      rw [List.mem_append, not_or]
      exact ⟨h.no_newline, hnewline⟩
    rw [rest_of_not_mem hdata'] at hlen ⊢
    have hbefore : before = [] := by
      rw [← List.length_eq_zero_iff]
      simpa using hlen
    subst hbefore
    rw [leftOver, if_neg hnewline]
    refine ⟨_, rfl, rfl, ⟨⟨_, rfl⟩, ?_, rfl, List.not_mem_nil, List.not_mem_nil⟩⟩
    simpa [St.carry] using hlong

/-- **Run lemma**: `grep` writes the matching ones of the lines it looks
at. -/
theorem grep_kept {fuel : Nat} (hfuel : BUFSIZE ≤ fuel) :
    ∀ (reads : List (List UInt8)) (carried : List UInt8) (st : St),
      Carries carried st → 0 ∉ reads.flatten → Reads carried reads →
      ∃ st', reads.foldlM (St.turn pattern fuel) st = some st'
        ∧ st'.out = st.out
          ++ unlines newline ((kept carried reads).filter (reMatch pattern)) := by
  intro reads
  induction reads with
  | nil =>
      intro carried st _ _ _
      exact ⟨st, rfl, by simp [kept, unlines]⟩
  | cons bytes reads ih =>
      intro carried st h hnul hreads
      rw [List.flatten_cons, List.mem_append, not_or] at hnul
      obtain ⟨hne, hroom, hreads⟩ := hreads
      obtain ⟨st₁, hturn, hout₁, hst₁⟩ :=
        h.turn pattern hfuel hnul.1 hne hroom
      obtain ⟨st', hrun, hout⟩ := ih (leftOver bytes) st₁ hst₁ hnul.2 hreads
      refine ⟨st', ?_, ?_⟩
      · rw [List.foldlM_cons, hturn]
        exact hrun
      · rw [hout, hout₁, kept, List.filter_append, unlines_append, List.append_assoc]
        rfl

/-! ## Which reads lose nothing -/

/-- No read without a newline comes before one with a newline. -/
def EndLines (reads : List (List UInt8)) : Prop :=
  reads.Pairwise fun bytes later => newline ∈ later → newline ∈ bytes

instance (reads : List (List UInt8)) : Decidable (EndLines reads) :=
  inferInstanceAs (Decidable (reads.Pairwise _))

variable {carried bytes : List UInt8} {reads : List (List UInt8)}

theorem endLines_cons : EndLines (bytes :: reads)
    ↔ (newline ∈ reads.flatten → newline ∈ bytes) ∧ EndLines reads := by
  rw [EndLines, List.pairwise_cons]
  simp only [List.mem_flatten]
  constructor
  · rintro ⟨h, hreads⟩
    exact ⟨fun ⟨later, hlater, hmem⟩ => h later hlater hmem, hreads⟩
  · rintro ⟨h, hreads⟩
    exact ⟨fun later hlater hmem => h ⟨later, hlater, hmem⟩, hreads⟩

theorem endLines_of_not_mem (h : newline ∉ reads.flatten) : EndLines reads := by
  induction reads with
  | nil => exact List.Pairwise.nil
  | cons bytes reads ih =>
      rw [List.flatten_cons, List.mem_append, not_or] at h
      exact endLines_cons.mpr ⟨fun hmem => absurd hmem h.2, ih h.2⟩

theorem rest_leftOver (h : newline ∈ bytes) (carried : List UInt8) :
    rest newline (carried ++ bytes) = leftOver bytes := by
  rw [leftOver, if_pos h, rest_append_of_mem carried h]

theorem not_mem_leftOver (bytes : List UInt8) : newline ∉ leftOver bytes := by
  rw [leftOver]
  split
  · exact not_mem_rest bytes
  · exact List.not_mem_nil

theorem kept_eq_lines (hreads : EndLines reads) (hcarried : newline ∉ carried) :
    kept carried reads = lines newline (carried ++ reads.flatten) := by
  induction reads generalizing carried with
  | nil =>
      rw [List.flatten_nil, List.append_nil, lines_of_not_mem hcarried]
      rfl
  | cons bytes reads ih =>
      obtain ⟨hbytes, hreads⟩ := endLines_cons.mp hreads
      rw [kept, ih hreads (not_mem_leftOver bytes), List.flatten_cons,
        ← List.append_assoc, lines_append (carried ++ bytes)]
      by_cases hmem : newline ∈ bytes
      · rw [rest_leftOver hmem]
      · have hlater : newline ∉ reads.flatten := fun h => hmem (hbytes h)
        have hrest : newline ∉ rest newline (carried ++ bytes) ++ reads.flatten := by
          rw [List.mem_append, not_or]
          exact ⟨not_mem_rest _, hlater⟩
        rw [leftOver, if_neg hmem, List.nil_append, lines_of_not_mem hlater,
          lines_of_not_mem hrest]

/-- How many bytes the terminated lines of a text have. -/
def lineBytes (t : List UInt8) : Nat := (unlines newline (lines newline t)).length

/-- What is lost is not made up for. -/
theorem length_kept (hcarried : newline ∉ carried) (hne : ∀ bytes ∈ reads, bytes ≠ []) :
    (unlines newline (kept carried reads)).length ≤ lineBytes (carried ++ reads.flatten)
      ∧ (¬ EndLines reads → (unlines newline (kept carried reads)).length
        < lineBytes (carried ++ reads.flatten)) := by
  induction reads generalizing carried with
  | nil => exact ⟨Nat.zero_le _, fun h => absurd List.Pairwise.nil h⟩
  | cons bytes reads ih =>
      obtain ⟨hne', hne⟩ := List.forall_mem_cons.mp hne
      obtain ⟨hle, hlt⟩ := ih (not_mem_leftOver bytes) hne
      have hsplit : lineBytes (carried ++ (bytes :: reads).flatten)
          = lineBytes (carried ++ bytes)
            + lineBytes (rest newline (carried ++ bytes) ++ reads.flatten) := by
        rw [List.flatten_cons, ← List.append_assoc, lineBytes, lines_append,
          unlines_append, List.length_append]
        rfl
      rw [kept, unlines_append, List.length_append, hsplit, endLines_cons]
      change lineBytes _ + _ ≤ _ ∧ (_ → lineBytes _ + _ < _)
      by_cases hmem : newline ∈ bytes
      · rw [rest_leftOver hmem]
        exact ⟨by omega, fun hend => by
          have := hlt fun hreads => hend ⟨fun _ => hmem, hreads⟩
          omega⟩
      · have hdata : newline ∉ carried ++ bytes := by
          rw [List.mem_append, not_or]
          exact ⟨hcarried, hmem⟩
        rw [rest_of_not_mem hdata]
        rw [leftOver, if_neg hmem, List.nil_append] at hle hlt
        rw [leftOver, if_neg hmem]
        by_cases hlater : newline ∈ reads.flatten
        · have hpos : 0 < bytes.length := List.length_pos_iff.mpr hne'
          have hmore : lineBytes ((carried ++ bytes) ++ reads.flatten)
              = (carried ++ bytes).length + lineBytes reads.flatten :=
            length_lines_append _ hlater
          rw [List.length_append] at hmore
          exact ⟨by omega, fun _ => by omega⟩
        · have hzero : lineBytes reads.flatten = 0 := by
            rw [lineBytes, lines_of_not_mem hlater]
            rfl
          exact ⟨by omega, fun hend => absurd
            ⟨fun h => absurd h hlater, endLines_of_not_mem hlater⟩ hend⟩

theorem Reads.ne_nil {reads : List (List UInt8)} :
    ∀ {carried : List UInt8}, Reads carried reads → ∀ bytes ∈ reads, bytes ≠ [] := by
  induction reads with
  | nil => exact fun _ _ h => absurd h List.not_mem_nil
  | cons bytes reads ih =>
      intro carried h
      exact List.forall_mem_cons.mpr ⟨h.1, ih h.2.2⟩

/-- `grep` from an empty buffer, whatever bytes it has. -/
theorem grep_run {fuel : Nat} (hfuel : BUFSIZE ≤ fuel) {buf : List UInt8}
    (hbuf : buf.length = BUFSIZE) (hnul : 0 ∉ reads.flatten) (hreads : Reads [] reads)
    (pattern : List UInt8) :
    ∃ st, grep pattern fuel buf reads = some st
      ∧ st.out = unlines newline ((kept [] reads).filter (reMatch pattern)) :=
  grep_kept hfuel reads [] _
    ⟨⟨buf, rfl⟩, hbuf, rfl, List.not_mem_nil, List.not_mem_nil⟩ hnul hreads

theorem reMatch_nil (text : List UInt8) : reMatch [] text = true := by
  rw [reMatch]
  cases text with
  | nil => rw [matchAnywhere, matchhere_nil]
  | cons t text => rw [matchAnywhere, matchhere_nil, Bool.true_or]

/-- The empty pattern matches every line. -/
theorem filter_reMatch_nil (ls : List (List UInt8)) : ls.filter (reMatch []) = ls :=
  List.filter_eq_self.mpr fun l _ => reMatch_nil l

/-- **Read sizes matter** exactly when a read without a newline comes before
one with a newline: otherwise, and only then, `grep` writes for every pattern
the lines of the stream that match. -/
theorem grep_reads_iff (reads : List (List UInt8)) (hnul : 0 ∉ reads.flatten)
    (hreads : Reads [] reads) (buf : List UInt8) (hbuf : buf.length = BUFSIZE)
    (fuel : Nat) (hfuel : BUFSIZE ≤ fuel) :
    (∀ pattern, ∃ st, grep pattern fuel buf reads = some st
      ∧ st.out = matching pattern reads.flatten) ↔ EndLines reads := by
  constructor
  · intro h
    by_contra hend
    obtain ⟨st, hrun, hout⟩ := h []
    obtain ⟨st', hrun', hout'⟩ := grep_run hfuel hbuf hnul hreads []
    obtain rfl : st = st' := Option.some.inj (hrun.symm.trans hrun')
    have hlt := (length_kept (show newline ∉ [] from List.not_mem_nil)
      hreads.ne_nil).2 hend
    rw [hout', matching, filter_reMatch_nil, filter_reMatch_nil] at hout
    rw [hout, List.nil_append] at hlt
    exact Nat.lt_irrefl _ hlt
  · intro hend pattern
    obtain ⟨st, hrun, hout⟩ := grep_run hfuel hbuf hnul hreads pattern
    refine ⟨st, hrun, ?_⟩
    rw [hout, kept_eq_lines hend List.not_mem_nil]
    rfl

/-- Three reads, two of which end within a line. -/
theorem grep_reads_iff_three :
    (∀ pattern, ∃ st, grep pattern BUFSIZE (List.replicate BUFSIZE 0)
        [ascii "ab\nc", ascii "d\nef", ascii "g\n"] = some st
      ∧ st.out = matching pattern [ascii "ab\nc", ascii "d\nef", ascii "g\n"].flatten)
      ↔ EndLines [ascii "ab\nc", ascii "d\nef", ascii "g\n"] :=
  grep_reads_iff [ascii "ab\nc", ascii "d\nef", ascii "g\n"] (by decide)
    ⟨by decide, by decide, by decide, by decide, by decide, by decide, trivial⟩ _
    List.length_replicate _ (Nat.le_refl _)

/-- The line `ab` in two reads loses its `a`. -/
theorem grep_loses_start :
    ∃ st st', grep [] BUFSIZE (List.replicate BUFSIZE 0) [ascii "ab\n"] = some st
      ∧ st.out = ascii "ab\n"
      ∧ grep [] BUFSIZE (List.replicate BUFSIZE 0) [ascii "a", ascii "b\n"] = some st'
      ∧ st'.out = ascii "b\n" := by
  obtain ⟨st, hrun, hout⟩ := grep_run (Nat.le_refl BUFSIZE)
    (List.length_replicate (a := 0)) (show 0 ∉ [ascii "ab\n"].flatten by decide)
    ⟨by decide, by decide, trivial⟩ []
  obtain ⟨st', hrun', hout'⟩ := grep_run (Nat.le_refl BUFSIZE)
    (List.length_replicate (a := 0))
    (show 0 ∉ [ascii "a", ascii "b\n"].flatten by decide)
    ⟨by decide, by decide, by decide, by decide, trivial⟩ []
  rw [filter_reMatch_nil] at hout hout'
  exact ⟨st, st', hrun, hout.trans (by decide), hrun', hout'.trans (by decide)⟩

end SchoolStuff.Xv6.Grep
