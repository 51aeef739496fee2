import SchoolStuff.Mix.Decode

/-!
# Mix — the cursor of the hex loop

Behind the chopped byte stands the NUL of `fgets`, so a hex line is in the
buffer in front of two NULs, and a cursor that steps over the first one meets
the second. What the loop does from a position of the line on is the same in
every buffer (`hexLoop_line_only`): it is made of the line.
-/

namespace SchoolStuff.Mix

open CText

/-- The cursor is on the line or on one of its two NULs. -/
structure OnLine (l : List UInt8) (st : St) : Prop where
  no_nul : 0 ∉ l
  buffer : ∃ post, st.buffer = l ++ 0 :: 0 :: post
  low : 2 ≤ st.dstring
  high : st.dstring ≤ l.length + 1

variable {l : List UInt8} {st : St}

theorem OnLine.get (h : OnLine l st) (hlt : st.dstring < l.length) :
    st.buffer[st.dstring]? = some l[st.dstring] := by
  obtain ⟨post, hbuf⟩ := h.buffer
  rw [hbuf, List.getElem?_append_left hlt, List.getElem?_eq_getElem hlt]

theorem OnLine.get_nul (h : OnLine l st) (hge : l.length ≤ st.dstring) :
    st.buffer[st.dstring]? = some 0 := by
  obtain ⟨post, hbuf⟩ := h.buffer
  have hhigh := h.high
  rw [hbuf, List.getElem?_append_right hge]
  cases hd : st.dstring - l.length with
  | zero => rfl
  | succ d =>
      obtain rfl : d = 0 := by omega
      rfl

theorem OnLine.lt_of_cond (h : OnLine l st) (hcond : hexCond st = true) :
    st.dstring < l.length := by
  by_contra hge
  simp [hexCond, h.get_nul (Nat.not_lt.mp hge)] at hcond

/-- What the conversion and the message read: the rest of the line. -/
theorem OnLine.text (h : OnLine l st) : st.text = some (l.drop st.dstring) := by
  obtain ⟨post, hbuf⟩ := h.buffer
  by_cases hle : st.dstring ≤ l.length
  · have hsplit : st.buffer =
        l.take st.dstring ++ (l.drop st.dstring ++ 0 :: 0 :: post) := by
      rw [← List.append_assoc, List.take_append_drop, hbuf]
    have hlen : (l.take st.dstring).length = st.dstring := by
      rw [List.length_take]
      omega
    have htext := cstr_append (l.take st.dstring)
      (fun hmem => h.no_nul (List.mem_of_mem_drop hmem)) (0 :: post) (s := l.drop st.dstring)
    rwa [hlen, ← hsplit] at htext
  · have hhigh := h.high
    have hat : st.dstring = (l ++ [0]).length := by
      rw [List.length_append, List.length_singleton]
      omega
    have htext := cstr_append (l ++ [0]) (s := []) (by simp) post
    rw [List.drop_eq_nil_of_le (by omega), St.text, hbuf, hat]
    simpa using htext

/-- A turn keeps the cursor on the line. -/
theorem OnLine.turn {st' : St} (h : OnLine l st) (hcond : hexCond st = true)
    (hbody : hexBody st = some st') : OnLine l st' := by
  have hlt := h.lt_of_cond hcond
  have hlow := h.low
  simp only [hexBody, h.get hlt, Option.bind_eq_bind, Option.bind_some] at hbody
  split at hbody
  · cases hbody
    exact ⟨h.no_nul, h.buffer, Nat.le_succ_of_le hlow, Nat.succ_le_succ (Nat.le_of_lt hlt)⟩
  · simp only [St.hexPair, h.text, Option.bind_eq_bind, Option.bind_some] at hbody
    split at hbody
    · cases hbody
      exact ⟨h.no_nul, h.buffer, hlow, h.high⟩
    · cases hbody
      exact ⟨h.no_nul, h.buffer, Nat.le_add_right_of_le hlow, Nat.succ_le_succ hlt⟩

theorem OnLine.tops {s : St} (h : OnLine l st) (htop : Loop.Tops hexCond hexBody st s) :
    OnLine l s :=
  htop.invariant h fun _ _ hs hcond hbody => hs.turn hcond hbody

/-- A turn of the loop, on the line itself. -/
theorem OnLine.run_turn {st₁ : St} {d fuel : Nat} (h : OnLine l st) (hd : st.dstring = d)
    (hlt : d < l.length) (hstatus : st.status = none) (hbody : hexBody st = some st₁)
    (hfuel : l.length - d ≤ fuel) :
    OnLine l st₁ ∧ ∃ k, l.length - d ≤ k + 1 ∧
      Loop.run hexCond hexBody fuel st = Loop.run hexCond hexBody k st₁ := by
  subst hd
  have hc : l[st.dstring] ≠ 0 := fun hzero => h.no_nul (hzero ▸ List.getElem_mem hlt)
  have hcond : hexCond st = true := by simp [hexCond, h.get hlt, hstatus, hc]
  refine ⟨h.turn hcond hbody, fuel - 1, by omega, ?_⟩
  obtain ⟨k, rfl⟩ : ∃ k, fuel = k + 1 := ⟨fuel - 1, by omega⟩
  rw [Loop.run, if_pos hcond, hbody]
  rfl

/-- What the loop adds to a state, and where it leaves the cursor. -/
structure HexRun where
  out : List UInt8
  err : List UInt8
  status : Option Nat
  dstring : Nat

def HexRun.apply (r : HexRun) (st : St) : St :=
  { st with
    stdout := st.stdout ++ r.out
    stderr := st.stderr ++ r.err
    status := r.status
    dstring := r.dstring }

/-- **The line alone decides**, from any position on. -/
theorem hexLoop_line_only (l : List UInt8) (d : Nat) :
    ∃ r : HexRun, ∀ st, OnLine l st → st.dstring = d → st.status = none →
      ∀ fuel, l.length - d ≤ fuel →
        Loop.run hexCond hexBody fuel st = some (r.apply st) := by
  induction hn : l.length - d using Nat.strong_induction_on generalizing d with
  | _ n ih =>
  subst hn
  by_cases hlt : d < l.length
  · by_cases hblank : l[d] = blank
    · -- a blank is stepped over
      obtain ⟨r, hr⟩ := ih (l.length - (d + 1)) (by omega) (d + 1) rfl
      refine ⟨r, fun st hst hd hstatus fuel hfuel => ?_⟩
      have hbody : hexBody st = some { st with dstring := d + 1 } := by
        subst hd
        simp [hexBody, hst.get hlt, hblank]
      obtain ⟨hst₁, k, hk, hrun⟩ := hst.run_turn hd hlt hstatus hbody hfuel
      rw [hrun, hr _ hst₁ rfl hstatus k (by omega)]
      rfl
    · have hpair {st : St} (hst : OnLine l st) (hd : st.dstring = d) :
          hexBody st = st.hexPair l[d] := by
        subst hd
        simp [hexBody, hst.get hlt, hblank]
      cases hscan : scan2hhx (l.drop d) with
      | none =>
          let message := ascii "Please use only hexadecimal characters on hex lines... got "
            ++ l.drop d ++ ascii " (that starts with " ++ hex2 l[d] ++ ascii ")\n"
          refine ⟨⟨[], message, some 1, d⟩, fun st hst hd hstatus fuel hfuel => ?_⟩
          have hbody : hexBody st = some (st.fail 1 message) := by
            rw [hpair hst hd, St.hexPair, hst.text, hd]
            simp [hscan, message]
          obtain ⟨-, k, -, hrun⟩ := hst.run_turn hd hlt hstatus hbody hfuel
          rw [hrun, Loop.run_of_exit rfl]
          simp [St.fail, HexRun.apply, hd]
      | some hexVal =>
          obtain ⟨r, hr⟩ := ih (l.length - (d + 2)) (by omega) (d + 2) rfl
          refine ⟨{ r with out := hexVal :: r.out }, fun st hst hd hstatus fuel hfuel => ?_⟩
          have hbody : hexBody st =
              some { st with stdout := st.stdout ++ [hexVal], dstring := d + 2 } := by
            rw [hpair hst hd, St.hexPair, hst.text, hd]
            simp [hscan]
          obtain ⟨hst₁, k, hk, hrun⟩ := hst.run_turn hd hlt hstatus hbody hfuel
          rw [hrun, hr _ hst₁ rfl hstatus k (by omega)]
          simp [HexRun.apply]
  · refine ⟨⟨[], [], none, d⟩, fun st hst hd hstatus fuel _ => ?_⟩
    have hexit : hexCond st = false := by
      simp [hexCond, hst.get_nul (by omega)]
    rw [Loop.run_of_exit hexit]
    simp [HexRun.apply, ← hd, ← hstatus]

/-! ## A line that `fgets` delivers -/

/-- The line is in the buffer, and the cursor behind its letter and separator. -/
theorem onLine_loaded {taken : List UInt8} (st : St) (hnul : 0 ∉ taken)
    (hlen : 2 ≤ taken.length) : OnLine taken.dropLast (st.loaded taken) where
  no_nul h := hnul (List.dropLast_subset _ h)
  buffer := ⟨st.behind taken, rfl⟩
  low := Nat.le_refl 2
  high := by
    rw [List.length_dropLast]
    show 2 ≤ _
    omega

/-- A hex line has its letter besides the byte that is chopped. -/
theorem two_le_length_of_hex {taken : List UInt8}
    (hhex : lineType (taken.dropLast.headD 0) = .hex) : 2 ≤ taken.length := by
  match taken with
  | [] => exact absurd hhex (by decide)
  | [_] => exact absurd hhex (show lineType 0 ≠ .hex by decide)
  | _ :: _ :: _ => exact Nat.le_add_left 2 _

/-- **The hex loop stays inside its line.** With any buffer left behind by
earlier lines it ends, what it reads is not behind the NUL of `fgets`, and what
it does is decided by the line alone. -/
theorem hexLoop_inside (taken : List UInt8) (hnul : 0 ∉ taken)
    (hhex : lineType (taken.dropLast.headD 0) = .hex) :
    ∃ r : HexRun, ∀ st : St, st.atEof = false → st.status = none →
      takeLine (BUFSIZE - 1) st.stdin = taken →
      st.nextLine = some (.hex, st.loaded taken) ∧
      (∀ fuel, taken.length ≤ fuel →
        Loop.run hexCond hexBody fuel (st.loaded taken) =
          some (r.apply (st.loaded taken))) ∧
      ∀ s, Loop.Tops hexCond hexBody (st.loaded taken) s → 2 ≤ s.dstring ∧
        ∃ text, s.text = some text ∧ s.dstring + text.length ≤ taken.length := by
  have hlen := two_le_length_of_hex hhex
  have hne : taken ≠ [] := List.ne_nil_of_length_pos (by omega)
  obtain ⟨r, hr⟩ := hexLoop_line_only taken.dropLast 2
  refine ⟨r, fun st hmore hstatus htake => ⟨?_, fun fuel hfuel => ?_, fun s hs => ?_⟩⟩
  · rw [nextLine_taken hmore htake hne hnul, hhex]
  · exact hr _ (onLine_loaded st hnul hlen) rfl hstatus fuel
      (by rw [List.length_dropLast]; omega)
  · have hs := (onLine_loaded st hnul hlen).tops hs
    refine ⟨hs.low, _, hs.text, ?_⟩
    have hhigh := hs.high
    rw [List.length_dropLast] at hhigh
    rw [List.length_drop, List.length_dropLast]
    omega

/-- An odd number of digits. -/
theorem hexLoop_inside_odd : lineType ((ascii "X 41a\n").dropLast.headD 0) = .hex ∧
    ∃ r : HexRun, ∀ st : St, st.atEof = false → st.status = none →
      takeLine (BUFSIZE - 1) st.stdin = ascii "X 41a\n" →
      st.nextLine = some (.hex, st.loaded (ascii "X 41a\n")) ∧
      (∀ fuel, (ascii "X 41a\n").length ≤ fuel →
        Loop.run hexCond hexBody fuel (st.loaded (ascii "X 41a\n")) =
          some (r.apply (st.loaded (ascii "X 41a\n")))) ∧
      ∀ s, Loop.Tops hexCond hexBody (st.loaded (ascii "X 41a\n")) s → 2 ≤ s.dstring ∧
        ∃ text, s.text = some text ∧ s.dstring + text.length ≤ (ascii "X 41a\n").length :=
  ⟨by decide, hexLoop_inside (ascii "X 41a\n") (by decide) (by decide)⟩

end SchoolStuff.Mix
