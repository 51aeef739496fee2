import SchoolStuff.Mix.LastByte

/-!
# Mix — a script without its final newline

`nextLine` chops the last byte of what `fgets` took, which is the newline of
a line or, where the script ends without one, the last byte of the line
itself. So the two runs differ by one byte of the last line
(`main_unfinished`), and agree when that byte is not needed (`Unread`) or an
earlier line ends both of them (`Stops`).
-/

namespace SchoolStuff.Mix

open CText

/-! ## The lines of a script -/

/-- What comes before the last newline, by lines, and what comes after it. -/
def lines : List UInt8 → List (List UInt8) × List UInt8
  | [] => ([], [])
  | c :: cs =>
      if c = newline then ([] :: (lines cs).1, (lines cs).2)
      else
        match (lines cs).1 with
        | [] => ([], c :: (lines cs).2)
        | l :: ls => ((c :: l) :: ls, (lines cs).2)

theorem unlines_lines (body : List UInt8) :
    unlines (lines body).1 ++ (lines body).2 = body := by
  induction body with
  | nil => rfl
  | cons c cs ih =>
      rw [lines]
      by_cases hc : c = newline
      · rw [if_pos hc]
        simpa [unlines, hc] using ih
      · rw [if_neg hc]
        cases hls : (lines cs).1 with
        | nil => simpa [hls, unlines] using ih
        | cons l ls => simpa [hls, unlines] using ih

theorem lines_no_newline (body : List UInt8) :
    (∀ l ∈ (lines body).1, newline ∉ l) ∧ newline ∉ (lines body).2 := by
  induction body with
  | nil => simp [lines]
  | cons c cs ih =>
      rw [lines]
      by_cases hc : c = newline
      · rw [if_pos hc]
        exact ⟨List.forall_mem_cons.mpr ⟨by simp, ih.1⟩, ih.2⟩
      · rw [if_neg hc]
        cases hls : (lines cs).1 with
        | nil => exact ⟨by simp, by simp [Ne.symm hc, ih.2]⟩
        | cons l ls =>
            rw [hls, List.forall_mem_cons] at ih
            exact ⟨List.forall_mem_cons.mpr
              ⟨by simp [Ne.symm hc, ih.1.1], ih.1.2⟩, ih.2⟩

theorem length_le_unlines (ls : List (List UInt8)) :
    ls.length ≤ (unlines ls).length := by
  induction ls with
  | nil => exact Nat.le_refl _
  | cons l ls ih =>
      simp only [unlines, List.flatMap_cons, List.length_append,
        List.length_cons] at ih ⊢
      omega

/-! ## The byte that is chopped -/

/-- No conversion of the loop over a hex line needs the last byte of the
payload: the loop never stands at it, but at a blank, and no pair before it
needs it. -/
def HexUnread : List UInt8 → Prop
  | [] => True
  | [c] => c = blank
  | c :: d :: p =>
      if c = blank then HexUnread (d :: p)
      else PairUnread (c :: d :: p) ∧ (¬ PairReads (c :: d :: p) ∨ HexUnread p)

instance decHexUnread : (p : List UInt8) → Decidable (HexUnread p)
  | [] => isTrue trivial
  | [c] => inferInstanceAs (Decidable (c = blank))
  | c :: d :: p =>
      have := decHexUnread p
      have := decHexUnread (d :: p)
      inferInstanceAs (Decidable (if c = blank then HexUnread (d :: p)
        else PairUnread (c :: d :: p) ∧ (¬ PairReads (c :: d :: p) ∨ HexUnread p)))

/-- The last byte of a line is not needed: not where the line is of no type
anyway; not where it is the separator; not in a comment; not where it does
not count in the number of an address line, nor in the pairs of a hex
line. -/
def Unread : List UInt8 → Prop
  | [] => False
  | [c] => lineType c = .error
  | c :: _ :: payload =>
      match lineType c with
      | .string => payload = []
      | .hex => HexUnread payload
      | .address => ¬ AddressNeeds payload
      | _ => True

instance (line : List UInt8) : Decidable (Unread line) := by
  unfold Unread
  split
  · infer_instance
  · infer_instance
  · split <;> infer_instance

/-- The loop over a hex line comes to a pair it cannot read. -/
def HexStops : List UInt8 → Prop
  | [] => False
  | [c] => c ≠ blank ∧ ¬ PairReads [c]
  | c :: d :: p =>
      if c = blank then HexStops (d :: p)
      else ¬ PairReads (c :: d :: p) ∨ HexStops p

/-- The line ends the run: it is empty or of no type, or its payload cannot
be read. -/
def Stops : List UInt8 → Prop
  | [] => True
  | c :: rest =>
      match lineType c with
      | .string | .comment | .eof => False
      | .hex => HexStops (rest.drop 1)
      | .address => ¬ AddressReads (rest.drop 1)
      | .error => True

theorem hexDecode_dropLast_iff (p : List UInt8) :
    hexDecode p.dropLast = hexDecode p ↔ HexUnread p := by
  induction p using HexUnread.induct with
  | case1 => simp [HexUnread]
  | case2 c =>
      show hexDecode [] = _ ↔ c = blank
      by_cases hc : c = blank
      · exact iff_of_true (by rw [hc, hexDecode_blank]) hc
      · refine iff_of_false (fun h => ?_) hc
        rw [hexDecode_pair hc, hexDecode] at h
        split at h <;> simp at h
  | case3 d p ih =>
      rw [HexUnread, if_pos rfl, ← ih, hexDecode_blank,
        List.dropLast_cons_of_ne_nil (by simp), hexDecode_blank]
  | case4 c d p hc ih =>
      have hdrop : (d :: p).dropLast.drop 1 = p.dropLast := by
        cases p <;> rfl
      rw [HexUnread, if_neg hc, ← ih, ← pairUnread_iff, ← scan2hhx_eq_none_iff,
        hexDecode_pair hc,
        List.dropLast_cons_of_ne_nil (by simp), hexDecode_pair hc, hdrop,
        List.drop_one, List.tail_cons]
      cases scan2hhx (c :: (d :: p).dropLast) with
      | none => cases scan2hhx (c :: d :: p) <;> simp
      | some hexVal' =>
          cases scan2hhx (c :: d :: p) with
          | none => simp
          | some hexVal =>
              simp only [List.cons.injEq, Option.some.injEq,
                reduceCtorEq, false_or, Prod.ext_iff, and_assoc]
              rw [eq_comm (a := hexVal')]

/-- The low digits tell the number up to their count. -/
theorem mod_pow_of_digits {base a b : Nat} (n : Nat)
    (h : ∀ i < n, a / base ^ i % base = b / base ^ i % base) :
    a % base ^ n = b % base ^ n := by
  induction n with
  | zero => rw [Nat.pow_zero, Nat.mod_one, Nat.mod_one]
  | succ n ih =>
      rw [Nat.mod_pow_succ, Nat.mod_pow_succ, ih fun i hi => h i (by omega),
        h n (Nat.lt_succ_self n)]

/-- The bytes of an address tell it. -/
theorem addrBytes_injective {a b : UInt64} (h : addrBytes a = addrBytes b) :
    a = b := by
  have hbyte : ∀ i < 8, a.toNat / 256 ^ i % 256 = b.toNat / 256 ^ i % 256 := by
    intro i hi
    have hget := congrArg (fun l : List UInt8 => l[i]?.map UInt8.toNat) h
    simpa [addrBytes, hi] using hget
  have ha : a.toNat < 256 ^ 8 := a.toNat_lt
  have hb : b.toNat < 256 ^ 8 := b.toNat_lt
  have hmod := mod_pow_of_digits 8 hbyte
  rw [Nat.mod_eq_of_lt ha, Nat.mod_eq_of_lt hb] at hmod
  exact UInt64.toNat.inj hmod

/-- **The last byte of a line** can go without a change of what the line
means exactly when it is not needed. -/
theorem decode_dropLast_iff {line : List UInt8} (hne : line ≠ []) :
    decode line.dropLast = decode line ↔ Unread line := by
  match line, hne with
  | [c], _ =>
      show decode [] = decode [c] ↔ lineType c = .error
      have hnil : decode [] = ([], some 3) := rfl
      rw [hnil, decode]
      cases hc : lineType c with
      | string => simp [hc]
      | hex => simp [hc, hexDecode]
      | address => simp [hc, show scanP [] = none from rfl]
      | comment => simp [hc]
      | eof => exact absurd hc (lineType_ne_eof c)
      | error => simp [hc]
  | c :: sep :: payload, _ =>
      have hhead : (c :: sep :: payload).dropLast.headD 0 = c := rfl
      have hdrop : (c :: sep :: payload).dropLast.drop 2 = payload.dropLast := by
        cases payload <;> rfl
      rw [decode, decode, hhead, hdrop, Unread]
      simp only [List.headD_cons, List.drop_succ_cons, List.drop_zero]
      cases hc : lineType c with
      | string =>
          have hlen : payload.dropLast = payload ↔ payload = [] := by
            cases payload with
            | nil => simp
            | cons c p =>
                refine iff_of_false (fun h => ?_) (by simp)
                simpa using congrArg List.length h
          simpa using hlen
      | hex => exact hexDecode_dropLast_iff payload
      | address =>
          show _ ↔ ¬ AddressNeeds payload
          rw [← addressNeeds_iff]
          cases scanP payload.dropLast with
          | none => cases scanP payload <;> simp
          | some addr' =>
              cases scanP payload with
              | none => simp
              | some addr =>
                  simp only [Prod.mk.injEq, and_true, Option.some.injEq]
                  exact ⟨fun h => (addrBytes_injective h).symm, fun h => by rw [h]⟩
      | comment => simp
      | eof => simp
      | error => simp

/-! ## The two runs -/

theorem hexStops_iff (p : List UInt8) : (hexDecode p).2 ≠ none ↔ HexStops p := by
  induction p using HexStops.induct with
  | case1 => simp [hexDecode, HexStops]
  | case2 c =>
      rw [HexStops, ← scan2hhx_eq_none_iff]
      by_cases hc : c = blank
      · simp [hexDecode, hc]
      · rw [hexDecode_pair hc]
        cases scan2hhx [c] <;> simp [hc, hexDecode]
  | case3 d p ih => rwa [HexStops, if_pos rfl, hexDecode_blank]
  | case4 c d p hc ih =>
      rw [HexStops, if_neg hc, ← ih, ← scan2hhx_eq_none_iff, hexDecode_pair hc,
        List.drop_one, List.tail_cons]
      cases scan2hhx (c :: d :: p) <;> simp

/-- **The lines that end a run**, by their bytes. -/
theorem stops_iff (line : List UInt8) : (decode line).2 ≠ none ↔ Stops line := by
  cases line with
  | nil => exact iff_of_true (by decide) trivial
  | cons c rest =>
      have hdrop : (c :: rest).drop 2 = rest.drop 1 := rfl
      rw [decode, List.headD_cons, hdrop, Stops]
      cases hc : lineType c with
      | string => simp
      | hex => exact hexStops_iff _
      | address =>
          show _ ↔ ¬ AddressReads (rest.drop 1)
          rw [← scanP_eq_none_iff]
          cases scanP (rest.drop 1) <;> simp
      | comment => simp
      | eof => exact absurd hc (lineType_ne_eof c)
      | error => simp

theorem decode_status_ne_zero (line : List UInt8) : (decode line).2 ≠ some 0 := by
  have hhex : ∀ p, (hexDecode p).2 ≠ some 0 := by
    intro p
    induction p using HexUnread.induct with
    | case1 => simp [hexDecode]
    | case2 c =>
        rw [hexDecode]
        split
        · simp
        · split <;> simp
    | case3 d p ih =>
        rw [hexDecode_blank]
        exact ih
    | case4 c d p hc ih =>
        rw [hexDecode_pair hc]
        split
        · simp
        · exact ih
  rw [decode]
  split
  · simp
  · simp
  · exact hhex _
  · split <;> simp
  · simp

/-- What the last line is worth, and nothing after it. -/
theorem decodeAll_single_iff (l l' : List UInt8) :
    decodeAll ([], 0) [l] = decodeAll ([], 0) [l'] ↔ decode l = decode l' := by
  have hne := decode_status_ne_zero l
  have hne' := decode_status_ne_zero l'
  simp only [decodeAll, List.append_nil]
  generalize decode l = d at hne ⊢
  generalize decode l' = d' at hne' ⊢
  obtain ⟨out, status⟩ := d
  obtain ⟨out', status'⟩ := d'
  cases status <;> cases status' <;> simp_all [eq_comm]

theorem decodeAll_snoc (ls : List (List UInt8)) (l : List UInt8) :
    decodeAll ([], 0) (ls ++ [l]) = decodeAll (decodeAll ([], 0) [l]) ls := by
  induction ls with
  | nil => rfl
  | cons l' ls ih =>
      rw [List.cons_append, decodeAll, ih]
      rfl

/-- What comes after the lines matters unless one of them ends the run. -/
theorem decodeAll_eq_iff (rest rest' : List UInt8 × Nat)
    (ls : List (List UInt8)) :
    decodeAll rest ls = decodeAll rest' ls
      ↔ (∃ l ∈ ls, Stops l) ∨ rest = rest' := by
  induction ls with
  | nil => simp [decodeAll]
  | cons l ls ih =>
      rw [decodeAll, decodeAll]
      cases hdecode : (decode l).2 with
      | some status =>
          have hstops : Stops l := (stops_iff l).mp (by simp [hdecode])
          exact iff_of_true rfl (.inl ⟨l, List.mem_cons_self, hstops⟩)
      | none =>
          have hnot : ¬ Stops l := fun h => (stops_iff l).mpr h hdecode
          simp only [Prod.mk.injEq, List.append_cancel_left_eq]
          rw [← Prod.ext_iff, ih]
          simp [hnot]

/-- **The final newline.** On every script that ends in a newline and whose
lines fit into the buffer, the run without that newline writes the same and
returns the same if and only if an earlier line ends both runs or the last
byte of the last line is not needed. -/
theorem final_newline_iff (body : List UInt8) (hnul : 0 ∉ body)
    (hlines : ∀ l ∈ (lines body).1 ++ [(lines body).2], l.length ≤ 254)
    (fuel : Nat) (hfuel : BUFSIZE + body.length + 3 ≤ fuel) :
    ∃ st st', main fuel (body ++ [newline]) = some st
      ∧ main fuel body = some st'
      ∧ ((st'.stdout = st.stdout ∧ st'.status = st.status)
        ↔ (∃ l ∈ (lines body).1, Stops l) ∨ Unread (lines body).2) := by
  have hbody := unlines_lines body
  obtain ⟨hnl, hnlast⟩ := lines_no_newline body
  generalize (lines body).1 = ls at hbody hnl hlines ⊢
  generalize (lines body).2 = last at hbody hnlast hlines ⊢
  subst hbody
  rw [List.mem_append, not_or] at hnul
  have hls : ∀ l ∈ ls, Readable l := fun l hl =>
    ⟨fun h => hnul.1 (List.mem_flatMap.mpr ⟨l, hl, List.mem_append_left _ h⟩),
      hnl l hl, hlines l (List.mem_append_left _ hl)⟩
  have hlast : Readable last := ⟨hnul.2, hnlast, hlines last (by simp)⟩
  have hcount := length_le_unlines ls
  rw [List.length_append] at hfuel
  have hscript : unlines ls ++ last ++ [newline] = unlines (ls ++ [last]) := by
    simp [unlines]
  obtain ⟨st, hrun, hout, hstatus⟩ := main_unlines
    (List.forall_mem_append.mpr ⟨hls, by simpa using hlast⟩)
    (show BUFSIZE + (ls ++ [last]).length + 2 ≤ fuel by
      rw [List.length_append, List.length_singleton]; omega)
  rw [decodeAll_snoc] at hout hstatus
  -- what the run without the newline is worth
  obtain ⟨st', hrun', rest, hout', hstatus', hrest⟩ : ∃ st',
      main fuel (unlines ls ++ last) = some st' ∧ ∃ rest,
        st'.stdout = (decodeAll rest ls).1
        ∧ st'.status = some (decodeAll rest ls).2
        ∧ (rest = decodeAll ([], 0) [last] ↔ Unread last) := by
    by_cases hne : last = []
    · obtain ⟨st', hrun', hout', hstatus'⟩ := main_unlines hls
        (show BUFSIZE + ls.length + 2 ≤ fuel by omega)
      rw [hne, List.append_nil]
      exact ⟨st', hrun', _, hout', hstatus',
        iff_of_false (by decide) (by simp [Unread])⟩
    · obtain ⟨st', hrun', hout', hstatus'⟩ := main_unfinished hls hlast hne
        (show BUFSIZE + ls.length + 2 ≤ fuel by omega)
      exact ⟨st', hrun', _, hout', hstatus',
        (decodeAll_single_iff _ _).trans (decode_dropLast_iff hne)⟩
  refine ⟨st, st', by rw [hscript]; exact hrun, hrun', ?_⟩
  rw [hout, hstatus, hout', hstatus', Option.some.injEq, ← Prod.ext_iff,
    decodeAll_eq_iff, hrest]

/-- The digit behind the base counts, unless it is a zero. -/
example : ¬ Unread (ascii "A 0x5") ∧ Unread (ascii "A 0x0") := by decide +kernel

/-- A hex line with a blank at its end. -/
theorem final_newline_iff_blank :
    ∃ st st', main 300 (ascii "X 41 " ++ [newline]) = some st
      ∧ main 300 (ascii "X 41 ") = some st'
      ∧ ((st'.stdout = st.stdout ∧ st'.status = st.status)
        ↔ (∃ l ∈ (lines (ascii "X 41 ")).1, Stops l)
          ∨ Unread (lines (ascii "X 41 ")).2) :=
  final_newline_iff (ascii "X 41 ") (by decide +kernel) (by decide +kernel) 300
    (by decide +kernel)

/-- A string line loses its last letter. -/
theorem final_newline_matters :
    ¬ ∀ body : List UInt8, 0 ∉ body →
      (∀ l ∈ (lines body).1 ++ [(lines body).2], l.length ≤ 254) →
      ∀ fuel, BUFSIZE + body.length + 3 ≤ fuel →
        ∃ st st', main fuel (body ++ [newline]) = some st
          ∧ main fuel body = some st'
          ∧ st'.stdout = st.stdout ∧ st'.status = st.status := by
  intro h
  obtain ⟨st, st', hrun, hrun', hout, -⟩ := h (ascii "S hi") (by decide +kernel)
    (by decide +kernel) 300 (by decide +kernel)
  have hfull : (main 300 (ascii "S hi" ++ [newline])).map (·.stdout)
      = some (ascii "hi") := by
    decide +kernel
  have hshort : (main 300 (ascii "S hi")).map (·.stdout)
      = some (ascii "h") := by
    decide +kernel
  rw [hrun, Option.map_some] at hfull
  rw [hrun', Option.map_some, hout, hfull] at hshort
  exact absurd hshort (by decide +kernel)

end SchoolStuff.Mix
