import SchoolStuff.CamCache.Access

/-!
# CamCache — the direct-access type against one way

The direct-access type keeps its tags in an array and looks at one line, the
set-associative type with one way keeps them in CAMs of one row and looks
for a victim. `oneWay` carries the state of the first over to the second;
it commutes with every turn of the loop, faults included.
-/

namespace SchoolStuff.CamCache

/-- The state of the set-associative type with the tags of the
direct-access type, one CAM of one row for each. -/
def oneWay (st : Cache) : Cache :=
  ⟨st.lines, none, [], st.dTags.map fun tag => ⟨1, [tag]⟩⟩

/-- The direct-access geometry of `2 ^ b` lines. -/
def directSetup (b o : Nat) : Setup := ⟨.D, (2 ^ b : Nat), o, b, 0⟩

/-- There are `n` lines, and a tag for each. -/
structure DirectOk (n : Nat) (st : Cache) : Prop where
  sized : st.lines.Sized n
  tags : st.dTags.length = n

variable {n b o set : Nat} {st : Cache} {tag old : Word}

/-! ## The lookup -/

theorem camRead_one (old tag : Word) :
    camRead ⟨1, [old]⟩ tag = if old = tag then 0 else -1 := by
  by_cases h : old = tag <;> simp [camRead, h]

theorem camWrite_one (old tag : Word) :
    camWrite ⟨1, [old]⟩ 0 tag = .ok ⟨1, [tag]⟩ := by
  simp only [camWrite, ensure_pos (show (0 : Int) < 1 by decide), ok_bind]
  simp

/-- Among one line there is no choice. -/
theorem lineFirstUsed_one (hn : st.lines.Sized n) (hset : set < n) :
    lineFirstUsed st.lines (set : Int) ((set : Int) + 1) = .ok (set : Int) := by
  have heq := lineFirstUsed_eq hn (Nat.lt_add_one set) hset
  rw [Nat.add_sub_cancel_left] at heq
  refine heq.trans ?_
  rw [firstUsedLoop_succ hn hset]
  split
  · rfl
  · split <;> rfl

/-- The two types miss on the same accesses. -/
theorem lineMissing_one (old tag : Word) (hn : st.lines.Sized n) (hset : set < n) :
    lineMissing st.lines (camRead ⟨1, [old]⟩ tag)
        (camRead ⟨1, [old]⟩ tag + (set : Int))
      = .ok (decide ((st.lines.at set).valid = false ∨ old ≠ tag)) := by
  rw [camRead_one, lineMissing]
  by_cases h : old = tag
  · rw [if_pos h, if_neg (by decide), Int.zero_add, hn.isValid hset, ok_bind]
    cases (st.lines.at set).valid <;> simp [h]
  · rw [if_neg h, if_pos rfl]
    simp [h]

/-- **One lookup.** Both types find the same line, and fill it under the
same condition. -/
theorem findS_oneWay (h : DirectOk n st) (hset : set < n) (tag : Word) :
    findS (setup 1 b o) (oneWay st) tag set
      = (findD st tag set).map fun r => (r.1, oneWay r.2) := by
  have hlt : set < st.dTags.length := h.tags.symm ▸ hset
  have hold := List.getElem?_eq_getElem hlt
  generalize st.dTags[set] = old at hold
  have hcam : (oneWay st).sCams[set]? = some ⟨1, [old]⟩ := by
    rw [oneWay, List.getElem?_map, hold]
    rfl
  have hmissing := lineMissing_one old tag h.sized hset
  have hone : ((1 : Nat) : Int) = 1 := rfl
  simp only [findS, hcam, setup, hone, Int.mul_one, findD, hold,
    h.sized.isValid hset, ok_bind]
  rw [show (oneWay st).lines = st.lines from rfl, hmissing, ok_bind]
  by_cases hmiss : (st.lines.at set).valid = false ∨ old ≠ tag
  · rw [if_pos (decide_eq_true hmiss), if_pos hmiss,
      lineFirstUsed_one h.sized hset, ok_bind, Int.tmod_one, camWrite_one,
      ok_bind]
    cases lineSetValid .table st.lines set with
    | error e => rfl
    | ok lines =>
        simp only [ok_bind, Except.map, oneWay, List.map_set]
  · -- on a hit the row is 0, and the line is the set
    have heq : old = tag := by
      by_contra hne
      exact hmiss (Or.inr hne)
    rw [if_neg (by simpa using hmiss), if_neg hmiss, camRead_one, if_pos heq,
      Int.zero_add]
    rfl

/-! ## One turn of the loop -/

/-- **What a direct access does**: the line of its set is found, and filled
if it holds another tag. -/
theorem findD_spec (h : DirectOk n st) (hset : set < n) (tag : Word) :
    ∃ st', findD st tag set = .ok ((set : Int), st') ∧ DirectOk n st'
      ∧ (st'.lines.at set).valid = true := by
  have hlt : set < st.dTags.length := h.tags.symm ▸ hset
  simp only [findD, h.sized.isValid hset, ok_bind,
    List.getElem?_eq_getElem hlt]
  by_cases hmiss : (st.lines.at set).valid = false ∨ st.dTags[set] ≠ tag
  · rw [if_pos hmiss, lineSetValid_eq h.sized hset, ok_bind]
    refine ⟨_, rfl, ⟨h.sized.fill set, by simp [h.tags]⟩, ?_⟩
    rw [Lines.fill_at h.sized hset, if_pos rfl]
  · rw [if_neg hmiss]
    refine ⟨st, rfl, h, ?_⟩
    cases hv : (st.lines.at set).valid with
    | false => exact absurd (Or.inl hv) hmiss
    | true => rfl

/-- **Step lemma**: a turn of the loop does the same to both states. -/
theorem step_oneWay (hb : b < 31) (h : DirectOk (2 ^ b) st) (r : Record) :
    ∃ st', step (directSetup b o) st r = .ok st' ∧ DirectOk (2 ^ b) st'
      ∧ step (setup 1 b o) (oneWay st) r = .ok (oneWay st') := by
  cases hr : isAccess r with
  | false => exact ⟨st, step_of_not_access _ _ hr, h, step_of_not_access _ _ hr⟩
  | true =>
      cases r with
      | none => exact absurd hr (by decide)
      | some a =>
          obtain ⟨tt, taddr⟩ := a
          have hset : (directSetup b o).set taddr < 2 ^ b :=
            Setup.set_lt hb taddr
          obtain ⟨st', hfind, h', hvalid⟩ :=
            findD_spec h hset ((directSetup b o).tag taddr)
          have huse := useLine_eq st' h'.sized hset hvalid (tt == 'W')
          have huseS := useLine_eq (oneWay st') h'.sized hset hvalid (tt == 'W')
          have hfindS := findS_oneWay (b := b) (o := o) h hset
            ((directSetup b o).tag taddr)
          rw [hfind] at hfindS
          refine ⟨st'.use ((directSetup b o).set taddr) (tt == 'W'), ?_, ?_, ?_⟩
          · rw [step_of_access _ _ taddr hr]
            show (findD st _ _).bind _ = _
            rw [hfind]
            exact huse
          · exact ⟨h'.sized.use _ _, h'.tags⟩
          · rw [step_of_access _ _ taddr hr]
            show (findS (setup 1 b o) (oneWay st) _ _).bind _ = _
            exact (congrArg (Except.bind · _) hfindS).trans huseS

/-! ## A whole trace -/

theorem directOk_create (b : Nat) :
    DirectOk (2 ^ b) ⟨linesCreate (2 ^ b : Nat), none,
      List.replicate (2 ^ b) 0, []⟩ :=
  ⟨linesCreate_sized (2 ^ b), List.length_replicate⟩

/-- **Run lemma.** -/
theorem run_oneWay (hb : b < 31) (trace : List Record) :
    ∀ st, DirectOk (2 ^ b) st → ∃ st',
      trace.foldlM (step (directSetup b o)) st = .ok st' ∧ DirectOk (2 ^ b) st'
        ∧ trace.foldlM (step (setup 1 b o)) (oneWay st) = .ok (oneWay st') := by
  induction trace with
  | nil => exact fun st h => ⟨st, rfl, h, rfl⟩
  | cons r trace ih =>
      intro st h
      obtain ⟨st₁, hD, h₁, hS⟩ := step_oneWay (o := o) hb h r
      obtain ⟨st₂, hD', h₂, hS'⟩ := ih st₁ h₁
      refine ⟨st₂, ?_, h₂, ?_⟩
      · rw [List.foldlM_cons, hD, ok_bind, hD']
      · rw [List.foldlM_cons, hS, ok_bind, hS']

/-! ## Start-up -/

theorem start_D (hb : b < 31) (o : Nat) :
    start .D (2 ^ b : Nat) o 0 = .ok (directSetup b o,
      ⟨linesCreate (2 ^ b : Nat), none, List.replicate (2 ^ b) 0, []⟩) := by
  have hlog : mlog2 ((2 ^ b : Nat) : Int) = .ok b := by
    rw [Int.natCast_pow]
    exact mlog2_pow hb
  simp only [start, hlog, ok_bind]
  rfl

theorem start_oneWay (hb : b < 31) (o : Nat) :
    start .S (2 ^ b : Nat) o 1 = .ok (setup 1 b o, emptyCache 1 b) := by
  have h := start_pow (k := 1) (by decide) hb o
  rw [Nat.one_mul] at h
  exact h

/-! ## The two types side by side -/

/-- Both caches have the same line table, with all its bits and counters,
and each line the same tag. -/
structure SameCache (d s : Cache) : Prop where
  lines : d.lines = s.lines
  tags : d.dTags.map some = s.sCams.map fun cam => cam.data[0]?

theorem sameCache_oneWay (st : Cache) : SameCache st (oneWay st) where
  lines := rfl
  tags := by
    rw [oneWay, List.map_map]
    rfl

/-- **The direct-access type refines the set-associative type with one
way.** For every power of two of lines and every trace neither fails, and
they end with the same valid and dirty bits, the same tag in every line and
the same counters. -/
theorem directMode_eq_oneWay (b o : Nat) (hb : b < 31)
    (trace : List Record) :
    ∃ cd d cs s, run .D (2 ^ b : Nat) o 0 trace = .ok (cd, d)
      ∧ run .S (2 ^ b : Nat) o 1 trace = .ok (cs, s) ∧ SameCache d s := by
  obtain ⟨st, hD, _, hS⟩ := run_oneWay hb trace _ (directOk_create b)
  refine ⟨directSetup b o, st, setup 1 b o, oneWay st, ?_, ?_,
    sameCache_oneWay st⟩
  · rw [run, start_D hb, ok_bind, hD]
    rfl
  · have hempty : oneWay ⟨linesCreate (2 ^ b : Nat), none,
        List.replicate (2 ^ b) 0, []⟩ = emptyCache 1 b := by
      simp [oneWay, emptyCache]
    rw [hempty] at hS
    rw [run, start_oneWay hb, ok_bind, hS]
    rfl

/-- Four lines of two bytes; the last access evicts the line that the
second wrote. -/
theorem directMode_eq_oneWay_three :
    ∃ cd d cs s, run .D (2 ^ 2 : Nat) 1 0
        [some ('R', 0), some ('W', 6), some ('I', 14)] = .ok (cd, d)
      ∧ run .S (2 ^ 2 : Nat) 1 1
        [some ('R', 0), some ('W', 6), some ('I', 14)] = .ok (cs, s)
      ∧ SameCache d s :=
  directMode_eq_oneWay 2 1 (by decide) _

end SchoolStuff.CamCache
