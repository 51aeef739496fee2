import Mathlib.Data.List.Chain
import SchoolStuff.Flip.Unix

/-!
# Flip — one conversion after another

`ixtoms` leaves alone what it has written (`ixtoms_ixtoms`), and `mstoix`
takes back what `ixtoms` has made of a text without CRs
(`mstoix_ixtoms`). What `mstoix` has written may again end in a control Z, or
in a CR, and then a second conversion is not the first one; where it does not,
nothing changes any more.
-/

namespace SchoolStuff.Flip

/-! ## The machine of `ixtoms` -/

/-- What is written for the bytes to come, behind a CR or not. -/
def msBytes : Bool → List UInt8 → List UInt8
  | _, [] => []
  | sawCR, c :: s =>
    if c = LF then (if sawCR then [] else [CR]) ++ LF :: msBytes false s
    else c :: msBytes (decide (c = CR)) s

section Machine

variable {sawCR : Bool} {c : UInt8} {s : List UInt8}

@[simp] theorem msBytes_nil : msBytes sawCR [] = [] := rfl

@[simp] theorem msBytes_LF : msBytes sawCR (LF :: s) =
    (if sawCR then [] else [CR]) ++ LF :: msBytes false s := by
  simp [msBytes]

@[simp] theorem msBytes_other (hLF : c ≠ LF) :
    msBytes sawCR (c :: s) = c :: msBytes (decide (c = CR)) s := by
  simp [msBytes, hLF]

@[simp] theorem msBytes_eq_nil : msBytes sawCR s = [] ↔ s = [] := by
  cases s with
  | nil => simp
  | cons c s => by_cases hLF : c = LF <;> simp [msBytes, hLF]

end Machine

theorem ixtomsLoop_b (state : State) (outfile infile : List UInt8) :
    ixtomsLoop .b state outfile infile =
      .ok (outfile ++ msBytes (decide (state = .SAWCR)) infile) := by
  induction infile generalizing state outfile with
  | nil => simp [ixtomsLoop]
  | cons c infile ih =>
      by_cases hLF : c = LF
      · by_cases hs : state = .SAWCR <;>
          simp [ixtomsLoop, hLF, hs, ih]
      · by_cases hCR : c = CR <;>
          simp [ixtomsLoop, hLF, hCR, ih]

theorem ixtoms_b (s : List UInt8) : ixtoms .b s = .ok (msBytes false s) := by
  simp [ixtoms, ixtomsLoop_b]

theorem msBytes_msBytes (sawCR : Bool) (s : List UInt8) :
    msBytes sawCR (msBytes sawCR s) = msBytes sawCR s := by
  induction s generalizing sawCR with
  | nil => rfl
  | cons c s ih =>
      by_cases hLF : c = LF
      · cases sawCR <;> simp [hLF, ih]
      · simp [hLF, ih]

/-- Every LF has its CR, and loses it again. -/
theorem ixBytes_msBytes {s : List UInt8} (hCR : CR ∉ s) (hZ : s.getLast? ≠ some CTRLZ) :
    ixBytes false (msBytes false s) = s := by
  induction s with
  | nil => rfl
  | cons c s ih =>
      have hs : ixBytes false (msBytes false s) = s := by
        cases s with
        | nil => rfl
        | cons d s =>
            exact ih (fun h => hCR (List.mem_cons_of_mem c h)) (by simpa using hZ)
      have hcCR : c ≠ CR := fun h => hCR (by simp [h])
      by_cases hLF : c = LF
      · simp [hLF, hs]
      · have hend : ¬ (c = CTRLZ ∧ s = []) := fun ⟨hc, hnil⟩ => hZ (by simp [hc, hnil])
        simp [hLF, hcCR, ixBytes_other, hs, hend]

/-! ## What `mstoix` has written -/

/-- A byte may stand behind another: a CR has neither CR nor LF behind it. -/
def Behind (c d : UInt8) : Prop := c = CR → d ≠ CR ∧ d ≠ LF

theorem isChain_cons_of_ne {c : UInt8} {s : List UInt8} (hCR : c ≠ CR)
    (h : s.IsChain Behind) : (c :: s).IsChain Behind := by
  cases s with
  | nil => exact .singleton c
  | cons d s => exact List.isChain_cons_cons.2 ⟨fun hc => absurd hc hCR, h⟩

theorem ixBytes_isChain (held : Bool) (s : List UInt8) :
    (ixBytes held s).IsChain Behind := by
  induction s generalizing held with
  | nil => exact .nil
  | cons c s ih =>
      by_cases hCR : c = CR
      · subst hCR
        simpa using ih true
      · by_cases hLF : c = LF
        · subst hLF
          simpa using isChain_cons_of_ne (by simp) (ih false)
        · rw [ixBytes_other hLF hCR]
          by_cases hZ : c = CTRLZ ∧ s = []
          · cases held <;> simp [hZ]
          · have hc := isChain_cons_of_ne hCR (ih false)
            cases held with
            | false => simpa [hZ] using hc
            | true =>
                simp only [if_true, if_neg hZ, List.singleton_append]
                exact List.isChain_cons_cons.2 ⟨fun _ => ⟨hCR, hLF⟩, hc⟩

theorem CRsFollowed_of_isChain {s : List UInt8} (h : s.IsChain Behind)
    (hlast : s.getLast? ≠ some CR) : CRsFollowed s := by
  intro a b hs
  subst hs
  cases b with
  | nil => simp at hlast
  | cons c b =>
      have hpair := (List.isChain_append_cons_cons.1 h).2.1
      exact ⟨c, b, rfl, (hpair rfl).1⟩

/-- Such a text is only the shorter by a trailing control Z. -/
theorem unixText_of_isChain {s : List UInt8} (h : s.IsChain Behind) :
    unixText s = if s.getLast? = some CTRLZ then s.dropLast else s := by
  induction s with
  | nil => simp [unixText]
  | cons c s ih =>
      cases s with
      | nil => by_cases hZ : c = CTRLZ <;> simp [unixText, hZ]
      | cons d s =>
          obtain ⟨hcd, hs⟩ := List.isChain_cons_cons.1 h
          have hno : ¬ (c = CR ∧ d = LF) := fun hcr => (hcd hcr.1).2 hcr.2
          rw [unixText, ih hs]
          by_cases hZ : (d :: s).getLast? = some CTRLZ <;> simp [hno, hZ]

theorem ixBytes_ixBytes {held : Bool} {s : List UInt8}
    (h : (ixBytes held s).getLast? ≠ some CR) :
    ixBytes false (ixBytes held s) =
      if (ixBytes held s).getLast? = some CTRLZ then (ixBytes held s).dropLast
      else ixBytes held s := by
  have hchain := ixBytes_isChain held s
  rw [ixBytes_of_CRsFollowed (CRsFollowed_of_isChain hchain h), unixText_of_isChain hchain]

/-! ## How it ends -/

theorem ixBytes_eq_nil {s : List UInt8} (h : ixBytes false s = []) :
    s = [CTRLZ] ∨ ∃ n, s = List.replicate n CR := by
  have hheld : ∀ {s : List UInt8}, ixBytes true s = [] → ∃ n, s = List.replicate n CR := by
    intro s
    induction s with
    | nil => exact fun _ => ⟨0, rfl⟩
    | cons c s ih =>
        intro h
        by_cases hCR : c = CR
        · subst hCR
          obtain ⟨n, hn⟩ := ih (by simpa using h)
          exact ⟨n + 1, by rw [hn, List.replicate_succ]⟩
        · by_cases hLF : c = LF
          · simp [hLF] at h
          · simp [ixBytes_other hLF hCR] at h
  cases s with
  | nil => exact .inr ⟨0, rfl⟩
  | cons c s =>
      by_cases hCR : c = CR
      · subst hCR
        obtain ⟨n, hn⟩ := hheld (by simpa using h)
        exact .inr ⟨n + 1, by rw [hn, List.replicate_succ]⟩
      · by_cases hLF : c = LF
        · simp [hLF] at h
        · exact .inl (by simpa [ixBytes_other hLF hCR] using h)

/-- A CR is written last when the control Z behind it is removed. -/
theorem ixBytes_getLast_CR {held : Bool} {s : List UInt8}
    (h : (ixBytes held s).getLast? = some CR) :
    (held = true ∧ s = [CTRLZ]) ∨ [CR, CTRLZ] <:+ s := by
  induction s generalizing held with
  | nil => simp at h
  | cons c s ih =>
      by_cases hCR : c = CR
      · subst hCR
        cases ih (by simpa using h) with
        | inl hs => exact .inr (by simp [hs.2])
        | inr hs => exact .inr (hs.trans (List.suffix_cons _ _))
      · have hnext (hlast : (ixBytes false s).getLast? = some CR) :
            [CR, CTRLZ] <:+ c :: s := by
          have hs := (ih hlast).resolve_left (by simp)
          exact hs.trans (List.suffix_cons _ _)
        by_cases hLF : c = LF
        · subst hLF
          refine .inr (hnext ?_)
          cases hs : ixBytes false s with
          | nil => simp [hs] at h
          | cons d t => simpa [hs] using h
        · rw [ixBytes_other hLF hCR] at h
          by_cases hZ : c = CTRLZ ∧ s = []
          · cases held with
            | false => simp [hZ] at h
            | true => exact .inl ⟨rfl, by simp [hZ]⟩
          · refine .inr (hnext ?_)
            rw [if_neg hZ] at h
            cases hs : ixBytes false s with
            | nil => simp [hs, hCR] at h
            | cons d t => simpa [hs] using h

/-- A control Z is written last when the one behind it is removed, or when the
CRs behind it are lost. -/
theorem ixBytes_getLast_CTRLZ {held : Bool} {s : List UInt8}
    (h : (ixBytes held s).getLast? = some CTRLZ) :
    [CTRLZ, CTRLZ] <:+ s ∨ ∃ n, CTRLZ :: List.replicate (n + 1) CR <:+ s := by
  induction s generalizing held with
  | nil => simp at h
  | cons c s ih =>
      have hnext (held : Bool) (hlast : (ixBytes held s).getLast? = some CTRLZ) :
          [CTRLZ, CTRLZ] <:+ c :: s ∨
            ∃ n, CTRLZ :: List.replicate (n + 1) CR <:+ c :: s := by
        cases ih hlast with
        | inl hs => exact .inl (hs.trans (List.suffix_cons _ _))
        | inr hs =>
            obtain ⟨n, hs⟩ := hs
            exact .inr ⟨n, hs.trans (List.suffix_cons _ _)⟩
      by_cases hCR : c = CR
      · subst hCR
        exact hnext true (by simpa using h)
      · by_cases hLF : c = LF
        · subst hLF
          refine hnext false ?_
          cases hs : ixBytes false s with
          | nil => simp [hs] at h
          | cons d t => simpa [hs] using h
        · rw [ixBytes_other hLF hCR] at h
          by_cases hZ : c = CTRLZ ∧ s = []
          · cases held <;> simp [hZ] at h
          · rw [if_neg hZ] at h
            cases hs : ixBytes false s with
            | cons d t => exact hnext false (by simpa [hs] using h)
            | nil =>
                obtain rfl : c = CTRLZ := by simpa [hs] using h
                cases ixBytes_eq_nil hs with
                | inl hs => exact .inl (by simp [hs])
                | inr hs =>
                    obtain ⟨n, rfl⟩ := hs
                    cases n with
                    | zero => simp at hZ
                    | succ n => exact .inr ⟨n, List.suffix_rfl⟩

theorem ixBytes_getLast_of_suffix {s : List UInt8} (h : [CTRLZ, CTRLZ] <:+ s) :
    (ixBytes false s).getLast? = some CTRLZ := by
  obtain ⟨r, rfl⟩ := h
  suffices ∀ held, (ixBytes held (r ++ [CTRLZ, CTRLZ])).getLast? = some CTRLZ from this false
  induction r with
  | nil => intro held; cases held <;> simp [ixBytes]
  | cons c r ih =>
      intro held
      have hend : ¬ (c = CTRLZ ∧ r ++ [CTRLZ, CTRLZ] = []) := by simp
      by_cases hCR : c = CR
      · simpa [hCR] using ih true
      · by_cases hLF : c = LF
        · simp [hLF, List.getLast?_cons, ih false]
        · rw [List.cons_append, ixBytes_other hLF hCR, if_neg hend]
          simp [List.getLast?_cons, ih false]

/-! ## Converting twice -/

/-- `ixtoms` leaves its own text alone, and so does `mstoix` if no control Z
comes last again and no CR is left over; of two control Zs at the end a second
conversion removes the other one. -/
theorem convert_again (s : List UInt8) :
    (∃ t, ixtoms .b s = .ok t ∧ ixtoms .b t = .ok t) ∧
    (¬ [CTRLZ, CTRLZ] <:+ s → ¬ [CR, CTRLZ] <:+ s →
      (∀ n, ¬ CTRLZ :: List.replicate (n + 1) CR <:+ s) →
      ∃ t, mstoix .b s = .ok t ∧ mstoix .b t = .ok t) ∧
    ([CTRLZ, CTRLZ] <:+ s →
      ∃ t, mstoix .b s = .ok (t ++ [CTRLZ]) ∧ mstoix .b (t ++ [CTRLZ]) = .ok t) := by
  refine ⟨⟨msBytes false s, ixtoms_b s, ?_⟩, fun hZZ hCRZ hZCR => ⟨ixBytes false s, mstoix_b s, ?_⟩,
    fun hZZ => ?_⟩
  · rw [ixtoms_b, msBytes_msBytes]
  · have hCR : (ixBytes false s).getLast? ≠ some CR := fun h =>
      hCRZ ((ixBytes_getLast_CR h).resolve_left (by simp))
    have hZ : (ixBytes false s).getLast? ≠ some CTRLZ := fun h =>
      (ixBytes_getLast_CTRLZ h).elim hZZ fun ⟨n, hn⟩ => hZCR n hn
    rw [mstoix_b, ixBytes_ixBytes hCR, if_neg hZ]
  · have hZ := ixBytes_getLast_of_suffix hZZ
    have hsplit : (ixBytes false s).dropLast ++ [CTRLZ] = ixBytes false s :=
      List.dropLast_append_getLast? CTRLZ hZ
    refine ⟨(ixBytes false s).dropLast, ?_, ?_⟩
    · rw [hsplit, mstoix_b]
    · rw [hsplit, mstoix_b, ixBytes_ixBytes (by simp [hZ]), if_pos hZ]

/-- CR LF and a control Z: the text is settled after one conversion. -/
theorem convert_again_line : ∃ t, mstoix .b [65, CR, LF, CTRLZ] = .ok t ∧ mstoix .b t = .ok t := by
  refine (convert_again [65, CR, LF, CTRLZ]).2.1 (by decide) (by decide) fun n h => ?_
  have hlast := h.getLast (List.cons_ne_nil _ _)
  simp [List.getLast_cons, List.getLast_replicate] at hlast

/-- Two control Zs are one, and then none. -/
theorem mstoix_again_differs :
    ¬ ∀ s t, mstoix .b s = .ok t → mstoix .b t = .ok t := by
  intro h
  have htwo := h [CTRLZ, CTRLZ] [CTRLZ] (by rw [mstoix_b]; decide)
  rw [mstoix_b] at htwo
  exact absurd htwo (by decide)

/-- There and back. -/
theorem mstoix_ixtoms {s : List UInt8} (hCR : CR ∉ s) (hZ : s.getLast? ≠ some CTRLZ) :
    ∃ t, ixtoms .b s = .ok t ∧ mstoix .b t = .ok s := by
  refine ⟨msBytes false s, ixtoms_b s, ?_⟩
  rw [mstoix_b, ixBytes_msBytes hCR hZ]

/-- An embedded control Z and an LF. -/
theorem mstoix_ixtoms_embedded : CR ∉ [CTRLZ, LF, 65] ∧
    ∃ t, ixtoms .b [CTRLZ, LF, 65] = .ok t ∧ mstoix .b t = .ok [CTRLZ, LF, 65] :=
  ⟨by decide, mstoix_ixtoms (by decide) (by decide)⟩

end SchoolStuff.Flip
