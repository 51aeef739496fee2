import SchoolStuff.Flip.Basic

/-!
# Flip — `mstoix` and the text it should write

With `-b` alone `mstoix` is a machine that holds a CR back until it sees the
next byte (`mstoix_b`). A CR that is held when another CR or the end of the
file comes is never written, so the file is converted as `flip.1` says exactly
if there is no such CR (`mstoix_unixText_iff`).
-/

namespace SchoolStuff.Flip

/-! ## The machine -/

/-- What is written for the bytes to come, a CR being held back or not. -/
def ixBytes : Bool → List UInt8 → List UInt8
  | _, [] => []
  | held, c :: s =>
    if c = LF then LF :: ixBytes false s
    else if c = CR then ixBytes true s
    else (if held then [CR] else []) ++
      (if c = CTRLZ ∧ s = [] then [] else c :: ixBytes false s)

section Machine

variable {held : Bool} {c : UInt8} {s : List UInt8}

@[simp] theorem ixBytes_nil : ixBytes held [] = [] := rfl

@[simp] theorem ixBytes_LF : ixBytes held (LF :: s) = LF :: ixBytes false s := by
  simp [ixBytes]

@[simp] theorem ixBytes_CR : ixBytes held (CR :: s) = ixBytes true s := by
  simp [ixBytes]

theorem ixBytes_other (hLF : c ≠ LF) (hCR : c ≠ CR) :
    ixBytes held (c :: s) = (if held then [CR] else []) ++
      (if c = CTRLZ ∧ s = [] then [] else c :: ixBytes false s) := by
  simp [ixBytes, hLF, hCR]

end Machine

/-- The inner loop leaves off at the end of the file or behind a control Z that
is not written yet. -/
theorem mstoixInner_b (state : State) (outfile infile : List UInt8) :
    ∃ at_, mstoixInner .b state outfile infile = .ok at_ ∧
      (at_.infile = [] →
        at_.outfile = outfile ++ ixBytes (decide (state = .SAWCR)) infile) ∧
      (at_.infile ≠ [] → at_.state = .SAWCTRLZ ∧
        at_.outfile ++ CTRLZ :: ixBytes false at_.infile =
          outfile ++ ixBytes (decide (state = .SAWCR)) infile) := by
  induction infile generalizing state outfile with
  | nil => exact ⟨_, rfl, fun _ => by simp, fun h => absurd rfl h⟩
  | cons c infile ih =>
      by_cases hLF : c = LF
      · subst hLF
        obtain ⟨at_, hrun, hend, hz⟩ :=
          ih (if state = .SAWCR then .NONE else state) (outfile ++ [LF])
        have hstate : decide ((if state = .SAWCR then State.NONE else state) =
            .SAWCR) = false := by
          by_cases h : state = .SAWCR <;> simp [h]
        rw [hstate] at hend hz
        exact ⟨at_, by simpa [mstoixInner] using hrun,
          by simpa using hend, by simpa using hz⟩
      · by_cases hCR : c = CR
        · subst hCR
          obtain ⟨at_, hrun, hend, hz⟩ := ih .SAWCR outfile
          exact ⟨at_, by simpa [mstoixInner] using hrun,
            by simpa using hend, by simpa using hz⟩
        · by_cases hZ : c = CTRLZ
          · subst hZ
            refine ⟨⟨.SAWCTRLZ, infile, if state = .SAWCR then outfile ++ [CR] else outfile⟩,
              by simp [mstoixInner], fun h => ?_, fun h => ⟨rfl, ?_⟩⟩
            · dsimp only at h
              by_cases hs : state = .SAWCR <;> simp [ixBytes_other, h, hs]
            · dsimp only at h
              by_cases hs : state = .SAWCR <;> simp [ixBytes_other, h, hs]
          · by_cases hs : state = .SAWCR
            · obtain ⟨at_, hrun, hend, hz⟩ := ih .NONE (outfile ++ [CR] ++ [c])
              exact ⟨at_, by simpa [mstoixInner, hLF, hCR, hZ, hs] using hrun,
                by simpa [ixBytes_other hLF hCR, hZ, hs] using hend,
                by simpa [ixBytes_other hLF hCR, hZ, hs] using hz⟩
            · obtain ⟨at_, hrun, hend, hz⟩ := ih state (outfile ++ [c])
              exact ⟨at_, by simpa [mstoixInner, hLF, hCR, hZ, hs] using hrun,
                by simpa [ixBytes_other hLF hCR, hZ, hs] using hend,
                by simpa [ixBytes_other hLF hCR, hZ, hs] using hz⟩

theorem mstoixOuter_b (state : State) (outfile infile : List UInt8) :
    mstoixOuter .b state outfile infile =
      .ok (outfile ++ ixBytes (decide (state = .SAWCR)) infile) := by
  obtain ⟨at_, hrun, hend, hz⟩ := mstoixInner_b state outfile infile
  rw [mstoixOuter]
  split
  · rename_i e herr
    rw [hrun] at herr
    cases herr
  · rename_i at' hok
    obtain rfl : at_ = at' := by simpa [hrun] using hok
    by_cases hstop : at_.infile = []
    · rw [dif_pos (.inr hstop), hend hstop]
    · have hlt := (mstoixInner_infile hrun).resolve_left hstop
      rw [dif_neg (by simp [hstop]), (hz hstop).1,
        mstoixOuter_b .SAWCTRLZ _ at_.infile, ← (hz hstop).2]
      simp
  termination_by infile.length

theorem mstoix_b (s : List UInt8) : mstoix .b s = .ok (ixBytes false s) := by
  simp [mstoix, mstoixOuter_b]

/-! ## The text -/

/-- What `-u` makes of a text: CR LF is LF, lone CR and LF are unchanged, a
trailing control Z is removed and an embedded one unchanged. -/
def unixText : List UInt8 → List UInt8
  | [] => []
  | c :: s =>
    if c = CR ∧ s.head? = some LF then unixText s
    else if c = CTRLZ ∧ s = [] then []
    else c :: unixText s

section Text

variable {c : UInt8}

@[simp] theorem unixText_LF (s : List UInt8) : unixText (LF :: s) = LF :: unixText s := by
  simp [unixText]

@[simp] theorem unixText_CR_LF (s : List UInt8) :
    unixText (CR :: LF :: s) = LF :: unixText s := by
  simp [unixText]

theorem unixText_CR_cons (hLF : c ≠ LF) (s : List UInt8) :
    unixText (CR :: c :: s) = CR :: unixText (c :: s) := by
  rw [unixText]
  simp [hLF]

theorem unixText_other (hCR : c ≠ CR) (s : List UInt8) :
    unixText (c :: s) = if c = CTRLZ ∧ s = [] then [] else c :: unixText s := by
  simp [unixText, hCR]

end Text

/-- Every CR has a byte behind it, and not a CR. -/
def CRsFollowed (s : List UInt8) : Prop :=
  ∀ a b, s = a ++ CR :: b → ∃ c b', b = c :: b' ∧ c ≠ CR

/-- How many CRs are held when a CR or the end comes. -/
def lostCRs : List UInt8 → Nat
  | [] => 0
  | c :: s => (if c = CR ∧ (s = [] ∨ s.head? = some CR) then 1 else 0) + lostCRs s

theorem lostCRs_other {c : UInt8} (hCR : c ≠ CR) (s : List UInt8) :
    lostCRs (c :: s) = lostCRs s := by
  simp [lostCRs, hCR]

theorem lostCRs_CR_cons {c : UInt8} (hCR : c ≠ CR) (s : List UInt8) :
    lostCRs (CR :: c :: s) = lostCRs s := by
  simp [lostCRs, hCR]

theorem lostCRs_CR_CR (s : List UInt8) :
    lostCRs (CR :: CR :: s) = 1 + lostCRs (CR :: s) := by
  simp [lostCRs]

theorem lostCRs_eq_zero_iff (s : List UInt8) : lostCRs s = 0 ↔ CRsFollowed s := by
  induction s with
  | nil => simp [lostCRs, CRsFollowed]
  | cons c s ih =>
      have hcons : CRsFollowed (c :: s) ↔
          (c = CR → ∃ d s', s = d :: s' ∧ d ≠ CR) ∧ CRsFollowed s := by
        constructor
        · intro h
          exact ⟨fun hc => h [] s (by simp [hc]), fun a b hs => h (c :: a) b (by simp [hs])⟩
        · intro ⟨hc, h⟩ a b hs
          cases a with
          | nil =>
              obtain ⟨rfl, rfl⟩ : c = CR ∧ s = b := by simpa using hs
              exact hc rfl
          | cons a as =>
              obtain ⟨-, hs⟩ : c = a ∧ s = as ++ CR :: b := by simpa using hs
              exact h as b hs
      rw [hcons, ← ih]
      cases s <;> simp [lostCRs]

/-- The text before a byte, as the machine has it: with the CR it holds. -/
def withHeld (held : Bool) (s : List UInt8) : List UInt8 :=
  if held then CR :: s else s

/-- A machine that loses nothing writes the text, and else a shorter one. -/
theorem ixBytes_unixText (held : Bool) (s : List UInt8) :
    (ixBytes held s).length + lostCRs (withHeld held s) =
        (unixText (withHeld held s)).length ∧
      (lostCRs (withHeld held s) = 0 → ixBytes held s = unixText (withHeld held s)) := by
  induction s generalizing held with
  | nil => cases held <;> simp [withHeld, lostCRs, unixText]
  | cons c s ih =>
      by_cases hCR : c = CR
      · obtain ⟨hlen, heq⟩ := ih true
        subst hCR
        cases held with
        | false => simpa [withHeld] using ⟨hlen, heq⟩
        | true =>
            simp only [withHeld, if_true, ixBytes_CR] at hlen ⊢
            rw [lostCRs_CR_CR, unixText_CR_cons (by simp), List.length_cons]
            exact ⟨by omega, by omega⟩
      · obtain ⟨hlen, heq⟩ := ih false
        simp only [withHeld, Bool.false_eq_true, if_false] at hlen heq
        have hlost : lostCRs (withHeld held (c :: s)) = lostCRs s := by
          cases held <;> simp [withHeld, lostCRs_other, lostCRs_CR_cons, hCR]
        rw [hlost]
        by_cases hLF : c = LF
        · subst hLF
          have htext : unixText (withHeld held (LF :: s)) = LF :: unixText s := by
            cases held <;> simp [withHeld]
          rw [htext, ixBytes_LF, List.length_cons, List.length_cons]
          exact ⟨by omega, fun h => by rw [heq h]⟩
        · have htext : unixText (withHeld held (c :: s)) =
              (if held then [CR] else []) ++
                (if c = CTRLZ ∧ s = [] then [] else c :: unixText s) := by
            cases held <;> simp [withHeld, unixText_CR_cons, unixText_other, hCR, hLF]
          rw [htext, ixBytes_other hLF hCR]
          by_cases hZ : c = CTRLZ ∧ s = []
          · simp [hZ, lostCRs]
          · simp only [if_neg hZ, List.length_append, List.length_cons]
            exact ⟨by omega, fun h => by rw [heq h]⟩

theorem ixBytes_of_CRsFollowed {s : List UInt8} (h : CRsFollowed s) :
    ixBytes false s = unixText s :=
  (ixBytes_unixText false s).2 ((lostCRs_eq_zero_iff s).2 h)

/-- `mstoix` writes what `-u` promises just when it loses no CR. -/
theorem mstoix_unixText_iff (s : List UInt8) :
    mstoix .b s = .ok (unixText s) ↔ CRsFollowed s := by
  rw [mstoix_b, Except.ok.injEq]
  constructor
  · intro h
    have hlen := (ixBytes_unixText false s).1
    simp only [withHeld, Bool.false_eq_true, if_false, h] at hlen
    exact (lostCRs_eq_zero_iff s).1 (by omega)
  · exact ixBytes_of_CRsFollowed

/-- A file whose only byte is a CR becomes empty. -/
theorem mstoix_loses_CR :
    ¬ ∀ s, mstoix .b s = .ok (unixText s) := by
  intro h
  have hone := h [CR]
  rw [mstoix_b, Except.ok.injEq] at hone
  exact absurd hone (by decide)

end SchoolStuff.Flip
