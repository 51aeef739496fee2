import Mathlib.Tactic.Common

/-!
# Flip — newlines from MS-DOS and to it (`cs350/cs350-18f-lab2-base/flip.c`)

A file is the list of its bytes. `mstoix` and `ixtoms` read `infile` to its
end and write `outfile`, unless they meet a binary character. No signal comes
in between, and `CHECK_BREAK` is empty.
-/

namespace SchoolStuff.Flip

def LF : UInt8 := 10
def CR : UInt8 := 13
def CTRLZ : UInt8 := 26

@[simp] theorem controls_ne : LF ≠ CR ∧ LF ≠ CTRLZ ∧ CR ≠ LF ∧ CR ≠ CTRLZ ∧
    CTRLZ ≠ LF ∧ CTRLZ ≠ CR := by decide

/-- How to strip the high bit. -/
def STRIP (c : UInt8) : UInt8 := c &&& 0x7f

/-- The table of binary characters that `main` fills. -/
def bintab (c : UInt8) : Bool := c < 7 || (13 < c && c < 26) || 126 < c

/-- The states that a conversion is ever in. -/
inductive State where
  | NONE | SAWCR | SAWCTRLZ
  deriving DecidableEq, Repr

inductive Error where
  | ERRBINF
  deriving DecidableEq, Repr

/-- The switches that a conversion looks at: `-s`, `-b` and `-z`. -/
structure Switches where
  strip : Bool
  bintoo : Bool
  ztrunc : Bool

/-- `-b` and nothing else. -/
def Switches.b : Switches := { strip := false, bintoo := true, ztrunc := false }

@[simp] theorem b_switches : Switches.b.strip = false ∧
    Switches.b.bintoo = true ∧ Switches.b.ztrunc = false := ⟨rfl, rfl, rfl⟩

/-! ## From MS-DOS -/

/-- Where `mstoix` is at `saweof`. -/
structure Saweof where
  state : State
  infile : List UInt8
  outfile : List UInt8

/-- The inner loop of `mstoix`, up to `saweof`. -/
def mstoixInner (sw : Switches) :
    State → List UInt8 → List UInt8 → Except Error Saweof
  | state, outfile, [] => .ok ⟨state, [], outfile⟩
  | state, outfile, byte :: infile =>
    if !sw.bintoo && bintab byte then .error .ERRBINF
    else
      let c := if sw.strip then STRIP byte else byte
      if c = LF then
        mstoixInner sw (if state = .SAWCR then .NONE else state) (outfile ++ [c]) infile
      else if c = CR then mstoixInner sw .SAWCR outfile infile
      else if c = CTRLZ then
        .ok ⟨.SAWCTRLZ, infile, if state = .SAWCR then outfile ++ [CR] else outfile⟩
      else if state = .SAWCR then
        mstoixInner sw .NONE (outfile ++ [CR] ++ [c]) infile
      else mstoixInner sw state (outfile ++ [c]) infile

/-- `saweof` is reached at the end of the file or after a control Z. -/
theorem mstoixInner_infile {sw : Switches} {state : State}
    {outfile infile : List UInt8} {at_ : Saweof}
    (h : mstoixInner sw state outfile infile = .ok at_) :
    at_.infile = [] ∨ at_.infile.length < infile.length := by
  induction infile generalizing state outfile with
  | nil =>
      simp only [mstoixInner, Except.ok.injEq] at h
      exact .inl (by rw [← h])
  | cons byte infile ih =>
      have hlt {st : State} {out : List UInt8}
          (h : mstoixInner sw st out infile = .ok at_) :
          at_.infile = [] ∨ at_.infile.length < (byte :: infile).length := by
        cases ih h with
        | inl h => exact .inl h
        | inr h => exact .inr (Nat.lt_succ_of_lt h)
      simp only [mstoixInner] at h
      generalize (if sw.strip then STRIP byte else byte) = c at h
      split at h
      · cases h
      · split at h
        · exact hlt h
        · split at h
          · exact hlt h
          · split at h
            · simp only [Except.ok.injEq] at h
              exact .inr (by simp [← h])
            · split at h
              · exact hlt h
              · exact hlt h

/-- The outer loop of `mstoix`. The byte that `getc` finds at `saweof` is put
back. -/
def mstoixOuter (sw : Switches) (state : State) (outfile infile : List UInt8) :
    Except Error (List UInt8) :=
  match _h : mstoixInner sw state outfile infile with
  | .error e => .error e
  | .ok at_ =>
    if _hstop : (sw.ztrunc ∧ at_.state = .SAWCTRLZ) ∨ at_.infile = [] then
      .ok at_.outfile
    else
      mstoixOuter sw at_.state
        (if at_.state = .SAWCTRLZ then at_.outfile ++ [CTRLZ] else at_.outfile)
        at_.infile
  termination_by infile.length
  decreasing_by
    exact (mstoixInner_infile _h).resolve_left fun hnil => _hstop (.inr hnil)

def mstoix (sw : Switches) (infile : List UInt8) : Except Error (List UInt8) :=
  mstoixOuter sw .NONE [] infile

/-! ## To MS-DOS -/

def ixtomsLoop (sw : Switches) :
    State → List UInt8 → List UInt8 → Except Error (List UInt8)
  | _, outfile, [] => .ok outfile
  | state, outfile, byte :: infile =>
    if !sw.bintoo && bintab byte then .error .ERRBINF
    else
      let c := if sw.strip then STRIP byte else byte
      if c = LF then
        if state = .SAWCR then ixtomsLoop sw .NONE (outfile ++ [LF]) infile
        else ixtomsLoop sw state (outfile ++ [CR] ++ [LF]) infile
      else if c = CR then ixtomsLoop sw .SAWCR (outfile ++ [c]) infile
      else if c = CTRLZ ∧ sw.ztrunc then .ok outfile
      else ixtomsLoop sw .NONE (outfile ++ [c]) infile

def ixtoms (sw : Switches) (infile : List UInt8) : Except Error (List UInt8) :=
  ixtomsLoop sw .NONE [] infile

end SchoolStuff.Flip
