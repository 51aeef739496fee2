import SchoolStuff.Lib.Loop
import SchoolStuff.Lib.Ring
import Mathlib.Algebra.Order.Ring.Nat
import Mathlib.Logic.Function.Basic

/-!
# Console — typed input (`console.c`)

`consoleintr` edits the line that is being typed, in a ring with three counters
that wrap, and `consoleread` takes from the lines that are finished. A call
holds the lock of the console from its start, or from where it is woken, up to
where it sleeps or returns: that is one step here. `Tty` is the same terminal
without the ring: two lists.
-/

namespace SchoolStuff.Xv6.Console

abbrev INPUT_BUF : Nat := 128

instance : NeZero INPUT_BUF := ⟨Nat.succ_ne_zero 127⟩

/-- `C(x)`. -/
def ctrl (x : Char) : UInt8 := UInt8.ofNat (x.toNat - '@'.toNat)

def newline : UInt8 := 10

def eof : UInt8 := ctrl 'D'

/-- What `consputc` is called with. -/
inductive Echo where
  | backspace
  | char (c : UInt8)
  deriving DecidableEq

/-! ## The ring -/

/-- `input`. -/
structure Input where
  buf : Fin INPUT_BUF → UInt8
  /-- read index -/
  r : UInt32
  /-- write index -/
  w : UInt32
  /-- edit index -/
  e : UInt32

namespace Input

/-- `input.buf[k % INPUT_BUF]`. -/
def get (s : Input) (k : UInt32) : UInt8 := s.buf (Fin.ofNat INPUT_BUF k.toNat)

/-- One turn of the loop of C('U'), and the body of C('H'). -/
def erase : Input × List Echo → Input × List Echo
  | (s, out) => ({ s with e := s.e - 1 }, out ++ [.backspace])

/-- C('U'). -/
def killLine (s : Input) : Option (Input × List Echo) :=
  Loop.run (fun x => x.1.e ≠ x.1.w && x.1.get (x.1.e - 1) ≠ newline) (fun x => some (erase x))
    INPUT_BUF (s, [])

/-- `default`: the character is stored if there is room, and whether readers are
woken. -/
def store (s : Input) (c : UInt8) : Input × List Echo × Bool :=
  if c ≠ 0 ∧ s.e - s.r < UInt32.ofNat INPUT_BUF then
    let c := if c = 13 then newline else c
    let s := { s with
      buf := Function.update s.buf (Fin.ofNat INPUT_BUF s.e.toNat) c
      e := s.e + 1 }
    if c = newline ∨ c = eof ∨ s.e = s.r + UInt32.ofNat INPUT_BUF then
      ({ s with w := s.e }, [.char c], true)
    else (s, [.char c], false)
  else (s, [], false)

/-- The `switch` of `consoleintr`, without the process listing. -/
def key (s : Input) (c : UInt8) : Option (Input × List Echo × Bool) :=
  if c = ctrl 'P' then some (s, [], false)
  else if c = ctrl 'U' then s.killLine.map fun (s, out) => (s, out, false)
  else if c = ctrl 'H' ∨ c = 127 then
    if s.e ≠ s.w then
      let (s, out) := erase (s, [])
      some (s, out, false)
    else some (s, [], false)
  else some (s.store c)

end Input

/-- How the loop of `consoleread` is left. -/
inductive Stop where
  | done
  | empty
  deriving DecidableEq

/-- The loop of `consoleread` with `n` bytes to go, up to where there is no input:
the bytes that are copied. -/
def Input.read (target : Nat) : Nat → Input → List UInt8 × Stop × Input
  | 0, s => ([], .done, s)
  | n + 1, s =>
      if s.r = s.w then ([], .empty, s)
      else
        let c := s.get s.r
        let s := { s with r := s.r + 1 }
        if c = eof then
          -- C('D') is kept if there are bytes to return
          if n + 1 < target then ([], .done, { s with r := s.r - 1 }) else ([], .done, s)
        else if c = newline then ([c], .done, s)
        else
          let (cs, stop, s) := read target n s
          (c :: cs, stop, s)

/-! ## Two lists -/

/-- A terminal: the input that can be read, and the line that is being typed. -/
structure Tty where
  ready : List UInt8
  line : List UInt8

namespace Tty

def store (t : Tty) (c : UInt8) : Tty × List Echo × Bool :=
  if c ≠ 0 ∧ t.ready.length + t.line.length < INPUT_BUF then
    let c := if c = 13 then newline else c
    let line := t.line ++ [c]
    if c = newline ∨ c = eof ∨ t.ready.length + line.length = INPUT_BUF then
      (⟨t.ready ++ line, []⟩, [.char c], true)
    else (⟨t.ready, line⟩, [.char c], false)
  else (t, [], false)

def key (t : Tty) (c : UInt8) : Tty × List Echo × Bool :=
  if c = ctrl 'P' then (t, [], false)
  else if c = ctrl 'U' then
    (⟨t.ready, []⟩, List.replicate t.line.length .backspace, false)
  else if c = ctrl 'H' ∨ c = 127 then
    if t.line ≠ [] then (⟨t.ready, t.line.dropLast⟩, [.backspace], false) else (t, [], false)
  else t.store c

def read (target : Nat) : Nat → Tty → List UInt8 × Stop × Tty
  | 0, t => ([], .done, t)
  | _ + 1, ⟨[], line⟩ => ([], .empty, ⟨[], line⟩)
  | n + 1, ⟨c :: cs, line⟩ =>
      if c = eof then
        if n + 1 < target then ([], .done, ⟨c :: cs, line⟩) else ([], .done, ⟨cs, line⟩)
      else if c = newline then ([c], .done, ⟨cs, line⟩)
      else
        let (bytes, stop, t) := read target n ⟨cs, line⟩
        (c :: bytes, stop, t)

end Tty

/-! ## The ring has the two lists -/

namespace Input

variable {s s' : Input} {t t' : Tty} {i : Nat} {out : List Echo}

/-- The ring has the lists of `t`, from character `i` of all that were typed on. -/
structure Is (s : Input) (t : Tty) (i : Nat) : Prop where
  r : s.r = UInt32.ofNat i
  w : s.w = UInt32.ofNat (i + t.ready.length)
  e : s.e = UInt32.ofNat (i + t.ready.length + t.line.length)
  room : t.ready.length + t.line.length ≤ INPUT_BUF
  kept : ∀ k, k < t.ready.length + t.line.length →
    (t.ready ++ t.line)[k]? = some (s.buf (Fin.ofNat INPUT_BUF (i + k)))
  /-- they only end a line -/
  editing : newline ∉ t.line ∧ eof ∉ t.line

theorem index_wrapped (k : Nat) :
    Fin.ofNat INPUT_BUF (UInt32.ofNat k).toNat = Fin.ofNat INPUT_BUF k := by
  apply Fin.ext
  rw [Fin.val_ofNat, Fin.val_ofNat, UInt32.toNat_ofNat']
  exact Nat.mod_mod_of_dvd k (by decide)

theorem get_ofNat (s : Input) (k : Nat) :
    s.get (UInt32.ofNat k) = s.buf (Fin.ofNat INPUT_BUF k) := by
  rw [get, index_wrapped]

theorem ofNat_eq_iff {a b : Nat} (hab : a ≤ b) (hb : b ≤ a + INPUT_BUF) :
    UInt32.ofNat a = UInt32.ofNat b ↔ a = b := by
  have hsize : INPUT_BUF < 2 ^ 32 := by decide
  rw [← UInt32.toNat_inj, UInt32.toNat_ofNat', UInt32.toNat_ofNat']
  exact Ring.wrap_eq_iff hab (by omega)

theorem ofNat_succ_sub (k : Nat) : UInt32.ofNat (k + 1) - 1 = UInt32.ofNat k := by
  rw [UInt32.ofNat_add]
  exact UInt32.add_sub_cancel _ _

theorem Is.line_empty_iff (h : s.Is t i) : s.e = s.w ↔ t.line = [] := by
  have hroom := h.room
  rw [h.e, h.w, eq_comm, ofNat_eq_iff (by omega) (by omega), ← List.length_eq_zero_iff]
  omega

theorem Is.ready_empty_iff (h : s.Is t i) : s.r = s.w ↔ t.ready = [] := by
  have hroom := h.room
  rw [h.r, h.w, ofNat_eq_iff (by omega) (by omega), ← List.length_eq_zero_iff]
  omega

theorem Is.count (h : s.Is t i) :
    s.e - s.r = UInt32.ofNat (t.ready.length + t.line.length) := by
  rw [h.e, h.r, Nat.add_assoc, ← UInt32.ofNat_sub (Nat.le_add_right ..), Nat.add_sub_cancel_left]

theorem Is.room_iff (h : s.Is t i) :
    s.e - s.r < UInt32.ofNat INPUT_BUF ↔ t.ready.length + t.line.length < INPUT_BUF := by
  have hroom := h.room
  have hsize : INPUT_BUF < 2 ^ 32 := by decide
  rw [h.count, UInt32.lt_iff_toNat_lt, UInt32.toNat_ofNat', UInt32.toNat_ofNat',
    Nat.mod_eq_of_lt (by omega), Nat.mod_eq_of_lt hsize]

/-! ### Editing -/

/-- The last character is erased. -/
theorem Is.erase (h : s.Is t i) (out : List Echo) (hline : t.line ≠ []) :
    (Input.erase (s, out)).1.Is ⟨t.ready, t.line.dropLast⟩ i := by
  have hlen := List.length_pos_iff.2 hline
  have hdrop : t.line.dropLast.length = t.line.length - 1 := List.length_dropLast
  refine ⟨h.r, h.w, ?_, ?_, fun k hk => ?_, ?_⟩
  · obtain ⟨n, hn⟩ := Nat.exists_eq_add_one_of_ne_zero (Nat.ne_of_gt hlen)
    show s.e - 1 = UInt32.ofNat (i + t.ready.length + t.line.dropLast.length)
    rw [h.e, hdrop, hn, ← Nat.add_assoc, ofNat_succ_sub]
    rfl
  · have hroom := h.room
    simp only [hdrop]
    omega
  · simp only [hdrop] at hk ⊢
    rw [← List.dropLast_append_of_ne_nil hline, List.dropLast_eq_take, List.getElem?_take,
      if_pos (by rw [List.length_append]; omega)]
    exact h.kept k (by omega)
  · exact ⟨fun hmem => h.editing.1 ((List.dropLast_sublist _).subset hmem),
      fun hmem => h.editing.2 ((List.dropLast_sublist _).subset hmem)⟩

/-- The character that C('U') looks at is no newline. -/
theorem Is.get_last (h : s.Is t i) (hline : t.line ≠ []) : s.get (s.e - 1) ≠ newline := by
  have hlen := List.length_pos_iff.2 hline
  obtain ⟨n, hn⟩ := Nat.exists_eq_add_one_of_ne_zero (Nat.ne_of_gt hlen)
  have hlast := h.kept (t.ready.length + n) (by omega)
  rw [List.getElem?_append_right (by omega)] at hlast
  have hmem := List.mem_of_getElem? hlast
  rw [h.e, hn, ← Nat.add_assoc, ofNat_succ_sub, get_ofNat, Nat.add_assoc]
  exact fun heq => h.editing.1 (heq ▸ hmem)

/-- The loop of C('U') erases the whole line. -/
theorem Is.killLine_run (h : s.Is t i) (out : List Echo) {fuel : Nat}
    (hfuel : t.line.length ≤ fuel) :
    ∃ s', Loop.run (fun (x : Input × List Echo) => x.1.e ≠ x.1.w && x.1.get (x.1.e - 1) ≠ newline)
        (fun x => some (Input.erase x)) fuel (s, out)
        = some (s', out ++ List.replicate t.line.length .backspace)
      ∧ s'.Is ⟨t.ready, []⟩ i := by
  induction fuel generalizing s t out with
  | zero =>
      have hnil : t.line = [] := List.length_eq_zero_iff.1 (Nat.le_zero.1 hfuel)
      refine ⟨s, ?_, hnil ▸ h⟩
      rw [hnil, List.length_nil, List.replicate_zero, List.append_nil]
      apply Loop.run_of_exit
      simp only [h.line_empty_iff.2 hnil, ne_eq, not_true, decide_false, Bool.false_and]
  | succ fuel ih =>
      by_cases hnil : t.line = []
      · refine ⟨s, ?_, hnil ▸ h⟩
        rw [hnil, List.length_nil, List.replicate_zero, List.append_nil]
        apply Loop.run_of_exit
        simp only [h.line_empty_iff.2 hnil, ne_eq, not_true, decide_false, Bool.false_and]
      · have hlen : t.line.dropLast.length = t.line.length - 1 := List.length_dropLast
        obtain ⟨s', hrun, hs'⟩ := ih (h.erase out hnil) (out ++ [.backspace])
          (by rw [hlen]; omega)
        refine ⟨s', ?_, hs'⟩
        rw [Loop.run_turn (by simp [mt h.line_empty_iff.1 hnil, h.get_last hnil])]
        refine hrun.trans ?_
        obtain ⟨n, hn⟩ :=
          Nat.exists_eq_add_one_of_ne_zero (mt List.length_eq_zero_iff.1 hnil)
        rw [hlen, hn, List.append_assoc, List.replicate_succ]
        rfl

/-- A character is put in at `e`. -/
theorem Is.put (h : s.Is t i) (hroom : t.ready.length + t.line.length < INPUT_BUF) (c : UInt8)
    (k : Nat) (hk : k < t.ready.length + (t.line ++ [c]).length) :
    (t.ready ++ (t.line ++ [c]))[k]?
      = some (Function.update s.buf (Fin.ofNat INPUT_BUF s.e.toNat) c
        (Fin.ofNat INPUT_BUF (i + k))) := by
  rw [h.e, index_wrapped, ← List.append_assoc, Nat.add_assoc i]
  rw [List.length_append, List.length_singleton] at hk
  rcases Nat.lt_or_ge k (t.ready.length + t.line.length) with hlt | hge
  · have hne : Fin.ofNat INPUT_BUF (i + k)
        ≠ Fin.ofNat INPUT_BUF (i + (t.ready.length + t.line.length)) := by
      intro heq
      have hval := congrArg Fin.val heq
      rw [Fin.val_ofNat, Fin.val_ofNat] at hval
      exact Ring.slot_ne (by omega) (by omega) hval
    rw [List.getElem?_append_left (by rwa [List.length_append]), Function.update_of_ne hne]
    exact h.kept k hlt
  · obtain rfl : k = (t.ready ++ t.line).length := by
      rw [List.length_append]
      omega
    rw [List.getElem?_concat_length, List.length_append, Function.update_self]

/-- **`default`.** -/
theorem Is.store (h : s.Is t i) (c : UInt8) :
    (s.store c).2 = (t.store c).2 ∧ (s.store c).1.Is (t.store c).1 i := by
  unfold Input.store Tty.store
  by_cases hcond : c ≠ 0 ∧ t.ready.length + t.line.length < INPUT_BUF
  · have hroom := hcond.2
    rw [if_pos hcond, if_pos ⟨hcond.1, h.room_iff.2 hroom⟩]
    generalize (if c = 13 then newline else c) = c'
    have hput := h.put hroom c'
    have he : s.e + 1 = UInt32.ofNat (i + t.ready.length + (t.line ++ [c']).length) := by
      rw [h.e, List.length_append, List.length_singleton, ← Nat.add_assoc, UInt32.ofNat_add _ 1]
      rfl
    have hfull : s.e + 1 = s.r + UInt32.ofNat INPUT_BUF
        ↔ t.ready.length + (t.line ++ [c']).length = INPUT_BUF := by
      rw [he, h.r, ← UInt32.ofNat_add, List.length_append, List.length_singleton,
        ofNat_eq_iff (by omega) (by omega)]
      omega
    have hlen : t.ready.length + (t.line ++ [c']).length ≤ INPUT_BUF := by
      rw [List.length_append, List.length_singleton]
      omega
    simp only [hfull]
    by_cases hdone : c' = newline ∨ c' = eof
        ∨ t.ready.length + (t.line ++ [c']).length = INPUT_BUF
    · rw [if_pos hdone, if_pos hdone]
      refine ⟨rfl, h.r, ?_, ?_, ?_, ?_, List.not_mem_nil, List.not_mem_nil⟩
      · rw [List.length_append, ← Nat.add_assoc]
        exact he
      · rw [List.length_append, List.length_nil, ← Nat.add_assoc]
        exact he
      · rw [List.length_append]
        exact hlen
      · rw [List.append_nil, List.length_append]
        exact hput
    · rw [if_neg hdone, if_neg hdone]
      simp only [not_or] at hdone
      refine ⟨rfl, h.r, h.w, he, hlen, hput, ?_, ?_⟩
      · exact fun hmem => (List.mem_append.1 hmem).elim h.editing.1 fun hc =>
          hdone.1 (List.mem_singleton.1 hc).symm
      · exact fun hmem => (List.mem_append.1 hmem).elim h.editing.2 fun hc =>
          hdone.2.1 (List.mem_singleton.1 hc).symm
  · rw [if_neg hcond, if_neg fun hcond' => hcond ⟨hcond'.1, h.room_iff.1 hcond'.2⟩]
    exact ⟨rfl, h⟩

/-- **A key.** -/
theorem Is.key (h : s.Is t i) (c : UInt8) :
    ∃ s', s.key c = some (s', (t.key c).2) ∧ s'.Is (t.key c).1 i := by
  unfold Input.key Tty.key
  split
  · exact ⟨s, rfl, h⟩
  split
  · obtain ⟨s', hrun, hs'⟩ := h.killLine_run [] (show t.line.length ≤ INPUT_BUF by
      have hroom := h.room
      omega)
    refine ⟨s', ?_, hs'⟩
    rw [killLine, hrun]
    rfl
  split
  · by_cases hline : t.line = []
    · rw [if_neg (not_not.2 hline), if_neg (not_not.2 (h.line_empty_iff.2 hline))]
      exact ⟨s, rfl, h⟩
    · rw [if_pos hline, if_pos (mt h.line_empty_iff.1 hline)]
      exact ⟨_, rfl, h.erase [] hline⟩
  · obtain ⟨hout, hs'⟩ := h.store c
    refine ⟨_, ?_, hs'⟩
    rw [← hout]

/-! ### Reading -/

/-- The first character is taken. -/
theorem Is.take {c : UInt8} {cs : List UInt8} (h : s.Is t i) (hready : t.ready = c :: cs) :
    s.get s.r = c ∧ Is { s with r := s.r + 1 } ⟨cs, t.line⟩ (i + 1) := by
  have hroom := h.room
  have hlen : t.ready.length = cs.length + 1 := by rw [hready, List.length_cons]
  refine ⟨?_, ?_, ?_, ?_, ?_, fun k hk => ?_, h.editing⟩
  · have hfirst := h.kept 0 (by omega)
    rw [hready] at hfirst
    rw [h.r, get_ofNat]
    exact (Option.some.inj hfirst).symm
  · show s.r + 1 = _
    rw [h.r, UInt32.ofNat_add i 1]
    rfl
  · show s.w = UInt32.ofNat (i + 1 + cs.length)
    rw [h.w, hlen, Nat.add_assoc i 1, Nat.add_comm 1 cs.length]
  · show s.e = UInt32.ofNat (i + 1 + cs.length + t.line.length)
    rw [h.e, hlen, Nat.add_assoc i 1, Nat.add_comm 1 cs.length]
  · show cs.length + t.line.length ≤ INPUT_BUF
    omega
  · have hnext := h.kept (k + 1) (by rw [hlen]; exact Nat.succ_lt_succ_iff.2 hk |>.trans_eq (by
      show cs.length + t.line.length + 1 = _
      omega))
    rw [hready, List.cons_append, List.getElem?_cons_succ] at hnext
    rw [hnext, Nat.add_assoc i 1 k, Nat.add_comm 1 k]

/-- **The loop of `consoleread`.** -/
theorem Is.read (h : s.Is t i) (target n : Nat) :
    (s.read target n).1 = (t.read target n).1 ∧ (s.read target n).2.1 = (t.read target n).2.1
      ∧ ∃ i', (s.read target n).2.2.Is (t.read target n).2.2 i' := by
  induction n generalizing s t i with
  | zero => exact ⟨rfl, rfl, i, h⟩
  | succ n ih =>
      obtain ⟨ready, line⟩ := t
      cases ready with
      | nil =>
          rw [Input.read, if_pos (h.ready_empty_iff.2 rfl), Tty.read]
          exact ⟨rfl, rfl, i, h⟩
      | cons c cs =>
          obtain ⟨hget, htake⟩ := h.take rfl
          have hne : s.r ≠ s.w := fun heq => nomatch h.ready_empty_iff.1 heq
          simp only [Input.read, if_neg hne, Tty.read, hget]
          split
          · split
            · refine ⟨rfl, rfl, i, ?_⟩
              rw [UInt32.add_sub_cancel]
              exact h
            · exact ⟨rfl, rfl, i + 1, htake⟩
          split
          · exact ⟨rfl, rfl, i + 1, htake⟩
          · obtain ⟨hbytes, hstop, hrest⟩ := ih htake
            exact ⟨congrArg (c :: ·) hbytes, hstop, hrest⟩

end Input

/-! ## Processes -/

/-- The parts of a terminal that hold the lock. -/
structure Driver (δ : Type) where
  key : δ → UInt8 → Option (δ × List Echo × Bool)
  read : Nat → Nat → δ → List UInt8 × Stop × δ

/-- `console.c`. -/
def ring : Driver Input := ⟨Input.key, Input.read⟩

/-- The two lists. -/
def lists : Driver Tty := ⟨fun t c => some (t.key c), Tty.read⟩

/-- Where a process is: in `consoleread` of `target` bytes, with `n` to go. -/
inductive Call where
  | idle
  | reading (target n : Nat) (asleep : Bool)
  deriving DecidableEq

/-- `wakeup(&input.r)`. -/
def Call.wake : Call → Call
  | .idle => .idle
  | .reading target n _ => .reading target n false

structure Sys (δ ι : Type) where
  dev : δ
  call : ι → Call
  killed : ι → Bool

/-- An interrupt with keys, a call of `consoleread`, a process that has been woken
runs on, or a process is killed. -/
inductive Event (ι : Type) where
  | intr (keys : List UInt8)
  | read (t : ι) (n : Nat)
  | resume (t : ι)
  | kill (t : ι)

/-- What a step has echoed and delivered, and the `n` of the call that has returned
with its value. -/
structure Effect where
  echo : List Echo
  delivered : List UInt8
  ret : Option (Nat × Int)

namespace Sys

variable {δ ι : Type} [DecidableEq ι]

/-- `consoleintr`. -/
def intr (D : Driver δ) : List UInt8 → Sys δ ι → Option (Sys δ ι × List Echo)
  | [], s => some (s, [])
  | c :: cs, s => do
      let (dev, out, woken) ← D.key s.dev c
      let call := if woken then fun t => (s.call t).wake else s.call
      let (s, out') ← intr D cs { s with dev := dev, call := call }
      some (s, out ++ out')

def setCall (s : Sys δ ι) (t : ι) (call : Call) : Sys δ ι :=
  { s with call := Function.update s.call t call }

/-- `consoleread` with `n` bytes to go, up to where it sleeps or returns. -/
def read (D : Driver δ) (s : Sys δ ι) (t : ι) (target n : Nat) : Sys δ ι × Effect :=
  let (bytes, stop, dev) := D.read target n s.dev
  let s := { s with dev := dev }
  let n := n - bytes.length
  match stop with
  | .done => (s.setCall t .idle, ⟨[], bytes, some (target, (target : Int) - n)⟩)
  | .empty =>
      if s.killed t then (s.setCall t .idle, ⟨[], bytes, some (target, -1)⟩)
      else (s.setCall t (.reading target n true), ⟨[], bytes, none⟩)

/-- `kill`. -/
def kill (s : Sys δ ι) (t : ι) : Sys δ ι :=
  { s.setCall t (s.call t).wake with killed := Function.update s.killed t true }

def step (D : Driver δ) (s : Sys δ ι) : Event ι → Option (Sys δ ι × Effect)
  | .intr keys => (s.intr D keys).map fun (s, out) => (s, ⟨out, [], none⟩)
  | .read t n => if s.call t = .idle then some (s.read D t n n) else none
  | .resume t =>
      match s.call t with
      | .reading target n false => some (s.read D t target n)
      | _ => none
  | .kill t => some (s.kill t, ⟨[], [], none⟩)

/-- A run, with its effects. -/
def run (D : Driver δ) (s : Sys δ ι) : List (Event ι) → Option (Sys δ ι × List Effect)
  | [] => some (s, [])
  | e :: es => do
      let (s, fx) ← s.step D e
      let (s, fxs) ← run D s es
      some (s, fx :: fxs)

/-- Nobody is in a call. -/
def init (dev : δ) (killed : ι → Bool) : Sys δ ι := ⟨dev, fun _ => .idle, killed⟩

/-- The systems of the ring and of the lists. -/
structure Is (s : Sys Input ι) (t : Sys Tty ι) : Prop where
  dev : ∃ i, s.dev.Is t.dev i
  call : s.call = t.call
  killed : s.killed = t.killed

/-- Both have ended in the same way. -/
def Same {α : Type} (x : Option (Sys Input ι × α)) (y : Option (Sys Tty ι × α)) : Prop :=
  x = none ∧ y = none ∨ ∃ s t a, x = some (s, a) ∧ y = some (t, a) ∧ s.Is t

variable {s : Sys Input ι} {t : Sys Tty ι}

omit [DecidableEq ι] in
theorem same_some {α : Type} {x : Sys Input ι × α} {y : Sys Tty ι × α} (hfx : x.2 = y.2)
    (h : x.1.Is y.1) : Same (some x) (some y) :=
  Or.inr ⟨x.1, y.1, y.2, by rw [← hfx], rfl, h⟩

omit [DecidableEq ι] in
theorem Is.intr (h : s.Is t) (keys : List UInt8) : Same (s.intr ring keys) (t.intr lists keys) := by
  induction keys generalizing s t with
  | nil => exact Or.inr ⟨s, t, [], rfl, rfl, h⟩
  | cons c cs ih =>
      obtain ⟨i, hdev⟩ := h.dev
      obtain ⟨dev, hkey, hdev'⟩ := hdev.key c
      have hnext : Is { s with dev := dev, call := if (t.dev.key c).2.2 then
          fun p => (s.call p).wake else s.call } { t with dev := (t.dev.key c).1, call :=
          if (t.dev.key c).2.2 then fun p => (t.call p).wake else t.call } :=
        ⟨⟨i, hdev'⟩, by rw [h.call], h.killed⟩
      simp only [Sys.intr, ring, hkey, Option.bind_eq_bind, Option.bind_some, lists]
      obtain ⟨hx, hy⟩ | ⟨s', t', out, hx, hy, hst⟩ := ih hnext
      · exact Or.inl ⟨by rw [ring] at hx; rw [hx]; rfl, by rw [lists] at hy; rw [hy]; rfl⟩
      · exact Or.inr ⟨s', t', _, by rw [ring] at hx; rw [hx]; rfl,
          by rw [lists] at hy; rw [hy]; rfl, hst⟩

theorem Is.read (h : s.Is t) (p : ι) (target n : Nat) :
    (s.read ring p target n).2 = (t.read lists p target n).2
      ∧ (s.read ring p target n).1.Is (t.read lists p target n).1 := by
  obtain ⟨i, hdev⟩ := h.dev
  obtain ⟨hbytes, hstop, hrest⟩ := hdev.read target n
  simp only [Sys.read, ring, lists, hbytes, hstop]
  cases (Tty.read target n t.dev).2.1 with
  | done => exact ⟨rfl, hrest, congrArg (Function.update · p _) h.call, h.killed⟩
  | empty =>
      simp only [h.killed]
      cases t.killed p with
      | true => exact ⟨rfl, hrest, congrArg (Function.update · p _) h.call, rfl⟩
      | false => exact ⟨rfl, hrest, congrArg (Function.update · p _) h.call, rfl⟩

/-- **Step lemma.** -/
theorem Is.step (h : s.Is t) (e : Event ι) : Same (s.step ring e) (t.step lists e) := by
  cases e with
  | intr keys =>
      obtain ⟨hx, hy⟩ | ⟨s', t', out, hx, hy, hst⟩ := h.intr keys
      · exact Or.inl ⟨by rw [Sys.step, hx]; rfl, by rw [Sys.step, hy]; rfl⟩
      · exact Or.inr ⟨s', t', _, by rw [Sys.step, hx]; rfl, by rw [Sys.step, hy]; rfl, hst⟩
  | read p n =>
      obtain ⟨hfx, hst⟩ := h.read p n n
      rw [Sys.step, Sys.step, h.call]
      split
      · exact same_some hfx hst
      · exact Or.inl ⟨rfl, rfl⟩
  | resume p =>
      rw [Sys.step, Sys.step, h.call]
      split
      · rename_i target n _
        obtain ⟨hfx, hst⟩ := h.read p target n
        exact same_some hfx hst
      · exact Or.inl ⟨rfl, rfl⟩
  | kill p =>
      refine Or.inr ⟨_, _, _, rfl, rfl, h.dev, ?_, ?_⟩
      · show Function.update s.call p _ = Function.update t.call p _
        rw [h.call]
      · show Function.update s.killed p true = Function.update t.killed p true
        rw [h.killed]

/-- **Run lemma.** -/
theorem Is.run (h : s.Is t) (es : List (Event ι)) : Same (s.run ring es) (t.run lists es) := by
  induction es generalizing s t with
  | nil => exact Or.inr ⟨s, t, [], rfl, rfl, h⟩
  | cons e es ih =>
      simp only [Sys.run, Option.bind_eq_bind]
      obtain ⟨hx, hy⟩ | ⟨s₁, t₁, fx, hx, hy, hst⟩ := h.step e
      · exact Or.inl ⟨by rw [hx]; rfl, by rw [hy]; rfl⟩
      rw [hx, hy, Option.bind_some, Option.bind_some]
      obtain ⟨hx', hy'⟩ | ⟨s', t', fxs, hx', hy', hst'⟩ := ih hst
      · exact Or.inl ⟨by rw [hx']; rfl, by rw [hy']; rfl⟩
      · exact Or.inr ⟨s', t', fx :: fxs, by rw [hx']; rfl, by rw [hy']; rfl, hst'⟩

end Sys

end SchoolStuff.Xv6.Console
