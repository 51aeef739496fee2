import SchoolStuff.Xv6.FileIO

/-!
# Xv6 — open files are read and written in order

The offset of an open file stays within the file. So a call is one read or
write of the array, although `filewrite` makes it in several operations of the
log; each of them leaves a file system that is in order.
-/

namespace SchoolStuff.Xv6.FileIO

open Dirs (NFILE)

/-- The operation is one that `begin_op` reserves room for, and that leaves the
file system in order if it is committed. -/
structure Op.Fits (op : Op) : Prop where
  before : op.before.Owned
  after : op.after.Owned
  nodup : op.blocks.Nodup
  few : op.blocks.length ≤ MAXOPBLOCKS
  disk : ∀ b, b ∉ op.blocks → op.after.disk b = op.before.disk b

/-- The operations lead from `st` to `st'`. -/
def Chain (st : Fs) : List Op → Fs → Prop
  | [], st' => st' = st
  | op :: ops, st' => op.before = st ∧ Chain op.after ops st'

theorem Chain.append {st st₁ st' : Fs} {ops ops' : List Op} (h : Chain st ops st₁)
    (h' : Chain st₁ ops' st') : Chain st (ops ++ ops') st' := by
  induction ops generalizing st with
  | nil => exact h ▸ h'
  | cons op ops ih => exact ⟨h.1, ih h.2⟩

/-- A file that may be read or written is no device, and its offset is in it. -/
def Open (st : Fs) (f : File) : Prop :=
  f.readable = true ∨ f.writable = true →
    st.Regular f.ip ∧ f.off.toNat ≤ (st.content f.ip).length

/-! ## Offsets -/

theorem length_content_le {st : Fs} (h : st.Owned) {i : UInt32} (hi : st.Allocated i) :
    (st.content i).length ≤ MAXFILE * BSIZE := by
  rw [Fs.length_content]
  by_contra hlt
  have := (h.sized i hi (MAXFILE * BSIZE) (by omega)).1
  omega

theorem advance_zero (f : File) : f.advance 0 = f := by
  unfold File.advance
  rw [UInt32.add_zero]

theorem advance_advance (f : File) (m n : Nat) :
    (f.advance (UInt32.ofNat m)).advance (UInt32.ofNat n) = f.advance (UInt32.ofNat (m + n)) := by
  unfold File.advance
  rw [UInt32.ofNat_add, UInt32.add_assoc]

theorem advance_off {f : File} {n : Nat} (h : f.off.toNat + n < 2 ^ 32) :
    (f.advance (UInt32.ofNat n)).off.toNat = f.off.toNat + n := by
  change (f.off + UInt32.ofNat n).toNat = _
  rw [UInt32.toNat_add, UInt32.toNat_ofNat', Nat.mod_eq_of_lt (show n < 2 ^ 32 by omega),
    Nat.mod_eq_of_lt h]

theorem written_zero {off : Nat} (h : off ≤ MAXFILE * BSIZE) : written off 0 = 0 := if_pos h

/-- There is no room for the next operation. -/
theorem written_full {off n : Nat} (h : off + min n maxWrite > MAXFILE * BSIZE) :
    written off n = 0 := by
  have hmax : maxWrite = 1536 := rfl
  rw [written, if_neg (by omega), Nat.div_eq_of_lt (by omega), Nat.mul_zero]

theorem written_step {off n : Nat} (h : off + min n maxWrite ≤ MAXFILE * BSIZE) :
    written off n = min n maxWrite
      + written (off + min n maxWrite) (n - min n maxWrite) := by
  have hmax : maxWrite = 1536 := rfl
  have hfile : MAXFILE * BSIZE = 71680 := rfl
  unfold written
  simp only [hmax, hfile] at h ⊢
  by_cases hfit : off + n ≤ 71680
  · rw [if_pos hfit, if_pos (by omega)]
    omega
  · rw [if_neg hfit, if_neg (by omega)]
    omega

theorem written_le {off n : Nat} (h : off ≤ MAXFILE * BSIZE) :
    written off n ≤ n ∧ off + written off n ≤ MAXFILE * BSIZE := by
  have hmax : maxWrite = 1536 := rfl
  have hfile : MAXFILE * BSIZE = 71680 := rfl
  unfold written
  simp only [hmax, hfile] at h ⊢
  split <;> omega

/-! ## Calls -/

theorem fileread_spec {st : Fs} (h : st.Owned) {f : File} (hf : Open st f) {n : Nat}
    (hn : n < 2 ^ 31) : fileread st f n
      = if f.readable = false then .ok (none, f, st)
        else
          let bytes := ((st.content f.ip).drop f.off.toNat).take n
          .ok (some bytes, f.advance (UInt32.ofNat bytes.length), st) := by
  have hfile : MAXFILE * BSIZE = 71680 := rfl
  have hnum : (UInt32.ofNat n).toNat = n := UInt32.toNat_ofNat_of_lt' (by
    change n < 2 ^ 32
    omega)
  unfold fileread
  split
  · rfl
  rename_i hread
  obtain ⟨hreg, hoff⟩ := hf (Or.inl (by simpa using hread))
  have hlen := length_content_le h hreg.1
  rw [Fs.readi_spec h hreg.1 hreg.2, Fs.flatRead, hnum, if_neg (by omega)]
  rfl

/-- What a turn of the loop of `filewrite` does. -/
structure Turn (st : Fs) (f : File) (src : List UInt8) (r : Option UInt32) (t : Tx) :
    Prop where
  fits : Op.Fits ⟨st, t.blocks, t.fs⟩
  other : Fs.Other st t.fs f.ip
  done : Fs.WriteDone st f.ip f.off src (r, t.fs)

theorem turn_spec {st : Fs} (h : st.Owned) {f : File} (hreg : st.Regular f.ip)
    {src : List UInt8} (hsrc : src.length ≤ maxWrite) :
    Ends (· = .ballocOutOfBlocks) (Tx.writei ⟨st, []⟩ f.ip f.off src) fun r =>
      Turn st f src r.1 r.2 := by
  have hwrite := Fs.writei_spec h hreg.1 hreg.2 f.off (Nat.lt_of_le_of_lt hsrc (by decide))
  have hcost := Tx.writei_cost h hreg.1 hreg.2 f.off (show src.length ≤ 3 * BSIZE from hsrc)
  have hlogged := Tx.writei_logged ⟨st, []⟩ f.ip f.off src
  rw [show st.writei f.ip f.off src = _ from (Tx.writei_fs ⟨st, []⟩ f.ip f.off src).symm]
    at hwrite
  cases hr : Tx.writei ⟨st, []⟩ f.ip f.off src with
  | error e =>
      rw [hr] at hcost
      exact hcost
  | ok r =>
      obtain ⟨r, t⟩ := r
      rw [hr] at hwrite hcost hlogged
      obtain ⟨howned, hother, hdone⟩ := hwrite
      exact ⟨⟨h, howned, hlogged.nodup List.nodup_nil, hcost, hlogged.disk⟩, hother, hdone⟩

/-- What the loop of `filewrite` does with the bytes that are left. -/
structure Wrote (st : Fs) (f : File) (src : List UInt8) (i : Nat) (ops : List Op) (f' : File)
    (st' : Fs) : Prop where
  count : i = written f.off.toNat src.length
  fits : ∀ op ∈ ops, op.Fits
  chain : Chain st ops st'
  file : f' = f.advance (UInt32.ofNat i)
  owned : st'.Owned
  other : Fs.Other st st' f.ip
  content : st'.content f.ip = splice (st.content f.ip) f.off.toNat (src.take i)

/-- **The loop of `filewrite`** writes whole operations until the file is full. -/
theorem filewriteLoop_spec : ∀ (n : Nat) (src : List UInt8), src.length = n →
    ∀ (st : Fs) (f : File), st.Owned → st.Regular f.ip →
      f.off.toNat ≤ (st.content f.ip).length →
      Ends (· = .fs .ballocOutOfBlocks) (filewriteLoop st f src) fun r =>
        Wrote st f src r.1 r.2.1 r.2.2.1 r.2.2.2 := by
  intro n
  induction n using Nat.strongRecOn with
  | ind n ih =>
      intro src hlen st f h hreg hoff
      have hfile : MAXFILE * BSIZE = 71680 := rfl
      have hmax : maxWrite = 1536 := rfl
      have hle := length_content_le h hreg.1
      rw [filewriteLoop]
      split
      · rename_i hzero
        refine ⟨?_, nofun, rfl, (advance_zero f).symm, h, Fs.Other.refl st f.ip, ?_⟩
        · rw [hzero]
          exact (written_zero (by omega)).symm
        · exact (splice_nil _ _).symm
      rename_i hn
      have htake : (src.take (min src.length maxWrite)).length = min src.length maxWrite := by
        rw [List.length_take]
        omega
      have hturn := turn_spec h hreg (htake.trans_le (Nat.min_le_right _ _))
      refine (hturn.allow fun e he => congrArg Stop.fs he).mapError.bind ?_
      rintro ⟨r, t⟩ ⟨hfits, hother, hdone⟩
      unfold Fs.WriteDone at hdone
      rw [Fs.flatWrite, htake] at hdone
      by_cases hfull : f.off.toNat + min src.length maxWrite > MAXFILE * BSIZE
      · rw [if_pos (by omega)] at hdone
        cases hdone
        refine ⟨(written_full hfull).symm, ?_, ⟨rfl, rfl⟩, (advance_zero f).symm, hfits.after,
          hother, (splice_nil _ _).symm⟩
        intro op hop
        rw [List.mem_singleton.1 hop]
        exact hfits
      · rw [if_neg (by omega)] at hdone
        obtain ⟨(hr : r = _), hcontent⟩ := hdone
        have hnum : (UInt32.ofNat (min src.length maxWrite)).toNat = min src.length maxWrite :=
          UInt32.toNat_ofNat_of_lt' (Nat.lt_of_le_of_lt (Nat.min_le_right _ _) (by decide))
        have hreg₁ : t.fs.Regular f.ip := by
          refine ⟨(hother.allocated f.ip).2 hreg.1, ?_⟩
          rw [hother.type]
          exact hreg.2
        have hoff₁ := advance_off (f := f) (n := min src.length maxWrite) (by omega)
        subst hr
        change Ends _ (if _ then _ else _) _
        rw [if_pos hnum]
        refine (ih (src.length - min src.length maxWrite) (by omega) _ (List.length_drop ..)
          t.fs (f.advance (UInt32.ofNat (min src.length maxWrite))) hfits.after hreg₁ ?_).bind ?_
        · rw [hoff₁]
          change _ ≤ (t.fs.content f.ip).length
          rw [hcontent, length_splice hoff, htake]
          exact Nat.le_max_right _ _
        rintro ⟨i, ops, f', st'⟩ hrest
        have hcount := hrest.count
        rw [hoff₁, List.length_drop] at hcount
        refine ⟨?_, ?_, ⟨rfl, hrest.chain⟩, ?_, hrest.owned, hother.trans hrest.other, ?_⟩
        · rw [written_step (Nat.le_of_not_lt hfull), ← hcount]
        · intro op hop
          rcases List.mem_cons.1 hop with rfl | hop
          · exact hfits
          · exact hrest.fits op hop
        · exact hrest.file.trans (advance_advance f _ _)
        · refine hrest.content.trans ?_
          change splice (t.fs.content f.ip) _ _ = _
          rw [hcontent, hoff₁, List.take_add]
          have hsplit := splice_splice hoff (src.take (min src.length maxWrite))
            ((src.drop (min src.length maxWrite)).take i)
          rwa [htake] at hsplit

theorem filewrite_spec {st : Fs} (h : st.Owned) {f : File} (hwrite : ¬f.writable = false)
    (hreg : st.Regular f.ip) (hoff : f.off.toNat ≤ (st.content f.ip).length)
    {src : List UInt8} :
    Ends (· = .fs .ballocOutOfBlocks) (filewrite st f src) fun r =>
      r.1 = (if written f.off.toNat src.length = src.length
        then (written f.off.toNat src.length : Int) else -1)
        ∧ Wrote st f src (written f.off.toNat src.length) r.2.1 r.2.2.1 r.2.2.2 := by
  unfold filewrite
  rw [if_neg hwrite]
  refine (filewriteLoop_spec src.length src rfl st f h hreg hoff).bind ?_
  rintro ⟨i, ops, f', st'⟩ hwrote
  obtain rfl : i = written f.off.toNat src.length := hwrote.count
  exact ⟨rfl, hwrote⟩

/-! ## Runs -/

/-- The file system is in order, and every open file. -/
structure Sys.Ok (s : Sys) : Prop where
  owned : s.fs.Owned
  opened : ∀ k, Open s.fs (s.file k)

/-- The arrays are the files, and the open files are the same. -/
structure Refines (s : Sys) (a : Flat) : Prop where
  content : s.fs.Refines a.content
  file : a.file = s.file

/-- An open file that has gone on to a place in its file, and the others. -/
theorem opened_update {st st' : Fs} {file : Fin NFILE → File} (h : ∀ k, Open st (file k))
    (k : Fin NFILE) {f : File} (hip : f.ip = (file k).ip)
    (hother : Fs.Other st st' (file k).ip)
    (hlen : st.Allocated (file k).ip →
      (st.content (file k).ip).length ≤ (st'.content (file k).ip).length)
    (hf : f.off.toNat ≤ (st'.content f.ip).length) (hreg : st.Regular (file k).ip) :
    ∀ l, Open st' (Function.update file k f l) := by
  have hregular : ∀ {i}, st.Regular i → st'.Regular i := by
    intro i hi
    refine ⟨(hother.allocated i).2 hi.1, ?_⟩
    rw [hother.type]
    exact hi.2
  intro l
  by_cases hlk : l = k
  · rw [hlk, Function.update_self]
    exact fun _ => ⟨hip ▸ hregular hreg, hf⟩
  · rw [Function.update_of_ne hlk]
    intro hl
    obtain ⟨hregl, hoff⟩ := h l hl
    refine ⟨hregular hregl, ?_⟩
    by_cases hsame : (file l).ip = (file k).ip
    · rw [hsame] at hoff ⊢
      exact Nat.le_trans hoff (hlen hreg.1)
    · rw [hother.content _ hsame hregl.1]
      exact hoff

/-- What a call or a run leaves. -/
structure Done {α : Type} (s : Sys) (r : α) (ops : List Op) (s' : Sys) (a : α × Flat) : Prop
    where
  answer : r = a.1
  ok : s'.Ok
  refines : Refines s' a.2
  fits : ∀ op ∈ ops, op.Fits
  chain : Chain s.fs ops s'.fs

/-- **A call** is a call on the arrays. -/
theorem call_spec {s : Sys} (h : s.Ok) {a : Flat} (ha : Refines s a) (c : Call) :
    Ends (· = .fs .ballocOutOfBlocks) (s.call c) fun r =>
      Done s r.1 r.2.1 r.2.2 (a.call c) := by
  have hfile : MAXFILE * BSIZE = 71680 := rfl
  cases c with
  | read f n hn =>
      change Ends _ (fileread s.fs (s.file f) n >>= _) _
      rw [fileread_spec h.owned (h.opened f) hn]
      simp only [Flat.call, ha.file]
      split
      · refine ⟨rfl, ⟨h.owned, ?_⟩, ⟨ha.content, ?_⟩, nofun, rfl⟩
        · simpa only [Function.update_eq_self] using h.opened
        · simpa only [Function.update_eq_self] using ha.file
      · rename_i hread
        obtain ⟨hreg, hoff⟩ := h.opened f (Or.inl (by simpa using hread))
        have hlen := length_content_le h.owned hreg.1
        have hcontent := ha.content _ hreg.1
        rw [← hcontent]
        refine ⟨rfl, ⟨h.owned, ?_⟩, ⟨ha.content, rfl⟩, nofun, rfl⟩
        refine opened_update h.opened f rfl (Fs.Other.refl _ _) (fun _ => Nat.le_refl _) ?_ hreg
        have hbytes : (((s.fs.content (s.file f).ip).drop (s.file f).off.toNat).take n).length
            ≤ (s.fs.content (s.file f).ip).length - (s.file f).off.toNat := by
          rw [List.length_take, List.length_drop]
          exact Nat.min_le_right _ _
        rw [advance_off (by omega)]
        change _ ≤ (s.fs.content (s.file f).ip).length
        omega
  | write f src hsrc =>
      change Ends _ (filewrite s.fs (s.file f) src >>= _) _
      simp only [Flat.call, ha.file]
      by_cases hwrite : (s.file f).writable = false
      · unfold filewrite
        rw [if_pos hwrite, if_pos hwrite]
        refine ⟨rfl, ⟨h.owned, ?_⟩, ⟨ha.content, ?_⟩, nofun, rfl⟩
        · simpa only [Function.update_eq_self] using h.opened
        · simpa only [Function.update_eq_self] using ha.file
      rw [if_neg hwrite]
      obtain ⟨hreg, hoff⟩ := h.opened f (Or.inr (by simpa using hwrite))
      have hlen := length_content_le h.owned hreg.1
      refine (filewrite_spec h.owned hwrite hreg hoff).bind ?_
      rintro ⟨r, ops, f', st'⟩ ⟨(hr : r = _), hwrote⟩
      have hroom := written_le (n := src.length) (Nat.le_trans hoff hlen)
      have htake : (src.take (written (s.file f).off.toNat src.length)).length
          = written (s.file f).off.toNat src.length := by
        rw [List.length_take]
        exact Nat.min_eq_left hroom.1
      have hcontent := hwrote.content
      have hf' := hwrote.file
      refine ⟨congrArg Answer.count hr, ⟨hwrote.owned, ?_⟩, ⟨fun j hj => ?_, ?_⟩, hwrote.fits,
        hwrote.chain⟩
      · refine opened_update h.opened f (by rw [hf']; rfl) hwrote.other (fun _ => ?_) ?_ hreg
        · rw [hcontent, length_splice hoff]
          exact Nat.le_max_left _ _
        · rw [hf', advance_off (by omega)]
          change _ ≤ (st'.content (s.file f).ip).length
          rw [hcontent, length_splice hoff, htake]
          exact Nat.le_max_right _ _
      · rw [hwrote.other.allocated] at hj
        change st'.content j = Function.update a.content (s.file f).ip _ j
        by_cases hjf : j = (s.file f).ip
        · rw [hjf, Function.update_self, ← ha.content _ hreg.1]
          exact hcontent
        · rw [Function.update_of_ne hjf, ← ha.content _ hj]
          exact hwrote.other.content j hjf hj
      · rw [hf']

/-- **A run of calls** is one on the arrays. -/
theorem run_spec {s : Sys} (h : s.Ok) {a : Flat} (ha : Refines s a) (cs : List Call) :
    Ends (· = .fs .ballocOutOfBlocks) (s.run cs) fun r =>
      Done s r.1 r.2.1 r.2.2 (a.run cs) := by
  induction cs generalizing s a with
  | nil => exact ⟨rfl, h, ha, nofun, rfl⟩
  | cons c cs ih =>
      refine (call_spec h ha c).bind ?_
      rintro ⟨r, ops, s₁⟩ hdone
      refine (ih hdone.ok hdone.refines).bind ?_
      rintro ⟨rs, ops', s₂⟩ hrest
      refine ⟨?_, hrest.ok, hrest.refines, fun op hop => ?_, hdone.chain.append hrest.chain⟩
      · change r :: rs = (a.call c).1 :: ((a.call c).2.run cs).1
        rw [← hdone.answer, ← hrest.answer]
      · rcases List.mem_append.1 hop with hop | hop
        · exact hdone.fits op hop
        · exact hrest.fits op hop

/-- **Open files are read and written in order**: calls on open files, which
share inodes and go on from where the last one left off, return what reads and
writes of the arrays return, unless the disk is full. -/
theorem open_files_are_arrays {s : Sys} (h : s.Ok) {cs : List Call}
    (hfree : s.run cs ≠ .error (.fs .ballocOutOfBlocks)) :
    ∃ ops s', s.run cs = .ok ((Flat.run ⟨s.fs.content, s.file⟩ cs).1, ops, s') ∧ s'.Ok
      ∧ s'.file = (Flat.run ⟨s.fs.content, s.file⟩ cs).2.file
      ∧ ∀ i, s'.fs.Allocated i →
          s'.fs.content i = (Flat.run ⟨s.fs.content, s.file⟩ cs).2.content i := by
  have hspec := run_spec h (a := ⟨s.fs.content, s.file⟩) ⟨fun _ _ => rfl, rfl⟩ cs
  obtain ⟨⟨rs, ops, s'⟩, hrun, hdone⟩ := hspec.exists_ok fun e he => he ▸ hfree
  refine ⟨ops, s', ?_, hdone.ok, hdone.refines.file.symm, fun i hi => hdone.refines.content i hi⟩
  rw [hrun, ← hdone.answer]

/-- **Each operation fits the log**: `filewrite` cuts what it writes so that no
operation logs more than `MAXOPBLOCKS` blocks, wherever it begins. What it
changes on the disk is in them, and the file system is in order before and
behind it. -/
theorem operations_fit {s s' : Sys} (h : s.Ok) {cs : List Call} {rs : List Answer}
    {ops : List Op} (hrun : s.run cs = .ok (rs, ops, s')) :
    (∀ op ∈ ops, op.Fits) ∧ Chain s.fs ops s'.fs := by
  have hspec := run_spec h (a := ⟨s.fs.content, s.file⟩) ⟨fun _ _ => rfl, rfl⟩ cs
  have hdone := hspec.of_ok hrun
  exact ⟨hdone.fits, hdone.chain⟩

/-! ## Two open files of one inode -/

/-- The processes have inode 1 of `emptyFile` open. -/
def sharedFile : Sys := ⟨Fs.emptyFile, fun _ => ⟨true, true, 1, 0⟩⟩

theorem sharedFile_ok : sharedFile.Ok := by
  have hreg : Fs.emptyFile.Regular 1 := ⟨⟨by decide, by decide⟩, by decide⟩
  exact ⟨Fs.emptyFile_owned, fun _ _ => ⟨hreg, Nat.zero_le _⟩⟩

/-- A write with one file, and a read with another one. -/
def sharedCalls : List Call := [.write 0 [7, 8] (by decide), .read 1 5 (by decide)]

theorem sharedFile_write (src : List UInt8) (hlen : src.length ≤ BSIZE) :
    filewrite Fs.emptyFile ⟨true, true, 1, 0⟩ src ≠ .error (.fs .ballocOutOfBlocks) := by
  have hfree : Fs.emptyFile.freeBlock = some 4 := by decide +kernel
  have hdev : (Fs.emptyFile.inode 1).type ≠ T_DEV := by decide
  have hmax : src.length ≤ maxWrite := Nat.le_trans hlen (by decide)
  obtain ⟨⟨r, st⟩, hwrite⟩ := Fs.writei_first hfree hdev rfl hlen
  rw [show Fs.emptyFile.writei 1 0 src = _ from
    (Tx.writei_fs ⟨Fs.emptyFile, []⟩ 1 0 src).symm] at hwrite
  unfold filewrite
  rw [if_neg Bool.noConfusion, filewriteLoop]
  split
  · intro he
    cases he
  simp only [Nat.min_eq_left hmax, List.take_length, List.drop_length]
  cases hx : Tx.writei ⟨Fs.emptyFile, []⟩ 1 0 src with
  | error e =>
      rw [hx] at hwrite
      cases hwrite
  | ok x =>
      obtain ⟨r', t⟩ := x
      cases r' with
      | none =>
          intro he
          cases he
      | some r' =>
          change ((if r'.toNat = src.length then filewriteLoop t.fs _ [] >>= _ else _) >>= _
            : Except _ _) ≠ _
          split
          · rw [filewriteLoop, dif_pos List.length_nil]
            intro he
            cases he
          · intro he
            cases he

theorem sharedCalls_free : sharedFile.run sharedCalls ≠ .error (.fs .ballocOutOfBlocks) := by
  have hfree := sharedFile_write [7, 8] (by decide)
  have hspec := call_spec sharedFile_ok (a := ⟨sharedFile.fs.content, sharedFile.file⟩)
    ⟨fun _ _ => rfl, rfl⟩ (.write 0 [7, 8] (by decide))
  change ((filewrite Fs.emptyFile ⟨true, true, 1, 0⟩ [7, 8] >>= _) >>= _ : Except _ _) ≠ _
  change Ends _ (filewrite Fs.emptyFile ⟨true, true, 1, 0⟩ [7, 8] >>= _) _ at hspec
  cases hwrite : filewrite Fs.emptyFile ⟨true, true, 1, 0⟩ [7, 8] with
  | error e =>
      rw [hwrite] at hfree
      intro he
      cases he
      exact hfree rfl
  | ok r =>
      obtain ⟨i, ops, f, st⟩ := r
      rw [hwrite] at hspec
      have hok : Sys.Ok ⟨st, Function.update sharedFile.file 0 f⟩ := Done.ok hspec
      have hread := fileread_spec hok.owned (hok.opened 1) (show 5 < 2 ^ 31 by decide)
      change ((((fileread st (Function.update sharedFile.file 0 f 1) 5 >>= _) >>= _
        : Except _ _) >>= _ : Except _ _)) ≠ _
      rw [hread]
      split <;> nofun

theorem open_files_are_arrays_two : ∃ ops s',
    sharedFile.run sharedCalls = .ok ([.count 2, .bytes (some [7, 8])], ops, s') ∧ s'.Ok := by
  obtain ⟨ops, s', hrun, hok, _⟩ := open_files_are_arrays sharedFile_ok sharedCalls_free
  exact ⟨ops, s', hrun, hok⟩

theorem operations_fit_two : ∃ rs ops s', sharedFile.run sharedCalls = .ok (rs, ops, s')
    ∧ ops ≠ [] ∧ (∀ op ∈ ops, op.Fits) ∧ Chain sharedFile.fs ops s'.fs := by
  have hspec := run_spec sharedFile_ok (a := ⟨sharedFile.fs.content, sharedFile.file⟩)
    ⟨fun _ _ => rfl, rfl⟩ sharedCalls
  obtain ⟨⟨rs, ops, s'⟩, hrun, hdone⟩ := hspec.exists_ok fun e he => he ▸ sharedCalls_free
  refine ⟨rs, ops, s', hrun, ?_, operations_fit sharedFile_ok hrun⟩
  rintro rfl
  -- without an operation nothing would have been written
  have hsame : Fs.emptyFile = s'.fs := Eq.symm hdone.chain
  have hcontent := hdone.refines.content 1 (hsame ▸ ⟨by decide, by decide⟩)
  rw [← hsame] at hcontent
  have hwritten : (Flat.run ⟨sharedFile.fs.content, sharedFile.file⟩ sharedCalls).2.content 1
      = [7, 8] := by
    decide +kernel
  have hempty : Fs.emptyFile.content 1 = [] := by decide +kernel
  exact absurd (hempty.symm.trans (hcontent.trans hwritten)) (by decide)

end SchoolStuff.Xv6.FileIO
