import SchoolStuff.Xv6.Truncate

/-!
# Xv6 — files are byte arrays

A file is a list of bytes, and `Files.call` says what `readi`, `writei` and
`itrunc` do to it. The file system refines this: from an `Owned` state every
run of calls returns what the arrays return, or runs out of blocks.
-/

namespace SchoolStuff.Xv6

/-- A call on a locked inode. The bytes at `src` are as many as `n` says, so
they can be counted in a `uint`. -/
inductive Call where
  | readi (i off n : UInt32)
  | writei (i off : UInt32) (src : List UInt8) (h : src.length < 2 ^ 32)
  | itrunc (i : UInt32)

/-- The inode that a call is on. -/
def Call.inum : Call → UInt32
  | readi i _ _ => i
  | writei i _ _ _ => i
  | itrunc i => i

inductive Result where
  /-- The bytes that `readi` stores, or -1. -/
  | bytes (r : Option (List UInt8))
  /-- What `writei` returns. -/
  | count (r : Option UInt32)
  | done
  deriving DecidableEq

/-! ## Arrays -/

/-- The files, by their inodes. -/
abbrev Files := UInt32 → List UInt8

namespace Files

def call (files : Files) : Call → Result × Files
  | .readi i off n => (.bytes (Fs.flatRead (files i) off n), files)
  | .writei i off src _ =>
      match Fs.flatWrite (files i) off src with
      | none => (.count none, files)
      | some f => (.count (some (UInt32.ofNat src.length)), Function.update files i f)
  | .itrunc i => (.done, Function.update files i [])

def run (files : Files) : List Call → List Result × Files
  | [] => ([], files)
  | c :: cs =>
      let (r, files) := files.call c
      let (rs, files) := files.run cs
      (r :: rs, files)

/-- A call changes the file of its inode only. -/
theorem call_ne (files : Files) (c : Call) {j : UInt32} (h : j ≠ c.inum) :
    (files.call c).2 j = files j := by
  cases c with
  | readi i off n => rfl
  | itrunc i => exact Function.update_of_ne h _ _
  | writei i off src hsrc =>
      simp only [call]
      cases hflat : Fs.flatWrite (files i) off src with
      | none => rfl
      | some f => exact Function.update_of_ne h _ _

/-- A call and its result depend on the file of its inode only. -/
theorem call_congr {files files' : Files} {c : Call} (h : files c.inum = files' c.inum) :
    (files.call c).1 = (files'.call c).1
      ∧ (files.call c).2 c.inum = (files'.call c).2 c.inum := by
  cases c with
  | readi i off n =>
      simp only [Call.inum] at h
      simp only [call, Call.inum, h, and_self]
  | itrunc i => simp [call, Call.inum]
  | writei i off src hsrc =>
      simp only [Call.inum] at h ⊢
      simp only [call, h]
      cases hflat : Fs.flatWrite (files' i) off src with
      | none => exact ⟨rfl, h⟩
      | some f => simp only [Function.update_self, and_self]

end Files

/-! ## The file system -/

namespace Fs

def call (st : Fs) : Call → Except Panic (Result × Fs)
  | .readi i off n => do
      let (r, st) ← st.readi i off n
      .ok (.bytes r, st)
  | .writei i off src _ => do
      let (r, st) ← st.writei i off src
      .ok (.count r, st)
  | .itrunc i => do
      let st ← st.itrunc i
      .ok (.done, st)

def run (st : Fs) : List Call → Except Panic (List Result × Fs)
  | [] => .ok ([], st)
  | c :: cs => do
      let (r, st) ← st.call c
      let (rs, st) ← st.run cs
      .ok (r :: rs, st)

/-- Inode `i` is in use, and is not a device. -/
def Regular (st : Fs) (i : UInt32) : Prop :=
  st.Allocated i ∧ (st.inode i).type ≠ T_DEV

/-- `files` are the files of `st`. -/
def Refines (st : Fs) (files : Files) : Prop :=
  ∀ j, st.Allocated j → st.content j = files j

/-- A call with the file that it leaves is a call on the arrays. -/
theorem Refines.step {st st' : Fs} {files : Files} {c : Call} {r : Result}
    (h : st.Refines files) (hc : st.Allocated c.inum) (ho : Other st st' c.inum)
    (hr : r = (Files.call st.content c).1)
    (hcontent : st'.content c.inum = (Files.call st.content c).2 c.inum) :
    r = (files.call c).1 ∧ st'.Refines (files.call c).2 := by
  have hcall := Files.call_congr (h c.inum hc)
  refine ⟨hr.trans hcall.1, fun j hj => ?_⟩
  rw [ho.allocated] at hj
  by_cases hjc : j = c.inum
  · rw [hjc, hcontent, hcall.2]
  · rw [ho.content j hjc hj, h j hj, Files.call_ne files c hjc]

/-- **One call** refines the call on the arrays. -/
theorem call_spec {st : Fs} (h : st.Owned) {files : Files} (hfiles : st.Refines files)
    {c : Call} (hc : st.Regular c.inum) :
    Ends (· = .ballocOutOfBlocks) (st.call c) fun s =>
      s.2.Owned ∧ (∀ j, s.2.Regular j ↔ st.Regular j)
        ∧ s.1 = (files.call c).1 ∧ s.2.Refines (files.call c).2 := by
  -- only inode `c.inum` changes, and not what it is
  have hregular : ∀ {st' : Fs}, Other st st' c.inum →
      ∀ j, st'.Regular j ↔ st.Regular j := by
    intro st' ho j
    unfold Regular
    rw [ho.allocated, ho.type]
  cases c with
  | readi i off n =>
      have hrun := readi_spec h hc.1 hc.2 off n
      have ho : Other st st i := ⟨fun _ => Iff.rfl, fun _ => rfl, fun _ _ _ => rfl⟩
      have hcall : st.call (.readi i off n)
          = .ok (.bytes (flatRead (st.content i) off n), st) := by
        change (st.readi i off n >>= _) = _
        rw [show st.readi i off n = _ from hrun]
        rfl
      rw [hcall]
      exact ⟨h, hregular ho, hfiles.step hc.1 ho rfl rfl⟩
  | writei i off src hsrc =>
      apply (writei_spec h hc.1 hc.2 off hsrc).bind
      rintro ⟨r, st'⟩ ⟨howned, ho, (hdone : WriteDone st i off src (r, st'))⟩
      refine ⟨howned, hregular ho, ?_⟩
      suffices .count r = (Files.call st.content (.writei i off src hsrc)).1
          ∧ st'.content i = (Files.call st.content (.writei i off src hsrc)).2 i from
        hfiles.step hc.1 ho this.1 this.2
      unfold WriteDone at hdone
      simp only [Files.call]
      cases hflat : flatWrite (st.content i) off src with
      | none =>
          simp only [hflat] at hdone
          cases hdone
          exact ⟨rfl, rfl⟩
      | some f =>
          simp only [hflat] at hdone
          obtain ⟨rfl, hcontent⟩ := hdone
          simp only [Function.update_self]
          exact ⟨trivial, hcontent⟩
  | itrunc i =>
      obtain ⟨st', hrun, howned, ho, hempty⟩ := itrunc_spec h hc.1
      have hcall : st.call (.itrunc i) = .ok (.done, st') := by
        change (st.itrunc i >>= _) = _
        rw [show st.itrunc i = _ from hrun]
        rfl
      rw [hcall]
      refine ⟨howned, hregular ho, hfiles.step hc.1 ho rfl ?_⟩
      change st'.content i = Function.update st.content i [] i
      rw [Function.update_self]
      exact hempty

/-- **A run of calls** refines the run on the arrays. -/
theorem run_spec {st : Fs} (h : st.Owned) {files : Files} (hfiles : st.Refines files)
    {cs : List Call} (hcs : ∀ c ∈ cs, st.Regular c.inum) :
    Ends (· = .ballocOutOfBlocks) (st.run cs) fun s =>
      s.2.Owned ∧ (∀ j, s.2.Regular j ↔ st.Regular j)
        ∧ s.1 = (files.run cs).1 ∧ s.2.Refines (files.run cs).2 := by
  induction cs generalizing st files with
  | nil => exact ⟨h, fun _ => Iff.rfl, rfl, hfiles⟩
  | cons c cs ih =>
      apply (call_spec h hfiles (hcs c List.mem_cons_self)).bind
      rintro ⟨r, st₁⟩ ⟨howned, hregular, (hr : r = _), hfiles₁⟩
      have hcs₁ : ∀ c ∈ cs, st₁.Regular c.inum := fun c hc =>
        (hregular c.inum).2 (hcs c (List.mem_cons_of_mem _ hc))
      apply (ih howned hfiles₁ hcs₁).bind
      rintro ⟨rs, st₂⟩ ⟨howned₂, hregular₂, (hrs : rs = _), hfiles₂⟩
      apply Ends.ok
      refine ⟨howned₂, fun j => (hregular₂ j).trans (hregular j), ?_, hfiles₂⟩
      rw [hr, hrs]
      rfl

/-- A `writei` that returns -1 has done nothing. -/
theorem writei_none {st st' : Fs} {i off : UInt32} {src : List UInt8}
    (h : st.writei i off src = .ok (none, st')) : st' = st := by
  unfold writei at h
  simp only at h
  split at h
  · cases h
  split at h
  · cases h
    rfl
  split at h
  · cases h
    rfl
  cases hloop : st.writeLoop i off.toNat src with
  | error e =>
      rw [hloop] at h
      cases h
  | ok st₁ =>
      rw [hloop] at h
      change (if _ then _ else _) = _ at h
      split at h <;> cases h

/-- **Files are byte arrays**: from a state in which the inodes own their
blocks, calls that find free blocks return what the arrays return, and end in
such a state with the files that the arrays are then. -/
theorem files_are_arrays {st : Fs} (h : st.Owned) {cs : List Call}
    (hcs : ∀ c ∈ cs, st.Regular c.inum)
    (hfree : st.run cs ≠ .error .ballocOutOfBlocks) :
    (∃ rs st', st.run cs = .ok (rs, st') ∧ st'.Owned
      ∧ rs = (Files.run st.content cs).1
      ∧ ∀ j, st'.Allocated j → st'.content j = (Files.run st.content cs).2 j)
    ∧ ∀ (st₁ st₂ : Fs) (i off : UInt32) (src : List UInt8),
        st₁.writei i off src = .ok (none, st₂) → st₂ = st₁ := by
  refine ⟨?_, fun _ _ _ _ _ => writei_none⟩
  have hspec := run_spec h (fun _ _ => rfl : st.Refines st.content) hcs
  obtain ⟨⟨rs, st'⟩, hrun, howned, _, hrs, hfiles⟩ :=
    hspec.exists_ok fun e he => he ▸ hfree
  exact ⟨rs, st', hrun, howned, hrs, hfiles⟩

/-- A file gets its first block if one is free. -/
theorem writei_first {st : Fs} {b : Nat} (hfree : st.freeBlock = some b) {i : UInt32}
    (hdev : (st.inode i).type ≠ T_DEV) (hempty : (st.inode i).addrs (Fin.ofNat _ 0) = 0)
    {src : List UInt8} (hlen : src.length ≤ BSIZE) : ∃ r, st.writei i 0 src = .ok r := by
  have hnum : (UInt32.ofNat src.length).toNat = src.length :=
    UInt32.toNat_ofNat_of_lt' (Nat.lt_of_le_of_lt hlen (by decide))
  have hbmap : ∃ r, st.bmap i 0 = .ok r := by
    simp only [bmap, bmapAddr, balloc, hfree, hempty]
    exact ⟨_, rfl⟩
  have hloop : ∃ st', st.writeLoop i 0 src = .ok st' := by
    rw [writeLoop]
    split
    · exact ⟨_, rfl⟩
    obtain ⟨⟨a, st₁⟩, hb⟩ := hbmap
    change ∃ st', (st.bmap i 0 >>= _) = _
    rw [hb]
    change ∃ st', writeLoop _ _ _ _ = Except.ok st'
    rw [writeLoop, dif_pos]
    · exact ⟨_, rfl⟩
    · rw [List.length_drop, chunk, Nat.zero_mod, Nat.sub_zero, Nat.min_eq_left hlen,
        Nat.sub_self]
  obtain ⟨st', hloop⟩ := hloop
  have hadd : (0 : UInt32) + UInt32.ofNat src.length = UInt32.ofNat src.length :=
    UInt32.zero_add _
  have hmax : ¬UInt32.ofNat src.length > UInt32.ofNat (MAXFILE * BSIZE) := by
    rw [gt_iff_lt, UInt32.lt_iff_toNat_lt, hnum]
    exact Nat.not_lt_of_le (Nat.le_trans hlen (by decide))
  have hin : ¬((0 : UInt32) > (st.inode i).size ∨ UInt32.ofNat src.length < 0) := by
    rintro (h | h) <;> exact absurd h (UInt32.not_lt_zero)
  unfold writei
  simp only [hadd]
  rw [if_neg hdev, if_neg hin, if_neg hmax]
  change ∃ r, (st.writeLoop i 0 src >>= _) = _
  rw [hloop]
  change ∃ r, (if UInt32.ofNat src.length > 0
      ∧ UInt32.ofNat src.length > (st'.inode i).size then
    Except.ok (some (UInt32.ofNat src.length), _)
    else .ok (some (UInt32.ofNat src.length), _)) = Except.ok r
  split <;> exact ⟨_, rfl⟩

/-! ## A disk of five blocks -/

/-- Inode 1 is an empty file, and block 4 is free. -/
def emptyFile : Fs :=
  let sb : SuperBlock := ⟨5, 1, 2, 0, 2, 2, 3⟩
  let file : Inode := ⟨T_FILE, 0, 0, 1, 0, fun _ => 0⟩
  { disk := fun b =>
      if b = 1 then
        Block.setWords (fun _ => 0) 0 [sb.size, sb.nblocks, sb.ninodes, sb.nlog,
          sb.logstart, sb.inodestart, sb.bmapstart]
      else if b = 2 then Block.setWords (fun _ => 0) 16 file.words
      else if b = 3 then fun k => if k = 0 then 15 else 0
      else fun _ => 0
    sb := sb
    inode := fun i => if i = 1 then file else ⟨0, 0, 0, 0, 0, fun _ => 0⟩ }

theorem emptyFile_owned : emptyFile.Owned := by
  have hempty : ∀ i, (emptyFile.inode i).addrs = (fun _ => 0)
      ∧ (emptyFile.inode i).size = 0 := by
    intro i
    change (if i = 1 then (_ : Inode) else _).addrs = _
      ∧ (if i = 1 then (_ : Inode) else _).size = _
    split <;> exact ⟨rfl, rfl⟩
  have hheld : ∀ i k, emptyFile.held i k = 0 := by
    intro i k
    simp only [held, hempty, if_true, ite_self]
  have hused : ∀ b < 4, emptyFile.used b = true := by decide +kernel
  have hslot : ∀ t < IPB, Xv6.dinode (emptyFile.disk 2) t
      = if t = 1 then emptyFile.inode 1 else Xv6.dinode (fun _ => 0) t := fun t ht =>
    dinode_setWords (fun _ => 0) (emptyFile.inode 1) (s := 1) (by decide) ht
  have hcached : ∀ i : Nat, i < 2 → emptyFile.Cached (UInt32.ofNat i) := by
    intro i hi
    obtain rfl | rfl : i = 0 ∨ i = 1 := by omega
    · exact (hslot 0 (by decide)).trans (by rfl)
    · exact (hslot 1 (by decide)).trans (by rfl)
  refine ⟨⟨⟨by decide, by decide, by decide⟩, by decide +kernel, ?_, ?_, ?_⟩, ?_, ?_⟩
  · intro b hb _
    exact hused b hb
  · intro i k _ _ hne
    exact absurd (hheld i k) hne
  · intro i j k l _ _ _ _ hne
    exact absurd (hheld i k) hne
  · intro i hi
    have := hcached i.toNat hi
    rwa [UInt32.ofNat_toNat] at this
  · intro i hi p hp
    rw [(hempty i).2] at hp
    exact absurd hp (Nat.not_lt_zero p)

theorem files_are_arrays_one :
    ∃ rs st', emptyFile.run [.writei 1 0 [7] (by decide)] = .ok (rs, st') ∧ st'.Owned
      ∧ rs = [.count (some 1)] ∧ (st'.Allocated 1 → st'.content 1 = [7]) := by
  have hfree : emptyFile.freeBlock = some 4 := by decide +kernel
  have hbmap : ∃ r, emptyFile.bmap 1 0 = .ok r := by
    simp only [bmap, bmapAddr, balloc, hfree]
    exact ⟨_, rfl⟩
  have hregular : emptyFile.Regular 1 := ⟨⟨by decide, by decide⟩, by decide⟩
  have hrun : emptyFile.run [.writei 1 0 [7] (by decide)] ≠ .error .ballocOutOfBlocks := by
    obtain ⟨⟨b, st⟩, hb⟩ := hbmap
    have hloop : emptyFile.writeLoop 1 0 [7]
        = .ok (st.logWrite b fun bp => bp.splice 0 [7]) := by
      rw [writeLoop, dif_neg (by decide)]
      change (emptyFile.bmap 1 0 >>= _) = _
      rw [hb]
      exact writeLoop.eq_1 _ _ _ _
    have hwrite : ∃ r, emptyFile.writei 1 0 [7] = .ok r := by
      unfold writei
      simp only
      rw [if_neg hregular.2, if_neg (by decide), if_neg (by decide)]
      change ∃ r, (emptyFile.writeLoop 1 0 [7] >>= _) = _
      rw [hloop]
      change ∃ r, (if (1 : UInt32) > 0 ∧ (0 : UInt32) + 1 > (st.inode 1).size then
        Except.ok (some (1 : UInt32), _) else .ok (some 1, _)) = Except.ok r
      split <;> exact ⟨_, rfl⟩
    obtain ⟨r, hr⟩ := hwrite
    simp only [run, call, hr]
    exact fun h => by cases h
  obtain ⟨⟨rs, st', hrun, howned, hrs, hfiles⟩, _⟩ :=
    files_are_arrays emptyFile_owned (by
      intro c hc
      rw [List.mem_singleton.1 hc]
      exact hregular) hrun
  refine ⟨rs, st', hrun, howned, ?_, fun h1 => ?_⟩
  · rw [hrs]
    rfl
  · rw [hfiles 1 h1]
    rfl

end Fs

end SchoolStuff.Xv6
