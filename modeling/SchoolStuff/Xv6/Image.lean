import Mathlib.Data.List.GetD
import SchoolStuff.Xv6.Mkfs
import SchoolStuff.Xv6.ReadWrite

/-!
# Xv6 — files on the first disk

`Laid st n f file` says where the files of the inodes below `n` lie: in
different blocks between the metadata and block `f`, which is the next one to
take. A file grows in two ways, a block for one more slot (`Taken`) and bytes
in a block that it has (`Laid.write`).
-/

namespace SchoolStuff.Xv6.Mkfs

open Fs

/-- The file system on a disk that has the layout of `mkfs`. -/
def mount (d : Disk) : Fs :=
  { disk := d
    sb := sb
    inode := fun i => dinode (d (sb.iblock i)) (i.toNat % IPB) }

/-- The inodes that are handed out when `n` is the next one. -/
def Made (n : Nat) (i : UInt32) : Prop := 0 < i.toNat ∧ i.toNat < n

/-- The bytes that slot `k` is taken for come from this offset on. -/
def slotStart (k : Nat) : Nat := if k ≤ NDIRECT then k * BSIZE else (k - 1) * BSIZE

structure Laid (st : Fs) (n f : Nat) (file : UInt32 → List UInt8) : Prop where
  first : nmeta ≤ f
  data : ∀ i k, Made n i → k < SLOTS → st.held i k ≠ 0 →
    nmeta ≤ (st.held i k).toNat ∧ (st.held i k).toNat < f
  inj : ∀ i j k l, Made n i → Made n j → k < SLOTS → l < SLOTS →
    st.held i k ≠ 0 → st.held i k = st.held j l → i = j ∧ k = l
  byte : ∀ i p, Made n i → p < MAXFILE * BSIZE → st.Has i p →
    st.byteAt i p = (file i).getD p 0
  free : ∀ c : UInt32, f ≤ c.toNat → st.disk c = fun _ => 0

/-- A slot is taken when the file reaches it. -/
def Filled (st : Fs) (n : Nat) (file : UInt32 → List UInt8) : Prop :=
  ∀ i k, Made n i → k < SLOTS → (st.held i k ≠ 0 ↔ slotStart k < (file i).length)

variable {st st' : Fs} {n f f' : Nat} {file : UInt32 → List UInt8} {i : UInt32} {k : Nat}

/-- Only the slots and the blocks from the first data block on matter. -/
theorem Laid.held_congr (h : Laid st n f file) {j : UInt32} (hj : Made n j)
    (haddrs : (st'.inode j).addrs = (st.inode j).addrs)
    (hdisk : ∀ c : UInt32, nmeta ≤ c.toNat → st'.disk c = st.disk c) (k : Nat) :
    st'.held j k = st.held j k :=
  held_congr_addrs haddrs (fun hne => hdisk _ (h.data j _ hj (by decide) hne).1) k

theorem Laid.congr {n' : Nat} {file' : UInt32 → List UInt8} (h : Laid st n f file)
    (hmade : ∀ j, Made n' j → Made n j)
    (haddrs : ∀ j, Made n' j → (st'.inode j).addrs = (st.inode j).addrs)
    (hdisk : ∀ c : UInt32, nmeta ≤ c.toNat → st'.disk c = st.disk c)
    (hfile : ∀ j, Made n' j → file' j = file j) : Laid st' n' f file' := by
  have hheld : ∀ j, Made n' j → ∀ k, st'.held j k = st.held j k := fun j hj =>
    h.held_congr (hmade j hj) (haddrs j hj) hdisk
  refine ⟨h.first, fun i k hi hk hne => ?_, fun i j k l hi hj hk hl hne heq => ?_,
    fun i p hi hp hhas => ?_, fun c hc => ?_⟩
  · rw [hheld i hi] at hne ⊢
    exact h.data i k (hmade i hi) hk hne
  · rw [hheld i hi] at hne heq
    rw [hheld j hj] at heq
    exact h.inj i j k l (hmade i hi) (hmade j hj) hk hl hne heq
  · unfold Has at hhas
    rw [hheld i hi] at hhas
    have hdata := h.data i _ (hmade i hi) (slotOf_div_lt hp) hhas
    rw [hfile i hi, ← h.byte i p (hmade i hi) hp hhas, byteAt, byteAt, hheld i hi,
      hdisk _ hdata.1]
  · have hfirst := h.first
    rw [hdisk c (by omega)]
    exact h.free c hc

theorem held_of_empty (hempty : (st.inode i).addrs = fun _ => 0) (k : Nat) :
    st.held i k = 0 := by
  unfold held
  rw [hempty]
  split
  · rfl
  · exact if_pos rfl

/-- One more inode, with nothing in its slots. -/
theorem Laid.make (h : Laid st n f file) (hi : i.toNat = n)
    (haddrs : ∀ j, Made n j → (st'.inode j).addrs = (st.inode j).addrs)
    (hempty : (st'.inode i).addrs = fun _ => 0)
    (hdisk : ∀ c : UInt32, nmeta ≤ c.toNat → st'.disk c = st.disk c) :
    Laid st' (n + 1) f (Function.update file i []) := by
  have hold : ∀ j, Made n j → j ≠ i := by
    rintro j hj rfl
    have := hj.2
    omega
  have hlaid : Laid st' n f (Function.update file i []) :=
    h.congr (fun _ hj => hj) haddrs hdisk fun j hj => Function.update_of_ne (hold j hj) _ _
  -- an inode with something in a slot is an old one
  have hmade : ∀ j k, Made (n + 1) j → st'.held j k ≠ 0 → Made n j := by
    intro j k hj hne
    refine ⟨hj.1, Nat.lt_of_le_of_ne (Nat.le_of_lt_succ hj.2) fun heq => hne ?_⟩
    have hji : j = i := UInt32.toNat_inj.1 (heq.trans hi.symm)
    rw [hji]
    exact held_of_empty hempty k
  refine ⟨h.first, fun j k hj hk hne => ?_, fun j j' k k' hj hj' hk hk' hne heq => ?_,
    fun j p hj hp hhas => ?_, hlaid.free⟩
  · exact hlaid.data j k (hmade j k hj hne) hk hne
  · exact hlaid.inj j j' k k' (hmade j k hj hne) (hmade j' k' hj' (heq ▸ hne)) hk hk' hne heq
  · exact hlaid.byte j p (hmade j _ hj hhas) hp hhas

/-! ## A block for a slot -/

/-- Slot `k` of inode `i` has a block, the next one if it had none. -/
structure Taken (st st' : Fs) (n f f' : Nat) (file : UInt32 → List UInt8) (i : UInt32)
    (k : Nat) : Prop where
  laid : Laid st' n f' file
  held : ∀ j l, Made n j → l < SLOTS → st'.held j l
    = if j = i ∧ l = k ∧ st.held i k = 0 then UInt32.ofNat f else st.held j l
  count : f' = f + if st.held i k = 0 then 1 else 0

theorem Taken.of_held (h : Laid st n f file) (hne : st.held i k ≠ 0) :
    Taken st st n f f file i k := by
  refine ⟨h, fun j l _ _ => ?_, ?_⟩
  · rw [if_neg fun hin => hne hin.2.2]
  · rw [if_neg hne, Nat.add_zero]

/-- What the next block in slot `k` must leave, and no byte of the file may be
in it yet. -/
theorem Taken.of_next (h : Laid st n f file) (hf : f < 2 ^ 32)
    (hzero : st.held i k = 0)
    (hheld : ∀ j l, Made n j → l < SLOTS → st'.held j l
      = if j = i ∧ l = k then UInt32.ofNat f else st.held j l)
    (hdisk : ∀ j l, Made n j → l < SLOTS → l ≠ NDIRECT → st.held j l ≠ 0 →
      st'.disk (st.held j l) = st.disk (st.held j l))
    (hfree : ∀ c : UInt32, f ≤ c.toNat → st'.disk c = st.disk c)
    (hpast : ∀ p, slotOf (p / BSIZE) = k → (file i).length ≤ p) :
    Taken st st' n f (f + 1) file i k := by
  have hnum : (UInt32.ofNat f).toNat = f := UInt32.toNat_ofNat_of_lt' hf
  have hfirst := h.first
  -- a slot holds what it did, or it is slot `k` and holds block `f`
  have hcase : ∀ j l, Made n j → l < SLOTS →
      (j = i ∧ l = k ∧ st'.held j l = UInt32.ofNat f) ∨ st'.held j l = st.held j l := by
    intro j l hj hl
    rw [hheld j l hj hl]
    by_cases hjl : j = i ∧ l = k
    · exact Or.inl ⟨hjl.1, hjl.2, if_pos hjl⟩
    · exact Or.inr (if_neg hjl)
  -- no slot held block `f`
  have hnew : ∀ j l, Made n j → l < SLOTS → st.held j l ≠ UInt32.ofNat f := by
    intro j l hj hl heq
    by_cases hne : st.held j l = 0
    · rw [hne] at heq
      have : (0 : UInt32).toNat = f := by rw [heq, hnum]
      have hmeta : nmeta = 59 := rfl
      change 0 = f at this
      omega
    · have := (h.data j l hj hl hne).2
      rw [heq, hnum] at this
      omega
  refine ⟨⟨by omega, fun j l hj hl hne => ?_, fun j j' l l' hj hj' hl hl' hne heq => ?_,
    fun j p hj hp hhas => ?_, fun c hc => ?_⟩, fun j l hj hl => ?_, ?_⟩
  · rcases hcase j l hj hl with ⟨_, _, hnext⟩ | hold
    · rw [hnext, hnum]
      omega
    · rw [hold] at hne ⊢
      have := h.data j l hj hl hne
      omega
  · rcases hcase j l hj hl with ⟨hji, hlk, hnext⟩ | hold
    · rcases hcase j' l' hj' hl' with ⟨hji', hlk', _⟩ | hold'
      · exact ⟨hji.trans hji'.symm, hlk.trans hlk'.symm⟩
      · exact absurd (hold' ▸ hnext ▸ heq).symm (hnew j' l' hj' hl')
    · rcases hcase j' l' hj' hl' with ⟨_, _, hnext'⟩ | hold'
      · exact absurd (hold ▸ hnext' ▸ heq) (hnew j l hj hl)
      · exact h.inj j j' l l' hj hj' hl hl' (hold ▸ hne) (hold ▸ hold' ▸ heq)
  · have hslot := slotOf_div_lt hp
    unfold byteAt
    rcases hcase j _ hj hslot with ⟨hji, hk, hnext⟩ | hold
    · -- the block is zero, and the file ends before it
      have hlen := hpast p hk
      rw [hnext, hfree _ (by omega), h.free _ (by omega), hji,
        List.getD_eq_default _ _ hlen]
      rfl
    · unfold Has at hhas
      rw [hold] at hhas ⊢
      rw [hdisk j _ hj hslot (slotOf_ne _) hhas]
      exact h.byte j p hj hp hhas
  · rw [hfree c (by omega)]
    exact h.free c (by omega)
  · rw [hheld j l hj hl]
    simp only [hzero, and_true]
  · rw [if_pos hzero]

/-- The next block in a direct slot, or as the indirect block. -/
theorem Taken.setAddr (h : Laid st n f file) (hf : f < 2 ^ 32) (hk : k ≤ NDIRECT)
    (hzero : st.held i k = 0) (hpast : ∀ p, slotOf (p / BSIZE) = k → (file i).length ≤ p) :
    Taken st (st.setAddr i (Fin.ofNat _ k) (UInt32.ofNat f)) n f (f + 1) file i k := by
  have hnum : (UInt32.ofNat f).toNat = f := UInt32.toNat_ofNat_of_lt' hf
  have hnext := h.free (UInt32.ofNat f) (Nat.le_of_eq hnum.symm)
  exact Taken.of_next h hf hzero (fun j l _ hl => held_setAddr hk hzero hnext hl)
    (fun _ _ _ _ _ _ => rfl) (fun _ _ => rfl) hpast

/-- The next block in a slot of the indirect block. -/
theorem Taken.setWord (h : Laid st n f file) (hf : f < 2 ^ 32) (hi : Made n i) {bn : Nat}
    (hind : st.held i NDIRECT ≠ 0)
    (hzero : st.held i (NDIRECT + 1 + bn) = 0)
    (hpast : ∀ p, slotOf (p / BSIZE) = NDIRECT + 1 + bn → (file i).length ≤ p) :
    Taken st (st.logWrite (st.held i NDIRECT) fun bp => bp.setWord bn (UInt32.ofNat f))
      n f (f + 1) file i (NDIRECT + 1 + bn) := by
  refine Taken.of_next h hf hzero (fun j l hj hl => ?_) (fun j l hj hl hl12 hne => ?_)
    (fun c hc => ?_) hpast
  · refine held_setWord hind bn _ hl fun hji hne heq => hji ?_
    exact (h.inj j i _ _ hj hi (by decide) (by decide) hne heq).1
  · refine logWrite_disk_ne _ _ fun heq => hl12 ?_
    exact (h.inj j i l _ hj hi hl (by decide) hne heq).2
  · apply logWrite_disk_ne
    rintro rfl
    have := (h.data i _ hi (by decide) hind).2
    omega

namespace Taken

/-- There is a block now, and no other slot has got one. -/
theorem slots (h : Taken st st' n f f' file i k) (hfirst : nmeta ≤ f) (hf : f < 2 ^ 32)
    {j : UInt32} {l : Nat} (hj : Made n j) (hl : l < SLOTS) :
    st'.held j l ≠ 0 ↔ st.held j l ≠ 0 ∨ (j = i ∧ l = k) := by
  have hnext : UInt32.ofNat f ≠ 0 := by
    intro heq
    have hnum : (UInt32.ofNat f).toNat = f := UInt32.toNat_ofNat_of_lt' hf
    have hmeta : nmeta = 59 := rfl
    rw [heq] at hnum
    change 0 = f at hnum
    omega
  rw [h.held j l hj hl]
  by_cases hjl : j = i ∧ l = k
  · obtain ⟨rfl, rfl⟩ := hjl
    by_cases hzero : st.held j l = 0
    · simp only [hzero, and_self, if_true, ne_eq, hnext, not_false_eq_true, or_true]
    · simp only [hzero, and_false, if_false, ne_eq, not_false_eq_true, true_or]
  · have hout : ¬(j = i ∧ l = k ∧ st.held i k = 0) := fun e => hjl ⟨e.1, e.2.1⟩
    rw [if_neg hout]
    simp only [hjl, or_false]

/-- If a block was taken, it is the last one. -/
theorem last (h : Taken st st' n f f' file i k) (hf : f < 2 ^ 32) (hi : Made n i)
    (hk : k < SLOTS) :
    (st.held i k ≠ 0 ∧ f' = f) ∨ (st'.held i k).toNat + 1 = f' := by
  have hcount := h.count
  by_cases hzero : st.held i k = 0
  · right
    rw [if_pos hzero] at hcount
    rw [h.held i k hi hk, if_pos ⟨rfl, rfl, hzero⟩, UInt32.toNat_ofNat',
      Nat.mod_eq_of_lt hf, hcount]
  · left
    rw [if_neg hzero] at hcount
    exact ⟨hzero, hcount⟩

end Taken

/-- The blocks that are missing for block `fbn` of the file, the indirect one
among them. -/
def missing (st : Fs) (i : UInt32) (fbn : Nat) : Nat :=
  (if st.held i (slotOf fbn) = 0 then 1 else 0)
    + if NDIRECT ≤ fbn ∧ st.held i NDIRECT = 0 then 1 else 0

theorem missing_le (st : Fs) (i : UInt32) (fbn : Nat) : missing st i fbn ≤ 2 := by
  unfold missing
  split <;> split <;> omega

/-- Block `fbn` of the file is block `x` of the disk. -/
structure Blocked (st st' : Fs) (n f f' : Nat) (file : UInt32 → List UInt8) (i : UInt32)
    (fbn : Nat) (x : UInt32) : Prop where
  laid : Laid st' n f' file
  held : st'.held i (slotOf fbn) = x
  ne : x ≠ 0
  slots : ∀ j k, Made n j → k < SLOTS → (st'.held j k ≠ 0 ↔
    st.held j k ≠ 0 ∨ (j = i ∧ (k = slotOf fbn ∨ (k = NDIRECT ∧ NDIRECT ≤ fbn))))
  count : f' = f + missing st i fbn
  last : f' = f ∨ x.toNat + 1 = f'

theorem Blocked.of_direct {fbn : Nat} (h : Taken st st' n f f' file i fbn)
    (hfirst : nmeta ≤ f) (hf : f < 2 ^ 32) (hi : Made n i) (hdirect : fbn < NDIRECT) :
    Blocked st st' n f f' file i fbn (st'.held i fbn) := by
  have hslot : slotOf fbn = fbn := if_pos hdirect
  have hslots := direct_lt (Nat.le_of_lt hdirect)
  have hnot : ¬NDIRECT ≤ fbn := by omega
  refine ⟨h.laid, by rw [hslot], (h.slots hfirst hf hi hslots).2 (Or.inr ⟨rfl, rfl⟩),
    fun j k hj hk => ?_, ?_, ?_⟩
  · rw [h.slots hfirst hf hj hk, hslot]
    simp only [hnot, and_false, or_false]
  · have hnone : ¬(NDIRECT ≤ fbn ∧ st.held i NDIRECT = 0) := fun e => hnot e.1
    rw [missing, hslot, if_neg hnone, Nat.add_zero]
    exact h.count
  · exact (h.last hf hi hslots).imp (fun e => e.2) id

/-- The indirect block, and a slot in it. -/
theorem Blocked.of_indirect {st₁ : Fs} {f₁ bn : Nat} (h : Taken st st₁ n f f₁ file i NDIRECT)
    (h' : Taken st₁ st' n f₁ f' file i (NDIRECT + 1 + bn)) (hfirst : nmeta ≤ f)
    (hf : f₁ < 2 ^ 32) (hi : Made n i) (hbn : bn < NINDIRECT) :
    Blocked st st' n f f' file i (NDIRECT + bn) (st'.held i (NDIRECT + 1 + bn)) := by
  have hslot : slotOf (NDIRECT + bn) = NDIRECT + 1 + bn := by
    rw [slotOf, if_neg (by omega)]
    omega
  have hslots := indirect_lt hbn
  have hne : NDIRECT + 1 + bn ≠ NDIRECT := by omega
  have hge : NDIRECT ≤ NDIRECT + bn := by omega
  have hcount := h.count
  have hcount' := h'.count
  have hsame : st₁.held i (NDIRECT + 1 + bn) = st.held i (NDIRECT + 1 + bn) := by
    rw [h.held i _ hi hslots, if_neg fun e => hne e.2.1]
  -- without the indirect block there is no slot in it
  have hindirect : st.held i NDIRECT = 0 → st.held i (NDIRECT + 1 + bn) = 0 := by
    intro hzero
    rw [held_indirect, if_pos hzero]
  refine ⟨h'.laid, by rw [hslot],
    (h'.slots h.laid.first hf hi hslots).2 (Or.inr ⟨rfl, rfl⟩), fun j k hj hk => ?_, ?_, ?_⟩
  · rw [h'.slots h.laid.first hf hj hk, h.slots hfirst (by omega) hj hk, hslot]
    simp only [hge, and_true]
    tauto
  · rw [hsame] at hcount'
    rw [missing, hslot, hcount', hcount]
    simp only [hge, true_and]
    omega
  · rcases h'.last hf hi hslots with ⟨hheld, heq⟩ | hlast
    · left
      rw [hsame] at hheld
      rw [if_neg (mt hindirect hheld)] at hcount
      omega
    · exact Or.inr hlast

/-! ## Bytes in a block -/

/-- Only between the ends is there another byte. -/
theorem getD_append_outside {l src : List UInt8} {p : Nat}
    (h : p < l.length ∨ l.length + src.length ≤ p) :
    (l ++ src).getD p 0 = l.getD p 0 := by
  rcases h with hlt | hge
  · exact List.getD_append _ _ _ _ hlt
  · rw [List.getD_append_right _ _ _ _ (by omega), List.getD_eq_default _ _ (by omega),
      List.getD_eq_default _ _ (by omega)]

/-- The file grows in the block that its end is in. -/
theorem Laid.write (h : Laid st n f file) (hi : Made n i) {off : Nat}
    (hoff : (file i).length = off) (hmax : off < MAXFILE * BSIZE) (hhas : st.Has i off)
    {src : List UInt8} (hsrc : src.length ≤ BSIZE - off % BSIZE)
    (hst' : st' = st.logWrite (st.held i (slotOf (off / BSIZE)))
      fun bp => bp.splice (off % BSIZE) src) :
    Laid st' n f (Function.update file i (file i ++ src))
      ∧ ∀ j k, Made n j → st'.held j k = st.held j k := by
  have hslot := slotOf_div_lt hmax
  have hdata := h.data i _ hi hslot hhas
  -- no slot but this one leads to the block that is written
  have hother : ∀ j l, Made n j → l < SLOTS → st.held j l ≠ 0 →
      ¬(j = i ∧ l = slotOf (off / BSIZE)) →
      st'.disk (st.held j l) = st.disk (st.held j l) := by
    intro j l hj hl hne hjl
    rw [hst', logWrite_disk_ne]
    intro heq
    exact hjl (h.inj j i l _ hj hi hl hslot hne heq)
  have hheld : ∀ j k, Made n j → st'.held j k = st.held j k := by
    intro j k hj
    apply Fs.held_congr (by rw [hst', logWrite_inode])
    intro hne
    exact hother j _ hj (by decide) hne fun e => slotOf_ne _ e.2.symm
  refine ⟨⟨h.first, fun j l hj hl hne => ?_, fun j j' l l' hj hj' hl hl' hne heq => ?_,
    fun j p hj hp hhasp => ?_, fun c hc => ?_⟩, hheld⟩
  · rw [hheld j l hj] at hne ⊢
    exact h.data j l hj hl hne
  · rw [hheld j l hj] at hne heq
    rw [hheld j' l' hj'] at heq
    exact h.inj j j' l l' hj hj' hl hl' hne heq
  · unfold Has at hhasp
    rw [hheld j _ hj] at hhasp
    have hold := h.byte j p hj hp hhasp
    have hp₀ := Nat.div_add_mod p BSIZE
    have ho₀ := Nat.div_add_mod off BSIZE
    by_cases hjk : j = i ∧ p / BSIZE = off / BSIZE
    · obtain ⟨rfl, hblock⟩ := hjk
      rw [byteAt, hblock] at hold
      rw [Function.update_self, byteAt, hheld j _ hj, hblock, hst', logWrite_disk_self,
        byte_splice]
      rw [hblock] at hp₀
      by_cases hin : off ≤ p ∧ p < off + src.length
      · have hidx : p % BSIZE - off % BSIZE = p - (file j).length := by omega
        rw [if_pos (by omega), List.getD_append_right _ _ _ _ (by omega), hidx]
      · rw [if_neg (by omega), hold, getD_append_outside (by omega)]
    · have hne : ¬(j = i ∧ slotOf (p / BSIZE) = slotOf (off / BSIZE)) :=
        fun e => hjk ⟨e.1, slotOf_inj e.2⟩
      rw [byteAt, hheld j _ hj, hother j _ hj (slotOf_div_lt hp) hhasp hne]
      rw [byteAt] at hold
      rw [hold]
      by_cases hji : j = i
      · -- an offset in another block is below the old end, or past the new one
        subst hji
        rw [Function.update_self]
        have hout : p < off ∨ off + src.length ≤ p := by
          rcases Nat.lt_or_ge p off with hlt | hge
          · exact Or.inl hlt
          · have hblock : off / BSIZE < p / BSIZE :=
              Nat.lt_of_le_of_ne (Nat.div_le_div_right hge) fun e => hjk ⟨rfl, e.symm⟩
            have hmul := Nat.mul_le_mul_left BSIZE hblock
            rw [Nat.mul_succ] at hmul
            omega
        rw [getD_append_outside (by omega)]
      · rw [Function.update_of_ne hji]
  · rw [hst', logWrite_disk_ne]
    · exact h.free c hc
    · rintro rfl
      exact absurd hc (Nat.not_le.2 hdata.2)

end SchoolStuff.Xv6.Mkfs
