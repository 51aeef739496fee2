import SchoolStuff.Lib.Splice
import SchoolStuff.Xv6.Bmap

/-!
# Xv6 — `readi` and `writei`

`Owned` is the state between two calls: the shape of the slots, a copy of
every inode that is the one on the disk, and a block for every byte below the
size of a file. Inside `writei` the copy may be ahead of the disk, but only
once the file has grown, and then `iupdate` comes (`writeLoop_spec`).
-/

namespace SchoolStuff.Xv6

/-! ## The inode on the disk -/

theorem firstShort_shorts (a b : Int16) : firstShort (shorts a b) = a := by
  have ha := a.toUInt16.toNat_lt
  have hb := b.toUInt16.toNat_lt
  have hsum : a.toUInt16.toNat + 2 ^ 16 * b.toUInt16.toNat < 2 ^ 32 := by omega
  have hnum : (shorts a b).toNat = a.toUInt16.toNat + 2 ^ 16 * b.toUInt16.toNat := by
    rw [shorts, UInt32.toNat_ofNat', Nat.mod_eq_of_lt hsum]
  have hword : UInt16.ofNat (a.toUInt16.toNat + 2 ^ 16 * b.toUInt16.toNat)
      = a.toUInt16 := by
    apply UInt16.toNat_inj.1
    rw [UInt16.toNat_ofNat']
    omega
  rw [firstShort, hnum, hword, Int16.toInt16_toUInt16]

theorem secondShort_shorts (a b : Int16) : secondShort (shorts a b) = b := by
  have ha := a.toUInt16.toNat_lt
  have hb := b.toUInt16.toNat_lt
  have hsum : a.toUInt16.toNat + 2 ^ 16 * b.toUInt16.toNat < 2 ^ 32 := by omega
  have hnum : (shorts a b).toNat / 2 ^ 16 = b.toUInt16.toNat := by
    rw [shorts, UInt32.toNat_ofNat', Nat.mod_eq_of_lt hsum]
    omega
  rw [secondShort, hnum, UInt16.ofNat_toNat, Int16.toInt16_toUInt16]

theorem length_words (ip : Inode) : ip.words.length = 16 := by
  simp [Inode.words]

/-- Writing an inode to its slot, and reading a slot of the block. -/
theorem dinode_setWords (b : Block) (ip : Inode) {s t : Nat} (hs : s < IPB)
    (ht : t < IPB) :
    dinode (b.setWords (16 * s) ip.words) t = if t = s then ip else dinode b t := by
  have hlen := length_words ip
  have hipb : 4 * (16 * IPB) = BSIZE := rfl
  -- the sixteen words of slot `t` are untouched, unless `t` is the slot written
  have hword : ∀ r < 16, (b.setWords (16 * s) ip.words).word (16 * t + r)
      = if t = s then ip.words.getD r 0 else b.word (16 * t + r) := by
    intro r hr
    rw [word_setWords (by omega) (by omega), hlen]
    by_cases h : t = s
    · have hr' : 16 * t + r - 16 * s = r := by omega
      rw [if_pos (by omega), if_pos h, hr']
    · rw [if_neg (by omega), if_neg h]
  have h0 := hword 0 (by decide)
  have h1 := hword 1 (by decide)
  have h2 := hword 2 (by decide)
  have hk : ∀ k : Fin (NDIRECT + 1),
      (b.setWords (16 * s) ip.words).word (16 * t + 3 + k)
        = if t = s then ip.addrs k else b.word (16 * t + 3 + k) := by
    intro k
    have hlt : 3 + k.val < 16 := by
      have hk := k.isLt
      have hdirect : NDIRECT = 12 := rfl
      omega
    have haddr : ip.words.getD (3 + k.val) 0 = ip.addrs k := by
      have hidx : 3 + k.val = k.val + 1 + 1 + 1 := by omega
      rw [Inode.words, hidx, List.getD_cons_succ, List.getD_cons_succ,
        List.getD_cons_succ, List.getD_eq_getElem?_getD, List.getElem?_ofFn,
        dif_pos k.isLt]
      rfl
    have := hword (3 + k.val) hlt
    rw [haddr] at this
    rw [Nat.add_assoc]
    exact this
  unfold dinode
  simp only [Nat.add_zero] at h0
  by_cases h : t = s
  · simp only [if_pos h] at h0 h1 h2 hk ⊢
    rw [h0, h1, h2]
    have hfields : firstShort (ip.words.getD 0 0) = ip.type
        ∧ secondShort (ip.words.getD 0 0) = ip.major
        ∧ firstShort (ip.words.getD 1 0) = ip.minor
        ∧ secondShort (ip.words.getD 1 0) = ip.nlink
        ∧ ip.words.getD 2 0 = ip.size := by
      simp [Inode.words, firstShort_shorts, secondShort_shorts]
    rw [hfields.1, hfields.2.1, hfields.2.2.1, hfields.2.2.2.1, hfields.2.2.2.2,
      funext hk]
  · simp only [if_neg h] at h0 h1 h2 hk ⊢
    rw [h0, h1, h2, funext hk]

/-- Two inodes of a block are the same if their slots are. -/
theorem slot_eq_iff {i j : UInt32} (hdiv : j.toNat / IPB = i.toNat / IPB) :
    j.toNat % IPB = i.toNat % IPB ↔ j = i := by
  constructor
  · intro hm
    apply UInt32.toNat_inj.1
    rw [← Nat.div_add_mod j.toNat IPB, ← Nat.div_add_mod i.toNat IPB, hdiv, hm]
  · rintro rfl
    rfl

namespace Fs

/-- The copy of inode `i` is the inode on the disk. -/
def Cached (st : Fs) (i : UInt32) : Prop := st.dinode i = st.inode i

theorem dinode_congr {st st' : Fs} (hsb : st'.sb = st.sb) {i : UInt32}
    (h : st'.disk (st.sb.iblock i) = st.disk (st.sb.iblock i)) :
    st'.dinode i = st.dinode i := by
  unfold dinode
  rw [hsb, h]

theorem dinode_iupdate {st : Fs} (hok : st.sb.Ok) {i j : UInt32}
    (hi : i.toNat < st.sb.ninodes.toNat) (hj : j.toNat < st.sb.ninodes.toNat) :
    (st.iupdate i).dinode j = if j = i then st.inode i else st.dinode j := by
  have hmod : ∀ i : UInt32, i.toNat % IPB < IPB := fun i => Nat.mod_lt _ (by decide)
  by_cases hblock : st.sb.iblock j = st.sb.iblock i
  · have hdiv : j.toNat / IPB = i.toNat / IPB := by
      have := SuperBlock.iblock_toNat hok hj
      rw [hblock, SuperBlock.iblock_toNat hok hi] at this
      omega
    unfold dinode iupdate
    rw [logWrite_sb, hblock, logWrite_disk_self, dinode_setWords _ _ (hmod i) (hmod j)]
    simp only [slot_eq_iff hdiv]
  · have hne : j ≠ i := by
      rintro rfl
      exact hblock rfl
    rw [if_neg hne]
    apply dinode_congr (logWrite_sb _ _ _)
    exact logWrite_disk_ne _ _ hblock

/-! ## Files between two calls -/

/-- Every block below the size of inode `i` is allocated. -/
def Sized (st : Fs) (i : UInt32) : Prop :=
  ∀ p < (st.inode i).size.toNat, p < MAXFILE * BSIZE ∧ st.Has i p

/-- The state between two calls: every block has one owner, the blocks below a
size are allocated, and the disk has each inode as it is in memory. -/
structure Owned (st : Fs) : Prop extends Shape st where
  cached : ∀ i : UInt32, i.toNat < st.sb.ninodes.toNat → st.Cached i
  sized : ∀ i, st.Allocated i → st.Sized i

/-- The bytes of inode `i` from offset `off` on. -/
def bytesAt (st : Fs) (i : UInt32) (off n : Nat) : List UInt8 :=
  (List.range' off n).map (st.byteAt i)

/-- The file that inode `i` is. -/
def content (st : Fs) (i : UInt32) : List UInt8 :=
  st.bytesAt i 0 (st.inode i).size.toNat

theorem bytesAt_append (st : Fs) (i : UInt32) (off m n : Nat) :
    st.bytesAt i off (m + n) = st.bytesAt i off m ++ st.bytesAt i (off + m) n := by
  simp only [bytesAt, ← List.map_append, List.range'_append_1]

/-- A byte of a block has the offset of the file in it. -/
theorem byte_mod (b : Block) (p : Nat) : b.byte (p % BSIZE) = b.byte p := by
  unfold Block.byte
  congr 1
  rw [Fin.ext_iff, Fin.val_ofNat, Fin.val_ofNat, Nat.mod_mod]

/-- The bytes that a turn of a loop works on are in one block. -/
theorem same_block {off t m : Nat} (hm : m ≤ BSIZE - off % BSIZE) (ht : t < m) :
    (off + t) / BSIZE = off / BSIZE ∧ (off + t) % BSIZE = off % BSIZE + t := by
  have hsize : 0 < BSIZE := by decide
  have hdm := Nat.div_add_mod off BSIZE
  have hlt : off % BSIZE + t < BSIZE := by
    have := Nat.mod_lt off hsize
    omega
  have hsplit : off + t = BSIZE * (off / BSIZE) + (off % BSIZE + t) := by omega
  constructor
  · rw [hsplit, Nat.mul_add_div hsize, Nat.div_eq_of_lt hlt, Nat.add_zero]
  · rw [hsplit, Nat.mul_add_mod, Nat.mod_eq_of_lt hlt]

theorem bytes_eq {st : Fs} {i : UInt32} {off m : Nat} (hm : m ≤ BSIZE - off % BSIZE) :
    (st.disk (st.held i (slotOf (off / BSIZE)))).bytes (off % BSIZE) m
      = st.bytesAt i off m := by
  apply List.ext_getElem
  · simp [Block.bytes, bytesAt]
  · intro t ht _
    have ht : t < m := by simpa [Block.bytes] using ht
    have hblock := same_block hm ht
    simp only [Block.bytes, bytesAt, List.getElem_map, List.getElem_range', Nat.one_mul]
    rw [byteAt, hblock.1, ← byte_mod _ (off + t), hblock.2]

/-! ## `readi` -/

theorem bmapAddr_of_held {st : Fs} {i : UInt32} {k : Nat} (hk : k ≤ NDIRECT)
    (hne : st.held i k ≠ 0) : st.bmapAddr i (Fin.ofNat _ k) = .ok (st.held i k, st) := by
  rw [held_direct _ _ hk] at hne ⊢
  simp only [bmapAddr, if_neg hne]

/-- `bmap` of a block that the file has changes nothing. -/
theorem bmap_of_held {st : Fs} {i : UInt32} {bn : Nat} (hbn : bn < MAXFILE)
    (hne : st.held i (slotOf bn) ≠ 0) :
    st.bmap i bn = .ok (st.held i (slotOf bn), st) := by
  unfold bmap
  by_cases hdirect : bn < NDIRECT
  · have hslot : slotOf bn = bn := if_pos hdirect
    rw [hslot] at hne ⊢
    rw [if_pos hdirect, bmapAddr_of_held (Nat.le_of_lt hdirect) hne]
  · have hmax : MAXFILE = NDIRECT + NINDIRECT := rfl
    have hslot : slotOf bn = NDIRECT + 1 + (bn - NDIRECT) := by
      rw [slotOf, if_neg hdirect]
      omega
    have hrange : bn - NDIRECT < NINDIRECT := by omega
    rw [hslot, held_indirect] at hne ⊢
    have hind : st.held i NDIRECT ≠ 0 := fun h => hne (if_pos h)
    rw [if_neg hind] at hne ⊢
    simp only [if_neg hdirect, if_pos hrange, bmapAddr_of_held (Nat.le_refl _) hind]
    exact if_neg hne

theorem chunk_le (off n : Nat) : chunk off n ≤ n ∧ chunk off n ≤ BSIZE - off % BSIZE := by
  unfold chunk
  omega

/-- **The loop of `readi`** over bytes that the file has. -/
theorem readLoop_spec {st : Fs} {i : UInt32} : ∀ n off : Nat,
    (∀ p, off ≤ p → p < off + n → p < MAXFILE * BSIZE ∧ st.Has i p) →
      st.readLoop i off n = .ok (st.bytesAt i off n, st) := by
  intro n
  induction n using Nat.strongRecOn with
  | ind n ih =>
      intro off hhas
      unfold readLoop
      by_cases hn : n = 0
      · subst hn
        rfl
      · have hpos := chunk_pos off hn
        have hle := chunk_le off n
        have hoff := hhas off (Nat.le_refl _) (by omega)
        have hbn : off / BSIZE < MAXFILE :=
          Nat.div_lt_of_lt_mul (by rw [Nat.mul_comm]; exact hoff.1)
        have hrest := ih (n - chunk off n) (by omega) (off + chunk off n)
          fun p hp hlt => hhas p (by omega) (by omega)
        rw [dif_neg hn, bmap_of_held hbn hoff.2]
        change (st.readLoop i (off + chunk off n) (n - chunk off n) >>= _) = _
        rw [hrest]
        change Except.ok (_ ++ _, st) = _
        have hn' : n = chunk off n + (n - chunk off n) := by omega
        rw [bytes_eq hle.2, ← bytesAt_append, ← hn']

/-- `readi` of a file that is an array of bytes. -/
def flatRead (f : List UInt8) (off n : UInt32) : Option (List UInt8) :=
  if off.toNat > f.length ∨ off.toNat + n.toNat ≥ 2 ^ 32 then none
  else some ((f.drop off.toNat).take n.toNat)

theorem length_content (st : Fs) (i : UInt32) :
    (st.content i).length = (st.inode i).size.toNat := by
  simp [content, bytesAt]

theorem content_slice {st : Fs} {i : UInt32} {off n : Nat}
    (h : off + n ≤ (st.inode i).size.toNat) :
    ((st.content i).drop off).take n = st.bytesAt i off n := by
  apply List.ext_getElem
  · simp only [List.length_take, List.length_drop, length_content, bytesAt,
      List.length_map, List.length_range']
    omega
  · intro t _ _
    simp only [List.getElem_take, List.getElem_drop, content, bytesAt,
      List.getElem_map, List.getElem_range', Nat.one_mul, Nat.zero_add]

theorem wraps_iff (a b : UInt32) : a + b < a ↔ a.toNat + b.toNat ≥ 2 ^ 32 := by
  have ha := a.toNat_lt
  have hb := b.toNat_lt
  rw [UInt32.lt_iff_toNat_lt, UInt32.toNat_add]
  omega

/-- **`readi`** reads the array, and changes nothing. -/
theorem readi_spec {st : Fs} (h : st.Owned) {i : UInt32} (hi : st.Allocated i)
    (hdev : (st.inode i).type ≠ T_DEV) (off n : UInt32) :
    st.readi i off n = .ok (flatRead (st.content i) off n, st) := by
  have hsized := h.sized i hi
  have hfail : (off > (st.inode i).size ∨ off + n < off)
      ↔ (off.toNat > (st.content i).length ∨ off.toNat + n.toNat ≥ 2 ^ 32) := by
    rw [wraps_iff, length_content, gt_iff_lt, UInt32.lt_iff_toNat_lt]
  unfold readi flatRead
  simp only [if_neg hdev, hfail]
  split
  · rfl
  · rename_i hin
    rw [length_content] at hin
    have hadd : (off + n).toNat = off.toNat + n.toNat := by
      rw [UInt32.toNat_add]
      omega
    have hle : off ≤ (st.inode i).size := by
      rw [UInt32.le_iff_toNat_le]
      omega
    have hcount : (if off + n > (st.inode i).size then (st.inode i).size - off
        else n).toNat = min n.toNat ((st.inode i).size.toNat - off.toNat) := by
      split
      · rename_i hgt
        rw [gt_iff_lt, UInt32.lt_iff_toNat_lt, hadd] at hgt
        rw [UInt32.toNat_sub_of_le _ _ hle]
        omega
      · rename_i hgt
        rw [gt_iff_lt, UInt32.lt_iff_toNat_lt, hadd] at hgt
        omega
    rw [hcount, readLoop_spec _ _ fun p hp hlt => hsized p (by omega)]
    change Except.ok (some _, st) = _
    have hall : ((st.content i).drop off.toNat).take
        ((st.inode i).size.toNat - off.toNat) = (st.content i).drop off.toNat := by
      apply List.take_of_length_le
      apply Nat.le_of_eq
      rw [List.length_drop, length_content]
    rw [← content_slice (by omega), ← List.take_take, hall]

/-! ## `writei` -/

/-- A write into the block of an offset that the file has. -/
theorem splice_spec {st : Fs} (h : st.Shape) {i : UInt32} (hi : st.Allocated i)
    {off : Nat} (hoff : off < MAXFILE * BSIZE) (hhas : st.Has i off) (src : List UInt8)
    (hsrc : src.length ≤ BSIZE - off % BSIZE) :
    (st.logWrite (st.held i (slotOf (off / BSIZE)))
        fun bp => bp.splice (off % BSIZE) src).Shape
      ∧ Wrote st (st.logWrite (st.held i (slotOf (off / BSIZE)))
          fun bp => bp.splice (off % BSIZE) src) i off src := by
  have hslot := slotOf_div_lt hoff
  have hdata := h.data i _ hi hslot hhas
  -- no slot but this one leads to the block that is written
  have hother := fun j k => h.held_ne (j := j) (l := k) hi hslot
  have hheld : ∀ j k, st.Allocated j → (st.logWrite (st.held i (slotOf (off / BSIZE)))
      fun bp => bp.splice (off % BSIZE) src).held j k = st.held j k := by
    intro j k hj
    apply held_congr (by rw [logWrite_inode])
    intro hne
    exact logWrite_disk_ne _ _
      (hother j _ hj (by decide) hne fun e => slotOf_ne _ e.2.symm)
  have hlow : ∀ c : UInt32, c.toNat < st.sb.bmapstart.toNat →
      c ≠ st.held i (slotOf (off / BSIZE)) := by
    rintro c hc rfl
    have := hdata.1.gt
    omega
  constructor
  · apply h.frame (logWrite_sb _ _ _)
    · unfold readsb
      rw [logWrite_disk_ne _ _ (hlow 1 h.ok.one_lt)]
    · intro b hb hused
      rw [used_logWrite h.ok hdata.1.not_bitmap _ (Nat.le_of_lt hb)]
      exact hused
    · exact fun _ hj => hj
    · exact fun j k hj _ => hheld j k hj
  · refine ⟨rfl, fun _ => rfl, fun _ _ => rfl, fun j k hj _ _ => hheld j k hj,
      fun c hc => logWrite_disk_ne _ _ (hlow c hc), fun j p hj hp hhasp hout => ?_,
      fun t ht => ?_⟩
    · unfold byteAt
      rw [hheld j _ hj]
      by_cases hjk : j = i ∧ slotOf (p / BSIZE) = slotOf (off / BSIZE)
      · have hblock := slotOf_inj hjk.2
        rw [hjk.1, hjk.2, logWrite_disk_self, byte_splice, if_neg]
        intro hin
        have hp := Nat.div_add_mod p BSIZE
        have ho := Nat.div_add_mod off BSIZE
        rw [hblock] at hp
        exact hout ⟨hjk.1, by omega, by omega⟩
      · rw [logWrite_disk_ne _ _
          (hother j _ hj (slotOf_div_lt hp) hhasp hjk)]
    · have hblock := same_block hsrc ht
      constructor
      · unfold Has
        rw [hheld i _ hi, hblock.1]
        exact hhas
      · have hrange : off % BSIZE ≤ off % BSIZE + t
            ∧ off % BSIZE + t < off % BSIZE + src.length := by omega
        have hidx : off % BSIZE + t - off % BSIZE = t := by omega
        rw [byteAt, hheld i _ hi, hblock.1, logWrite_disk_self, byte_splice, hblock.2,
          if_pos hrange, hidx]
        simp [ht]

namespace Wrote

variable {st st' : Fs} {i j : UInt32} {off : Nat} {src : List UInt8}

theorem dinode (h : Wrote st st' i off src) (hok : st.sb.Ok)
    (hj : j.toNat < st.sb.ninodes.toNat) : st'.dinode j = st.dinode j :=
  dinode_congr h.sb (h.low _ (SuperBlock.iblock_lt hok hj).2)

theorem cached (h : Wrote st st' i off src) (hok : st.sb.Ok)
    (hj : j.toNat < st.sb.ninodes.toNat) (hji : j ≠ i) (hcached : st.Cached j) :
    st'.Cached j := by
  rw [Cached, h.dinode hok hj, hcached, h.others j hji]

theorem sized (h : Wrote st st' i off src) (hj : st.Allocated j) (hsized : st.Sized j) :
    st'.Sized j := by
  intro p hp
  rw [h.size] at hp
  have := hsized p hp
  exact ⟨this.1, h.has hj this.1 this.2⟩

end Wrote

/-- The copy is the inode on the disk, or the file has grown past its size. -/
def Late (st : Fs) (i : UInt32) (off : Nat) : Prop :=
  st.Cached i ∨ (st.inode i).size.toNat < off

/-- **The loop of `writei`** writes its bytes to the file. -/
theorem writeLoop_spec {i : UInt32} : ∀ (n : Nat) (src : List UInt8), src.length = n →
    ∀ (off : Nat) (st : Fs), st.Shape → st.Allocated i → st.Sized i → st.Late i off →
      off + n ≤ MAXFILE * BSIZE →
      Ends (· = .ballocOutOfBlocks) (st.writeLoop i off src) fun st' =>
        st'.Shape ∧ Wrote st st' i off src ∧ st'.Late i (off + n) := by
  intro n
  induction n using Nat.strongRecOn with
  | ind n ih =>
      intro src hlen off st h hi hsized hlate hmax
      unfold writeLoop
      by_cases hn : src.length = 0
      · have hsrc : src = [] := List.length_eq_zero_iff.1 hn
        subst hsrc
        rw [dif_pos hn]
        refine ⟨h, Wrote.refl st i off, ?_⟩
        rw [← hlen]
        exact hlate
      · have hpos := chunk_pos off hn
        have hle := chunk_le off src.length
        have hoff : off < MAXFILE * BSIZE := by omega
        have hbn := div_lt_maxfile hoff
        rw [dif_neg hn]
        apply (bmap_spec h hi hbn).bind
        rintro ⟨b, st₁⟩ (h₁ : Mapped st i (slotOf (off / BSIZE)) b st₁)
        have hb : b = st₁.held i (slotOf (off / BSIZE)) := h₁.held.symm
        have hhas₁ : st₁.Has i off := by
          unfold Has
          rw [← hb]
          exact h₁.ne
        have hi₁ := (h₁.allocated i).2 hi
        have htake : (src.take (chunk off src.length)).length
            = chunk off src.length := by
          rw [List.length_take]
          omega
        obtain ⟨hshape₂, hwrote₂⟩ := splice_spec h₁.shape hi₁ hoff
          hhas₁ (src.take (chunk off src.length)) (by omega)
        have hwrote : Wrote st _ i off ([] ++ src.take (chunk off src.length)) :=
          (h₁.wrote off).trans hwrote₂ hi fun t ht => absurd ht (Nat.not_lt_zero t)
        rw [List.nil_append] at hwrote
        rw [← hb] at hshape₂ hwrote hwrote₂
        have hi₂ := (hwrote.allocated i).2 hi
        -- a block that is new lies past the size, and the file grows over it
        have hlate₂ : (st₁.logWrite b fun bp => bp.splice (off % BSIZE)
            (src.take (chunk off src.length))).Late i (off + chunk off src.length) := by
          unfold Late
          rw [hwrote.size]
          by_cases hhas : st.Has i off
          · have hst : st₁ = st := h₁.same hhas
            rcases hlate with hcached | hpast
            · left
              unfold Cached
              rw [hwrote.dinode h.ok hi.1, hcached, logWrite_inode, hst]
            · right
              omega
          · right
            by_contra hsize
            exact hhas (hsized off (by omega)).2
        have hsized₂ := hwrote.sized hi hsized
        have hdrop : (src.drop (chunk off src.length)).length
            = n - chunk off src.length := by
          rw [List.length_drop, hlen]
        apply (ih _ (by omega) _ hdrop (off + chunk off src.length) _ hshape₂ hi₂ hsized₂
          hlate₂ (by omega)).mono
        rintro st' ⟨hshape', hwrote', hlate'⟩
        have hoff' : off + chunk off src.length
            = off + (src.take (chunk off src.length)).length := by rw [htake]
        rw [hoff'] at hwrote'
        refine ⟨hshape', ?_, ?_⟩
        · have := hwrote.trans hwrote' hi fun t ht => by omega
          rwa [List.take_append_drop] at this
        · have hend : off + chunk off src.length + (n - chunk off src.length) = off + n := by
            omega
          rwa [hend] at hlate'

/-! ## A new size -/

/-- Only the size of inode `i` has changed, in its copy and on the disk. -/
structure Resized (st st' : Fs) (i size : UInt32) : Prop where
  shape : st'.Shape
  sb : st'.sb = st.sb
  inode : ∀ j, st'.inode j
    = if j = i then { st.inode i with size := size } else st.inode j
  dinode : ∀ j : UInt32, j.toNat < st.sb.ninodes.toNat →
    st'.dinode j = if j = i then { st.inode i with size := size } else st.dinode j
  held : ∀ j k, st.Allocated j → st'.held j k = st.held j k
  bytes : ∀ j p, st.Allocated j → p < MAXFILE * BSIZE → st.Has j p →
    st'.byteAt j p = st.byteAt j p

theorem held_setSize (st : Fs) (i size j : UInt32) (k : Nat) :
    (st.setSize i size).held j k = st.held j k := by
  have haddrs : ((st.setSize i size).inode j).addrs = (st.inode j).addrs := by
    by_cases hj : j = i
    · rw [hj, setSize, setInode_self]
    · rw [setSize, setInode_ne _ _ hj]
  unfold held
  rw [haddrs]
  rfl

/-- **A new size**, and `iupdate`. -/
theorem resize_spec {st : Fs} (h : st.Shape) {i : UInt32} (hi : st.Allocated i)
    (size : UInt32) : Resized st ((st.setSize i size).iupdate i) i size := by
  have hok : (st.setSize i size).sb.Ok := h.ok
  have hblock := SuperBlock.iblock_lt h.ok hi.1
  -- the data blocks of a file lie behind the blocks of the inodes
  have hdata : ∀ {c}, st.sb.Data c → c ≠ st.sb.iblock i := by
    rintro c hc rfl
    have := hc.gt
    omega
  have hinode : ∀ j, ((st.setSize i size).iupdate i).inode j
      = if j = i then { st.inode i with size := size } else st.inode j := by
    intro j
    by_cases hj : j = i
    · rw [if_pos hj, hj, iupdate, logWrite_inode, setSize, setInode_self]
    · rw [if_neg hj, iupdate, logWrite_inode, setSize, setInode_ne _ _ hj]
  have halloc : ∀ j, ((st.setSize i size).iupdate i).Allocated j → st.Allocated j := by
    intro j hj
    unfold Allocated at hj
    rw [hinode j] at hj
    by_cases hji : j = i
    · rw [hji]
      exact hi
    · rw [if_neg hji] at hj
      exact hj
  have hheld : ∀ j k, st.Allocated j →
      ((st.setSize i size).iupdate i).held j k = st.held j k := by
    intro j k hj
    rw [← held_setSize st i size j k]
    apply held_congr (by rw [iupdate, logWrite_inode])
    intro hne
    rw [held_setSize] at hne ⊢
    exact logWrite_disk_ne _ _ (hdata (h.data j _ hj (by decide) hne).1)
  have hsb : ((st.setSize i size).iupdate i).sb = st.sb := rfl
  refine ⟨?_, hsb, hinode, fun j hj => ?_, hheld, fun j p hj hp hhas => ?_⟩
  · apply h.frame hsb
    · exact readsb_logWrite hblock.1 _
    · intro b hb hused
      have hbitmap : ¬(st.setSize i size).sb.Bitmap (st.sb.iblock i) := by
        intro hbitmap
        have := hbitmap.1
        change st.sb.bmapstart.toNat ≤ _ at this
        omega
      have hsame := used_logWrite hok hbitmap (fun bp =>
        bp.setWords (16 * (i.toNat % IPB)) ((st.setSize i size).inode i).words)
        (Nat.le_of_lt hb)
      exact hsame.trans hused
    · exact halloc
    · exact fun j k hj _ => hheld j k (halloc j hj)
  · rw [dinode_iupdate hok hi.1 hj, setSize, setInode_self]
    rfl
  · unfold byteAt
    rw [hheld j _ hj, iupdate, logWrite_disk_ne]
    · rfl
    · exact hdata (h.data j _ hj (slotOf_div_lt hp) hhas).1

/-- `writei` to a file that is an array of bytes. -/
def flatWrite (f : List UInt8) (off : UInt32) (src : List UInt8) :
    Option (List UInt8) :=
  if off.toNat > f.length ∨ off.toNat + src.length ≥ 2 ^ 32
      ∨ off.toNat + src.length > MAXFILE * BSIZE then none
  else some (splice f off.toNat src)

theorem getElem?_content (st : Fs) (i : UInt32) (p : Nat) :
    (st.content i)[p]?
      = if p < (st.inode i).size.toNat then some (st.byteAt i p) else none := by
  unfold content bytesAt
  by_cases hp : p < (st.inode i).size.toNat
  · rw [if_pos hp, List.getElem?_map, List.getElem?_range' hp, Option.map_some,
      Nat.one_mul, Nat.zero_add]
  · rw [if_neg hp, List.getElem?_eq_none]
    simp only [List.length_map, List.length_range']
    omega

theorem content_congr {st st' : Fs} {j : UInt32}
    (hsize : (st'.inode j).size = (st.inode j).size)
    (hbytes : ∀ p < (st.inode j).size.toNat, st'.byteAt j p = st.byteAt j p) :
    st'.content j = st.content j := by
  apply List.ext_getElem?
  intro p
  rw [getElem?_content, getElem?_content, hsize]
  by_cases hp : p < (st.inode j).size.toNat
  · rw [if_pos hp, if_pos hp, hbytes p hp]
  · rw [if_neg hp, if_neg hp]

/-- Nothing but the content of inode `i` has changed from `st` to `st'`. -/
structure Other (st st' : Fs) (i : UInt32) : Prop where
  allocated : ∀ j, st'.Allocated j ↔ st.Allocated j
  type : ∀ j, (st'.inode j).type = (st.inode j).type
  content : ∀ j, j ≠ i → st.Allocated j → st'.content j = st.content j

theorem Other.refl (st : Fs) (i : UInt32) : Other st st i :=
  ⟨fun _ => Iff.rfl, fun _ => rfl, fun _ _ _ => rfl⟩

theorem Other.trans {st st₁ st' : Fs} {i : UInt32} (h : Other st st₁ i)
    (h' : Other st₁ st' i) : Other st st' i := by
  refine ⟨fun j => (h'.allocated j).trans (h.allocated j),
    fun j => (h'.type j).trans (h.type j), fun j hji hj => ?_⟩
  rw [h'.content j hji ((h.allocated j).2 hj), h.content j hji hj]

namespace Resized

variable {st st' : Fs} {i size : UInt32}

theorem inode_self (h : Resized st st' i size) :
    st'.inode i = { st.inode i with size := size } := by
  rw [h.inode i, if_pos rfl]

theorem inode_ne (h : Resized st st' i size) {j : UInt32} (hji : j ≠ i) :
    st'.inode j = st.inode j := by
  rw [h.inode j, if_neg hji]

theorem type (h : Resized st st' i size) (j : UInt32) :
    (st'.inode j).type = (st.inode j).type := by
  by_cases hji : j = i
  · rw [hji, h.inode_self]
  · rw [h.inode_ne hji]

theorem allocated (h : Resized st st' i size) (j : UInt32) :
    st'.Allocated j ↔ st.Allocated j := by
  unfold Allocated
  rw [h.sb, h.type]

theorem has (h : Resized st st' i size) {j : UInt32} {p : Nat} (hj : st.Allocated j)
    (hhas : st.Has j p) : st'.Has j p := by
  unfold Has
  rw [h.held j _ hj]
  exact hhas

/-- The other inodes are right before, and inode `i` has a block for every
byte below its new size. -/
theorem owned (h : Resized st st' i size) (hi : st.Allocated i)
    (hcached : ∀ j : UInt32, j.toNat < st.sb.ninodes.toNat → j ≠ i → st.Cached j)
    (hsized : ∀ j, st.Allocated j → j ≠ i → st.Sized j)
    (hhas : ∀ p < size.toNat, p < MAXFILE * BSIZE ∧ st.Has i p) : st'.Owned := by
  refine ⟨h.shape, fun j hj => ?_, fun j hj p hp => ?_⟩
  · rw [h.sb] at hj
    unfold Cached
    rw [h.dinode j hj, h.inode j]
    by_cases hji : j = i
    · rw [if_pos hji, if_pos hji]
    · rw [if_neg hji, if_neg hji]
      exact hcached j hj hji
  · rw [h.allocated] at hj
    by_cases hji : j = i
    · rw [hji, h.inode_self] at hp
      rw [hji]
      exact ⟨(hhas p hp).1, h.has hi (hhas p hp).2⟩
    · rw [h.inode_ne hji] at hp
      have := hsized j hj hji p hp
      exact ⟨this.1, h.has hj this.2⟩

theorem other (h : Resized st st' i size)
    (hsized : ∀ j, st.Allocated j → j ≠ i → st.Sized j) : Other st st' i := by
  refine ⟨h.allocated, h.type, fun j hji hj => ?_⟩
  apply content_congr (by rw [h.inode_ne hji])
  intro p hp
  have := hsized j hj hji p hp
  exact h.bytes j p hj this.1 this.2

end Resized

/-! ## What `writei` leaves -/

namespace Wrote

variable {st st' st'' : Fs} {i : UInt32} {off : Nat} {src : List UInt8}

/-- The file has not grown. -/
theorem owned (hwrote : Wrote st st' i off src) (h : st.Owned) (hshape : st'.Shape)
    (hi : st'.Cached i) : st'.Owned := by
  refine ⟨hshape, fun j hj => ?_, fun j hj => ?_⟩
  · rw [hwrote.sb] at hj
    by_cases hji : j = i
    · rw [hji]
      exact hi
    · exact hwrote.cached h.ok hj hji (h.cached j hj)
  · have hj₀ := (hwrote.allocated j).1 hj
    exact hwrote.sized hj₀ (h.sized j hj₀)

theorem other (hwrote : Wrote st st' i off src) (h : st.Owned) : Other st st' i := by
  refine ⟨hwrote.allocated, fun j => ?_, fun j hji hj => ?_⟩
  · rw [hwrote.inode j]
  · apply content_congr (hwrote.size j)
    intro p hp
    have := h.sized j hj p hp
    exact hwrote.old j p hj this.1 this.2 fun hin => hji hin.1

/-- The file has grown and has its new size. -/
theorem grown {size : UInt32} (hwrote : Wrote st st' i off src) (h : st.Owned)
    (hi : st.Allocated i) (hres : Resized st' st'' i size)
    (hhas : ∀ p < size.toNat, p < MAXFILE * BSIZE ∧ st'.Has i p) :
    st''.Owned ∧ Other st st'' i := by
  have hsized : ∀ j, st'.Allocated j → j ≠ i → st'.Sized j := by
    intro j hj _
    have hj₀ := (hwrote.allocated j).1 hj
    exact hwrote.sized hj₀ (h.sized j hj₀)
  have hcached : ∀ j : UInt32, j.toNat < st'.sb.ninodes.toNat → j ≠ i → st'.Cached j := by
    intro j hj hji
    rw [hwrote.sb] at hj
    exact hwrote.cached h.ok hj hji (h.cached j hj)
  exact ⟨hres.owned ((hwrote.allocated i).2 hi) hcached hsized hhas,
    (hwrote.other h).trans (hres.other hsized)⟩

/-- There is a block for what was in the file, and for what is written. -/
theorem has_below (hwrote : Wrote st st' i off src) (hi : st.Allocated i)
    (hsized : st.Sized i) (hoff : off ≤ (st.inode i).size.toNat) {p : Nat}
    (hp : p < off + src.length) : st'.Has i p := by
  by_cases hlt : p < (st.inode i).size.toNat
  · have := hsized p hlt
    exact hwrote.has hi this.1 this.2
  · have hidx : off + (p - off) = p := by omega
    have := (hwrote.new (p - off) (by omega)).1
    rwa [hidx] at this

/-- The bytes of the file after the loop of `writei`. -/
theorem byte (hwrote : Wrote st st' i off src) (h : st.Owned) (hi : st.Allocated i)
    {p : Nat} (hp : p < max (st.inode i).size.toNat (off + src.length))
    (hoff : off ≤ (st.inode i).size.toNat) :
    some (st'.byteAt i p) = (splice (st.content i) off src)[p]? := by
  rw [getElem?_splice (by rw [length_content]; exact hoff), getElem?_content]
  by_cases hin : off ≤ p ∧ p < off + src.length
  · have hidx : off + (p - off) = p := by omega
    have hbyte := (hwrote.new (p - off) (by omega)).2
    rw [hidx] at hbyte
    rw [if_pos hin, hbyte, List.getElem?_eq_getElem]
  · have hlt : p < (st.inode i).size.toNat := by omega
    have := h.sized i hi p hlt
    rw [if_neg hin, if_pos hlt, hwrote.old i p hi this.1 this.2 fun hw => hin hw.2]

/-- The file, once its size covers what is written. -/
theorem content_eq (hwrote : Wrote st st' i off src) (h : st.Owned) (hi : st.Allocated i)
    (hoff : off ≤ (st.inode i).size.toNat)
    (hsize : (st''.inode i).size.toNat
      = max (st.inode i).size.toNat (off + src.length))
    (hbytes : ∀ p < (st''.inode i).size.toNat, st''.byteAt i p = st'.byteAt i p) :
    st''.content i = splice (st.content i) off src := by
  have hlen : (splice (st.content i) off src).length
      = max (st.inode i).size.toNat (off + src.length) := by
    rw [length_splice (by rw [length_content]; exact hoff), length_content]
  apply List.ext_getElem?
  intro p
  rw [getElem?_content]
  by_cases hp : p < (st''.inode i).size.toNat
  · rw [if_pos hp, hbytes p hp, hwrote.byte h hi (hsize ▸ hp) hoff]
  · rw [if_neg hp, List.getElem?_eq_none]
    rw [hlen, ← hsize]
    omega

end Wrote

/-- What a call of `writei` returns and changes. -/
def WriteDone (st : Fs) (i off : UInt32) (src : List UInt8)
    (r : Option UInt32 × Fs) : Prop :=
  match flatWrite (st.content i) off src with
  | none => r = (none, st)
  | some f => r.1 = some (UInt32.ofNat src.length) ∧ r.2.content i = f

/-- **`writei`** writes the array, or returns -1 and changes nothing. -/
theorem writei_spec {st : Fs} (h : st.Owned) {i : UInt32} (hi : st.Allocated i)
    (hdev : (st.inode i).type ≠ T_DEV) (off : UInt32) {src : List UInt8}
    (hsrc : src.length < 2 ^ 32) :
    Ends (· = .ballocOutOfBlocks) (st.writei i off src) fun r =>
      r.2.Owned ∧ Other st r.2 i ∧ WriteDone st i off src r := by
  have hn : (UInt32.ofNat src.length).toNat = src.length := UInt32.toNat_ofNat_of_lt' hsrc
  have hnone : flatWrite (st.content i) off src = none →
      st.Owned ∧ Other st st i ∧ WriteDone st i off src (none, st) := by
    intro hflat
    refine ⟨h, Other.refl st i, ?_⟩
    rw [WriteDone, hflat]
  have hfail : (off > (st.inode i).size ∨ off + UInt32.ofNat src.length < off)
      ↔ (off.toNat > (st.content i).length ∨ off.toNat + src.length ≥ 2 ^ 32) := by
    rw [wraps_iff, length_content, gt_iff_lt, UInt32.lt_iff_toNat_lt, hn]
  unfold writei
  simp only [if_neg hdev, hfail]
  split
  · rename_i hout
    exact hnone (if_pos (by omega))
  rename_i hin
  have hadd : (off + UInt32.ofNat src.length).toNat = off.toNat + src.length := by
    rw [UInt32.toNat_add, hn]
    omega
  have hmax : (off + UInt32.ofNat src.length > UInt32.ofNat (MAXFILE * BSIZE))
      ↔ off.toNat + src.length > MAXFILE * BSIZE := by
    rw [gt_iff_lt, UInt32.lt_iff_toNat_lt, hadd]
    exact Iff.rfl
  simp only [hmax]
  split
  · rename_i hout
    exact hnone (if_pos (by omega))
  rename_i hfits
  have hflat : flatWrite (st.content i) off src
      = some (splice (st.content i) off.toNat src) := if_neg (by omega)
  rw [length_content] at hin
  have hoff : off.toNat ≤ (st.inode i).size.toNat := by omega
  apply (writeLoop_spec src.length src rfl off.toNat st h.toShape hi (h.sized i hi)
    (Or.inl (h.cached i hi.1)) (by omega)).bind
  rintro st' ⟨hshape, hwrote, hlate⟩
  have hi' := (hwrote.allocated i).2 hi
  have hgrows : (UInt32.ofNat src.length > 0
      ∧ off + UInt32.ofNat src.length > (st'.inode i).size)
      ↔ (st.inode i).size.toNat < off.toNat + src.length := by
    rw [hwrote.size, gt_iff_lt, gt_iff_lt, UInt32.lt_iff_toNat_lt,
      UInt32.lt_iff_toNat_lt, hadd, hn]
    change 0 < src.length ∧ _ ↔ _
    omega
  simp only [hgrows]
  unfold WriteDone
  rw [hflat]
  split
  · -- the file grows: its new size goes to the disk, and with it the copy
    -- of the inode that `bmap` left behind
    rename_i hgrow
    have hres := resize_spec hshape hi' (off + UInt32.ofNat src.length)
    have hhas : ∀ p < (off + UInt32.ofNat src.length).toNat,
        p < MAXFILE * BSIZE ∧ st'.Has i p := by
      intro p hp
      rw [hadd] at hp
      exact ⟨by omega, hwrote.has_below hi (h.sized i hi) hoff hp⟩
    obtain ⟨howned, hother⟩ := hwrote.grown h hi hres hhas
    refine ⟨howned, hother, rfl, hwrote.content_eq h hi hoff ?_ fun p hp => ?_⟩
    · rw [hres.inode_self]
      change (off + UInt32.ofNat src.length).toNat = _
      omega
    · rw [hres.inode_self] at hp
      have := hhas p hp
      exact hres.bytes i p hi' this.1 this.2
  · -- it does not: then no block was missing, and the copy is the disk's
    rename_i hgrow
    have hcached : st'.Cached i := by
      rcases hlate with hcached | hpast
      · exact hcached
      · rw [hwrote.size] at hpast
        exact absurd hpast hgrow
    refine ⟨hwrote.owned h hshape hcached, hwrote.other h, rfl,
      hwrote.content_eq h hi hoff ?_ fun _ _ => rfl⟩
    rw [hwrote.size]
    omega

end Fs

end SchoolStuff.Xv6
