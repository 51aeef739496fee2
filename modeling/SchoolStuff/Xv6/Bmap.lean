import SchoolStuff.Xv6.Owned

/-!
# Xv6 — `bmap`

`byteAt i p` is the byte at offset `p` of inode `i`. `Wrote st st' i off src`
says that `src` is now at offset `off` of inode `i`, and that no other byte
and no slot in use has changed; `bmap` writes nothing (`bmap_spec`), and
writes after each other are one (`Wrote.trans`).
-/

namespace SchoolStuff.Xv6.Fs

theorem direct_lt {k : Nat} (hk : k ≤ NDIRECT) : k < SLOTS :=
  Nat.lt_of_le_of_lt hk (by decide)

theorem indirect_lt {bn : Nat} (hbn : bn < NINDIRECT) : NDIRECT + 1 + bn < SLOTS := by
  have hslots : SLOTS = NDIRECT + 1 + NINDIRECT := rfl
  omega

theorem slotOf_lt {bn : Nat} (h : bn < MAXFILE) : slotOf bn < SLOTS := by
  have hslots : SLOTS = MAXFILE + 1 := rfl
  unfold slotOf
  split <;> omega

theorem div_lt_maxfile {p : Nat} (hp : p < MAXFILE * BSIZE) : p / BSIZE < MAXFILE :=
  Nat.div_lt_of_lt_mul (by rw [Nat.mul_comm]; exact hp)

theorem slotOf_div_lt {p : Nat} (hp : p < MAXFILE * BSIZE) : slotOf (p / BSIZE) < SLOTS :=
  slotOf_lt (div_lt_maxfile hp)

theorem slotOf_ne (bn : Nat) : slotOf bn ≠ NDIRECT := by
  unfold slotOf
  split <;> omega

theorem slotOf_inj {bn bn' : Nat} (h : slotOf bn = slotOf bn') : bn = bn' := by
  unfold slotOf at h
  split at h <;> split at h <;> omega

theorem held_direct (st : Fs) (i : UInt32) {k : Nat} (hk : k ≤ NDIRECT) :
    st.held i k = (st.inode i).addrs (Fin.ofNat _ k) := by
  rw [held, if_pos hk]

theorem held_indirect (st : Fs) (i : UInt32) (bn : Nat) :
    st.held i (NDIRECT + 1 + bn) =
      if st.held i NDIRECT = 0 then 0 else (st.disk (st.held i NDIRECT)).word bn := by
  have hk : ¬NDIRECT + 1 + bn ≤ NDIRECT := by omega
  have hbn : NDIRECT + 1 + bn - NDIRECT - 1 = bn := by omega
  rw [held_direct st i (Nat.le_refl _), held, if_neg hk, hbn]

/-- A slot is direct, the indirect block, or in it. -/
theorem slot_cases {k : Nat} (hk : k < SLOTS) :
    k ≤ NDIRECT ∨ ∃ bn < NINDIRECT, k = NDIRECT + 1 + bn := by
  by_cases h : k ≤ NDIRECT
  · exact Or.inl h
  · refine Or.inr ⟨k - NDIRECT - 1, ?_, ?_⟩
    · have : SLOTS = NDIRECT + 1 + NINDIRECT := rfl
      omega
    · omega

/-- The byte at offset `p` of inode `i`. -/
def byteAt (st : Fs) (i : UInt32) (p : Nat) : UInt8 :=
  (st.disk (st.held i (slotOf (p / BSIZE)))).byte p

/-- Where a file has a block for offset `p`. -/
def Has (st : Fs) (i : UInt32) (p : Nat) : Prop :=
  st.held i (slotOf (p / BSIZE)) ≠ 0

/-- `src` has been written to offset `off` of inode `i`. -/
structure Wrote (st st' : Fs) (i : UInt32) (off : Nat) (src : List UInt8) : Prop where
  sb : st'.sb = st.sb
  inode : ∀ j, st'.inode j = { st.inode j with addrs := (st'.inode j).addrs }
  others : ∀ j, j ≠ i → st'.inode j = st.inode j
  held : ∀ j k, st.Allocated j → k < SLOTS → st.held j k ≠ 0 →
    st'.held j k = st.held j k
  low : ∀ c : UInt32, c.toNat < st.sb.bmapstart.toNat → st'.disk c = st.disk c
  old : ∀ j p, st.Allocated j → p < MAXFILE * BSIZE → st.Has j p →
    ¬(j = i ∧ off ≤ p ∧ p < off + src.length) → st'.byteAt j p = st.byteAt j p
  new : ∀ t (ht : t < src.length),
    st'.Has i (off + t) ∧ st'.byteAt i (off + t) = src[t]

namespace Wrote

variable {st st' st₁ : Fs} {i : UInt32} {off : Nat} {src src' : List UInt8}

theorem refl (st : Fs) (i : UInt32) (off : Nat) : Wrote st st i off [] :=
  ⟨rfl, fun _ => rfl, fun _ _ => rfl, fun _ _ _ _ _ => rfl, fun _ _ => rfl,
    fun _ _ _ _ _ _ => rfl, fun _ ht => absurd ht (Nat.not_lt_zero _)⟩

theorem allocated (h : Wrote st st' i off src) (j : UInt32) :
    st'.Allocated j ↔ st.Allocated j := by
  unfold Allocated
  rw [h.sb, h.inode j]

theorem size (h : Wrote st st' i off src) (j : UInt32) :
    (st'.inode j).size = (st.inode j).size := by
  rw [h.inode j]

theorem has (h : Wrote st st' i off src) {j : UInt32} {p : Nat} (hj : st.Allocated j)
    (hp : p < MAXFILE * BSIZE) (hhas : st.Has j p) : st'.Has j p := by
  unfold Has
  rw [h.held j _ hj (slotOf_div_lt hp) hhas]
  exact hhas

/-- One write after the other. -/
theorem trans (h : Wrote st st₁ i off src)
    (h' : Wrote st₁ st' i (off + src.length) src') (hi : st.Allocated i)
    (hend : ∀ t < src.length, off + t < MAXFILE * BSIZE) :
    Wrote st st' i off (src ++ src') := by
  refine ⟨h'.sb.trans h.sb, fun j => ?_, fun j hj => (h'.others j hj).trans (h.others j hj),
    fun j k hj hk hne => ?_, fun c hc => ?_, fun j p hj hp hhas hout => ?_,
    fun t ht => ?_⟩
  · rw [h'.inode j, h.inode j]
  · have h₁ := h.held j k hj hk hne
    rw [h'.held j k ((h.allocated j).2 hj) hk (h₁ ▸ hne), h₁]
  · rw [h'.low c (h.sb ▸ hc), h.low c hc]
  · rw [List.length_append] at hout
    rw [h'.old j p ((h.allocated j).2 hj) hp (h.has hj hp hhas)
        (fun hin => hout ⟨hin.1, by omega, by omega⟩),
      h.old j p hj hp hhas (fun hin => hout ⟨hin.1, by omega, by omega⟩)]
  · rw [List.length_append] at ht
    by_cases hlt : t < src.length
    · obtain ⟨hhas, hbyte⟩ := h.new t hlt
      have hi₁ := (h.allocated i).2 hi
      refine ⟨h'.has hi₁ (hend t hlt) hhas, ?_⟩
      rw [h'.old i (off + t) hi₁ (hend t hlt) hhas (fun hin => by omega), hbyte,
        List.getElem_append_left hlt]
    · obtain ⟨hhas, hbyte⟩ := h'.new (t - src.length) (by omega)
      have hpos : off + src.length + (t - src.length) = off + t := by omega
      rw [hpos] at hhas hbyte
      refine ⟨hhas, ?_⟩
      rw [hbyte, List.getElem_append_right (by omega)]

end Wrote

/-! ## A fresh block -/

namespace Balloced

variable {st st₁ : Fs} {a : UInt32}

theorem held_ne (h : Balloced st st₁ a) (hshape : st.Shape) {j : UInt32} {k : Nat}
    (hj : st.Allocated j) (hk : k < SLOTS) : st.held j k ≠ a := by
  by_cases hzero : st.held j k = 0
  · rw [hzero]
    exact h.data.ne_zero.symm
  · have := (hshape.data j k hj hk hzero).2
    intro heq
    rw [heq, h.free] at this
    cases this

/-- The blocks in slots are not touched. -/
theorem disk_held (h : Balloced st st₁ a) (hshape : st.Shape) {j : UInt32} {k : Nat}
    (hj : st.Allocated j) (hk : k < SLOTS) (hne : st.held j k ≠ 0) :
    st₁.disk (st.held j k) = st.disk (st.held j k) :=
  h.disk _ (h.held_ne hshape hj hk) (hshape.data j k hj hk hne).1.not_bitmap

/-- The slots hold what they did. -/
theorem held (h : Balloced st st₁ a) (hshape : st.Shape) {j : UInt32}
    (hj : st.Allocated j) (k : Nat) : st₁.held j k = st.held j k :=
  held_congr (by rw [h.inode]) (fun hne => h.disk_held hshape hj (by decide) hne) k

theorem low (h : Balloced st st₁ a) {c : UInt32}
    (hc : c.toNat < st.sb.bmapstart.toNat) : st₁.disk c = st.disk c := by
  apply h.disk
  · rintro rfl
    have := h.data.gt
    omega
  · intro hbitmap
    have := hbitmap.1
    omega

theorem used_mono (h : Balloced st st₁ a) {b : Nat} (hb : b < st.sb.size.toNat)
    (hused : st.used b = true) : st₁.used b = true := by
  rw [h.used b hb, hused, Bool.true_or]

theorem fresh (h : Balloced st st₁ a) (hshape : st.Shape) : Fresh st st₁ a := by
  refine ⟨h.data, ?_, fun j k hj hk => h.held_ne hshape hj hk⟩
  rw [h.used _ h.data.2, decide_eq_true rfl, Bool.or_true]

end Balloced

/-! ## Slots under a change -/

@[simp] theorem setInode_disk (st : Fs) (i : UInt32) (ip : Inode) :
    (st.setInode i ip).disk = st.disk := rfl

theorem setInode_self (st : Fs) (i : UInt32) (ip : Inode) :
    (st.setInode i ip).inode i = ip := by
  simp only [setInode, Function.update_self]

theorem setInode_ne (st : Fs) {i j : UInt32} (ip : Inode) (h : j ≠ i) :
    (st.setInode i ip).inode j = st.inode j := by
  simp only [setInode, Function.update_of_ne h]

theorem setAddr_self (st : Fs) (i : UInt32) (k : Fin (NDIRECT + 1)) (a : UInt32) :
    (st.setAddr i k a).inode i
      = { st.inode i with addrs := Function.update (st.inode i).addrs k a } :=
  setInode_self st i _

theorem setAddr_ne (st : Fs) {i j : UInt32} (k : Fin (NDIRECT + 1)) (a : UInt32)
    (h : j ≠ i) : (st.setAddr i k a).inode j = st.inode j :=
  setInode_ne st _ h

theorem setAddr_inode (st : Fs) (i j : UInt32) (k : Fin (NDIRECT + 1)) (a : UInt32) :
    (st.setAddr i k a).inode j
      = { st.inode j with addrs := ((st.setAddr i k a).inode j).addrs } := by
  by_cases hj : j = i
  · rw [hj, setAddr_self]
  · rw [setAddr_ne st k a hj]

theorem ofNat_inj {k l : Nat} (hk : k ≤ NDIRECT) (hl : l ≤ NDIRECT) :
    Fin.ofNat (NDIRECT + 1) k = Fin.ofNat (NDIRECT + 1) l ↔ k = l := by
  rw [Fin.ext_iff, Fin.val_ofNat, Fin.val_ofNat, Nat.mod_eq_of_lt (by omega),
    Nat.mod_eq_of_lt (by omega)]

theorem held_setAddr_ne (st : Fs) {i j : UInt32} (k : Fin (NDIRECT + 1)) (a : UInt32)
    (l : Nat) (h : j ≠ i) : (st.setAddr i k a).held j l = st.held j l :=
  held_congr (setAddr_ne st k a h) (fun _ => rfl) l

theorem held_setAddr_direct (st : Fs) (i : UInt32) {k l : Nat} (a : UInt32)
    (hk : k ≤ NDIRECT) (hl : l ≤ NDIRECT) :
    (st.setAddr i (Fin.ofNat _ k) a).held i l = if l = k then a else st.held i l := by
  rw [held_direct _ _ hl, held_direct _ _ hl, setAddr_self]
  by_cases h : l = k
  · rw [if_pos h, h]
    exact Function.update_self _ _ _
  · rw [if_neg h]
    exact Function.update_of_ne (mt (ofNat_inj hl hk).1 h) _ _

/-- Slots in the indirect block stay when it does. -/
theorem held_setAddr_indirect (st : Fs) (i : UInt32) {k : Nat} (a : UInt32)
    (hk : k < NDIRECT) (bn : Nat) :
    (st.setAddr i (Fin.ofNat _ k) a).held i (NDIRECT + 1 + bn)
      = st.held i (NDIRECT + 1 + bn) := by
  have hne : NDIRECT ≠ k := by omega
  rw [held_indirect, held_indirect,
    held_setAddr_direct st i a (Nat.le_of_lt hk) (Nat.le_refl _), if_neg hne]
  rfl

/-- A direct slot gets a block. An indirect block must be zero. -/
theorem held_setAddr {st : Fs} {i : UInt32} {k : Nat} (hk : k ≤ NDIRECT)
    (hzero : st.held i k = 0) {a : UInt32} (ha : st.disk a = fun _ => 0) {j : UInt32}
    {l : Nat} (hl : l < SLOTS) : (st.setAddr i (Fin.ofNat _ k) a).held j l
      = if j = i ∧ l = k then a else st.held j l := by
  by_cases hji : j = i
  · subst hji
    simp only [true_and]
    rcases slot_cases hl with hdirect | ⟨bn, _, rfl⟩
    · exact held_setAddr_direct _ _ _ hk hdirect
    · rw [if_neg (by omega)]
      by_cases hind : k = NDIRECT
      · -- the indirect block is the new one, and holds no address yet
        subst hind
        have hnew := held_setAddr_direct st j a hk (Nat.le_refl NDIRECT)
        have hword : Block.word (fun _ => 0) bn = 0 := rfl
        rw [if_pos rfl] at hnew
        rw [held_indirect, held_indirect, if_pos hzero, hnew]
        split
        · rfl
        · rw [setAddr, setInode_disk, ha, hword]
      · have hlt : k < NDIRECT := by omega
        exact held_setAddr_indirect _ _ _ hlt bn
  · rw [if_neg fun e => hji e.1]
    exact held_setAddr_ne _ _ _ _ hji

/-- What `bmapAddr` and `bmap` do for the block in slot `k`. -/
structure Mapped (st : Fs) (i : UInt32) (k : Nat) (a : UInt32) (st' : Fs) : Prop where
  shape : st'.Shape
  wrote : ∀ off, Wrote st st' i off []
  held : st'.held i k = a
  ne : a ≠ 0
  same : st.held i k ≠ 0 → st' = st

theorem Mapped.allocated {st st' : Fs} {i a : UInt32} {k : Nat}
    (h : Mapped st i k a st') (j : UInt32) : st'.Allocated j ↔ st.Allocated j :=
  (h.wrote 0).allocated j

/-- What a fresh block in slot `k` of inode `i` must leave for its state to be
a `Mapped` one. -/
theorem Mapped.of_balloc {st st₁ st' : Fs} {i a : UInt32} {k : Nat}
    (h : st.Shape) (hi : st.Allocated i) (hk : k < SLOTS) (hzero : st.held i k = 0)
    (hb : Balloced st st₁ a) (hsb : st'.sb = st.sb)
    (hinode : ∀ j, st'.inode j = { st.inode j with addrs := (st'.inode j).addrs })
    (hothers : ∀ j, j ≠ i → st'.inode j = st.inode j)
    (hheld : ∀ j l, st.Allocated j → l < SLOTS → ¬(j = i ∧ l = k) →
      st'.held j l = st.held j l) (ha : st'.held i k = a)
    (hused : ∀ b < st.sb.size.toNat, st'.used b = st₁.used b)
    (hlow : ∀ c : UInt32, c.toNat < st.sb.bmapstart.toNat → st'.disk c = st₁.disk c)
    (hdisk : ∀ j l, st.Allocated j → l < SLOTS → l ≠ NDIRECT → st.held j l ≠ 0 →
      st'.disk (st.held j l) = st₁.disk (st.held j l)) :
    Mapped st i k a st' := by
  have halloc : ∀ j, st'.Allocated j ↔ st.Allocated j := by
    intro j
    unfold Allocated
    rw [hsb, hinode j]
  have hlow' : ∀ c : UInt32, c.toNat < st.sb.bmapstart.toNat →
      st'.disk c = st.disk c := fun c hc => (hlow c hc).trans (hb.low hc)
  have hsame : ∀ j l, st.Allocated j → l < SLOTS → st.held j l ≠ 0 →
      st'.held j l = st.held j l := by
    intro j l hj hl hne
    apply hheld j l hj hl
    rintro ⟨rfl, rfl⟩
    exact hne hzero
  have hsuper : readsb st'.disk = readsb st.disk := by
    unfold readsb
    rw [hlow' 1 h.ok.one_lt]
  refine ⟨?_, fun off => ?_, ha, hb.data.ne_zero, fun hne => absurd hzero hne⟩
  · apply h.adopt hsb hsuper _ (fun j => (halloc j).1) i k
    · intro j l hj hl _
      -- the slot that was empty holds the fresh block
      by_cases hjl : j = i ∧ l = k
      · right
        refine ⟨hjl.1, hjl.2, ?_⟩
        rw [hjl.1, hjl.2, ha]
        have hfresh := hb.fresh h
        refine ⟨hfresh.data, ?_, hfresh.unheld⟩
        rw [hused _ hb.data.2]
        exact hfresh.used
      · exact Or.inl (hheld j l ((halloc j).1 hj) hl hjl)
    · intro b hlt hu
      rw [hused b hlt]
      exact hb.used_mono hlt hu
  · refine ⟨hsb, hinode, hothers, hsame, hlow', ?_, fun t ht => ?_⟩
    · intro j p hj hp hhas _
      have hslot := slotOf_div_lt hp
      unfold byteAt
      rw [hsame j _ hj hslot hhas, hdisk j _ hj hslot (slotOf_ne _) hhas,
        hb.disk_held h hj hslot hhas]
    · exact absurd ht (Nat.not_lt_zero _)

/-! ## `bmap` -/

theorem Mapped.of_held {st : Fs} (h : st.Shape) {i : UInt32} {k : Nat}
    (hne : st.held i k ≠ 0) : Mapped st i k (st.held i k) st :=
  ⟨h, fun off => Wrote.refl st i off, rfl, hne, fun _ => rfl⟩

/-- **`bmapAddr`**: the block in a direct slot, or a fresh one. -/
theorem bmapAddr_spec {st : Fs} (h : st.Shape) {i : UInt32} (hi : st.Allocated i)
    {k : Nat} (hk : k ≤ NDIRECT) :
    Ends (· = .ballocOutOfBlocks) (st.bmapAddr i (Fin.ofNat _ k))
      fun r => Mapped st i k r.1 r.2 := by
  have hslots := direct_lt hk
  have hslot := held_direct st i hk
  unfold bmapAddr
  by_cases hzero : st.held i k = 0
  · simp only [← hslot, if_pos hzero]
    apply (balloc_spec h).bind
    rintro ⟨a, st₁⟩ (hb : Balloced st st₁ a)
    apply Ends.ok
    change Mapped st i k a (st₁.setAddr i (Fin.ofNat _ k) a)
    have hinode : st₁.inode = st.inode := hb.inode
    refine Mapped.of_balloc h hi hslots hzero hb hb.sb ?_ ?_ ?_ ?_
      (fun _ _ => rfl) (fun _ _ => rfl) (fun _ _ _ _ _ _ => rfl)
    · intro j
      rw [setAddr_inode, hinode]
    · intro j hj
      rw [setAddr_ne _ _ _ hj, hinode]
    · intro j l hj hl hjl
      rw [held_setAddr hk ((hb.held h hi k).trans hzero) hb.zeroed hl, if_neg hjl,
        hb.held h hj]
    · rw [held_setAddr_direct _ _ _ hk hk, if_pos rfl]
  · simp only [← hslot, if_neg hzero]
    exact Mapped.of_held h hzero

theorem held_logWrite_direct (st : Fs) (b : UInt32) (f : Block → Block) (i : UInt32)
    {k : Nat} (hk : k ≤ NDIRECT) : (st.logWrite b f).held i k = st.held i k := by
  rw [held_direct _ _ hk, held_direct _ _ hk, logWrite_inode]

/-- An address is written to an indirect block, which no other inode has. -/
theorem held_setWord {st : Fs} {i : UInt32} (hind : st.held i NDIRECT ≠ 0) (bn : Nat)
    (a : UInt32) {j : UInt32} {l : Nat} (hl : l < SLOTS)
    (hother : j ≠ i → st.held j NDIRECT ≠ 0 → st.held j NDIRECT ≠ st.held i NDIRECT) :
    (st.logWrite (st.held i NDIRECT) fun bp => bp.setWord bn a).held j l
      = if j = i ∧ l = NDIRECT + 1 + bn then a else st.held j l := by
  by_cases hji : j = i
  · subst hji
    simp only [true_and]
    rcases slot_cases hl with hdirect | ⟨bn', hbn', rfl⟩
    · rw [if_neg (by omega)]
      exact held_logWrite_direct _ _ _ _ hdirect
    · have hrange : 4 * bn' + 3 < BSIZE := by
        have : BSIZE = 4 * NINDIRECT := rfl
        omega
      have hiff : NDIRECT + 1 + bn' = NDIRECT + 1 + bn ↔ bn' = bn := by omega
      rw [held_indirect, held_indirect, held_logWrite_direct _ _ _ _ (Nat.le_refl _),
        if_neg hind, if_neg hind, logWrite_disk_self, word_setWord hrange]
      simp only [hiff]
  · rw [if_neg fun e => hji e.1]
    apply held_congr (by rw [logWrite_inode])
    intro hne
    exact logWrite_disk_ne _ _ (hother hji hne)

/-- The address in the indirect block, or a fresh block. -/
theorem bmapIndirect_spec {st : Fs} (h : st.Shape) {i : UInt32}
    (hi : st.Allocated i) {bn : Nat} (hbn : bn < NINDIRECT)
    (hind : st.held i NDIRECT ≠ 0) :
    Ends (· = .ballocOutOfBlocks)
      (if (st.disk (st.held i NDIRECT)).word bn = 0 then do
        let (addr, st₁) ← st.balloc
        .ok (addr, st₁.logWrite (st.held i NDIRECT) fun bp => bp.setWord bn addr)
      else .ok ((st.disk (st.held i NDIRECT)).word bn, st))
      fun r => Mapped st i (NDIRECT + 1 + bn) r.1 r.2 := by
  have hslots := indirect_lt hbn
  have hword : st.held i (NDIRECT + 1 + bn)
      = (st.disk (st.held i NDIRECT)).word bn := by
    rw [held_indirect, if_neg hind]
  have hindirect := h.data i NDIRECT hi (by decide) hind
  by_cases hzero : (st.disk (st.held i NDIRECT)).word bn = 0
  · rw [if_pos hzero]
    apply (balloc_spec h).bind
    rintro ⟨a, st₁⟩ (hb : Balloced st st₁ a)
    apply Ends.ok
    change Mapped st i (NDIRECT + 1 + bn) a
      (st₁.logWrite (st.held i NDIRECT) fun bp => bp.setWord bn a)
    have hinode : st₁.inode = st.inode := hb.inode
    have hsame := hb.held h hi NDIRECT
    have hok₁ : st₁.sb.Ok := hb.sb ▸ h.ok
    have hbitmap : ¬st₁.sb.Bitmap (st.held i NDIRECT) :=
      hb.sb ▸ hindirect.1.not_bitmap
    -- of the indirect block only the word of this slot changes
    have hheld : ∀ {j l}, st.Allocated j → l < SLOTS →
        (st₁.logWrite (st.held i NDIRECT) fun bp => bp.setWord bn a).held j l
          = if j = i ∧ l = NDIRECT + 1 + bn then a else st.held j l := by
      intro j l hj hl
      rw [← hb.held h hj l, ← hsame]
      refine held_setWord (hsame ▸ hind) bn a hl fun hji hne => ?_
      rw [hb.held h hj] at hne ⊢
      rw [hsame]
      exact h.held_ne hi (by decide) hj (by decide) hne fun e => hji e.1
    refine Mapped.of_balloc h hi hslots (hword.trans hzero) hb hb.sb ?_ ?_ ?_ ?_ ?_ ?_ ?_
    · intro j
      rw [logWrite_inode, hinode]
    · intro j _
      rw [logWrite_inode, hinode]
    · intro j l hj hl hjl
      rw [hheld hj hl, if_neg hjl]
    · rw [hheld hi hslots, if_pos ⟨rfl, rfl⟩]
    · intro b hlt
      exact used_logWrite hok₁ hbitmap _ (hb.sb ▸ Nat.le_of_lt hlt)
    · intro c hc
      apply logWrite_disk_ne
      rintro rfl
      have := hindirect.1.gt
      omega
    · intro j l hj hl hl12 hne
      exact logWrite_disk_ne _ _ (h.held_ne hi (by decide) hj hl hne fun e => hl12 e.2)
  · rw [if_neg hzero, ← hword]
    exact Mapped.of_held h (hword ▸ hzero)

/-- **`bmap`** of a block that a file may have does not panic for its range. -/
theorem bmap_spec {st : Fs} (h : st.Shape) {i : UInt32} (hi : st.Allocated i)
    {bn : Nat} (hbn : bn < MAXFILE) :
    Ends (· = .ballocOutOfBlocks) (st.bmap i bn)
      fun r => Mapped st i (slotOf bn) r.1 r.2 := by
  unfold bmap
  by_cases hdirect : bn < NDIRECT
  · have hslot : slotOf bn = bn := if_pos hdirect
    rw [if_pos hdirect, hslot]
    exact bmapAddr_spec h hi (Nat.le_of_lt hdirect)
  · have hmax : MAXFILE = NDIRECT + NINDIRECT := rfl
    have hrange : bn - NDIRECT < NINDIRECT := by omega
    have hslot : slotOf bn = NDIRECT + 1 + (bn - NDIRECT) := by
      rw [slotOf, if_neg hdirect]
      omega
    simp only [if_neg hdirect, if_pos hrange]
    apply (bmapAddr_spec h hi (Nat.le_refl NDIRECT)).bind
    rintro ⟨indirect, st₁⟩ h₁
    have hheld : indirect = st₁.held i NDIRECT := h₁.held.symm
    have hne : st₁.held i NDIRECT ≠ 0 := hheld ▸ h₁.ne
    subst hheld
    apply (bmapIndirect_spec h₁.shape ((h₁.allocated i).2 hi) hrange hne).mono
    rintro ⟨a, st₂⟩ h₂
    rw [hslot]
    have hsame : st.held i (NDIRECT + 1 + (bn - NDIRECT)) ≠ 0 → st₁ = st := by
      intro hslot
      apply h₁.same
      intro hzero
      rw [held_indirect, if_pos hzero] at hslot
      exact hslot rfl
    refine ⟨h₂.shape, fun off => ?_, h₂.held, h₂.ne, fun hslot => ?_⟩
    · exact (h₁.wrote off).trans (h₂.wrote _) hi fun t ht => absurd ht (Nat.not_lt_zero t)
    · have := hsame hslot
      rw [← this] at hslot ⊢
      exact h₂.same hslot

end SchoolStuff.Xv6.Fs
