import SchoolStuff.Xv6.ReadWrite

/-!
# Xv6 — `itrunc`

The loops of `itrunc` free the slots of an inode one after the other, and
none of them twice. `Freeing st₀ st i F A` is the state when the slots `F`
have been freed and the addresses `A` been cleared: the indirect block still
has its addresses, but its blocks are free.
-/

namespace SchoolStuff.Xv6.Fs

/-- The block `c` was in one of the slots `F` of inode `i`. -/
def Gone (st₀ : Fs) (i : UInt32) (F : List Nat) (c : UInt32) : Prop :=
  ∃ k ∈ F, st₀.held i k ≠ 0 ∧ st₀.held i k = c

/-- In `itrunc` of inode `i`, called in `st₀`. -/
structure Freeing (st₀ st : Fs) (i : UInt32) (F A : List Nat) : Prop where
  sb : st.sb = st₀.sb
  others : ∀ j, j ≠ i → st.inode j = st₀.inode j
  fields : st.inode i = { st₀.inode i with addrs := (st.inode i).addrs }
  addrs : ∀ k ≤ NDIRECT, (st.inode i).addrs (Fin.ofNat _ k)
    = if k ∈ A then 0 else (st₀.inode i).addrs (Fin.ofNat _ k)
  disk : ∀ c, ¬st₀.sb.Bitmap c → st.disk c = st₀.disk c
  used : ∀ c : UInt32, c.toNat < st₀.sb.size.toNat →
    (st.used c.toNat = true ↔ st₀.used c.toNat = true ∧ ¬Gone st₀ i F c)

variable {st₀ st : Fs} {i : UInt32} {F A : List Nat}

theorem Freeing.refl (st : Fs) (i : UInt32) : Freeing st st i [] [] := by
  refine ⟨rfl, fun _ _ => rfl, rfl, fun k _ => by simp, fun _ _ => rfl, fun c _ => ?_⟩
  simp [Gone]

theorem super_eq (h : st₀.Shape) (hf : Freeing st₀ st i F A) :
    readsb st.disk = st.sb := by
  have hone : ¬st₀.sb.Bitmap 1 := fun hb => absurd hb.1 (Nat.not_le.2 h.ok.one_lt)
  unfold readsb
  rw [hf.disk 1 hone, hf.sb, ← h.super]
  rfl

/-- Another slot is freed: there is nothing in it, or its block is still in
use. -/
theorem Freeing.bfree (h : st₀.Shape) (hi : st₀.Allocated i)
    (hf : Freeing st₀ st i F A) {k : Nat} (hk : k < SLOTS) (hkF : k ∉ F)
    (hF : ∀ l ∈ F, l < SLOTS) (hne : st₀.held i k ≠ 0) :
    ∃ st', st.bfree (st₀.held i k) = .ok st' ∧ Freeing st₀ st' i (k :: F) A := by
  have hdata := h.data i k hi hk hne
  have hgone : ¬Gone st₀ i F (st₀.held i k) := by
    rintro ⟨l, hl, hlne, heq⟩
    have := (h.inj i i l k hi hi (hF l hl) hk hlne heq).2
    exact hkF (this ▸ hl)
  have hused : st.used (st₀.held i k).toNat = true :=
    (hf.used _ hdata.1.2).2 ⟨hdata.2, hgone⟩
  obtain ⟨st', hrun, hfreed⟩ := bfree_spec (hf.sb ▸ h.ok) (super_eq h hf)
    (a := st₀.held i k) (hf.sb ▸ hdata.1) hused
  refine ⟨st', hrun, hfreed.sb.trans hf.sb, ?_, ?_, ?_, ?_, ?_⟩
  · intro j hj
    rw [hfreed.inode, hf.others j hj]
  · rw [hfreed.inode, hf.fields]
  · rw [hfreed.inode]
    exact hf.addrs
  · intro c hc
    rw [hfreed.disk c (hf.sb ▸ hc), hf.disk c hc]
  · intro c hc
    rw [hfreed.used c (hf.sb ▸ hc), Bool.and_eq_true, hf.used c hc, Bool.not_eq_true',
      decide_eq_false_iff_not, List.mem_singleton, and_assoc]
    have hiff : Gone st₀ i (k :: F) c ↔ c = st₀.held i k ∨ Gone st₀ i F c := by
      unfold Gone
      constructor
      · rintro ⟨l, hl, hlne, heq⟩
        rcases List.mem_cons.1 hl with rfl | hl
        · exact Or.inl heq.symm
        · exact Or.inr ⟨l, hl, hlne, heq⟩
      · rintro (heq | ⟨l, hl, hlne, heq⟩)
        · exact ⟨k, List.mem_cons_self, hne, heq.symm⟩
        · exact ⟨l, List.mem_cons_of_mem _ hl, hlne, heq⟩
    rw [hiff, not_or, and_comm (a := ¬Gone st₀ i F c)]

/-- A slot with nothing in it counts as freed. -/
theorem Freeing.skip (hf : Freeing st₀ st i F A) {k : Nat}
    (hzero : st₀.held i k = 0) : Freeing st₀ st i (k :: F) A := by
  refine ⟨hf.sb, hf.others, hf.fields, hf.addrs, hf.disk, fun c hc => ?_⟩
  rw [hf.used c hc]
  have hiff : Gone st₀ i (k :: F) c ↔ Gone st₀ i F c := by
    unfold Gone
    constructor
    · rintro ⟨l, hl, hlne, heq⟩
      rcases List.mem_cons.1 hl with rfl | hl
      · exact absurd hzero hlne
      · exact ⟨l, hl, hlne, heq⟩
    · rintro ⟨l, hl, hlne, heq⟩
      exact ⟨l, List.mem_cons_of_mem _ hl, hlne, heq⟩
  rw [hiff]

/-- An address is cleared. -/
theorem Freeing.clear (hf : Freeing st₀ st i F A) {k : Nat} (hk : k ≤ NDIRECT) :
    Freeing st₀ (st.setAddr i (Fin.ofNat _ k) 0) i F (k :: A) := by
  refine ⟨hf.sb, fun j hj => ?_, ?_, fun l hl => ?_, hf.disk, hf.used⟩
  · rw [setAddr_ne _ _ _ hj, hf.others j hj]
  · rw [setAddr_inode, hf.fields]
  · rw [setAddr_self]
    change Function.update (st.inode i).addrs _ 0 _ = _
    by_cases hlk : l = k
    · rw [hlk, Function.update_self, if_pos List.mem_cons_self]
    · rw [Function.update_of_ne (mt (ofNat_inj hl hk).1 hlk), hf.addrs l hl]
      have hmem : l ∈ k :: A ↔ l ∈ A := by simp [hlk]
      simp only [hmem]

/-- An address that is 0 counts as cleared. -/
theorem Freeing.cleared (hf : Freeing st₀ st i F A) {k : Nat} (hk : k ≤ NDIRECT)
    (hzero : st₀.held i k = 0) : Freeing st₀ st i F (k :: A) := by
  rw [held_direct _ _ hk] at hzero
  refine ⟨hf.sb, hf.others, hf.fields, fun l hl => ?_, hf.disk, hf.used⟩
  rw [hf.addrs l hl]
  by_cases hlk : l = k
  · rw [hlk, hzero, ite_self, ite_self]
  · have hmem : l ∈ k :: A ↔ l ∈ A := by simp [hlk]
    simp only [hmem]

/-! ## The loops -/

/-- What is left to do by a loop over the slots `base` to `base + n - 1`. -/
structure Pending (base n : Nat) (rest F : List Nat) : Prop where
  nodup : rest.Nodup
  left : ∀ r ∈ rest, r < n ∧ base + r ∉ F
  done : ∀ r < n, r ∈ rest ∨ base + r ∈ F
  slots : ∀ l ∈ F, l < base + n

theorem Pending.start {base n : Nat} {F : List Nat} (hF : ∀ l ∈ F, l < base) :
    Pending base n (List.range n) F := by
  refine ⟨List.nodup_range, fun r hr => ⟨List.mem_range.1 hr, fun hmem => ?_⟩,
    fun r hr => Or.inl (List.mem_range.2 hr), fun l hl => ?_⟩
  · have := hF _ hmem
    omega
  · have := hF l hl
    omega

theorem Pending.next {base n r : Nat} {rest F : List Nat}
    (h : Pending base n (r :: rest) F) : Pending base n rest ((base + r) :: F) := by
  obtain ⟨hr, hnodup⟩ := List.nodup_cons.1 h.nodup
  have hfirst := h.left r List.mem_cons_self
  refine ⟨hnodup, fun s hs => ?_, fun s hs => ?_, fun l hl => ?_⟩
  · have := h.left s (List.mem_cons_of_mem _ hs)
    refine ⟨this.1, fun hmem => ?_⟩
    rcases List.mem_cons.1 hmem with heq | hmem
    · have hsr : s = r := by omega
      exact hr (hsr ▸ hs)
    · exact this.2 hmem
  · rcases h.done s hs with hmem | hmem
    · rcases List.mem_cons.1 hmem with rfl | hmem
      · exact Or.inr List.mem_cons_self
      · exact Or.inl hmem
    · exact Or.inr (List.mem_cons_of_mem _ hmem)
  · rcases List.mem_cons.1 hl with rfl | hl
    · omega
    · exact h.slots l hl

/-- **The first loop** frees and clears the direct slots. -/
theorem truncDirect_loop (h : st₀.Shape) (hi : st₀.Allocated i) :
    Ends (fun _ => False)
      (((List.range NDIRECT).map (Fin.ofNat (NDIRECT + 1))).foldlM (truncDirect i) st₀)
      fun st => ∃ F, Freeing st₀ st i F F ∧ Pending 0 NDIRECT [] F := by
  rw [List.foldlM_map]
  apply Ends.foldlM fun rest st => ∃ F, Freeing st₀ st i F F ∧ Pending 0 NDIRECT rest F
  · rintro k rest st ⟨F, hf, hp⟩
    have hk := hp.left k List.mem_cons_self
    rw [Nat.zero_add] at hk
    have hnext := hp.next
    rw [Nat.zero_add] at hnext
    have hkn : k ≤ NDIRECT := Nat.le_of_lt hk.1
    have haddr : (st.inode i).addrs (Fin.ofNat _ k) = st₀.held i k := by
      rw [hf.addrs k hkn, if_neg hk.2, held_direct _ _ hkn]
    have hslots : SLOTS = NDIRECT + 1 + NINDIRECT := rfl
    unfold truncDirect
    rw [haddr]
    by_cases hzero : st₀.held i k = 0
    · rw [if_neg (not_not.2 hzero)]
      exact ⟨k :: F, (hf.skip hzero).cleared hkn hzero, hnext⟩
    · rw [if_pos hzero]
      obtain ⟨st', hrun, hf'⟩ := hf.bfree h hi (by omega) hk.2
        (fun l hl => by have := hp.slots l hl; omega) hzero
      rw [hrun]
      exact ⟨k :: F, hf'.clear hkn, hnext⟩
  · exact ⟨[], Freeing.refl st₀ i, Pending.start fun l hl => by simp at hl⟩

/-- **The second loop** frees the blocks in the indirect block. -/
theorem truncIndirect_loop (h : st₀.Shape) (hi : st₀.Allocated i)
    (hf : Freeing st₀ st i F A) (hF : ∀ l ∈ F, l < NDIRECT)
    (hind : st₀.held i NDIRECT ≠ 0) :
    Ends (fun _ => False)
      ((List.range NINDIRECT).foldlM (truncIndirect (st₀.held i NDIRECT)) st)
      fun st => ∃ G, Freeing st₀ st i G A ∧ F ⊆ G ∧ NDIRECT ∉ G
        ∧ Pending (NDIRECT + 1) NINDIRECT [] G := by
  apply Ends.foldlM fun rest st => ∃ G, Freeing st₀ st i G A ∧ F ⊆ G ∧ NDIRECT ∉ G
    ∧ Pending (NDIRECT + 1) NINDIRECT rest G
  · rintro j rest st ⟨G, hf, hsub, hnot, hp⟩
    have hj := hp.left j List.mem_cons_self
    have hbitmap := (h.data i _ hi (by decide) hind).1.not_bitmap
    have hword : (st.disk (st₀.held i NDIRECT)).word j = st₀.held i (NDIRECT + 1 + j) := by
      rw [hf.disk _ hbitmap, held_indirect, if_neg hind]
    have hslots : SLOTS = NDIRECT + 1 + NINDIRECT := rfl
    have hsub' : F ⊆ (NDIRECT + 1 + j) :: G := fun l hl =>
      List.mem_cons_of_mem _ (hsub hl)
    have hnot' : NDIRECT ∉ (NDIRECT + 1 + j) :: G := by
      rw [List.mem_cons, not_or]
      exact ⟨by omega, hnot⟩
    unfold truncIndirect
    rw [hword]
    by_cases hzero : st₀.held i (NDIRECT + 1 + j) = 0
    · rw [if_neg (not_not.2 hzero)]
      exact ⟨_, hf.skip hzero, hsub', hnot', hp.next⟩
    · rw [if_pos hzero]
      obtain ⟨st', hrun, hf'⟩ := hf.bfree h hi (by omega) hj.2
        (fun l hl => by have := hp.slots l hl; omega) hzero
      rw [hrun]
      exact ⟨_, hf', hsub', hnot', hp.next⟩
  · refine ⟨F, hf, fun _ hl => hl, fun hmem => ?_, Pending.start fun l hl => ?_⟩
    · have := hF _ hmem
      omega
    · have := hF l hl
      omega

/-! ## An empty inode -/

/-- All slots of inode `i` are empty, and nothing else has changed but the
bitmap. -/
structure Emptied (st₀ st : Fs) (i : UInt32) : Prop where
  shape : st.Shape
  sb : st.sb = st₀.sb
  others : ∀ j, j ≠ i → st.inode j = st₀.inode j
  fields : st.inode i = { st₀.inode i with addrs := (st.inode i).addrs }
  held : ∀ j k, j ≠ i → st₀.Allocated j → st.held j k = st₀.held j k
  disk : ∀ c, ¬st₀.sb.Bitmap c → st.disk c = st₀.disk c

theorem Freeing.allocated (hf : Freeing st₀ st i F A) (j : UInt32) :
    st.Allocated j ↔ st₀.Allocated j := by
  unfold Allocated
  rw [hf.sb]
  by_cases hj : j = i
  · rw [hj, hf.fields]
  · rw [hf.others j hj]

theorem Freeing.emptied (h : st₀.Shape) (hf : Freeing st₀ st i F A)
    (hi : st₀.Allocated i) (hF : ∀ l ∈ F, l < SLOTS) (hA : ∀ k ≤ NDIRECT, k ∈ A) :
    Emptied st₀ st i := by
  have hzero : ∀ k < SLOTS, st.held i k = 0 := by
    have hdirect : ∀ k ≤ NDIRECT, st.held i k = 0 := by
      intro k hk
      rw [held_direct _ _ hk, hf.addrs k hk, if_pos (hA k hk)]
    intro k hk
    rcases slot_cases hk with hk | ⟨bn, _, rfl⟩
    · exact hdirect k hk
    · rw [held_indirect, if_pos (hdirect NDIRECT (Nat.le_refl _))]
  have hheld : ∀ j k, j ≠ i → st₀.Allocated j → st.held j k = st₀.held j k := by
    intro j k hj hj₀
    apply held_congr (hf.others j hj)
    exact fun hne => hf.disk _ (h.data j _ hj₀ (by decide) hne).1.not_bitmap
  -- a block of another inode, or in front of the data, is still in use
  have hused : ∀ c : UInt32, c.toNat < st₀.sb.size.toNat → st₀.used c.toNat = true →
      ¬Gone st₀ i F c → st.used c.toNat = true := fun c hc hu hgone =>
    (hf.used c hc).2 ⟨hu, hgone⟩
  refine ⟨⟨hf.sb ▸ h.ok, super_eq h hf, ?_, ?_, ?_⟩, hf.sb, hf.others, hf.fields, hheld,
    hf.disk⟩
  · intro b hb hsize
    rw [hf.sb] at hb hsize
    have hlt : b < 2 ^ 32 := by
      have := st₀.sb.size.toNat_lt
      omega
    have hbn : (UInt32.ofNat b).toNat = b := UInt32.toNat_ofNat_of_lt' hlt
    rw [← hbn] at hb hsize ⊢
    apply hused _ hsize (h.meta_used _ hb hsize)
    rintro ⟨k, hk, hne, heq⟩
    have := (h.data i k hi (hF k hk) hne).1.1
    rw [heq] at this
    omega
  · intro j k hj hk hne
    rw [hf.allocated] at hj
    have hji : j ≠ i := by
      rintro rfl
      exact hne (hzero k hk)
    rw [hheld j k hji hj] at hne ⊢
    have hdata := h.data j k hj hk hne
    refine ⟨hf.sb ▸ hdata.1, hused _ hdata.1.2 hdata.2 ?_⟩
    rintro ⟨l, hl, hlne, heq⟩
    exact hji (h.inj i j l k hi hj (hF l hl) hk hlne heq).1.symm
  · intro j j' k l hj hj' hk hl hne heq
    rw [hf.allocated] at hj hj'
    have hji : j ≠ i := by
      rintro rfl
      exact hne (hzero k hk)
    have hji' : j' ≠ i := by
      rintro rfl
      exact hne (heq.trans (hzero l hl))
    rw [hheld j k hji hj] at hne heq
    rw [hheld j' l hji' hj'] at heq
    exact h.inj j j' k l hj hj' hk hl hne heq

/-- What is left after the first loop. -/
theorem freeIndirect_spec (h : st₀.Shape) (hi : st₀.Allocated i)
    (hf : Freeing st₀ st i F F) (hF : ∀ l ∈ F, l < NDIRECT)
    (hdone : ∀ k < NDIRECT, k ∈ F) :
    ∃ st', st.freeIndirect i = .ok st' ∧ Emptied st₀ st' i := by
  have hslots : SLOTS = NDIRECT + 1 + NINDIRECT := rfl
  have haddr : (st.inode i).addrs (Fin.ofNat _ NDIRECT) = st₀.held i NDIRECT := by
    have hnot : NDIRECT ∉ F := fun hmem => absurd (hF _ hmem) (Nat.lt_irrefl _)
    rw [hf.addrs _ (Nat.le_refl _), if_neg hnot, held_direct _ _ (Nat.le_refl _)]
  have hall : ∀ k ≤ NDIRECT, k ∈ NDIRECT :: F := by
    intro k hk
    rcases Nat.lt_or_eq_of_le hk with hlt | rfl
    · exact List.mem_cons_of_mem _ (hdone k hlt)
    · exact List.mem_cons_self
  unfold freeIndirect
  rw [haddr]
  -- the indirect block goes after the blocks it names
  by_cases hind : st₀.held i NDIRECT = 0
  · have hclear := hf.cleared (Nat.le_refl NDIRECT) hind
    refine ⟨st, if_neg (not_not.2 hind), hclear.emptied h hi (fun l hl => ?_) hall⟩
    have := hF l hl
    omega
  · obtain ⟨st₂, hrun₂, G, hg, _, hnot, hpg⟩ :=
      (truncIndirect_loop h hi hf hF hind).exists_ok fun _ he => he.elim
    have hG : ∀ l ∈ G, l < SLOTS := fun l hl => by
      have := hpg.slots l hl
      omega
    obtain ⟨st₃, hrun₃, hf₃⟩ := hg.bfree h hi (by decide) hnot hG hind
    have hclear := hf₃.clear (Nat.le_refl NDIRECT)
    refine ⟨_, ?_, hclear.emptied h hi (fun l hl => ?_) hall⟩
    · simp only [if_pos hind]
      rw [hrun₂]
      change (st₂.bfree (st₀.held i NDIRECT) >>= _) = _
      rw [hrun₃]
      rfl
    · rcases List.mem_cons.1 hl with rfl | hl
      · decide
      · exact hG l hl

/-- The loops of `itrunc`, before the size is set. -/
theorem itrunc_loops (h : st₀.Shape) (hi : st₀.Allocated i) :
    ∃ st, Emptied st₀ st i ∧ st₀.itrunc i = .ok ((st.setSize i 0).iupdate i) := by
  obtain ⟨st₁, hrun₁, F, hf, hp⟩ := (truncDirect_loop h hi).exists_ok fun _ he => he.elim
  have hF : ∀ l ∈ F, l < NDIRECT := fun l hl => by
    have := hp.slots l hl
    omega
  have hdone : ∀ k < NDIRECT, k ∈ F := by
    intro k hk
    rcases hp.done k hk with hmem | hmem
    · simp at hmem
    · rwa [Nat.zero_add] at hmem
  obtain ⟨st₂, hrun₂, he⟩ := freeIndirect_spec h hi hf hF hdone
  refine ⟨st₂, he, ?_⟩
  unfold itrunc
  rw [hrun₁]
  change (st₁.freeIndirect i >>= _) = _
  rw [hrun₂]
  rfl

/-- The other inodes keep what they hold. -/
theorem Emptied.kept (he : Emptied st₀ st i) (h : st₀.Owned) {j : UInt32} (hji : j ≠ i)
    (hj : st₀.Allocated j) {p : Nat} (hp : p < (st₀.inode j).size.toNat) :
    p < MAXFILE * BSIZE ∧ st.Has j p ∧ st.byteAt j p = st₀.byteAt j p := by
  have hsized := h.sized j hj p hp
  have hslot := slotOf_div_lt hsized.1
  have hbitmap := (h.data j _ hj hslot hsized.2).1.not_bitmap
  refine ⟨hsized.1, ?_, ?_⟩
  · unfold Has
    rw [he.held j _ hji hj]
    exact hsized.2
  · rw [byteAt, he.held j _ hji hj, he.disk _ hbitmap]
    rfl

theorem Emptied.cached (he : Emptied st₀ st i) (h : st₀.Owned) {j : UInt32} (hji : j ≠ i)
    (hj : j.toNat < st₀.sb.ninodes.toNat) : st.Cached j := by
  have hblock := SuperBlock.iblock_lt h.ok hj
  have hdisk : st.dinode j = st₀.dinode j := by
    apply dinode_congr he.sb
    apply he.disk
    intro hbitmap
    have := hbitmap.1
    omega
  rw [Cached, hdisk, h.cached j hj, he.others j hji]

theorem Emptied.type (he : Emptied st₀ st i) (j : UInt32) :
    (st.inode j).type = (st₀.inode j).type := by
  by_cases hj : j = i
  · rw [hj, he.fields]
  · rw [he.others j hj]

theorem Emptied.other (he : Emptied st₀ st i) (h : st₀.Owned) : Other st₀ st i := by
  refine ⟨fun j => ?_, he.type, fun j hji hj => ?_⟩
  · unfold Allocated
    rw [he.sb, he.type]
  · apply content_congr (by rw [he.others j hji])
    exact fun p hp => (he.kept h hji hj hp).2.2

/-- **`itrunc`** frees every block of the file once, and empties it. -/
theorem itrunc_spec (h : st₀.Owned) (hi : st₀.Allocated i) :
    ∃ st, st₀.itrunc i = .ok st ∧ st.Owned ∧ Other st₀ st i ∧ st.content i = [] := by
  obtain ⟨st₁, he, hrun⟩ := itrunc_loops h.toShape hi
  have hother := he.other h
  have hi₁ := (hother.allocated i).2 hi
  have hres := resize_spec he.shape hi₁ 0
  have hcached : ∀ j : UInt32, j.toNat < st₁.sb.ninodes.toNat → j ≠ i → st₁.Cached j := by
    intro j hj hji
    rw [he.sb] at hj
    exact he.cached h hji hj
  have hsized : ∀ j, st₁.Allocated j → j ≠ i → st₁.Sized j := by
    intro j hj hji p hp
    rw [he.others j hji] at hp
    have := he.kept h hji ((hother.allocated j).1 hj) hp
    exact ⟨this.1, this.2.1⟩
  refine ⟨_, hrun, hres.owned hi₁ hcached hsized fun p hp => ?_,
    hother.trans (hres.other hsized), ?_⟩
  · exact absurd hp (Nat.not_lt_zero p)
  · rw [← List.length_eq_zero_iff, length_content, hres.inode_self]
    rfl

end SchoolStuff.Xv6.Fs
