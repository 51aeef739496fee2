import SchoolStuff.Lib.Ends
import SchoolStuff.Xv6.Image

/-!
# Xv6 — `iappend`

While `iappend` runs, its copy `din` of the inode is ahead of the disk: `view`
is the file system with that copy. Each turn of the loop takes the blocks that
it misses (`appendBlock_spec`) and writes up to the end of one, and the file is
longer by what was written (`appendLoop_spec`).
-/

namespace SchoolStuff.Xv6.Mkfs

open Fs State

variable {s s' s'' : State} {table : UInt32 → Inode} {din din' din'' : Inode} {n : Nat}
  {file : UInt32 → List UInt8} {i : UInt32} {k : Nat}

/-! ## Sectors -/

theorem sector_eq {x : UInt32} (hx : x.toNat < 2 ^ 23) : sector x = x := by
  apply UInt32.toNat_inj.1
  have hsize : (UInt32.ofNat BSIZE).toNat = 512 := rfl
  rw [sector, UInt32.toNat_div, UInt32.toNat_mul, hsize]
  omega

theorem rsect_ok (hblocks : s.blocks = FSSIZE) {x : UInt32} (hx : x.toNat < FSSIZE) :
    s.rsect x = .ok (s.disk x) := by
  have hsize : FSSIZE = 1000 := rfl
  rw [rsect, sector_eq (by omega), hblocks, if_pos hx]

theorem rsect_error (hblocks : s.blocks = FSSIZE) {x : UInt32} (hx : FSSIZE ≤ x.toNat)
    (hlt : x.toNat < 2 ^ 23) : s.rsect x = .error .exit := by
  rw [rsect, sector_eq hlt, hblocks, if_neg (by omega)]

theorem wsect_eq (hblocks : s.blocks = FSSIZE) {x : UInt32} (hx : x.toNat < FSSIZE)
    (buf : Block) : s.wsect x buf = { s with disk := Function.update s.disk x buf } := by
  have hsize : FSSIZE = 1000 := rfl
  have hmax : max s.blocks (x.toNat + 1) = s.blocks := by omega
  rw [wsect, sector_eq (by omega), hmax]

/-! ## The copy of an inode -/

/-- The file system with `din` as its inode `i`, and `table` as the others. -/
def view (s : State) (table : UInt32 → Inode) (i : UInt32) (din : Inode) : Fs :=
  { disk := s.disk, sb := sb, inode := Function.update table i din }

theorem view_inode : (view s table i din).inode i = din := Function.update_self _ _ _

theorem view_inode_ne {j : UInt32} (h : j ≠ i) : (view s table i din).inode j = table j :=
  Function.update_of_ne h _ _

/-- What `iappend` does not change before it writes the inode. -/
structure Kept (s s' : State) (din din' : Inode) : Prop where
  low : ∀ c : UInt32, c.toNat < nmeta → s'.disk c = s.disk c
  blocks : s'.blocks = s.blocks
  freeinode : s'.freeinode = s.freeinode
  din : din' = { din with addrs := din'.addrs }

theorem Kept.refl (s : State) (din : Inode) : Kept s s din din :=
  ⟨fun _ _ => rfl, rfl, rfl, rfl⟩

theorem Kept.trans (h : Kept s s' din din') (h' : Kept s' s'' din' din'') :
    Kept s s'' din din'' := by
  refine ⟨fun c hc => (h'.low c hc).trans (h.low c hc), h'.blocks.trans h.blocks,
    h'.freeinode.trans h.freeinode, ?_⟩
  rw [h'.din, h.din]

theorem toNat_succ {f : UInt32} (h : f.toNat + 1 < 2 ^ 32) :
    (f + 1).toNat = f.toNat + 1 := by
  rw [UInt32.toNat_add]
  exact Nat.mod_eq_of_lt h

/-- **A direct slot**, or the indirect block. -/
theorem addr_spec (h : Laid (view s table i din) n s.freeblock.toNat file)
    (hf : s.freeblock.toNat + 1 < 2 ^ 32) (hk : k ≤ NDIRECT)
    (hpast : (view s table i din).held i k = 0 →
      ∀ p, slotOf (p / BSIZE) = k → (file i).length ≤ p) :
    ∃ din' s', s.addr din (Fin.ofNat _ k) = (din', s') ∧ Kept s s' din din'
      ∧ Taken (view s table i din) (view s' table i din') n s.freeblock.toNat
          s'.freeblock.toNat file i k := by
  have hslot : (view s table i din).held i k = din.addrs (Fin.ofNat _ k) := by
    rw [held_direct _ _ hk, view_inode]
  by_cases hzero : (view s table i din).held i k = 0
  · have hview : view { s with freeblock := s.freeblock + 1 } table i
        { din with addrs := Function.update din.addrs (Fin.ofNat _ k) s.freeblock }
        = (view s table i din).setAddr i (Fin.ofNat _ k) s.freeblock := by
      rw [Fs.setAddr, Fs.setInode, view_inode]
      simp only [view, Function.update_idem]
    have htaken := Taken.setAddr h (by omega) hk hzero (hpast hzero)
    rw [UInt32.ofNat_toNat, ← hview, ← toNat_succ hf] at htaken
    rw [hslot] at hzero
    exact ⟨_, _, if_pos hzero, ⟨fun _ _ => rfl, rfl, rfl, rfl⟩, htaken⟩
  · have htaken := Taken.of_held h hzero
    rw [hslot] at hzero
    exact ⟨_, _, if_neg hzero, Kept.refl s din, htaken⟩

/-- **A slot in the indirect block**, which must be in the image. -/
theorem indirectAddr_spec (h : Laid (view s table i din) n s.freeblock.toNat file)
    (hi : Made n i) (hblocks : s.blocks = FSSIZE) (hf : s.freeblock.toNat ≤ FSSIZE + 1)
    (hind : (view s table i din).held i NDIRECT ≠ 0) {bn : Nat} (hbn : bn < NINDIRECT)
    (hpast : (view s table i din).held i (NDIRECT + 1 + bn) = 0 →
      ∀ p, slotOf (p / BSIZE) = NDIRECT + 1 + bn → (file i).length ≤ p) :
    Ends (fun _ => FSSIZE ≤ ((view s table i din).held i NDIRECT).toNat)
      (s.indirectAddr ((view s table i din).held i NDIRECT) bn) fun r =>
        r.1 = (view r.2 table i din).held i (NDIRECT + 1 + bn) ∧ Kept s r.2 din din
          ∧ Taken (view s table i din) (view r.2 table i din) n s.freeblock.toNat
              r.2.freeblock.toNat file i (NDIRECT + 1 + bn) := by
  have hsize : FSSIZE = 1000 := rfl
  have hslots := indirect_lt hbn
  have hdata := h.data i _ hi (by decide) hind
  have hword := held_indirect (view s table i din) i bn
  rw [if_neg hind] at hword
  generalize hx : (view s table i din).held i NDIRECT = ind at hind hdata hword ⊢
  unfold indirectAddr
  -- the indirect block may be the one past the image, and `rsect` fails
  by_cases hin : FSSIZE ≤ ind.toNat
  · rw [rsect_error hblocks hin (by omega)]
    exact hin
  rw [rsect_ok hblocks (by omega)]
  change Ends _ (if (s.disk ind).word bn = 0 then _ else _) _
  by_cases hzero : (s.disk ind).word bn = 0
  · rw [if_pos hzero]
    apply Ends.ok
    replace hzero := hword.trans hzero
    have htaken := Taken.setWord h (by omega) hi (hx ▸ hind) hzero (hpast hzero)
    have hwrite : State.wsect { s with freeblock := s.freeblock + 1 } ind
        ((s.disk ind).setWord bn s.freeblock)
        = { s with
            freeblock := s.freeblock + 1
            disk := Function.update s.disk ind ((s.disk ind).setWord bn s.freeblock) } :=
      wsect_eq (s := { s with freeblock := s.freeblock + 1 }) hblocks (by omega) _
    rw [hwrite]
    rw [UInt32.ofNat_toNat, hx, ← toNat_succ (by omega)] at htaken
    refine ⟨?_, ⟨fun c hc => ?_, rfl, rfl, rfl⟩, htaken⟩
    · have hheld := htaken.held i _ hi hslots
      rw [if_pos ⟨rfl, rfl, hzero⟩, UInt32.ofNat_toNat] at hheld
      exact hheld.symm
    · have hne : c ≠ ind := by
        rintro rfl
        omega
      exact Function.update_of_ne hne _ _
  · rw [if_neg hzero]
    exact ⟨hword.symm, Kept.refl s din, Taken.of_held h (hword ▸ hzero)⟩

/-! ## The block of a turn -/

theorem slotStart_slotOf (bn : Nat) : slotStart (slotOf bn) = bn * BSIZE := by
  unfold slotStart slotOf
  by_cases hdirect : bn < NDIRECT
  · rw [if_pos hdirect, if_pos (Nat.le_of_lt hdirect)]
  · rw [if_neg hdirect, if_neg (by omega), Nat.add_sub_cancel]

theorem slotStart_indirect : slotStart NDIRECT = NDIRECT * BSIZE := if_pos (Nat.le_refl _)

/-- The slots up to the end of a turn. -/
theorem slotStart_lt {off m k : Nat} (hpos : 0 < m) (hm : m ≤ BSIZE - off % BSIZE) :
    slotStart k < off + m ↔ slotStart k < off
      ∨ (k = slotOf (off / BSIZE) ∨ (k = NDIRECT ∧ NDIRECT ≤ off / BSIZE)) := by
  have hsize : BSIZE = 512 := rfl
  have hdirect : NDIRECT = 12 := rfl
  rw [hsize] at hm
  unfold slotStart slotOf
  rw [hsize, hdirect]
  split <;> split <;> omega

/-- The blocks of a file, the indirect one among them. -/
def blocksOf (len : Nat) : Nat :=
  (len + BSIZE - 1) / BSIZE + if NDIRECT * BSIZE < len then 1 else 0

theorem blocksOf_mono {a b : Nat} (h : a ≤ b) : blocksOf a ≤ blocksOf b := by
  have hdiv : (a + BSIZE - 1) / BSIZE ≤ (b + BSIZE - 1) / BSIZE :=
    Nat.div_le_div_right (by omega)
  unfold blocksOf
  split <;> split <;> omega

theorem blocksOf_add (off m : Nat) (hpos : 0 < m) (hm : m ≤ BSIZE - off % BSIZE) :
    blocksOf (off + m) = blocksOf off + ((if off ≤ off / BSIZE * BSIZE then 1 else 0)
      + if NDIRECT ≤ off / BSIZE ∧ off ≤ NDIRECT * BSIZE then 1 else 0) := by
  have hsize : BSIZE = 512 := rfl
  have hdirect : NDIRECT = 12 := rfl
  rw [hsize] at hm
  unfold blocksOf
  rw [hsize, hdirect]
  split <;> split <;> split <;> split <;> omega

/-- The slots past the end of a file are empty. -/
theorem Filled.past {st : Fs} (h : Filled st n file) (hi : Made n i) (hk : k < SLOTS)
    (hzero : st.held i k = 0) {p : Nat} (hp : slotOf (p / BSIZE) = k) :
    (file i).length ≤ p := by
  have hnot := mt (h i k hi hk).2 (not_not.2 hzero)
  have hle := Nat.div_mul_le_self p BSIZE
  rw [← hp, slotStart_slotOf] at hnot
  omega

theorem Filled.missing {st : Fs} (h : Filled st n file) (hi : Made n i) {bn : Nat}
    (hbn : bn < MAXFILE) : missing st i bn = (if (file i).length ≤ bn * BSIZE then 1 else 0)
      + if NDIRECT ≤ bn ∧ (file i).length ≤ NDIRECT * BSIZE then 1 else 0 := by
  have hslot := not_congr (h i _ hi (slotOf_lt hbn))
  have hind := not_congr (h i NDIRECT hi (by decide))
  rw [slotStart_slotOf, not_not, Nat.not_lt] at hslot
  rw [slotStart_indirect, not_not, Nat.not_lt] at hind
  simp only [Mkfs.missing, hslot, hind]

/-- What holds before a turn. -/
structure Open (s : State) (table : UInt32 → Inode) (i : UInt32) (din : Inode) (n : Nat)
    (file : UInt32 → List UInt8) : Prop where
  laid : Laid (view s table i din) n s.freeblock.toNat file
  filled : Filled (view s table i din) n file
  blocks : s.blocks = FSSIZE
  room : s.freeblock.toNat ≤ FSSIZE

/-- **The block of a turn**, unless the image is full. -/
theorem appendBlock_spec (h : Open s table i din n file) (hi : Made n i) {fbn : Nat}
    (hfbn : fbn < MAXFILE) :
    Ends (fun _ => FSSIZE < s.freeblock.toNat + missing (view s table i din) i fbn)
      (s.appendBlock din fbn) fun r => Kept s r.2.2 din r.2.1
        ∧ Blocked (view s table i din) (view r.2.2 table i r.2.1) n s.freeblock.toNat
            r.2.2.freeblock.toNat file i fbn r.1 := by
  have hsize : FSSIZE = 1000 := rfl
  have hslots : SLOTS = NDIRECT + 1 + NINDIRECT := rfl
  have hmax : MAXFILE = NDIRECT + NINDIRECT := rfl
  have hroom := h.room
  unfold appendBlock
  -- a direct block is one slot; the others need the indirect block first
  by_cases hdirect : fbn < NDIRECT
  · rw [if_pos hdirect]
    obtain ⟨din', s', haddr, hkept, htaken⟩ := addr_spec h.laid (by omega)
      (Nat.le_of_lt hdirect) fun hzero p => h.filled.past hi (by omega) hzero
    have hblocked := Blocked.of_direct htaken h.laid.first (by omega) hi hdirect
    rw [held_direct _ _ (Nat.le_of_lt hdirect), view_inode] at hblocked
    rw [haddr]
    exact ⟨hkept, hblocked⟩
  · obtain ⟨bn, rfl⟩ := Nat.exists_eq_add_of_le (Nat.le_of_not_lt hdirect)
    have hbn : bn < NINDIRECT := by omega
    have hslot : slotOf (NDIRECT + bn) = NDIRECT + 1 + bn := by
      rw [slotOf, if_neg hdirect]
      omega
    rw [if_neg hdirect, Nat.add_sub_cancel_left]
    obtain ⟨din₁, s₁, haddr, hkept, htaken⟩ := addr_spec h.laid (by omega)
      (Nat.le_refl NDIRECT) fun hzero p => h.filled.past hi (by decide) hzero
    have hind := (htaken.slots h.laid.first (by omega) hi (by decide)).2 (Or.inr ⟨rfl, rfl⟩)
    have hcount := htaken.count
    have hf₁ : s₁.freeblock.toNat ≤ FSSIZE + 1 := by
      split at hcount <;> omega
    have hsame : (view s₁ table i din₁).held i (NDIRECT + 1 + bn)
        = (view s table i din).held i (NDIRECT + 1 + bn) := by
      rw [htaken.held i _ hi (by omega), if_neg (by omega)]
    have hspec := indirectAddr_spec htaken.laid hi (hkept.blocks.trans h.blocks) hf₁ hind
      hbn fun hzero p => h.filled.past hi (by omega) (hsame ▸ hzero)
    have haddrs : (view s₁ table i din₁).held i NDIRECT
        = din₁.addrs (Fin.ofNat _ NDIRECT) := by
      rw [held_direct _ _ (Nat.le_refl _), view_inode]
    rw [haddr]
    change Ends _ (s₁.indirectAddr (din₁.addrs (Fin.ofNat _ NDIRECT)) bn >>= _) _
    rw [← haddrs]
    refine (hspec.allow fun _ hout => ?_).bind fun r hr => ?_
    · have hlast := (htaken.laid.data i _ hi (by decide) hind).2
      have hmiss : s₁.freeblock.toNat ≤ s.freeblock.toNat
          + Mkfs.missing (view s table i din) i (NDIRECT + bn) := by
        rw [hcount, Mkfs.missing]
        simp only [Nat.le_add_right, true_and]
        omega
      omega
    · rcases hr with ⟨hx, hkept', htaken'⟩
      have hblocked := Blocked.of_indirect htaken htaken' h.laid.first (by omega) hi hbn
      rw [← hx] at hblocked
      exact Ends.ok ⟨hkept.trans hkept', hblocked⟩

/-! ## The loop -/

/-- **A turn** of the loop, after it has found its block. -/
theorem Open.write (h : Open s table i din n file) (hi : Made n i)
    (hkept : Kept s s' din din') {off : Nat} (hoff : (file i).length = off)
    (hmax : off < MAXFILE * BSIZE) {x : UInt32} (hin : x.toNat < FSSIZE)
    (hblocked : Blocked (view s table i din) (view s' table i din') n s.freeblock.toNat
      s'.freeblock.toNat file i (off / BSIZE) x)
    (src : List UInt8) (hpos : 0 < src.length) (hsrc : src.length ≤ BSIZE - off % BSIZE) :
    Kept s (s'.wsect x ((s'.disk x).splice (off % BSIZE) src)) din din'
      ∧ Open (s'.wsect x ((s'.disk x).splice (off % BSIZE) src)) table i din' n
          (Function.update file i (file i ++ src)) := by
  have hblocks := hkept.blocks.trans h.blocks
  have hslot := slotOf_div_lt hmax
  have hhas : (view s' table i din').Has i off := by
    unfold Has
    rw [hblocked.held]
    exact hblocked.ne
  have hdata := hblocked.laid.data i _ hi hslot hhas
  rw [hblocked.held] at hdata
  rw [wsect_eq hblocks hin]
  have hlow : ∀ c : UInt32, c.toNat < nmeta → c ≠ x := by
    rintro c hc rfl
    omega
  have hwrite := hblocked.laid.write hi hoff hmax hhas hsrc rfl
  rw [hblocked.held] at hwrite
  obtain ⟨hlaid, hheld⟩ := hwrite
  refine ⟨hkept.trans ⟨fun c hc => Function.update_of_ne (hlow c hc) _ _, rfl, rfl,
    hkept.din ▸ rfl⟩, hlaid, fun j k hj hk => ?_, hblocks, ?_⟩
  · refine (not_congr (Eq.congr_left (hheld j k hj))).trans ?_
    change (view s' table i din').held j k ≠ 0 ↔ _
    rw [hblocked.slots j k hj hk, h.filled j k hj hk]
    by_cases hji : j = i
    · subst hji
      rw [Function.update_self, List.length_append, hoff, slotStart_lt hpos hsrc]
      simp only [true_and]
    · simp only [hji, false_and, or_false, Function.update_of_ne hji]
  · have hroom := h.room
    change s'.freeblock.toNat ≤ _
    rcases hblocked.last with hsame | hlast <;> omega

/-- A file gets too long, or the image too full, if inode `i` grows by `m`. -/
def Overflow (f len m : Nat) : Prop :=
  MAXFILE * BSIZE < len + m ∨ FSSIZE + blocksOf len < f + blocksOf (len + m)

instance (f len m : Nat) : Decidable (Overflow f len m) :=
  inferInstanceAs (Decidable (_ ∨ _))

/-- What the loop has done when it ends. -/
structure Appended (s s' : State) (table : UInt32 → Inode) (i : UInt32)
    (din din' : Inode) (n : Nat) (file : UInt32 → List UInt8) (off : Nat)
    (src : List UInt8) : Prop where
  kept : Kept s s' din din'
  opened : Open s' table i din' n (Function.update file i (file i ++ src))
  ends : off = (file i).length + src.length
  fits : off ≤ MAXFILE * BSIZE
  count : s'.freeblock.toNat + blocksOf (file i).length = s.freeblock.toNat + blocksOf off

theorem off_sub (off : Nat) : off - off / BSIZE * BSIZE = off % BSIZE := by
  have hdiv := Nat.div_add_mod off BSIZE
  rw [Nat.mul_comm] at hdiv
  omega

theorem Appended.nil (h : Open s table i din n file) {src : List UInt8}
    (hnil : src.length = 0) {off : Nat} (hoff : (file i).length = off)
    (hfits : off ≤ MAXFILE * BSIZE) : Appended s s table i din din n file off src := by
  have hsame : Function.update file i (file i ++ src) = file := by
    rw [List.eq_nil_of_length_eq_zero hnil, List.append_nil, Function.update_eq_self]
  refine ⟨Kept.refl s din, ?_, ?_, hfits, by rw [hoff]⟩
  · rw [hsame]
    exact h
  · rw [hoff, hnil, Nat.add_zero]

/-- The blocks that a turn misses are those by which the file grows. -/
theorem Open.missing (h : Open s table i din n file) (hi : Made n i) {off m : Nat}
    (hoff : (file i).length = off) (hfbn : off / BSIZE < MAXFILE) (hpos : 0 < m)
    (hm : m ≤ BSIZE - off % BSIZE) :
    blocksOf (off + m) = blocksOf off + missing (view s table i din) i (off / BSIZE) := by
  have hmiss := h.filled.missing hi hfbn
  rw [hoff] at hmiss
  rw [hmiss]
  exact blocksOf_add off m hpos hm

theorem Appended.trans {off : Nat} {src src' : List UInt8} {file' : UInt32 → List UInt8}
    (hkept : Kept s s' din din') (hfile : file' = Function.update file i (file i ++ src))
    (hcount : s'.freeblock.toNat + blocksOf (file i).length
      = s.freeblock.toNat + blocksOf ((file i).length + src.length))
    (h : Appended s' s'' table i din' din'' n file' off src') :
    Appended s s'' table i din din'' n file off (src ++ src') := by
  have hlen : (file' i).length = (file i).length + src.length := by
    rw [hfile, Function.update_self, List.length_append]
  have hopened := h.opened
  rw [hfile, Function.update_self, Function.update_idem, List.append_assoc] at hopened
  have hends := h.ends
  have hcount' := h.count
  rw [hlen] at hends hcount'
  refine ⟨hkept.trans h.kept, hopened, ?_, h.fits, by omega⟩
  rw [List.length_append]
  omega

/-- **The loop of `iappend`** appends the bytes, or the image is too small. -/
theorem appendLoop_spec (hi : Made n i) : ∀ (m : Nat) {src : List UInt8},
    src.length = m → ∀ {s : State} {din : Inode} {file : UInt32 → List UInt8} {off : Nat},
    Open s table i din n file → (file i).length = off → off ≤ MAXFILE * BSIZE →
    Ends (fun _ => Overflow s.freeblock.toNat off src.length)
      (s.appendLoop din off src) fun r => Appended s r.2.2 table i din r.1 n file r.2.1 src := by
  intro m
  induction m using Nat.strongRecOn with
  | ind m ih =>
      intro src hm s din file off h hoff hfits
      rw [appendLoop]
      by_cases hnil : src.length = 0
      · rw [dif_pos hnil]
        exact Appended.nil h hnil hoff hfits
      rw [dif_neg hnil]
      by_cases hfbn : off / BSIZE < MAXFILE
      · have hmod := Nat.mod_lt off (show 0 < BSIZE by decide)
        have hmul : (off / BSIZE + 1) * BSIZE ≤ MAXFILE * BSIZE :=
          Nat.mul_le_mul_right _ hfbn
        have hrest := block_rest off
        have hlt : off < MAXFILE * BSIZE := by omega
        simp only [if_pos hfbn, hrest, off_sub]
        generalize hn1 : min src.length (BSIZE - off % BSIZE) = n1
        have hchunk : (src.take n1).length = n1 := by
          rw [List.length_take]
          omega
        have hadd := h.missing hi hoff hfbn (m := n1) (by omega) (by omega)
        have hmono := blocksOf_mono (show off + n1 ≤ off + src.length by omega)
        refine ((appendBlock_spec h hi hfbn).allow fun _ hfull => Or.inr (by omega)).bind ?_
        rintro ⟨x, din', s'⟩ ⟨hkept, hblocked⟩
        simp only at hkept hblocked ⊢
        have hcount := hblocked.count
        have hx := (hblocked.laid.data i _ hi (slotOf_div_lt hlt)
          (hblocked.held ▸ hblocked.ne)).2
        rw [hblocked.held] at hx
        by_cases hin : x.toNat < FSSIZE
        · -- the turn ends before the next block, with a file longer by `n1`
          obtain ⟨hkept', hopen⟩ := h.write hi hkept hoff hlt hin hblocked
            (src.take n1) (by omega) (by omega)
          have hlen : (Function.update file i (file i ++ src.take n1) i).length
              = off + n1 := by
            rw [Function.update_self, List.length_append, hoff, hchunk]
          have hcount' : s'.freeblock.toNat + blocksOf (file i).length
              = s.freeblock.toNat + blocksOf ((file i).length + (src.take n1).length) := by
            rw [hoff, hchunk]
            omega
          have hrec := ih (src.length - n1) (by omega) (List.length_drop ..) hopen hlen
            (by omega)
          have hsum : off + n1 + (src.drop n1).length = off + src.length := by
            rw [List.length_drop]
            omega
          simp only [rsect_ok (hkept.blocks.trans h.blocks) hin]
          refine (hrec.allow fun _ hfull => ?_).mono fun r hr => ?_
          · unfold Overflow at hfull
            rw [hsum] at hfull
            change _ ∨ _ < s'.freeblock.toNat + _ at hfull
            omega
          · have := Appended.trans hkept' rfl hcount' hr
            rwa [List.take_append_drop] at this
        · -- the block is the one past the image, and `rsect` fails
          have hsize : FSSIZE = 1000 := rfl
          have hroom := h.room
          have hle := missing_le (view s table i din) i (off / BSIZE)
          rw [rsect_error (hkept.blocks.trans h.blocks) (by omega) (by omega)]
          right
          omega
      · -- `assert(fbn < MAXFILE)`
        rw [if_neg hfbn]
        have hlt := mt div_lt_maxfile hfbn
        left
        omega

end SchoolStuff.Xv6.Mkfs
