import Mathlib.Algebra.Order.Ring.Nat
import Mathlib.Tactic.Common

/-!
# Xv6 — disk blocks (`fs.h`)

A block is its bytes. The kernel also reads it as an array of `uint`s in
little-endian order: the log header and an indirect block are such arrays.
-/

namespace SchoolStuff.Xv6

abbrev BSIZE : Nat := 512

instance : NeZero BSIZE := ⟨by decide⟩

/-- The contents of a block. -/
abbrev Block := Fin BSIZE → UInt8

/-- The blocks of a disk, by their numbers. -/
abbrev Disk := UInt32 → Block

/-- The `i`-th byte of a number. -/
def byteOf (v : UInt32) (i : Nat) : UInt8 := UInt8.ofNat (v.toNat / 256 ^ i)

/-- The number that four bytes are, the least one first. -/
def ofBytes (a b c d : UInt8) : UInt32 :=
  UInt32.ofNat (a.toNat + 256 * (b.toNat + 256 * (c.toNat + 256 * d.toNat)))

theorem ofBytes_byteOf (v : UInt32) :
    ofBytes (byteOf v 0) (byteOf v 1) (byteOf v 2) (byteOf v 3) = v := by
  have hv := v.toNat_lt
  have hsum : v.toNat / 256 ^ 0 % 256 + 256 * (v.toNat / 256 ^ 1 % 256
      + 256 * (v.toNat / 256 ^ 2 % 256 + 256 * (v.toNat / 256 ^ 3 % 256)))
      = v.toNat := by
    omega
  simp only [ofBytes, byteOf, UInt8.toNat_ofNat', Nat.reducePow] at hsum ⊢
  rw [hsum, UInt32.ofNat_toNat]

theorem toNat_ofBytes (a b c d : UInt8) : (ofBytes a b c d).toNat
    = a.toNat + 256 * (b.toNat + 256 * (c.toNat + 256 * d.toNat)) := by
  have ha := a.toNat_lt
  have hb := b.toNat_lt
  have hc := c.toNat_lt
  have hd := d.toNat_lt
  rw [ofBytes, UInt32.toNat_ofNat', Nat.mod_eq_of_lt (by omega)]

/-- The byte at offset `p % BSIZE`. -/
def Block.byte (b : Block) (p : Nat) : UInt8 := b (Fin.ofNat BSIZE p)

/-- The `uint` at index `i`. -/
def Block.word (b : Block) (i : Nat) : UInt32 :=
  ofBytes (b.byte (4 * i)) (b.byte (4 * i + 1)) (b.byte (4 * i + 2))
    (b.byte (4 * i + 3))

/-- The block after a `uint` has been stored at index `i`. -/
def Block.setWord (b : Block) (i : Nat) (v : UInt32) : Block :=
  fun p => if p.val / 4 = i then byteOf v (p.val % 4) else b p

theorem byte_setWord {b : Block} {i : Nat} {v : UInt32} {p : Nat} (hp : p < BSIZE) :
    (b.setWord i v).byte p = if p / 4 = i then byteOf v (p % 4) else b.byte p := by
  simp only [Block.byte, Block.setWord, Fin.val_ofNat, Nat.mod_eq_of_lt hp]

theorem word_setWord {b : Block} {i j : Nat} {v : UInt32} (hj : 4 * j + 3 < BSIZE) :
    (b.setWord i v).word j = if j = i then v else b.word j := by
  have h0 : 4 * j / 4 = j ∧ 4 * j % 4 = 0 := by omega
  have h1 : (4 * j + 1) / 4 = j ∧ (4 * j + 1) % 4 = 1 := by omega
  have h2 : (4 * j + 2) / 4 = j ∧ (4 * j + 2) % 4 = 2 := by omega
  have h3 : (4 * j + 3) / 4 = j ∧ (4 * j + 3) % 4 = 3 := by omega
  unfold Block.word
  rw [byte_setWord (by omega), byte_setWord (by omega), byte_setWord (by omega),
    byte_setWord hj, h0.1, h0.2, h1.1, h1.2, h2.1, h2.2, h3.1, h3.2]
  by_cases hji : j = i
  · simp only [if_pos hji, ofBytes_byteOf]
  · simp only [if_neg hji]

/-- The block after an array of `uint`s has been stored from index `i` on. -/
def Block.setWords (b : Block) (i : Nat) : List UInt32 → Block
  | [] => b
  | v :: vs => Block.setWords (b.setWord i v) (i + 1) vs

/-- `n` `uint`s from index `i` on. -/
def Block.words (b : Block) (i n : Nat) : List UInt32 :=
  (List.range' i n).map b.word

/-- An index before the array keeps its `uint`. -/
theorem word_setWords_lt {b : Block} {i j : Nat} {vs : List UInt32} (hji : j < i)
    (hj : 4 * j + 3 < BSIZE) : (b.setWords i vs).word j = b.word j := by
  induction vs generalizing b i with
  | nil => rfl
  | cons v vs ih =>
      have hne : j ≠ i := by omega
      rw [Block.setWords, ih (by omega), word_setWord hj, if_neg hne]

theorem words_setWords {b : Block} {i : Nat} {vs : List UInt32}
    (h : 4 * (i + vs.length) ≤ BSIZE) : (b.setWords i vs).words i vs.length = vs := by
  induction vs generalizing b i with
  | nil => rfl
  | cons v vs ih =>
      simp only [List.length_cons] at h
      have hfirst : (Block.setWords (b.setWord i v) (i + 1) vs).word i = v := by
        rw [word_setWords_lt (by omega) (by omega), word_setWord (by omega), if_pos rfl]
      have hrest := ih (b := b.setWord i v) (i := i + 1) (by omega)
      simp only [Block.words, Block.setWords, List.length_cons, List.range'_succ,
        List.map_cons, hfirst, List.cons.injEq, true_and]
      exact hrest

/-- Any index: an entry of the array, or the `uint` from before. -/
theorem word_setWords {b : Block} {i j : Nat} {vs : List UInt32}
    (h : 4 * (i + vs.length) ≤ BSIZE) (hj : 4 * j + 3 < BSIZE) :
    (b.setWords i vs).word j
      = if i ≤ j ∧ j < i + vs.length then vs.getD (j - i) 0 else b.word j := by
  induction vs generalizing b i with
  | nil =>
      rw [if_neg (by simp)]
      rfl
  | cons v vs ih =>
      simp only [List.length_cons] at h ⊢
      rw [Block.setWords, ih (by omega), word_setWord hj]
      rcases Nat.lt_trichotomy j i with hlt | rfl | hgt
      · rw [if_neg (by omega), if_neg (by omega), if_neg (by omega)]
      · rw [if_neg (by omega), if_pos rfl, if_pos (by omega), Nat.sub_self,
          List.getD_cons_zero]
      · obtain ⟨k, hk⟩ : ∃ k, j - i = k + 1 := ⟨j - i - 1, by omega⟩
        have hk' : j - (i + 1) = k := by omega
        by_cases hin : j < i + (vs.length + 1)
        · rw [if_pos (by omega), if_pos (by omega), hk, hk', List.getD_cons_succ]
        · rw [if_neg (by omega), if_neg (by omega), if_neg (by omega)]

/-! ## Bytes -/

/-- `m` bytes from offset `o` on. -/
def Block.bytes (b : Block) (o m : Nat) : List UInt8 := (List.range' o m).map b.byte

/-- The block after bytes have been copied to offset `o`. -/
def Block.splice (b : Block) (o : Nat) (src : List UInt8) : Block :=
  fun p => if o ≤ p.val ∧ p.val < o + src.length then src.getD (p.val - o) 0 else b p

theorem byte_splice {b : Block} {o p : Nat} {src : List UInt8} :
    (b.splice o src).byte p = if o ≤ p % BSIZE ∧ p % BSIZE < o + src.length then
      src.getD (p % BSIZE - o) 0 else b.byte p := by
  simp only [Block.byte, Block.splice, Fin.val_ofNat]

def Block.setByte (b : Block) (p : Nat) (v : UInt8) : Block :=
  Function.update b (Fin.ofNat BSIZE p) v

theorem byte_setByte {b : Block} {p q : Nat} {v : UInt8} (hp : p < BSIZE)
    (hq : q < BSIZE) : (b.setByte p v).byte q = if q = p then v else b.byte q := by
  have hpos : Fin.ofNat BSIZE q = Fin.ofNat BSIZE p ↔ q = p := by
    rw [Fin.ext_iff, Fin.val_ofNat, Fin.val_ofNat, Nat.mod_eq_of_lt hp,
      Nat.mod_eq_of_lt hq]
  by_cases h : q = p
  · rw [if_pos h, h, Block.byte, Block.setByte, Function.update_self]
  · rw [if_neg h, Block.byte, Block.setByte, Function.update_of_ne (mt hpos.1 h)]
    rfl

/-! ## Bits -/

/-- `1 << (bi % 8)`. -/
def mask (bi : Nat) : UInt8 := 1 <<< UInt8.ofNat (bi % 8)

/-- The bit at index `bi` of a bitmap block. -/
def Block.bit (b : Block) (bi : Nat) : Bool := b.byte (bi / 8) &&& mask bi ≠ 0

def Block.setBit (b : Block) (bi : Nat) : Block :=
  b.setByte (bi / 8) (b.byte (bi / 8) ||| mask bi)

def Block.clearBit (b : Block) (bi : Nat) : Block :=
  b.setByte (bi / 8) (b.byte (bi / 8) &&& ~~~mask bi)

theorem mask_toBitVec (bi : Nat) : (mask bi).toBitVec = BitVec.twoPow 8 (bi % 8) := by
  have h : ∀ k : Fin 8, ((1 : UInt8) <<< UInt8.ofNat k.val).toBitVec
      = BitVec.twoPow 8 k.val := by
    decide
  exact h ⟨bi % 8, Nat.mod_lt _ (by decide)⟩

theorem bit_eq (b : Block) (bi : Nat) :
    b.bit bi = (b.byte (bi / 8)).toBitVec.getLsbD (bi % 8) := by
  have hand : (b.byte (bi / 8) &&& mask bi).toBitVec
      = if (b.byte (bi / 8)).toBitVec.getLsbD (bi % 8)
        then BitVec.twoPow 8 (bi % 8) else 0#8 := by
    rw [UInt8.toBitVec_and, mask_toBitVec, BitVec.and_twoPow]
  have hpow : BitVec.twoPow 8 (bi % 8) ≠ 0#8 := by
    have h : ∀ k : Fin 8, BitVec.twoPow 8 k.val ≠ 0#8 := by decide
    exact h ⟨bi % 8, Nat.mod_lt _ (by decide)⟩
  unfold Block.bit
  cases hbit : (b.byte (bi / 8)).toBitVec.getLsbD (bi % 8) with
  | true =>
      rw [hbit, if_pos rfl] at hand
      apply decide_eq_true
      intro h
      rw [h] at hand
      exact hpow hand.symm
  | false =>
      rw [hbit, if_neg (by decide)] at hand
      apply decide_eq_false
      simp only [ne_eq, not_not]
      exact UInt8.toBitVec_inj.1 hand

theorem bit_testBit (b : Block) (bi : Nat) :
    b.bit bi = (b.byte (bi / 8)).toNat.testBit (bi % 8) := by
  rw [bit_eq]
  rfl

/-- Bitmap bits per block. -/
abbrev BPB : Nat := BSIZE * 8

theorem mask_bit (bi bj : Nat) :
    (mask bi).toBitVec.getLsbD (bj % 8) = decide (bj % 8 = bi % 8) := by
  have hlt : bi % 8 < 8 := Nat.mod_lt _ (by decide)
  rw [mask_toBitVec, BitVec.getLsbD_twoPow, decide_eq_true hlt, Bool.true_and]
  rw [Bool.eq_iff_iff, decide_eq_true_iff, decide_eq_true_iff, eq_comm]

theorem bit_setBit {b : Block} {bi bj : Nat} (hi : bi < BPB) (hj : bj < BPB) :
    (b.setBit bi).bit bj = (b.bit bj || decide (bj = bi)) := by
  have hsize : BPB = BSIZE * 8 := rfl
  rw [bit_eq, bit_eq, Block.setBit, byte_setByte (by omega) (by omega)]
  by_cases hbyte : bj / 8 = bi / 8
  · have hiff : bj % 8 = bi % 8 ↔ bj = bi := by omega
    rw [if_pos hbyte, UInt8.toBitVec_or, BitVec.getLsbD_or, mask_bit, hbyte]
    simp only [hiff]
  · have hne : bj ≠ bi := by
      rintro rfl
      exact hbyte rfl
    rw [if_neg hbyte, decide_eq_false hne, Bool.or_false]

theorem bit_clearBit {b : Block} {bi bj : Nat} (hi : bi < BPB) (hj : bj < BPB) :
    (b.clearBit bi).bit bj = (b.bit bj && !decide (bj = bi)) := by
  have hsize : BPB = BSIZE * 8 := rfl
  rw [bit_eq, bit_eq, Block.clearBit, byte_setByte (by omega) (by omega)]
  by_cases hbyte : bj / 8 = bi / 8
  · have hiff : bj % 8 = bi % 8 ↔ bj = bi := by omega
    have hlt : bj % 8 < 8 := Nat.mod_lt _ (by decide)
    rw [if_pos hbyte, UInt8.toBitVec_and, BitVec.getLsbD_and, UInt8.toBitVec_not,
      BitVec.getLsbD_not, mask_bit, hbyte, decide_eq_true hlt, Bool.true_and]
    simp only [hiff]
  · have hne : bj ≠ bi := by
      rintro rfl
      exact hbyte rfl
    rw [if_neg hbyte, decide_eq_false hne, Bool.not_false, Bool.and_true]

end SchoolStuff.Xv6
