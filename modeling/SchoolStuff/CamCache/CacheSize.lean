import SchoolStuff.CamCache.DirectMode

/-!
# CamCache — from the size in kilobytes to the lines

`main` counts a kilobyte as 1026 bytes. The two bytes too many vanish in
the division by the block size if the blocks are large enough, and where
they do not, the number of lines is no power of two (`directGeometry_iff`).
-/

namespace SchoolStuff.CamCache

/-- `cache_size / cache_blocksize`, for the second parameter. -/
def cacheLines (kilobytes : Int) (offsetBits : Nat) : Int :=
  (kilobytes * 1026).tdiv (shl1 offsetBits)

/-- `main` up to the loop. -/
def startSize (t : CacheType) (kilobytes : Int) (offsetBits : Nat)
    (ways : Int) : Except Fault (Setup × Cache) :=
  start t (cacheLines kilobytes offsetBits) offsetBits ways

/-- The direct-access cache has the size that it was asked for, and its set
indices are its lines. -/
structure DirectGeometry (kilobytes : Int) (offsetBits : Nat) : Prop where
  bytes : cacheLines kilobytes offsetBits * 2 ^ offsetBits = 1024 * kilobytes
  log : ∃ b : Nat, mlog2 (cacheLines kilobytes offsetBits) = .ok b
    ∧ cacheLines kilobytes offsetBits = 2 ^ b
  sets : ∃ c st, startSize .D kilobytes offsetBits 0 = .ok (c, st)
    ∧ (∀ taddr, (c.set taddr : Int) < cacheLines kilobytes offsetBits)
    ∧ ∀ line : Nat, (line : Int) < cacheLines kilobytes offsetBits →
      ∃ taddr, c.set taddr = line

variable {p o : Nat}

/-! ## The number of lines -/

theorem cacheLines_eq (ho : o < 31) :
    cacheLines (2 ^ p) o = ((2 ^ p * 1026 / 2 ^ o : Nat) : Int) := by
  have hpos : (0 : Int) < 2 ^ p := Int.pow_pos (by decide)
  rw [cacheLines, shl1_of_lt ho, Int.tdiv_eq_ediv_of_nonneg (by omega)]
  push_cast
  rfl

/-- A block of more than two bytes a kilobyte leaves no room for the bytes
too many. -/
theorem cacheLines_of_lt (hp : p + 1 < o) (ho : o ≤ p + 10) (hp20 : p ≤ 20) :
    cacheLines (2 ^ p) o = ((2 ^ (p + 10 - o) : Nat) : Int) := by
  have hsplit : 2 ^ p * 1026 = 2 ^ (p + 1) + 2 ^ o * 2 ^ (p + 10 - o) := by
    rw [← Nat.pow_add, show o + (p + 10 - o) = p + 10 by omega, Nat.pow_add,
      Nat.pow_add]
    omega
  have hsmall : 2 ^ (p + 1) < 2 ^ o := Nat.pow_lt_pow_right (by decide) hp
  rw [cacheLines_eq (by omega), hsplit, Nat.add_mul_div_left _ _
    (Nat.two_pow_pos o), Nat.div_eq_of_lt hsmall, Nat.zero_add]

/-- Smaller blocks divide all the bytes. -/
theorem cacheLines_of_le (hp : o ≤ p + 1) (ho : o < 31) :
    cacheLines (2 ^ p) o * 2 ^ o = 1026 * 2 ^ p := by
  have hdvd : 2 ^ o ∣ 2 ^ p * 1026 := by
    have hpow : 2 ^ o ∣ 2 ^ (p + 1) := Nat.pow_dvd_pow 2 hp
    refine Nat.dvd_trans hpow ⟨513, ?_⟩
    rw [Nat.pow_succ]
    omega
  have hmul := Nat.div_mul_cancel hdvd
  rw [cacheLines_eq ho, Int.mul_comm 1026]
  exact_mod_cast hmul

/-! ## The set indices -/

theorem directSetup_set {b : Nat} (hb : b < 31) (hbits : o + b < 64)
    (taddr : Word) : (directSetup b o).set taddr = block o taddr % 2 ^ b :=
  Geometry.set_eq (k := 1) ⟨Nat.one_pos, hb, hbits⟩ taddr

/-- Every set is that of its first block. -/
theorem set_of_line {b : Nat} (hb : b < 31) (hbits : o + b < 64) {line : Nat}
    (hline : line < 2 ^ b) :
    (directSetup b o).set (BitVec.ofNat 64 (line * 2 ^ o)) = line := by
  have hfit : line * 2 ^ o < 2 ^ 64 := by
    calc line * 2 ^ o < 2 ^ b * 2 ^ o :=
          Nat.mul_lt_mul_of_pos_right hline (Nat.two_pow_pos o)
      _ = 2 ^ (b + o) := (Nat.pow_add 2 b o).symm
      _ ≤ 2 ^ 64 := Nat.pow_le_pow_right (by decide) (by omega)
  rw [directSetup_set hb hbits, block, BitVec.toNat_ofNat,
    Nat.mod_eq_of_lt hfit, Nat.mul_div_cancel _ (Nat.two_pow_pos o),
    Nat.mod_eq_of_lt hline]

/-- A power of two of lines. -/
theorem directGeometry_of_lines {b : Nat} (hb : b < 31) (hbits : o + b < 64)
    (hlines : cacheLines (2 ^ p) o = ((2 ^ b : Nat) : Int))
    (hsum : b + o = p + 10) : DirectGeometry (2 ^ p) o := by
  constructor
  · rw [hlines]
    have hbytes : 2 ^ b * 2 ^ o = 1024 * 2 ^ p := by
      rw [← Nat.pow_add, hsum, Nat.pow_add, Nat.mul_comm]
    exact_mod_cast hbytes
  · refine ⟨b, ?_, ?_⟩
    · rw [hlines, Int.natCast_pow]
      exact mlog2_pow hb
    · rw [hlines, Int.natCast_pow]
      rfl
  · refine ⟨directSetup b o, _, by rw [startSize, hlines]; exact start_D hb o,
      ?_, ?_⟩
    · intro taddr
      rw [hlines, directSetup_set hb hbits]
      exact_mod_cast Nat.mod_lt _ (Nat.two_pow_pos b)
    · intro line hlt
      rw [hlines] at hlt
      exact ⟨_, set_of_line hb hbits (by exact_mod_cast hlt)⟩

/-- With small blocks the cache is too large. -/
theorem not_directGeometry (hp : o ≤ p + 1) (ho : o < 31) :
    ¬ DirectGeometry (2 ^ p) o := by
  intro h
  have hbytes := h.bytes
  rw [cacheLines_of_le hp ho] at hbytes
  have hpos : (0 : Int) < 2 ^ p := Int.pow_pos (by decide)
  omega

/-- **When the geometry is right**: for a power of two of kilobytes, exactly
if a block has more than two bytes for each kilobyte. -/
theorem directGeometry_iff (p o : Nat) (hsize : 1026 * 2 ^ p < 2 ^ 31)
    (hblock : 2 ^ o ≤ 1024 * 2 ^ p) :
    DirectGeometry (2 ^ p) o ↔ 2 * 2 ^ p < 2 ^ o := by
  have hp : p ≤ 20 := by
    by_contra hlt
    have hle : 2 ^ 21 ≤ 2 ^ p := Nat.pow_le_pow_right (by decide) (by omega)
    omega
  have ho : o ≤ p + 10 := by
    rw [show 1024 = 2 ^ 10 by rfl, ← Nat.pow_add, Nat.add_comm] at hblock
    exact (Nat.pow_le_pow_iff_right (by decide)).mp hblock
  have hiff : 2 * 2 ^ p < 2 ^ o ↔ p + 1 < o := by
    rw [Nat.mul_comm, ← Nat.pow_succ]
    exact Nat.pow_lt_pow_iff_right (by decide)
  rw [hiff]
  constructor
  · intro h
    by_contra hle
    exact not_directGeometry (by omega) (by omega) h
  · intro hlt
    exact directGeometry_of_lines (b := p + 10 - o) (by omega) (by omega)
      (cacheLines_of_lt hlt ho hp) (by omega)

/-- 8 kilobytes in blocks of 64 bytes. -/
theorem directGeometry_iff_eight :
    DirectGeometry (2 ^ 3) 6 ↔ 2 * 2 ^ 3 < 2 ^ 6 :=
  directGeometry_iff 3 6 (by decide) (by decide)

/-- 8 kilobytes in blocks of 16 bytes: `mlog2` fails on the 513 lines. -/
theorem eight_kilobytes_fail :
    cacheLines 8 4 = 513 ∧ mlog2 513 = .error .assertion
      ∧ ¬ DirectGeometry 8 4 := by
  refine ⟨by decide, by decide, ?_⟩
  have h := not_directGeometry (p := 3) (o := 4) (by decide) (by decide)
  exact h

end SchoolStuff.CamCache
