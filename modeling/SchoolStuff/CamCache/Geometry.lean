import SchoolStuff.CamCache.Cache

/-!
# CamCache — geometry of the set-associative type

A start-up that passes its assertions with fewer than 64 offset and set
bits has a power of two of sets of `k ≥ 1` lines (`Geometry`). Block
numbers split into the set and what the tag keeps, so within a set the tag
identifies the block (`blockTag_inj`).
-/

namespace SchoolStuff.CamCache

/-! ## `mlog2` -/

theorem shl1_of_lt {i : Nat} (hi : i < 31) : shl1 i = 2 ^ i := by
  rw [shl1, Nat.mod_eq_of_lt (by omega), if_neg (by omega)]

theorem mlog2From_spec (n : Int) : ∀ (turns i b : Nat),
    mlog2From n turns i = .ok b → b = 64
      ∨ (n = shl1 b ∧ i ≤ b ∧ ∀ j, i ≤ j → j < b → shl1 j < n) := by
  intro turns
  induction turns with
  | zero =>
      intro i b hrun
      exact Or.inl (Except.ok.inj hrun).symm
  | succ turns ih =>
      intro i b hrun
      rw [mlog2From] at hrun
      by_cases heq : n = shl1 i
      · rw [if_pos heq] at hrun
        have hib := Except.ok.inj hrun
        subst hib
        exact Or.inr ⟨heq, Nat.le_refl i, fun j hj hlt => by omega⟩
      · rw [if_neg heq] at hrun
        by_cases hlt : shl1 i < n
        · rw [ensure_pos hlt, ok_bind] at hrun
          rcases ih (i + 1) b hrun with h64 | ⟨hn, hib, hall⟩
          · exact Or.inl h64
          · refine Or.inr ⟨hn, by omega, fun j hj hjb => ?_⟩
            rcases Nat.eq_or_lt_of_le hj with rfl | hlt'
            · exact hlt
            · exact hall j hlt' hjb
        · rw [ensure_neg hlt, error_bind] at hrun
          exact absurd hrun (by simp)

/-- **What `mlog2` returns** is the logarithm of a power of two, or 64 for
numbers that no shift is equal to. -/
theorem mlog2_cases {n : Int} {b : Nat} (h : mlog2 n = .ok b) :
    (b < 31 ∧ n = 2 ^ b) ∨ (b = 64 ∧ 1 < n) := by
  by_cases h64 : b = 64
  · refine Or.inr ⟨h64, ?_⟩
    -- the first turn asserts that `n` is above 1
    rw [mlog2, mlog2From] at h
    by_cases hone : n = shl1 0
    · rw [if_pos hone, Except.ok.injEq] at h
      omega
    · rw [if_neg hone, bind_eq_ok] at h
      obtain ⟨_, hens, _⟩ := h
      exact ensure_eq_ok.mp hens
  · rcases mlog2From_spec n 64 0 b h with h64' | ⟨hn, _, hall⟩
    · exact absurd h64' h64
    · by_cases h31 : b < 31
      · exact Or.inl ⟨h31, hn.trans (shl1_of_lt h31)⟩
      · -- from 31 on a shift was passed that is not below `n`
        exfalso
        rcases Nat.lt_or_ge b 32 with hlt | hge
        · have hb31 : b = 31 := by omega
          subst hb31
          have := hall 0 (Nat.le_refl 0) (by decide)
          rw [hn] at this
          exact absurd this (by decide)
        · have hsame : shl1 (b - 32) = shl1 b := by
            rw [shl1, shl1, show (b - 32) % 32 = b % 32 by omega]
          have := hall (b - 32) (Nat.zero_le _) (by omega)
          rw [hsame, ← hn] at this
          exact Int.lt_irrefl _ this

theorem mlog2From_pow {b : Nat} (hb : b < 31) : ∀ (turns i : Nat), i ≤ b →
    b < i + turns → mlog2From (2 ^ b) turns i = .ok b := by
  intro turns
  induction turns with
  | zero => intro i hi hlt; omega
  | succ turns ih =>
      intro i hi hlt
      rw [mlog2From, shl1_of_lt (by omega)]
      by_cases heq : i = b
      · rw [if_pos (by rw [heq]), heq]
      · have hpow : (2 : Int) ^ i < 2 ^ b := by
          exact_mod_cast Nat.pow_lt_pow_right Nat.one_lt_two
            (show i < b by omega)
        rw [if_neg (ne_of_gt hpow), ensure_pos hpow, ok_bind]
        exact ih (i + 1) (by omega) (by omega)

theorem mlog2_pow {b : Nat} (hb : b < 31) : mlog2 (2 ^ b) = .ok b :=
  mlog2From_pow hb 64 0 (Nat.zero_le b) (by omega)

/-! ## Start-up -/

theorem camCreate_nat (n : Nat) :
    camCreate (n : Int) 0 = .ok ⟨n, List.replicate n 0⟩ := by
  rw [camCreate, ensure_pos (Int.natCast_nonneg n)]
  rfl

theorem mapM_camCreate (k : Nat) : ∀ m : Nat,
    (List.range m).mapM (fun _ => camCreate (k : Int) 0)
      = .ok (List.replicate m ⟨k, List.replicate k 0⟩) := by
  intro m
  induction m with
  | zero => rfl
  | succ m ih =>
      rw [List.range_succ, List.mapM_append, ih, ok_bind, List.mapM_cons,
        camCreate_nat, ok_bind, List.mapM_nil, List.replicate_succ']
      rfl

/-- A negative number of ways fails in `cam_create`. -/
theorem mapM_camCreate_nonneg {ways : Int} {m : Nat} {sCams : List Cam}
    (hm : 0 < m)
    (h : (List.range m).mapM (fun _ => camCreate ways 0) = .ok sCams) :
    0 ≤ ways := by
  cases m with
  | zero => exact absurd hm (Nat.lt_irrefl 0)
  | succ m =>
      rw [List.range_succ_eq_map, List.mapM_cons, bind_eq_ok] at h
      obtain ⟨cam, hcam, _⟩ := h
      rw [camCreate, bind_eq_ok] at hcam
      obtain ⟨_, hpos, _⟩ := hcam
      exact ensure_eq_ok.mp hpos

/-- The set-associative geometry: `2 ^ b` sets of `k` lines. -/
def setup (k b o : Nat) : Setup := ⟨.S, (k * 2 ^ b : Nat), o, b, k⟩

/-- The cache before the first access. -/
def emptyCache (k b : Nat) : Cache :=
  ⟨linesCreate (k * 2 ^ b : Nat), none, [],
    List.replicate (2 ^ b) ⟨k, List.replicate k 0⟩⟩

structure Geometry (k b o : Nat) : Prop where
  ways : 0 < k
  setBits : b < 31
  bits : o + b < 64

/-- Every power of two of sets passes the assertions. -/
theorem start_pow {k b : Nat} (hk : 0 < k) (hb : b < 31) (o : Nat) :
    start .S (k * 2 ^ b : Nat) o k = .ok (setup k b o, emptyCache k b) := by
  have hne : (k : Int) ≠ 0 := by omega
  have hlog : mlog2 ((2 ^ b : Nat) : Int) = .ok b := by
    rw [Int.natCast_pow]
    exact mlog2_pow hb
  have hmod : ((k * 2 ^ b : Nat) : Int).tmod k = 0 := by
    rw [Int.natCast_mul, Int.mul_tmod_right]
  have hdiv : ((k * 2 ^ b : Nat) : Int).tdiv k = (2 ^ b : Nat) := by
    rw [Int.natCast_mul, Int.mul_tdiv_cancel_left _ hne]
  simp only [start, if_neg hne, hmod, ensure_pos, hdiv, Int.toNat_natCast,
    mapM_camCreate, hlog, ok_bind]
  rfl

/-- **The start-up assertions** of the set-associative type: the lines are
`m` sets of `k` ways. -/
theorem start_ways {cacheLines ways : Int} {o : Nat} {c : Setup} {st : Cache}
    (h : start .S cacheLines o ways = .ok (c, st)) :
    ∃ k m : Nat, 0 < k ∧ ways = (k : Int) ∧ cacheLines = (k * m : Nat)
      ∧ c = ⟨.S, cacheLines, o, c.setBits, k⟩ ∧ mlog2 m = .ok c.setBits
      ∧ st = ⟨linesCreate (k * m : Nat), none, [],
          List.replicate m ⟨k, List.replicate k 0⟩⟩ := by
  by_cases h0 : ways = 0
  · simp [start, h0] at h
  · rw [start, if_neg h0] at h
    obtain ⟨_, hmod, h⟩ := bind_eq_ok.mp h
    obtain ⟨sCams, hcams, h⟩ := bind_eq_ok.mp h
    obtain ⟨b, hlog, h⟩ := bind_eq_ok.mp h
    obtain ⟨rfl, rfl⟩ := Prod.mk.inj (Except.ok.inj h)
    have hmod := ensure_eq_ok.mp hmod
    have hpos : 0 < cacheLines.tdiv ways := by
      rcases mlog2_cases hlog with ⟨_, hsets⟩ | ⟨_, hsets⟩
      · rw [hsets]
        exact Int.pow_pos (by decide)
      · omega
    obtain ⟨m, hm⟩ := Int.eq_ofNat_of_zero_le (Int.le_of_lt hpos)
    rw [hm] at hcams hpos hlog
    rw [Int.toNat_natCast] at hcams
    obtain ⟨k, rfl⟩ := Int.eq_ofNat_of_zero_le
      (mapM_camCreate_nonneg (by omega) hcams)
    have hlines : cacheLines = ((k * m : Nat) : Int) := by
      have := Int.mul_tdiv_add_tmod cacheLines k
      rw [hmod, hm] at this
      push_cast
      omega
    rw [mapM_camCreate] at hcams
    refine ⟨k, m, by omega, rfl, hlines, rfl, hlog, ?_⟩
    rw [← Except.ok.inj hcams, hlines]

/-- With fewer than 64 offset and set bits they leave exactly these
geometries. -/
theorem start_S {cacheLines ways : Int} {o : Nat} {c : Setup} {st : Cache}
    (h : start .S cacheLines o ways = .ok (c, st))
    (hbits : o + c.setBits < 64) :
    ∃ k b, Geometry k b o ∧ ways = (k : Int)
      ∧ cacheLines = (k * 2 ^ b : Nat) ∧ c = setup k b o
      ∧ st = emptyCache k b := by
  obtain ⟨k, m, hk, hways, hlines, hc, hlog, hst⟩ := start_ways h
  rcases mlog2_cases hlog with ⟨hb31, hm⟩ | ⟨h64, _⟩
  · have hm' : m = 2 ^ c.setBits := by exact_mod_cast hm
    subst hm'
    refine ⟨k, c.setBits, ⟨hk, hb31, hbits⟩, hways, hlines, ?_, hst⟩
    rw [hc, setup, hlines]
  · omega

/-! ## Blocks, sets and tags -/

/-- The block of an address. -/
def block (o : Nat) (taddr : Word) : Nat := taddr.toNat / 2 ^ o

/-- The tag of a block. -/
def blockTag (k b o blk : Nat) : Word :=
  BitVec.ofNat 64 (blk / 2 ^ b * 2 ^ ((setup k b o).nontagbits % 4))

/-- The set is masked, so it is one of the sets. -/
theorem Setup.set_lt {c : Setup} (hb : c.setBits < 31) (taddr : Word) :
    c.set taddr < 2 ^ c.setBits := by
  have hmask : shl1 c.setBits - 1 = ((2 ^ c.setBits - 1 : Nat) : Int) := by
    rw [shl1_of_lt hb, Int.natCast_sub (Nat.two_pow_pos _)]
    rfl
  rw [Setup.set, hmask, BitVec.ofInt_natCast, BitVec.toNat_and,
    BitVec.toNat_ofNat]
  have hpos := Nat.two_pow_pos c.setBits
  calc _ ≤ (2 ^ c.setBits - 1) % 2 ^ 64 := Nat.and_le_right
    _ ≤ 2 ^ c.setBits - 1 := Nat.mod_le _ _
    _ < 2 ^ c.setBits := by omega

/-- Whatever `mlog2` returns, the set is one of the sets. -/
theorem Setup.set_lt_sets {c : Setup} {m : Nat} (h : mlog2 m = .ok c.setBits)
    (taddr : Word) : c.set taddr < m := by
  rcases mlog2_cases h with ⟨hb, hm⟩ | ⟨h64, hm⟩
  · have hm' : m = 2 ^ c.setBits := by exact_mod_cast hm
    rw [hm']
    exact Setup.set_lt hb taddr
  · -- the mask is 0
    rw [Setup.set, h64]
    simp [shl1]
    omega

variable {k b o : Nat}

theorem Geometry.set_eq (hg : Geometry k b o) (taddr : Word) :
    (setup k b o).set taddr = block o taddr % 2 ^ b := by
  have hb := hg.setBits
  have hlt : o < 64 := by
    have := hg.bits
    omega
  have hmask : shl1 b - 1 = ((2 ^ b - 1 : Nat) : Int) := by
    rw [shl1_of_lt hb, Int.natCast_sub (Nat.two_pow_pos b)]
    rfl
  have hfit : 2 ^ b - 1 < 2 ^ 64 := by
    have := Nat.pow_lt_pow_right (a := 2) (by decide) (show b < 64 by omega)
    omega
  rw [Setup.set]
  simp only [setup, hmask, BitVec.ofInt_natCast, BitVec.toNat_and,
    BitVec.toNat_ofNat, BitVec.toNat_ushiftRight, Nat.mod_eq_of_lt hlt,
    Nat.mod_eq_of_lt hfit, Nat.and_two_pow_sub_one_eq_mod,
    Nat.shiftRight_eq_div_pow, block]

theorem Geometry.tag_eq (hg : Geometry k b o) (taddr : Word) :
    (setup k b o).tag taddr = blockTag k b o (block o taddr) := by
  have hlt : (setup k b o).nontagbits % 64 = o + b :=
    Nat.mod_eq_of_lt hg.bits
  rw [Setup.tag, hlt, blockTag]
  apply BitVec.eq_of_toNat_eq
  rw [BitVec.toNat_shiftLeft, BitVec.toNat_ushiftRight, BitVec.toNat_ofNat,
    Nat.shiftRight_eq_div_pow, Nat.shiftLeft_eq, block, Nat.div_div_eq_div_mul,
    Nat.pow_add]

theorem block_bound (o : Nat) (taddr : Word) :
    block o taddr * 2 ^ o < 2 ^ 64 :=
  Nat.lt_of_le_of_lt (Nat.div_mul_le_self _ _) taddr.isLt

/-- **Within a set the tag identifies the block.** -/
theorem blockTag_inj {x y : Nat}
    (hx : x * 2 ^ o < 2 ^ 64) (hy : y * 2 ^ o < 2 ^ 64)
    (hset : x % 2 ^ b = y % 2 ^ b)
    (htag : blockTag k b o x = blockTag k b o y) : x = y := by
  have hle : (setup k b o).nontagbits % 4 ≤ b + o := by
    have : (setup k b o).nontagbits = o + b := rfl
    omega
  generalize hr : (setup k b o).nontagbits % 4 = r at hle
  have hfit : ∀ {z : Nat}, z * 2 ^ o < 2 ^ 64 → z / 2 ^ b * 2 ^ r < 2 ^ 64 := by
    intro z hz
    calc z / 2 ^ b * 2 ^ r ≤ z / 2 ^ b * 2 ^ (b + o) :=
          Nat.mul_le_mul_left _ (Nat.pow_le_pow_right (by decide) hle)
      _ = z / 2 ^ b * 2 ^ b * 2 ^ o := by rw [Nat.pow_add, Nat.mul_assoc]
      _ ≤ z * 2 ^ o := Nat.mul_le_mul_right _ (Nat.div_mul_le_self z _)
      _ < 2 ^ 64 := hz
  have hnat := congrArg BitVec.toNat htag
  rw [blockTag, blockTag, hr, BitVec.toNat_ofNat, BitVec.toNat_ofNat,
    Nat.mod_eq_of_lt (hfit hx), Nat.mod_eq_of_lt (hfit hy)] at hnat
  have hdiv := Nat.eq_of_mul_eq_mul_right (Nat.two_pow_pos r) hnat
  rw [← Nat.div_add_mod x (2 ^ b), ← Nat.div_add_mod y (2 ^ b), hdiv, hset]

end SchoolStuff.CamCache
