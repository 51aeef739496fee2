import SchoolStuff.Mix.Decode

/-!
# Mix — the last byte of a number

What `%2hhx` and `%p` make of a text that loses its last byte, by the bytes
of the text: for a pair of a hex line only the two bytes count that follow
the white space (`pairUnread_iff`), for an address the last byte counts if
it is the first digit, the end of `(nil)`, or a digit that changes the
number (`addressNeeds_iff`). The zeros in front of a number do not, nor do
digits past the largest `unsigned long`.
-/

namespace SchoolStuff.Mix

open CText

/-! ## What the conversions read -/

def isSign (c : UInt8) : Bool := c = 45 || c = 43

/-- An item without its sign. -/
def unsigned : List UInt8 → List UInt8
  | [] => []
  | c :: cs => if isSign c then cs else c :: cs

theorem scanHex_eq (item : List UInt8) :
    scanHex item = (scanDigits (unsigned item)).map fun n : Nat =>
      if item.head? = some 45 then -(n : Int) else Int.ofNat n := by
  cases item with
  | nil => rfl
  | cons c cs =>
      by_cases hminus : c = 45
      · subst hminus
        simp [scanHex, unsigned, isSign]
      · have hhead : (c :: cs).head? ≠ some 45 := by simpa using hminus
        by_cases hplus : c = 43
        · subst hplus
          rfl
        · simp only [scanHex, unsigned, isSign, hminus, hplus, if_false, hhead,
            decide_false, Bool.or_self, Bool.false_eq_true]

theorem hexDigits_eq_nil_iff {c : UInt8} {cs : List UInt8} :
    hexDigits (c :: cs) = [] ↔ hexVal c = none := by
  cases hc : hexVal c with
  | none => simp [hexDigits, hc]
  | some d => simp [hexDigits, hc]

theorem scanDigits_single (e : UInt8) : scanDigits [e] = hexVal e := by
  cases he : hexVal e with
  | none => simp [scanDigits, hexDigits, he]
  | some a => simp [scanDigits, dropBase, hexDigits, he, ofHexDigits]

theorem scanDigits_pair (e f : UInt8) :
    scanDigits [e, f] = (hexVal e).map fun a =>
      match hexVal f with
      | some b => 16 * a + b
      | none => a := by
  cases he : hexVal e with
  | none => simp [scanDigits, hexDigits, he]
  | some a =>
      rw [scanDigits, if_neg (by simp [hexDigits, he]), dropBase]
      by_cases hbase : isBase e f = true
      · -- the `0` of `0x` is the number
        simp only [isBase, Bool.and_eq_true, Bool.or_eq_true,
          decide_eq_true_eq] at hbase
        obtain ⟨rfl, hx⟩ := hbase
        have ha : a = 0 := by simpa [hexVal, eq_comm] using he
        have hf : hexVal f = none := by
          rcases hx with rfl | rfl <;> decide
        simp [isBase, hx, hf, ha, hexDigits, ofHexDigits]
      · rw [if_neg hbase]
        cases hf : hexVal f with
        | none => simp [hexDigits, he, hf, ofHexDigits]
        | some b => simp [hexDigits, he, hf, ofHexDigits]

/-- The white space in front of a text that loses its last byte. -/
theorem dropSpace_snoc (q : List UInt8) (c : UInt8) :
    (q ++ [c]).dropWhile isSpace
      = if q.dropWhile isSpace = [] then if isSpace c then [] else [c]
        else q.dropWhile isSpace ++ [c] := by
  induction q with
  | nil => cases hc : isSpace c <;> simp [List.dropWhile, hc]
  | cons i q ih =>
      cases hi : isSpace i with
      | true => simpa [List.dropWhile_cons, hi] using ih
      | false => simp [hi]

/-! ## A pair of a hex line -/

/-- `%2hhx` reads a number there. -/
def PairReads (s : List UInt8) : Prop :=
  match s.dropWhile isSpace with
  | [] => False
  | [e] => hexVal e ≠ none
  | e :: f :: _ => hexVal e ≠ none ∨ (isSign e = true ∧ hexVal f ≠ none)

instance (s : List UInt8) : Decidable (PairReads s) := by
  unfold PairReads; split <;> infer_instance

/-- `%2hhx` does not need the last byte there: it is none of the two bytes
that count, or no digit, or the second 0 of two, or behind a byte that is
neither a digit nor a sign. -/
def PairUnread (s : List UInt8) : Prop :=
  match s.dropWhile isSpace with
  | [e] => hexVal e = none
  | [e, f] => hexVal f = none ∨ (hexVal e = none ∧ isSign e = false)
      ∨ (e = 48 ∧ f = 48)
  | _ => True

instance (s : List UInt8) : Decidable (PairUnread s) := by
  unfold PairUnread; split <;> infer_instance

theorem sign_no_digit {c : UInt8} (h : isSign c = true) : hexVal c = none := by
  simp only [isSign, Bool.or_eq_true, decide_eq_true_eq] at h
  rcases h with rfl | rfl <;> decide

theorem hexVal_lt {c : UInt8} {d : Nat} (h : hexVal c = some d) : d < 16 := by
  have := hexVal_eq h
  omega

theorem hexVal_eq_zero {c : UInt8} (h : hexVal c = some 0) : c = 48 := by
  have := hexVal_eq h
  exact UInt8.toNat.inj (by show c.toNat = 48; omega)

/-- One byte, as a number. -/
theorem scanHex_single (e : UInt8) :
    scanHex [e] = if isSign e then none else (hexVal e).map Int.ofNat := by
  rw [scanHex_eq, unsigned]
  cases he : isSign e with
  | true => rfl
  | false =>
      have hminus : e ≠ 45 := by
        rintro rfl
        exact absurd he (by decide)
      simp only [Bool.false_eq_true, if_false, scanDigits_single, List.head?_cons,
        Option.some.injEq, hminus]

/-- Two bytes, as a number. -/
theorem scanHex_pair (e f : UInt8) :
    scanHex [e, f]
      = if isSign e then
          (hexVal f).map fun b : Nat => if e = 45 then -(b : Int) else Int.ofNat b
        else (hexVal e).map fun a : Nat =>
          match hexVal f with
          | some b => Int.ofNat (16 * a + b)
          | none => Int.ofNat a := by
  rw [scanHex_eq, unsigned]
  cases he : isSign e with
  | true => simp [scanDigits_single]
  | false =>
      have hminus : e ≠ 45 := by
        rintro rfl
        exact absurd he (by decide)
      simp only [Bool.false_eq_true, if_false, scanDigits_pair, List.head?_cons,
        Option.some.injEq, hminus, Option.map_map]
      congr 1
      funext a
      cases hexVal f <;> rfl

theorem scan2hhx_eq_none_iff (s : List UInt8) :
    scan2hhx s = none ↔ ¬ PairReads s := by
  rw [scan2hhx, PairReads, Option.map_eq_none_iff]
  match s.dropWhile isSpace with
  | [] => simp [scanHex]
  | [e] =>
      simp only [List.take_succ_cons, List.take_nil, scanHex_single]
      cases he : isSign e with
      | true => simp [sign_no_digit he]
      | false => simp
  | e :: f :: _ =>
      simp only [List.take_succ_cons, List.take_zero, scanHex_pair]
      cases he : isSign e with
      | true => simp [sign_no_digit he, Option.eq_none_iff_forall_ne_some]
      | false => simp

theorem uint8_ofInt_toNat {n : Nat} (hn : n < 256) :
    (UInt8.ofInt (Int.ofNat n)).toNat = n := by
  have hmod : (Int.ofNat n % 2 ^ 8).toNat = n := by
    show ((n : Int) % 256).toNat = n
    omega
  rw [UInt8.ofInt, hmod, UInt8.toNat_ofNat_of_lt' hn]

/-- Two digits make another byte than the first one, unless both are 0. -/
theorem ofInt_pair {a b : Nat} (ha : a < 16) (hb : b < 16) :
    UInt8.ofInt (Int.ofNat (16 * a + b)) = UInt8.ofInt (Int.ofNat a)
      ↔ a = 0 ∧ b = 0 := by
  rw [← UInt8.toNat_inj, uint8_ofInt_toNat (by omega), uint8_ofInt_toNat (by omega)]
  omega

/-- **A pair without the last byte** reads the same if that byte is not
needed. -/
theorem pairUnread_iff (s : List UInt8) :
    scan2hhx s = scan2hhx s.dropLast ↔ PairUnread s := by
  rcases List.eq_nil_or_concat s with rfl | ⟨q, c, rfl⟩
  · simp [PairUnread]
  · rw [List.concat_eq_append, List.dropLast_concat, scan2hhx, scan2hhx, PairUnread,
      dropSpace_snoc]
    match q.dropWhile isSpace with
    | [] =>
        rw [if_pos rfl]
        cases hc : isSpace c with
        | true => simp
        | false =>
            simp only [Bool.false_eq_true, if_false, List.take_succ_cons,
              List.take_nil, scanHex_single]
            cases hs : isSign c with
            | true => simp [sign_no_digit hs, scanHex]
            | false => cases hexVal c <;> simp [scanHex]
    | [e] =>
        simp only [List.cons_ne_nil, if_false, List.singleton_append,
          List.take_succ_cons, List.take_nil, scanHex_pair, scanHex_single]
        cases hs : isSign e with
        | true =>
            have he : e ≠ 48 := by
              rintro rfl
              exact absurd hs (by decide)
            cases hexVal c <;> simp [sign_no_digit hs, he]
        | false =>
            cases he : hexVal e with
            | none => simp
            | some a =>
                cases hc : hexVal c with
                | none => simp
                | some b =>
                    have hiff := ofInt_pair (hexVal_lt he) (hexVal_lt hc)
                    have hzero : a = 0 ∧ b = 0 ↔ e = 48 ∧ c = 48 := by
                      constructor
                      · rintro ⟨rfl, rfl⟩
                        exact ⟨hexVal_eq_zero he, hexVal_eq_zero hc⟩
                      · rintro ⟨rfl, rfl⟩
                        have h0 : hexVal 48 = some 0 := by decide
                        rw [h0, Option.some.injEq] at he hc
                        exact ⟨he.symm, hc.symm⟩
                    simpa [hzero] using hiff
    | e :: f :: r => simp

/-! ## An address -/

/-- All of the text are digits, and the last one changes the number: it is
not one of zeros only, and not past the largest `unsigned long`, which
`strtoul` returns from `2 ^ 64` on. -/
def DigitCounts (negative : Bool) (digits : List UInt8) : Prop :=
  digits ≠ [] ∧ (∀ x ∈ digits, hexVal x ≠ none)
    ∧ ofHexDigits (hexDigits digits) ≠ 0
    ∧ ofHexDigits (hexDigits digits.dropLast) < 2 ^ 64
    ∧ (negative = false → ofHexDigits (hexDigits digits.dropLast) ≠ 2 ^ 64 - 1)

instance (negative : Bool) (digits : List UInt8) : Decidable (DigitCounts negative digits) := by
  have := List.decidableBAll (hexVal · ≠ none) digits
  unfold DigitCounts; infer_instance

/-- The last byte of an item counts: behind a sign and a `0x` it is the only
digit, or one that changes the number, or it ends a `(nil)`. -/
def ItemNeeds (item : List UInt8) : Prop :=
  ((unsigned item).length = 1 ∧ ∀ x ∈ unsigned item, hexVal x ≠ none)
    ∨ (2 ≤ (unsigned item).length
      ∧ DigitCounts (item.head? = some 45) (dropBase (unsigned item)))
    ∨ item.map toLower = ascii "(nil)"

instance (item : List UInt8) : Decidable (ItemNeeds item) := by
  have := List.decidableBAll (hexVal · ≠ none) (unsigned item)
  unfold ItemNeeds; infer_instance

/-- The last byte of the payload of an address line counts. -/
def AddressNeeds (payload : List UInt8) : Prop :=
  ItemNeeds (payload.dropWhile isSpace)

instance (payload : List UInt8) : Decidable (AddressNeeds payload) :=
  inferInstanceAs (Decidable (ItemNeeds _))

/-- `%p`, behind the white space. -/
def scanItem (item : List UInt8) : Option UInt64 :=
  match scanHex item with
  | some n => some (toUInt64 n)
  | none => if isNil item then some 0 else none

theorem scanP_eq (s : List UInt8) : scanP s = scanItem (s.dropWhile isSpace) := rfl

theorem ofHexDigits_snoc (ds : List Nat) (d : Nat) :
    ofHexDigits (ds ++ [d]) = 16 * ofHexDigits ds + d := by
  simp [ofHexDigits]

theorem toUInt64_nat (n : Int) :
    (toUInt64 n).toNat
      = if n.natAbs < 18446744073709551616
        then (n % 18446744073709551616).toNat else 18446744073709551615 := by
  rw [toUInt64, apply_ite UInt64.toNat]
  congr 1
  show (UInt64.ofNat (n % 18446744073709551616).toNat).toNat = _
  rw [UInt64.toNat_ofNat_of_lt' (by show _ < 18446744073709551616; omega)]

theorem toUInt64_ofNat (n : Nat) :
    (toUInt64 (Int.ofNat n)).toNat
      = if n < 18446744073709551616 then n else 18446744073709551615 := by
  rw [toUInt64_nat, Int.ofNat_eq_natCast, Int.natAbs_natCast]
  split
  · omega
  · rfl

theorem toUInt64_neg (n : Nat) :
    (toUInt64 (-(n : Int))).toNat
      = if n = 0 then 0 else if n < 18446744073709551616
        then 18446744073709551616 - n else 18446744073709551615 := by
  rw [toUInt64_nat, Int.natAbs_neg, Int.natAbs_natCast]
  split
  · split
    · omega
    · omega
  · rw [if_neg (by omega)]

/-- What `strtoul` makes of a number with one digit more. -/
theorem toUInt64_snoc (negative : Bool) (v : Nat) {d : Nat} (hd : d < 16) :
    toUInt64 (if negative then -((16 * v + d : Nat) : Int)
        else Int.ofNat (16 * v + d))
      = toUInt64 (if negative then -(v : Int) else Int.ofNat v)
      ↔ ¬ ((v ≠ 0 ∨ d ≠ 0) ∧ v < 2 ^ 64 ∧ (negative = false → v ≠ 2 ^ 64 - 1)) := by
  rw [← UInt64.toNat_inj]
  cases negative with
  | true =>
      simp only [if_true, toUInt64_neg, reduceCtorEq, false_implies, and_true]
      split_ifs <;> omega
  | false =>
      simp only [Bool.false_eq_true, if_false, toUInt64_ofNat, true_implies]
      split_ifs <;> omega

/-- **One digit more** in a text of digits. -/
theorem hexDigits_snoc {D : List UInt8} (h : ∀ x ∈ D, hexVal x ≠ none) (c : UInt8) :
    hexDigits (D ++ [c]) = hexDigits D ++ (hexVal c).toList := by
  induction D with
  | nil => cases hc : hexVal c <;> simp [hexDigits, hc]
  | cons x D ih =>
      obtain ⟨hx, hD⟩ := List.forall_mem_cons.mp h
      obtain ⟨d, hd⟩ := Option.ne_none_iff_exists'.mp hx
      rw [List.cons_append, hexDigits_cons hd, hexDigits_cons hd, ih hD,
        List.cons_append]

/-- Behind a byte that is no digit nothing is read. -/
theorem hexDigits_stuck {D : List UInt8} (h : ¬ ∀ x ∈ D, hexVal x ≠ none) (c : UInt8) :
    hexDigits (D ++ [c]) = hexDigits D := by
  induction D with
  | nil => exact absurd (fun _ hx => absurd hx List.not_mem_nil) h
  | cons x D ih =>
      rw [List.forall_mem_cons] at h
      cases hx : hexVal x with
      | none => rw [List.cons_append, hexDigits_of_none hx, hexDigits_of_none hx]
      | some d =>
          rw [List.cons_append, hexDigits_cons hx, hexDigits_cons hx,
            ih fun hD => h ⟨by simp [hx], hD⟩]

/-- A sign or not, a number is read where there is a digit. -/
theorem scanHex_eq_none_iff (item : List UInt8) :
    scanHex item = none ↔ hexDigits (unsigned item) = [] := by
  rw [scanHex_eq, Option.map_eq_none_iff, scanDigits]
  split <;> simp_all

/-- The address of an item with a digit. -/
theorem scanHex_of_digit {item : List UInt8} (h : hexDigits (unsigned item) ≠ []) :
    scanHex item = some (if item.head? = some 45
      then -((ofHexDigits (hexDigits (dropBase (unsigned item))) : Nat) : Int)
      else Int.ofNat (ofHexDigits (hexDigits (dropBase (unsigned item))))) := by
  rw [scanHex_eq, scanDigits, if_neg h, Option.map_some]

theorem unsigned_snoc {u : List UInt8} (hu : u ≠ []) (c : UInt8) :
    unsigned (u ++ [c]) = unsigned u ++ [c] := by
  cases u with
  | nil => exact absurd rfl hu
  | cons i u =>
      simp only [List.cons_append, unsigned]
      split <;> rfl

/-- The `0x` of a number with one byte more, where the byte is not its `x`. -/
theorem dropBase_snoc {n : List UInt8} {c : UInt8} (hc : ∀ a, n = [a] → isBase a c = false)
    : dropBase (n ++ [c]) = dropBase n ++ [c] := by
  match n, hc with
  | [], _ => rfl
  | [a], hc => simp [dropBase, hc a rfl]
  | a :: b :: cs, _ =>
      simp only [List.cons_append, dropBase]
      split <;> rfl

/-- A last byte that counts is a digit behind digits. -/
theorem digitCounts_snoc {negative : Bool} {D : List UInt8} {c : UInt8} :
    DigitCounts negative (D ++ [c])
      ↔ (∀ x ∈ D, hexVal x ≠ none) ∧ ∃ d, hexVal c = some d
        ∧ (ofHexDigits (hexDigits D) ≠ 0 ∨ d ≠ 0)
        ∧ ofHexDigits (hexDigits D) < 2 ^ 64
        ∧ (negative = false → ofHexDigits (hexDigits D) ≠ 2 ^ 64 - 1) := by
  rw [DigitCounts, List.dropLast_concat, List.forall_mem_append, List.forall_mem_singleton,
    and_iff_right (by simp), and_assoc]
  refine and_congr_right fun hD => ?_
  rw [hexDigits_snoc hD]
  cases hexVal c with
  | none => simp
  | some d =>
      have hzero : 16 * ofHexDigits (hexDigits D) + d ≠ 0
          ↔ ofHexDigits (hexDigits D) ≠ 0 ∨ d ≠ 0 := by
        omega
      rw [Option.toList_some, ofHexDigits_snoc, hzero]
      simp

/-- `(nil)` starts with its bracket. -/
theorem bracket_of_nil {i : UInt8} {cs : List UInt8} {text : List UInt8}
    (h : (i :: cs).map toLower = 40 :: text) : i = 40 := by
  have hi : toLower i = 40 := (List.cons.inj h).1
  rw [toLower] at hi
  split at hi
  · rename_i hupper
    simp only [Bool.and_eq_true, decide_eq_true_eq, UInt8.le_iff_toNat_le] at hupper
    have hsum := congrArg UInt8.toNat hi
    rw [UInt8.toNat_add] at hsum
    have h65 : (65 : UInt8).toNat = 65 := rfl
    have h90 : (90 : UInt8).toNat = 90 := rfl
    have h32 : (32 : UInt8).toNat = 32 := rfl
    have h40 : (40 : UInt8).toNat = 40 := rfl
    omega
  · exact hi

/-- A short item is no `(nil)`. -/
theorem isNil_of_short {s : List UInt8} (h : s.length < 5) : isNil s = false := by
  refine decide_eq_false fun hnil => ?_
  have hlen := congrArg List.length hnil
  rw [List.length_map, List.length_take] at hlen
  have h5 : (ascii "(nil)").length = 5 := by decide
  omega

/-- `(nil)` with and without its last byte. -/
theorem isNil_snoc (u : List UInt8) (c : UInt8) :
    isNil (u ++ [c]) = isNil u ↔ (u ++ [c]).map toLower ≠ ascii "(nil)" := by
  have hlen : (ascii "(nil)").length = 5 := by decide
  rcases Nat.lt_trichotomy u.length 4 with hlt | heq | hgt
  · rw [isNil_of_short (s := u) (by omega), isNil_of_short (s := u ++ [c]) (by simp; omega)]
    refine iff_of_true rfl fun h => ?_
    have := congrArg List.length h
    rw [hlen] at this
    simp at this
    omega
  · have htake : (u ++ [c]).take 5 = u ++ [c] :=
      List.take_of_length_le (by simp [heq])
    rw [isNil_of_short (s := u) (by omega), isNil, htake, decide_eq_false_iff_not]
  · have htake : (u ++ [c]).take 5 = u.take 5 :=
      List.take_append_of_le_length (by omega)
    refine iff_of_true (by rw [isNil, isNil, htake]) fun h => ?_
    have := congrArg List.length h
    rw [hlen] at this
    simp at this
    omega

/-- An item that starts with a digit, behind a sign or not. -/
theorem itemNeeds_of_digit {u n : List UInt8} {x : UInt8} {d : Nat}
    (hu : u ≠ []) (hn : unsigned u = x :: n) (hx : hexVal x = some d) (c : UInt8) :
    scanItem (u ++ [c]) = scanItem u
      ↔ ¬ DigitCounts ((u ++ [c]).head? = some 45) (dropBase (x :: n ++ [c])) := by
  have hn' : unsigned (u ++ [c]) = x :: n ++ [c] := by rw [unsigned_snoc hu, hn]
  have hhead : (u ++ [c]).head? = u.head? := by
    cases u with
    | nil => exact absurd rfl hu
    | cons i u => rfl
  have hdigit : hexDigits (unsigned u) ≠ [] := by
    rw [hn, hexDigits_cons hx]
    exact List.cons_ne_nil _ _
  have hdigit' : hexDigits (unsigned (u ++ [c])) ≠ [] := by
    rw [hn', List.cons_append, hexDigits_cons hx]
    exact List.cons_ne_nil _ _
  have hscan := scanHex_of_digit hdigit
  have hscan' := scanHex_of_digit hdigit'
  rw [hn] at hscan
  rw [hn', hhead] at hscan'
  simp only [scanItem, hscan, hscan', hhead, Option.some.injEq]
  by_cases hbase : n = [] ∧ isBase x c = true
  · -- the byte is the `x` of `0x`
    obtain ⟨rfl, hbase⟩ := hbase
    have hzero : x = 48 := by
      simp only [isBase, Bool.and_eq_true, decide_eq_true_eq] at hbase
      exact hbase.1
    have hdrop : dropBase ([x] ++ [c]) = [] := by simp [dropBase, hbase]
    rw [hdrop, hzero]
    exact iff_of_true rfl fun h => h.1 rfl
  · have hdrop : dropBase (x :: n ++ [c]) = dropBase (x :: n) ++ [c] := by
      apply dropBase_snoc
      intro a ha
      obtain ⟨rfl, rfl⟩ := List.cons.inj ha
      simpa using hbase
    rw [hdrop, digitCounts_snoc]
    by_cases hall : ∀ y ∈ dropBase (x :: n), hexVal y ≠ none
    · rw [hexDigits_snoc hall]
      cases hc : hexVal c with
      | none => simp
      | some e =>
          have hiff := toUInt64_snoc (decide (u.head? = some 45))
            (ofHexDigits (hexDigits (dropBase (x :: n)))) (hexVal_lt hc)
          simp only [decide_eq_true_eq] at hiff
          rw [and_iff_right hall]
          simp only [Option.toList_some, ofHexDigits_snoc, Option.some.injEq,
            exists_eq_left']
          exact hiff
    · rw [hexDigits_stuck hall]
      exact iff_of_true rfl fun h => hall h.1

/-- An item that starts with no digit, behind a sign or not, is a `(nil)` or
nothing. -/
theorem scanItem_of_no_digit {item : List UInt8} (h : hexDigits (unsigned item) = []) :
    scanItem item = if isNil item then some 0 else none := by
  rw [scanItem, (scanHex_eq_none_iff item).mpr h]

theorem nil_reads (b b' : Bool) :
    (if b then some (0 : UInt64) else none) = (if b' then some 0 else none) ↔ b = b' := by
  cases b <;> cases b' <;> simp

theorem dropBase_of_none {x : UInt8} (hx : hexVal x = none) (cs : List UInt8) :
    dropBase (x :: cs) = x :: cs := by
  cases cs with
  | nil => rfl
  | cons b cs =>
      have hbase : isBase x b = false := by
        have h0 : x ≠ 48 := by
          rintro rfl
          exact absurd hx (by decide)
        simp [isBase, h0]
      rw [dropBase, hbase]
      rfl

theorem not_digitCounts {negative : Bool} {x : UInt8} (hx : hexVal x = none)
    (cs : List UInt8) : ¬ DigitCounts negative (x :: cs) :=
  fun h => h.2.1 x List.mem_cons_self hx

/-- A digit or a sign starts no `(nil)`. -/
theorem bracket_not_head {i : UInt8} (h : hexVal i ≠ none ∨ isSign i = true)
    (cs : List UInt8) : (i :: cs).map toLower ≠ ascii "(nil)" := by
  intro hnil
  have hi : i = 40 := bracket_of_nil hnil
  rw [hi] at h
  exact absurd h (by decide)

/-- What starts a text of which something is left behind the sign. -/
theorem head_of_unsigned {u n : List UInt8} {x : UInt8} (hn : unsigned u = x :: n) :
    (∃ i cs, u = i :: cs ∧ isSign i = true) ∨ u = x :: n := by
  cases u with
  | nil => exact absurd hn (by simp [unsigned])
  | cons i cs =>
      rw [unsigned] at hn
      split at hn
      · rename_i hi
        exact .inl ⟨i, cs, rfl, hi⟩
      · exact .inr hn

theorem unsigned_eq_nil {u : List UInt8} (hu : u ≠ []) (hn : unsigned u = []) :
    ∃ i, u = [i] ∧ isSign i = true := by
  cases u with
  | nil => exact absurd rfl hu
  | cons i cs =>
      rw [unsigned] at hn
      split at hn
      · rename_i hi
        exact ⟨i, by rw [hn], hi⟩
      · exact absurd hn (List.cons_ne_nil i cs)

/-- **The first digit of an item** counts. -/
theorem itemNeeds_of_single {u : List UInt8} {c : UInt8} (hu : (u ++ [c]).length < 5)
    (hn : hexDigits (unsigned u) = []) (hsnoc : unsigned (u ++ [c]) = [c]) :
    scanItem (u ++ [c]) = scanItem u ↔ ¬ ItemNeeds (u ++ [c]) := by
  have hu' : u.length < 5 := by
    rw [List.length_append] at hu
    omega
  have hnone : scanItem u = none := by
    rw [scanItem_of_no_digit hn, isNil_of_short hu']
    rfl
  have hnil : (u ++ [c]).map toLower ≠ ascii "(nil)" := by
    intro h
    have hlen := congrArg List.length h
    rw [List.length_map] at hlen
    have h5 : (ascii "(nil)").length = 5 := by decide
    omega
  rw [hnone, ItemNeeds, hsnoc]
  cases hc : hexVal c with
  | none =>
      rw [scanItem_of_no_digit (by rw [hsnoc]; exact hexDigits_of_none hc _),
        isNil_of_short hu]
      simpa [hc] using hnil
  | some d =>
      rw [scanItem, scanHex_of_digit (by rw [hsnoc, hexDigits_cons hc]; simp)]
      simp [hc]

/-- **An item without its last byte** reads the same if that byte does not
count. -/
theorem itemNeeds_iff (u : List UInt8) (c : UInt8) :
    scanItem (u ++ [c]) = scanItem u ↔ ¬ ItemNeeds (u ++ [c]) := by
  by_cases hu : u = []
  · -- the byte is all of the item
    subst hu
    cases hc : isSign c with
    | true =>
        have hitem : unsigned [c] = [] := by simp [unsigned, hc]
        have hshort : ∀ s : List UInt8, s.length < 2 → unsigned s = [] → scanItem s = none := by
          intro s hs h
          rw [scanItem_of_no_digit (by rw [h]; rfl), isNil_of_short (by omega)]
          rfl
        rw [List.nil_append, hshort [c] (by simp) hitem, hshort [] (by simp) rfl, ItemNeeds,
          hitem]
        refine iff_of_true rfl ?_
        rintro (⟨h, _⟩ | ⟨h, _⟩ | h)
        · exact absurd h (by simp)
        · exact absurd h (by simp)
        · exact bracket_not_head (.inr hc) [] h
    | false => exact itemNeeds_of_single (by simp) rfl (by simp [unsigned, hc])
  have hsnoc := unsigned_snoc hu c
  cases hn : unsigned u with
  | nil =>
      -- the byte follows a sign
      obtain ⟨i, rfl, _⟩ := unsigned_eq_nil hu hn
      exact itemNeeds_of_single (by simp) (by rw [hn]; rfl) (by rw [hsnoc, hn]; rfl)
  | cons x n =>
      rw [hn] at hsnoc
      have hlong : (x :: n ++ [c]).length ≠ 1 := by simp
      cases hx : hexVal x with
      | none =>
          rw [scanItem_of_no_digit (by rw [hsnoc]; exact hexDigits_of_none hx _),
            scanItem_of_no_digit (by rw [hn]; exact hexDigits_of_none hx _),
            nil_reads, isNil_snoc, not_iff_not, ItemNeeds, hsnoc]
          constructor
          · exact fun h => .inr (.inr h)
          · rintro (⟨h, _⟩ | ⟨_, h⟩ | h)
            · exact absurd h hlong
            · rw [List.cons_append, dropBase_of_none hx] at h
              exact absurd h (not_digitCounts hx _)
            · exact h
      | some d =>
          rw [itemNeeds_of_digit hu hn hx, not_iff_not, ItemNeeds, hsnoc]
          constructor
          · exact fun h => .inr (.inl ⟨by simp, h⟩)
          · rintro (⟨h, _⟩ | ⟨_, h⟩ | h)
            · exact absurd h hlong
            · exact h
            · obtain ⟨i, cs, rfl, hi⟩ | rfl := head_of_unsigned hn
              · exact absurd h (bracket_not_head (.inr hi) _)
              · exact absurd h (bracket_not_head (.inl (by simp [hx])) _)

/-- `%p` reads an address there: behind white space and a sign comes a digit,
or it is a `(nil)`. -/
def AddressReads (payload : List UInt8) : Prop :=
  (∃ x n, unsigned (payload.dropWhile isSpace) = x :: n ∧ hexVal x ≠ none)
    ∨ ((payload.dropWhile isSpace).take 5).map toLower = ascii "(nil)"

theorem scanP_eq_none_iff (payload : List UInt8) :
    scanP payload = none ↔ ¬ AddressReads payload := by
  rw [scanP_eq, AddressReads, not_or]
  generalize payload.dropWhile isSpace = item
  have hdigit : (∃ x n, unsigned item = x :: n ∧ hexVal x ≠ none)
      ↔ hexDigits (unsigned item) ≠ [] := by
    cases unsigned item with
    | nil => simp [hexDigits]
    | cons x n => simp [hexDigits_eq_nil_iff]
  rw [hdigit, not_not]
  by_cases h : hexDigits (unsigned item) = []
  · rw [scanItem_of_no_digit h, and_iff_right h, isNil]
    simp
  · rw [scanItem, scanHex_of_digit h]
    simp [h]

/-- **An address without the last byte** reads the same if that byte does
not count. -/
theorem addressNeeds_iff (payload : List UInt8) :
    scanP payload = scanP payload.dropLast ↔ ¬ AddressNeeds payload := by
  have hnil : ¬ ItemNeeds [] := by
    rintro (⟨h, _⟩ | ⟨h, _⟩ | h)
    · exact absurd h (by simp [unsigned])
    · exact absurd h (by simp [unsigned])
    · exact absurd h (by decide)
  rcases List.eq_nil_or_concat payload with rfl | ⟨q, c, rfl⟩
  · exact iff_of_true rfl hnil
  · rw [List.concat_eq_append, List.dropLast_concat, AddressNeeds, scanP_eq,
      scanP_eq, dropSpace_snoc]
    split
    · rename_i hq
      rw [hq]
      split
      · exact iff_of_true rfl hnil
      · exact itemNeeds_iff [] c
    · exact itemNeeds_iff _ c

end SchoolStuff.Mix
