import SchoolStuff.Xv6.Dirents

/-!
# Xv6 — directories are lists of entries

The file of a directory is the bytes of its entries (`Holds`). A call reads
and writes them at multiples of 16, so it does what `Store` says, and a run of
calls ends as one on the store does.
-/

namespace SchoolStuff.Xv6.Dirents

open Dirs (DIRSIZ Inum Name dot dotdot)

/-! ## Strings -/

/-- The string at `s`, cut at `n` bytes. -/
def cstring (n : Nat) (s : List UInt8) : List UInt8 := (s.takeWhile (· ≠ 0)).take n

theorem cstring_succ (n : Nat) (s : List UInt8) : cstring (n + 1) s
    = if s.headD 0 ≠ 0 then s.headD 0 :: cstring n s.tail else [] := by
  cases s with
  | nil => rfl
  | cons c s =>
      unfold cstring
      rw [List.takeWhile_cons, List.headD_cons, List.tail_cons]
      by_cases hc : c = 0
      · rw [if_neg (by simp [hc]), if_neg (by simp [hc]), List.take_nil]
      · rw [if_pos (by simp [hc]), if_pos hc, List.take_succ_cons]

theorem strncmp_eq_zero_iff (n : Nat) (p q : List UInt8) :
    strncmp p q n = 0 ↔ cstring n p = cstring n q := by
  induction n generalizing p q with
  | zero => simp [strncmp, cstring]
  | succ n ih =>
      rw [strncmp, cstring_succ, cstring_succ]
      split
      · rename_i h
        rw [ih, if_pos h.1, if_pos (h.2 ▸ h.1), h.2, List.cons.injEq]
        simp only [true_and]
      · rename_i h
        have hsub : ((p.headD 0).toNat : Int) - (q.headD 0).toNat = 0
            ↔ p.headD 0 = q.headD 0 := by
          rw [← UInt8.toNat_inj]
          omega
        rw [hsub]
        -- the first bytes differ, or both strings end here
        by_cases hp : p.headD 0 = 0
        · rw [if_neg (not_not_intro hp), hp]
          by_cases hq : q.headD 0 = 0
          · rw [if_neg (not_not_intro hq), hq]
            exact iff_of_true rfl rfl
          · rw [if_pos hq]
            exact iff_of_false (Ne.symm hq) nofun
        · have hne : p.headD 0 ≠ q.headD 0 := fun heq => h ⟨hp, heq⟩
          rw [if_pos hp]
          refine iff_of_false hne fun heq => ?_
          split at heq
          · exact hne (List.cons.inj heq).1
          · cases heq

theorem namecmp_eq_zero_iff (s t : List UInt8) :
    namecmp s t = 0 ↔ entryName s = entryName t :=
  strncmp_eq_zero_iff DIRSIZ s t

theorem length_strncpy (t : List UInt8) (n : Nat) : (strncpy t n).length = n := by
  induction n generalizing t with
  | zero => rfl
  | succ n ih =>
      rw [strncpy]
      split
      · rw [List.length_cons, ih]
      · exact List.length_replicate

theorem cstring_strncpy (t : List UInt8) (n : Nat) :
    cstring n (strncpy t n) = cstring n t := by
  induction n generalizing t with
  | zero => simp [cstring]
  | succ n ih =>
      rw [cstring_succ, cstring_succ, strncpy]
      split
      · rename_i h
        rw [List.headD_cons, List.tail_cons, if_pos h, ih]
      · rw [List.replicate_succ, List.headD_cons]
        exact if_neg (not_not_intro rfl)

theorem strncpy_cstring (t : List UInt8) (n : Nat) :
    strncpy (cstring n t) n = strncpy t n := by
  induction n generalizing t with
  | zero => rfl
  | succ n ih =>
      rw [strncpy, strncpy, cstring_succ]
      by_cases h : t.headD 0 = 0
      · simp only [if_neg (not_not_intro h), List.headD_nil, ne_eq, not_true_eq_false, if_false]
      · rw [if_pos h, List.headD_cons, List.tail_cons, if_pos h, if_pos h, ih]

theorem cstring_cstring (t : List UInt8) (n : Nat) :
    cstring n (cstring n t) = cstring n t := by
  rw [← cstring_strncpy, strncpy_cstring, cstring_strncpy]

/-! ## Entries -/

namespace Dirent

theorem length_bytes {de : Dirent} (h : de.name.length = DIRSIZ) : de.bytes.length = 16 := by
  rw [bytes, List.length_cons, List.length_cons, h]

theorem ofBytes_bytes (de : Dirent) : ofBytes de.bytes = de := by
  have hinum := de.inum.toNat_lt
  have hword : UInt16.ofNat ((UInt8.ofNat de.inum.toNat).toNat
      + 256 * (UInt8.ofNat (de.inum.toNat / 256)).toNat) = de.inum := by
    apply UInt16.toNat_inj.1
    rw [UInt16.toNat_ofNat', UInt8.toNat_ofNat', UInt8.toNat_ofNat']
    omega
  unfold ofBytes bytes
  rw [List.getD_cons_zero, List.getD_cons_succ, List.getD_cons_zero, hword]
  rfl

theorem length_ofEntry (de : Dirs.Dirent) : (ofEntry de).bytes.length = 16 :=
  length_bytes (length_strncpy _ _)

/-- An entry keeps no more of a name than `namecmp` looks at. -/
theorem ofEntry_entryName (inum : Inum) (name : List UInt8) :
    ofEntry ⟨inum, entryName name⟩ = ⟨UInt16.ofNat inum.val, strncpy name DIRSIZ⟩ :=
  congrArg (Dirent.mk _) (strncpy_cstring name DIRSIZ)

theorem ofEntry_inum_eq_zero (de : Dirs.Dirent) : (ofEntry de).inum = 0 ↔ de.inum = 0 := by
  have hlt := de.inum.isLt
  have hnum : (ofEntry de).inum.toNat = de.inum.val :=
    UInt16.toNat_ofNat_of_lt' (Nat.lt_trans hlt (by decide))
  rw [← UInt16.toNat_inj, hnum]
  exact Fin.val_eq_zero_iff

theorem ofEntry_inum (de : Dirs.Dirent) :
    (ofEntry de).inum.toUInt32 = UInt32.ofNat de.inum.val := by
  have hlt := de.inum.isLt
  apply UInt32.toNat_inj.1
  rw [UInt16.toNat_toUInt32, UInt32.toNat_ofNat_of_lt' (Nat.lt_trans hlt (by decide))]
  exact UInt16.toNat_ofNat_of_lt' (Nat.lt_trans hlt (by decide))

end Dirent

/-- The file of a directory. -/
def dirBytes (des : List Dirs.Dirent) : List UInt8 :=
  des.flatMap fun de => (Dirent.ofEntry de).bytes

theorem length_dirBytes (des : List Dirs.Dirent) : (dirBytes des).length = 16 * des.length :=
  length_records Dirent.length_ofEntry des

/-- This is the content of inode `i`. Each name in a directory fits an entry. -/
def Content.In (st : Fs) (i : UInt32) : Content → Prop
  | .file bytes => (st.inode i).type = T_FILE ∧ st.content i = bytes
  | .dir des => (st.inode i).type = T_DIR ∧ st.content i = dirBytes des
      ∧ ∀ de ∈ des, entryName de.name = de.name

/-- The store holds what is on the disk, and every directory of the disk. -/
structure Holds (st : Fs) (s : Store) : Prop where
  content : ∀ {i c}, s i = some c → st.Allocated i ∧ c.In st i
  dirs : ∀ {i}, (st.inode i).type = T_DIR → ∃ des, s i = some (.dir des)

/-! ## Reading -/

section
variable {st : Fs} {s : Store} {dp : UInt32} {des : List Dirs.Dirent}

theorem size_le (h : st.Owned) (hs : Holds st s) (hdp : s dp = some (.dir des)) :
    16 * des.length ≤ MAXFILE * BSIZE := by
  obtain ⟨halloc, _, hcontent, _⟩ := hs.content hdp
  have hlen := length_dirBytes des
  rw [← hcontent, Fs.length_content] at hlen
  by_contra hlt
  have := (h.sized dp halloc (MAXFILE * BSIZE) (by omega)).1
  omega

theorem readDirent_spec (h : st.Owned) (hs : Holds st s) (hdp : s dp = some (.dir des))
    {k : Nat} (hk : k < des.length) (err : Stop) :
    readDirent st dp (16 * k) err = .ok (Dirent.ofEntry des[k], st) := by
  obtain ⟨halloc, htype, hcontent, _⟩ := hs.content hdp
  have hmax := size_le h hs hdp
  have hfile : MAXFILE * BSIZE = 71680 := rfl
  have hoff : (UInt32.ofNat (16 * k)).toNat = 16 * k :=
    UInt32.toNat_ofNat_of_lt' (Nat.lt_trans (show 16 * k < 71680 by omega) (by decide))
  have hread : Fs.flatRead (st.content dp) (UInt32.ofNat (16 * k)) 16
      = some (Dirent.ofEntry des[k]).bytes := by
    have hn : (16 : UInt32).toNat = 16 := rfl
    rw [Fs.flatRead, hoff, hcontent, length_dirBytes, hn, if_neg (by omega)]
    exact congrArg some (slice_records Dirent.length_ofEntry hk)
  unfold readDirent
  rw [Fs.readi_spec h halloc (by rw [htype]; decide), hread]
  change (if _ then _ else _) = _
  rw [if_pos (Dirent.length_ofEntry _), Dirent.ofBytes_bytes]

/-- **The loops over the entries** search the list. -/
theorem scan_spec (h : st.Owned) (hs : Holds st s) (hdp : s dp = some (.dir des))
    {stop : Dirent → Bool} {p : Dirs.Dirent → Bool}
    (hstop : ∀ de ∈ des, stop (Dirent.ofEntry de) = p de) (err : Stop) (k : Nat) :
    scan dp stop err st (16 * k)
      = .ok (((des.drop k).find? p).map Dirent.ofEntry,
          16 * (k + (des.drop k).findIdx p), st) := by
  have hsize : (st.inode dp).size.toNat = 16 * des.length := by
    rw [← Fs.length_content, (hs.content hdp).2.2.1, length_dirBytes]
  rw [scan]
  by_cases hk : k < des.length
  · rw [dif_pos (by omega), List.drop_eq_getElem_cons hk]
    change (readDirent st dp (16 * k) err >>= _) = _
    rw [readDirent_spec h hs hdp hk]
    change (if _ then _ else _) = _
    rw [hstop _ (List.getElem_mem hk), List.find?_cons, List.findIdx_cons]
    cases hp : p des[k] with
    | true => rfl
    | false =>
        rw [if_neg nofun, ← Nat.mul_succ, scan_spec h hs hdp hstop err (k + 1)]
        simp only [cond_false]
        congr 4
        omega
  · rw [dif_neg (by omega), List.drop_of_length_le (by omega)]
    rfl
termination_by des.length - k

theorem lookup_eq (name : Name) : Dirs.lookup des name
    = (des.find? fun de => de.inum ≠ 0 ∧ de.name = name).map
        (·, des.findIdx fun de => de.inum ≠ 0 ∧ de.name = name) := by
  suffices ∀ n, (des.zipIdx n).find? (fun x => x.1.inum ≠ 0 ∧ x.1.name = name)
      = (des.find? fun de => de.inum ≠ 0 ∧ de.name = name).map
        (·, n + des.findIdx fun de => de.inum ≠ 0 ∧ de.name = name) by
    rw [Dirs.lookup, this 0]
    simp only [Nat.zero_add]
  induction des with
  | nil => exact fun _ => rfl
  | cons de des ih =>
      intro n
      rw [List.zipIdx_cons, List.find?_cons, List.find?_cons, List.findIdx_cons, ih (n + 1)]
      cases hp : decide (de.inum ≠ 0 ∧ de.name = name) with
      | true => rfl
      | false =>
          simp only [cond_false]
          congr 2
          funext x
          rw [Nat.add_assoc, Nat.add_comm 1]

/-- The first entry of a name is the one that is found. -/
theorem lookup_of_first {name : Name} {k : Nat} (hk : k < des.length)
    (hp : des[k].inum ≠ 0 ∧ des[k].name = name)
    (hfirst : ∀ j (_ : j < k), ¬(des[j].inum ≠ 0 ∧ des[j].name = name)) :
    Dirs.lookup des name = some (des[k], k) := by
  have hfind : des.find? (fun de => de.inum ≠ 0 ∧ de.name = name) = some des[k] :=
    List.find?_eq_some_iff_getElem.2 ⟨decide_eq_true hp, k, hk, rfl, fun j hj => by
      rw [decide_eq_false (hfirst j hj)]
      rfl⟩
  have hidx : des.findIdx (fun de => de.inum ≠ 0 ∧ de.name = name) = k :=
    (List.findIdx_eq hk).2 ⟨decide_eq_true hp, fun j hj => decide_eq_false (hfirst j hj)⟩
  rw [lookup_eq, hfind, hidx]
  rfl

theorem dirlookup_spec (h : st.Owned) (hs : Holds st s) (hdp : s dp = some (.dir des))
    (name : List UInt8) : dirlookup st dp name = .ok (Store.find des name, st) := by
  have hstop : ∀ de ∈ des, decide ((Dirent.ofEntry de).inum ≠ 0
      ∧ namecmp name (Dirent.ofEntry de).name = 0)
      = decide (de.inum ≠ 0 ∧ de.name = entryName name) := by
    intro de hde
    have hname : entryName (Dirent.ofEntry de).name = de.name :=
      (cstring_strncpy de.name DIRSIZ).trans ((hs.content hdp).2.2.2 de hde)
    rw [decide_eq_decide, namecmp_eq_zero_iff, hname, ne_eq, Dirent.ofEntry_inum_eq_zero,
      eq_comm (a := de.name)]
  unfold dirlookup
  rw [if_neg (not_not_intro (hs.content hdp).2.1), scan_spec h hs hdp hstop .dirlookupRead 0]
  rw [Store.find, lookup_eq, List.drop_zero, Nat.zero_add, Option.map_map]
  change Except.ok (Option.map _ (Option.map _ _), st) = _
  rw [Option.map_map]
  congr 3
  funext de
  exact Prod.ext (Dirent.ofEntry_inum de) rfl

theorem isdirempty_spec (h : st.Owned) (hs : Holds st s) (hdp : s dp = some (.dir des)) :
    isdirempty st dp = .ok (s.isEmpty dp, st) := by
  have hstop : ∀ de ∈ des, decide ((Dirent.ofEntry de).inum ≠ 0) = decide (de.inum ≠ 0) := by
    intro de _
    rw [decide_eq_decide, ne_eq, Dirent.ofEntry_inum_eq_zero]
  unfold isdirempty
  rw [show 2 * 16 = 16 * 2 from rfl, scan_spec h hs hdp hstop .isdirempty 2]
  change Except.ok (Option.isNone (Option.map _ _), st) = _
  rw [Option.isNone_map, Store.isEmpty, hdp]
  congr 2
  rw [Bool.eq_iff_iff, Option.isNone_iff_eq_none, List.find?_eq_none, List.all_eq_true]
  simp only [decide_eq_true_eq, ne_eq, not_not]

end

/-! ## Writing -/

/-- One inode has a new content, and the others have theirs. -/
theorem Holds.update {st st' : Fs} {s : Store} (hs : Holds st s) {i : UInt32} {c : Content}
    (hother : Fs.Other st st' i) (hi : st.Allocated i) (hc : c.In st' i) :
    Holds st' (Function.update s i (some c)) := by
  constructor
  · intro j c' hj
    by_cases hji : j = i
    · rw [hji, Function.update_self, Option.some.injEq] at hj
      rw [hji, ← hj]
      exact ⟨(hother.allocated i).2 hi, hc⟩
    · rw [Function.update_of_ne hji] at hj
      obtain ⟨halloc, hin⟩ := hs.content hj
      refine ⟨(hother.allocated j).2 halloc, ?_⟩
      cases c' <;>
        simpa only [Content.In, hother.type, hother.content j hji halloc] using hin
  · intro j htype
    by_cases hji : j = i
    · rw [hji] at htype ⊢
      rw [Function.update_self]
      cases c with
      | file bytes => exact absurd (hc.1.symm.trans htype) (by decide)
      | dir des => exact ⟨des, rfl⟩
    · rw [hother.type] at htype
      rw [Function.update_of_ne hji]
      exact hs.dirs htype

/-- Errors that a call may end with: the disk is full, or the store has the
error as well. -/
def Allowed (s : Store) (op : Op) (e : Stop) : Prop :=
  e = .fs .ballocOutOfBlocks ∨ s.call op = .error e

section
variable {st : Fs} {s : Store} {dp : UInt32} {des : List Dirs.Dirent}

theorem writeDirent_spec (h : st.Owned) (hs : Holds st s) (hdp : s dp = some (.dir des))
    {k : Nat} (hk : k ≤ des.length) (de : Dirs.Dirent)
    (hname : entryName de.name = de.name) (err : Stop) :
    Ends (fun e => e = .fs .ballocOutOfBlocks ∨ e = err ∧ 16 * (k + 1) > MAXFILE * BSIZE)
      (writeDirent st dp (16 * k) (Dirent.ofEntry de) err) fun st' =>
        16 * (k + 1) ≤ MAXFILE * BSIZE ∧ st'.Owned
          ∧ Holds st' (Function.update s dp (some (.dir (Dirs.writeDirent des k de)))) := by
  obtain ⟨halloc, htype, hcontent, hnames⟩ := hs.content hdp
  have hmax := size_le h hs hdp
  have hfile : MAXFILE * BSIZE = 71680 := rfl
  have hlen := Dirent.length_ofEntry de
  have hoff : (UInt32.ofNat (16 * k)).toNat = 16 * k :=
    UInt32.toNat_ofNat_of_lt' (Nat.lt_of_le_of_lt (show 16 * k ≤ 71680 by omega) (by decide))
  have hdir : ∀ de' ∈ Dirs.writeDirent des k de, entryName de'.name = de'.name := by
    intro de' hde'
    unfold Dirs.writeDirent at hde'
    split at hde'
    · rcases List.mem_or_eq_of_mem_set hde' with hmem | rfl
      · exact hnames de' hmem
      · exact hname
    · rcases List.mem_append.1 hde' with hmem | hmem
      · exact hnames de' hmem
      · rw [List.mem_singleton.1 hmem]
        exact hname
  unfold writeDirent
  have hwrite := Fs.writei_spec h halloc (by rw [htype]; decide) (UInt32.ofNat (16 * k))
    (show (Dirent.ofEntry de).bytes.length < 2 ^ 32 by rw [hlen]; decide)
  refine (hwrite.allow fun e he => Or.inl (congrArg Stop.fs he)).mapError.bind ?_
  rintro ⟨r, st'⟩ ⟨howned, hother, hdone⟩
  unfold Fs.WriteDone at hdone
  rw [Fs.flatWrite, hoff, hcontent, length_dirBytes, hlen] at hdone
  by_cases hfull : 16 * (k + 1) > MAXFILE * BSIZE
  · rw [if_pos (by omega)] at hdone
    cases hdone
    exact Or.inr ⟨rfl, hfull⟩
  · rw [if_neg (by omega), dirBytes, splice_records Dirent.length_ofEntry hk] at hdone
    obtain ⟨(hr : r = some 16), hcontent'⟩ := hdone
    change Ends _ (if r = some 16 then _ else _) _
    rw [if_pos hr]
    refine ⟨Nat.le_of_not_lt hfull, howned, hs.update hother halloc ⟨?_, hcontent', hdir⟩⟩
    rw [hother.type]
    exact htype

theorem slot_le (des : List Dirs.Dirent) : Dirs.slot des ≤ des.length :=
  List.findIdx_le_length

/-- **`dirlink`** writes its entry over the first free one, or after the last. -/
theorem dirlink_spec (h : st.Owned) (hs : Holds st s) (hdp : s dp = some (.dir des))
    (name : List UInt8) (inum : Inum) :
    Ends (Allowed s (.dirlink dp name inum))
      (dirlink st dp name (UInt32.ofNat inum.val)) fun r =>
        ∃ s', s.call (.dirlink dp name inum) = .ok (.linked r.1, s') ∧ r.2.Owned
          ∧ Holds r.2 s' := by
  have hcall : s.call (.dirlink dp name inum)
      = if (Store.find des name).isSome then .ok (.linked false, s)
        else if 16 * (Dirs.slot des + 1) > MAXFILE * BSIZE then .error .dirlink
        else .ok (.linked true, Function.update s dp (some (.dir
          (Dirs.writeDirent des (Dirs.slot des) ⟨inum, entryName name⟩)))) := by
    simp only [Store.call, hdp]
  have hstop : ∀ de ∈ des, decide ((Dirent.ofEntry de).inum = 0) = decide (de.inum = 0) :=
    fun de _ => decide_eq_decide.2 (Dirent.ofEntry_inum_eq_zero de)
  unfold dirlink
  rw [dirlookup_spec h hs hdp]
  cases hfind : Store.find des name with
  | some x =>
      rw [hfind, Option.isSome_some, if_pos rfl] at hcall
      exact ⟨s, hcall, h, hs⟩
  | none =>
      rw [hfind, Option.isSome_none, if_neg nofun] at hcall
      change Ends _ (scan _ _ _ _ _ >>= _) _
      rw [show scan dp (fun de => decide (de.inum = 0)) .dirlinkRead st 0 = _ from
        scan_spec h hs hdp hstop .dirlinkRead 0, List.drop_zero, Nat.zero_add]
      have hde : (⟨(UInt32.ofNat inum.val).toUInt16, strncpy name DIRSIZ⟩ : Dirent)
          = Dirent.ofEntry ⟨inum, entryName name⟩ := by
        rw [Dirent.ofEntry_entryName, UInt32.toUInt16_ofNat']
      have hwrite := writeDirent_spec h hs hdp (slot_le des) ⟨inum, entryName name⟩
        (cstring_cstring name DIRSIZ) .dirlink
      rw [← hde] at hwrite
      change Ends _ (writeDirent st dp (16 * Dirs.slot des) _ .dirlink >>= _) _
      refine Ends.bind (hwrite.allow ?_) ?_
      · rintro e (he | ⟨rfl, hfull⟩)
        · exact Or.inl he
        · exact Or.inr (hcall.trans (if_pos hfull))
      · rintro st' ⟨hroom, howned, hholds⟩
        exact ⟨_, hcall.trans (if_neg (Nat.not_lt_of_le hroom)), howned, hholds⟩

/-- The entry that a name is found at. -/
theorem find_some {name : List UInt8} {x : UInt32 × Nat}
    (hfind : Store.find des name = some x) : ∃ k < des.length, x.2 = 16 * k := by
  obtain ⟨⟨de, k⟩, hlookup, rfl⟩ := Option.map_eq_some_iff.1 hfind
  have hmem := List.mem_of_find?_eq_some hlookup
  exact ⟨k, List.snd_lt_of_mem_zipIdx hmem, rfl⟩

theorem unlinkable_spec (h : st.Owned) (hs : Holds st s) (ip : UInt32) :
    unlinkable st ip = .ok (s.isEmpty ip, st) := by
  unfold unlinkable
  by_cases htype : (st.inode ip).type = T_DIR
  · obtain ⟨des, hip⟩ := hs.dirs htype
    rw [if_pos htype, isdirempty_spec h hs hip]
  · rw [if_neg htype]
    unfold Store.isEmpty
    split
    · rename_i des hip
      exact absurd (hs.content hip).2.1 htype
    · rfl

theorem dots_iff (name : List UInt8) : (namecmp name dot = 0 ∨ namecmp name dotdot = 0)
    ↔ (entryName name = dot ∨ entryName name = dotdot) := by
  rw [namecmp_eq_zero_iff, namecmp_eq_zero_iff]
  exact Iff.rfl

/-- **`unlink`** clears the entry, but for a directory that is not empty. -/
theorem unlink_spec (h : st.Owned) (hs : Holds st s) (hdp : s dp = some (.dir des))
    {name : List UInt8} (hdot : ¬(entryName name = dot ∨ entryName name = dotdot)) :
    Ends (Allowed s (.unlink dp name)) (unlink st dp name) fun r =>
      ∃ s', s.call (.unlink dp name) = .ok (.unlinked r.1, s') ∧ r.2.Owned
        ∧ Holds r.2 s' := by
  unfold unlink
  rw [if_neg (hdot ∘ (dots_iff name).1), dirlookup_spec h hs hdp]
  cases hfind : Store.find des name with
  | none =>
      refine ⟨s, ?_, h, hs⟩
      simp only [Store.call, if_neg hdot, hdp, hfind]
  | some x =>
      obtain ⟨ip, off⟩ := x
      obtain ⟨k, hk, rfl⟩ := find_some hfind
      change Ends _ (unlinkable st ip >>= _) _
      rw [unlinkable_spec h hs ip]
      cases hempty : s.isEmpty ip with
      | false =>
          refine ⟨s, ?_, h, hs⟩
          simp only [Store.call, if_neg hdot, hdp, hfind, hempty, Bool.false_eq_true, if_false]
      | true =>
          have hmax := size_le h hs hdp
          have hwrite := writeDirent_spec h hs hdp (Nat.le_of_lt hk) ⟨0, []⟩ rfl
            .unlinkWritei
          change Ends _ (writeDirent st dp (16 * k) _ .unlinkWritei >>= _) _
          refine Ends.bind (hwrite.allow ?_) ?_
          · rintro e (he | ⟨-, hfull⟩)
            · exact Or.inl he
            · omega
          · rintro st' ⟨-, howned, hholds⟩
            refine ⟨_, ?_, howned, hholds⟩
            simp only [Store.call, if_neg hdot, hdp, hfind, hempty, if_true,
              Nat.mul_div_cancel_left k (show 0 < 16 by decide)]

end

/-- A call on a file. -/
theorem file_spec {st : Fs} (h : st.Owned) {c : Call} (hc : st.Regular c.inum) :
    Ends (· = .ballocOutOfBlocks) (st.call c) fun r =>
      r.2.Owned ∧ Fs.Other st r.2 c.inum ∧ r.1 = (Files.call st.content c).1
        ∧ r.2.content c.inum = (Files.call st.content c).2 c.inum := by
  cases c with
  | readi i off n =>
      change Ends _ (st.readi i off n >>= _) _
      rw [show st.readi i off n = _ from Fs.readi_spec h hc.1 hc.2 off n]
      exact ⟨h, Fs.Other.refl st i, rfl, rfl⟩
  | writei i off src hsrc =>
      refine (Fs.writei_spec h hc.1 hc.2 off hsrc).bind ?_
      rintro ⟨r, st'⟩ ⟨howned, hother, (hdone : Fs.WriteDone st i off src (r, st'))⟩
      refine ⟨howned, hother, ?_⟩
      unfold Fs.WriteDone at hdone
      simp only [Files.call, Call.inum]
      cases hflat : Fs.flatWrite (st.content i) off src with
      | none =>
          rw [hflat] at hdone
          cases hdone
          exact ⟨rfl, rfl⟩
      | some f =>
          rw [hflat] at hdone
          simp only [Function.update_self]
          exact ⟨congrArg Result.count hdone.1, hdone.2⟩
  | itrunc i =>
      obtain ⟨st', hrun, howned, hother, hempty⟩ := Fs.itrunc_spec h hc.1
      change Ends _ (st.itrunc i >>= _) _
      rw [show st.itrunc i = _ from hrun]
      exact ⟨howned, hother, rfl, hempty.trans (Function.update_self i [] st.content).symm⟩

/-! ## Runs -/

/-- The calls of `readi`, `writei` and `itrunc` are on files. -/
def Op.Ok (s : Store) : Op → Prop
  | .file c => ∃ bytes, s c.inum = some (.file bytes)
  | _ => True

/-- What is a file in the store stays one. -/
theorem Op.Ok.call {s s' : Store} {op op' : Op} (h : op.Ok s) {r : Answer}
    (hcall : s.call op' = .ok (r, s')) : op.Ok s' := by
  suffices ∀ i, (∃ bytes, s i = some (.file bytes)) → ∃ bytes, s' i = some (.file bytes) by
    cases op with
    | file c => exact this c.inum h
    | dirlookup dp name => trivial
    | dirlink dp name inum => trivial
    | unlink dp name => trivial
  rintro i ⟨bytes, hi⟩
  -- a directory that changes is another inode
  have hdir : ∀ {dp des c}, s dp = some (.dir des) →
      ∃ bytes, Function.update s dp (some (.dir c)) i = some (.file bytes) := by
    intro dp des c hdp
    have hne : i ≠ dp := by
      rintro rfl
      rw [hi] at hdp
      cases hdp
    exact ⟨bytes, (Function.update_of_ne hne _ _).trans hi⟩
  cases op' with
  | file c =>
      simp only [Store.call] at hcall
      split at hcall
      · cases hcall
        by_cases hic : i = c.inum
        · rw [hic, Function.update_self]
          exact ⟨_, rfl⟩
        · exact ⟨bytes, (Function.update_of_ne hic _ _).trans hi⟩
      · cases hcall
  | dirlookup dp name =>
      simp only [Store.call] at hcall
      split at hcall <;> cases hcall
      exact ⟨bytes, hi⟩
  | dirlink dp name inum =>
      simp only [Store.call] at hcall
      split at hcall
      · rename_i hdp
        split at hcall
        · cases hcall
          exact ⟨bytes, hi⟩
        · split at hcall <;> cases hcall
          exact hdir hdp
      · cases hcall
  | unlink dp name =>
      simp only [Store.call] at hcall
      split at hcall
      · cases hcall
        exact ⟨bytes, hi⟩
      · split at hcall
        · rename_i hdp
          split at hcall
          · cases hcall
            exact ⟨bytes, hi⟩
          · split at hcall <;> cases hcall
            · exact hdir hdp
            · exact ⟨bytes, hi⟩
        · cases hcall

/-- **A call** does to the disk what it does to the store. -/
theorem call_spec {st : Fs} {s : Store} (h : st.Owned) (hs : Holds st s) {op : Op}
    (hop : op.Ok s) : Ends (Allowed s op) (call st op) fun r =>
      ∃ s', s.call op = .ok (r.1, s') ∧ r.2.Owned ∧ Holds r.2 s' := by
  -- what is no directory in the store is none on the disk
  have hno : ∀ {dp}, (¬∃ des, s dp = some (.dir des)) → ∀ name,
      Dirents.dirlookup st dp name = .error .dirlookupNotDir := fun hdp _ =>
    if_pos fun htype => hdp (hs.dirs htype)
  cases op with
  | file c =>
      obtain ⟨bytes, hc⟩ := hop
      obtain ⟨halloc, htype, hcontent⟩ := hs.content hc
      have hcongr := @Files.call_congr st.content (fun _ => bytes) c hcontent
      have hfile := file_spec h (c := c) ⟨halloc, by rw [htype]; decide⟩
      refine (hfile.allow fun e he => Or.inl (congrArg Stop.fs he)).mapError.bind ?_
      rintro ⟨r, st'⟩ ⟨howned, hother, (hr : r = _), hcontent'⟩
      rw [hcongr.1] at hr
      rw [hcongr.2] at hcontent'
      refine ⟨_, ?_, howned, hs.update hother halloc (c := .file _) ⟨?_, hcontent'⟩⟩
      · simp only [Store.call, hc, hr]
      · rw [hother.type]
        exact htype
  | dirlookup dp name =>
      by_cases hdp : ∃ des, s dp = some (.dir des)
      · obtain ⟨des, hdp⟩ := hdp
        change Ends _ (Dirents.dirlookup st dp name >>= _) _
        rw [dirlookup_spec h hs hdp]
        exact ⟨s, by simp only [Store.call, hdp], h, hs⟩
      · change Ends _ (Dirents.dirlookup st dp name >>= _) _
        rw [hno hdp]
        refine Or.inr ?_
        simp only [Store.call]
        split
        · exact absurd ⟨_, ‹_›⟩ hdp
        · rfl
  | dirlink dp name inum =>
      by_cases hdp : ∃ des, s dp = some (.dir des)
      · obtain ⟨des, hdp⟩ := hdp
        exact (dirlink_spec h hs hdp name inum).bind fun r hr => hr
      · change Ends _ (Dirents.dirlink st dp name _ >>= _) _
        unfold Dirents.dirlink
        rw [hno hdp]
        refine Or.inr ?_
        simp only [Store.call]
        split
        · exact absurd ⟨_, ‹_›⟩ hdp
        · rfl
  | unlink dp name =>
      change Ends _ (Dirents.unlink st dp name >>= _) _
      by_cases hdot : entryName name = dot ∨ entryName name = dotdot
      · unfold Dirents.unlink
        rw [if_pos ((dots_iff name).2 hdot)]
        exact ⟨s, if_pos hdot, h, hs⟩
      by_cases hdp : ∃ des, s dp = some (.dir des)
      · obtain ⟨des, hdp⟩ := hdp
        exact (unlink_spec h hs hdp hdot).bind fun r hr => hr
      · unfold Dirents.unlink
        rw [if_neg (hdot ∘ (dots_iff name).1), hno hdp]
        refine Or.inr ?_
        simp only [Store.call, if_neg hdot]
        split
        · exact absurd ⟨_, ‹_›⟩ hdp
        · rfl

/-- **A run of calls** does to the disk what it does to the store. -/
theorem run_spec {st : Fs} {s : Store} (h : st.Owned) (hs : Holds st s) {ops : List Op}
    (hops : ∀ op ∈ ops, op.Ok s) :
    Ends (fun e => e = .fs .ballocOutOfBlocks ∨ s.run ops = .error e) (run st ops) fun r =>
      ∃ s', s.run ops = .ok (r.1, s') ∧ r.2.Owned ∧ Holds r.2 s' := by
  induction ops generalizing st s with
  | nil => exact ⟨s, rfl, h, hs⟩
  | cons op ops ih =>
      have hcall := call_spec h hs (hops op List.mem_cons_self)
      refine (hcall.allow fun e he => ?_).bind ?_
      · rcases he with he | he
        · exact Or.inl he
        · refine Or.inr ?_
          rw [Store.run, he]
          rfl
      · rintro ⟨r, st₁⟩ ⟨s₁, hs₁, howned, hholds⟩
        have hops₁ : ∀ op' ∈ ops, op'.Ok s₁ := fun op' hop' =>
          (hops op' (List.mem_cons_of_mem _ hop')).call hs₁
        have hrun : s.run (op :: ops) =
            s₁.run ops >>= fun x => .ok (r :: x.1, x.2) := by
          rw [Store.run, hs₁]
          rfl
        rw [hrun]
        refine ((ih howned hholds hops₁).allow fun e he => ?_).bind ?_
        · exact he.imp_right fun he => by rw [he]; rfl
        · rintro ⟨rs, st₂⟩ ⟨s₂, hs₂, howned₂, hholds₂⟩
          exact ⟨s₂, by rw [hs₂]; rfl, howned₂, hholds₂⟩

/-! ## The names in a directory -/

/-- The names of the entries that are taken. -/
def taken (des : List Dirs.Dirent) : List Name :=
  (des.filter (·.inum ≠ 0)).map (·.name)

theorem taken_append (des des' : List Dirs.Dirent) :
    taken (des ++ des') = taken des ++ taken des' := by
  rw [taken, List.filter_append, List.map_append]
  rfl

theorem taken_free {de : Dirs.Dirent} (h : de.inum = 0) : taken [de] = [] := by
  rw [taken, List.filter_cons_of_neg (by simp [h])]
  rfl

theorem not_mem_taken {des : List Dirs.Dirent} {name : List UInt8}
    (h : Store.find des name = none) : entryName name ∉ taken des := by
  intro hmem
  obtain ⟨de, hde, hname⟩ := List.mem_map.1 hmem
  rw [Store.find, Option.map_eq_none_iff, lookup_eq, Option.map_eq_none_iff,
    List.find?_eq_none] at h
  obtain ⟨hin, htaken⟩ := List.mem_filter.1 hde
  exact h de hin (decide_eq_true ⟨of_decide_eq_true htaken, hname⟩)

/-- What is taken once an entry is written. -/
theorem taken_writeDirent {des : List Dirs.Dirent} {k : Nat} (hk : k ≤ des.length)
    (de : Dirs.Dirent) : taken (Dirs.writeDirent des k de)
      = taken (des.take k) ++ taken [de] ++ taken (des.drop (k + 1)) := by
  unfold Dirs.writeDirent
  split
  · rename_i hlt
    rw [List.set_eq_take_append_cons_drop, if_pos hlt, ← List.singleton_append, taken_append,
      taken_append, List.append_assoc]
  · rw [List.take_of_length_le (by omega), List.drop_of_length_le (by omega), taken_append]
    exact (List.append_nil _).symm

/-- No two entries of a directory have one name. -/
def Distinct (s : Store) : Prop := ∀ i des, s i = some (.dir des) → (taken des).Nodup

theorem Distinct.update {s : Store} (h : Distinct s) (i : UInt32) {des : List Dirs.Dirent}
    (hdes : (taken des).Nodup) : Distinct (Function.update s i (some (.dir des))) := by
  intro j des' hj
  by_cases hji : j = i
  · rw [hji, Function.update_self] at hj
    cases hj
    exact hdes
  · rw [Function.update_of_ne hji] at hj
    exact h j des' hj

theorem nodup_unlinked {des : List Dirs.Dirent} (h : (taken des).Nodup) {k : Nat}
    (hk : k < des.length) : (taken (Dirs.writeDirent des k ⟨0, []⟩)).Nodup := by
  rw [taken_writeDirent (Nat.le_of_lt hk), taken_free rfl, List.append_nil, ← taken_append]
  have hsub : (des.take k ++ des.drop (k + 1)).Sublist des := by
    conv_rhs => rw [← List.take_append_drop k des, List.drop_eq_getElem_cons hk]
    exact (List.sublist_cons_self _ _).append_left _
  exact ((hsub.filter _).map _).nodup h

theorem nodup_linked {des : List Dirs.Dirent} (h : (taken des).Nodup) {name : List UInt8}
    (hfind : Store.find des name = none) (inum : Inum) :
    (taken (Dirs.writeDirent des (Dirs.slot des) ⟨inum, entryName name⟩)).Nodup := by
  -- the slot has no name before, so that the new one comes between the others
  have hslot : taken des
      = taken (des.take (Dirs.slot des)) ++ taken (des.drop (Dirs.slot des + 1)) := by
    by_cases hlt : Dirs.slot des < des.length
    · have hfree : des[Dirs.slot des].inum = 0 := of_decide_eq_true
        (@List.findIdx_getElem _ (fun de : Dirs.Dirent => decide (de.inum = 0)) des hlt)
      conv_lhs => rw [← List.take_append_drop (Dirs.slot des) des,
        List.drop_eq_getElem_cons hlt, ← List.singleton_append, taken_append, taken_append,
        taken_free hfree, List.nil_append]
    · rw [List.take_of_length_le (by omega), List.drop_of_length_le (by omega)]
      exact (List.append_nil _).symm
  have hmem := not_mem_taken hfind
  rw [hslot] at h hmem
  have hone : (taken [⟨inum, entryName name⟩]).Sublist [entryName name] :=
    List.filter_sublist.map _
  rw [taken_writeDirent (slot_le des)]
  refine ((hone.append_left _).append_right _).nodup ?_
  rw [List.append_assoc, List.singleton_append, List.nodup_middle]
  exact List.nodup_cons.2 ⟨hmem, h⟩

theorem Distinct.call {s s' : Store} (h : Distinct s) {op : Op} {r : Answer}
    (hcall : s.call op = .ok (r, s')) : Distinct s' := by
  cases op with
  | file c =>
      simp only [Store.call] at hcall
      split at hcall <;> cases hcall
      intro i des hi
      by_cases hic : i = c.inum
      · rw [hic, Function.update_self] at hi
        cases hi
      · rw [Function.update_of_ne hic] at hi
        exact h i des hi
  | dirlookup dp name =>
      simp only [Store.call] at hcall
      split at hcall <;> cases hcall
      exact h
  | dirlink dp name inum =>
      simp only [Store.call] at hcall
      split at hcall
      · rename_i des hdp
        split at hcall
        · cases hcall
          exact h
        · rename_i hfind
          split at hcall <;> cases hcall
          rw [Bool.not_eq_true, Option.isSome_eq_false_iff, Option.isNone_iff_eq_none] at hfind
          exact h.update dp (nodup_linked (h dp des hdp) hfind inum)
      · cases hcall
  | unlink dp name =>
      simp only [Store.call] at hcall
      split at hcall
      · cases hcall
        exact h
      · split at hcall
        · rename_i des hdp
          split at hcall
          · cases hcall
            exact h
          · rename_i ip off hfind
            split at hcall <;> cases hcall
            · obtain ⟨k, hk, hoff⟩ := find_some hfind
              have hidx : off / 16 = k := by
                change off = 16 * k at hoff
                omega
              rw [hidx]
              exact h.update dp (nodup_unlinked (h dp des hdp) hk)
            · exact h
        · cases hcall

theorem Distinct.run {s s' : Store} (h : Distinct s) {ops : List Op} {rs : List Answer}
    (hrun : s.run ops = .ok (rs, s')) : Distinct s' := by
  induction ops generalizing s rs with
  | nil =>
      cases hrun
      exact h
  | cons op ops ih =>
      rw [Store.run] at hrun
      cases hcall : s.call op with
      | error e =>
          rw [hcall] at hrun
          cases hrun
      | ok x =>
          obtain ⟨r, s₁⟩ := x
          rw [hcall] at hrun
          change (s₁.run ops >>= _) = _ at hrun
          cases hrest : s₁.run ops with
          | error e =>
              rw [hrest] at hrun
              cases hrun
          | ok y =>
              obtain ⟨rs₁, s₂⟩ := y
              rw [hrest] at hrun
              cases hrun
              exact ih (h.call hcall) hrest

/-- **Directories are lists of entries**: calls on a disk that holds a store
end as on the store, in its answers and in its errors, if there are blocks
enough. Then the disk holds the store that is left, and names that were
different in each directory still are. -/
theorem directories_are_lists {st : Fs} {s : Store} (h : st.Owned) (hs : Holds st s)
    {ops : List Op} (hops : ∀ op ∈ ops, op.Ok s)
    (hfree : run st ops ≠ .error (.fs .ballocOutOfBlocks)) :
    match s.run ops with
    | .error e => run st ops = .error e
    | .ok (rs, s') => (∃ st', run st ops = .ok (rs, st') ∧ st'.Owned ∧ Holds st' s')
        ∧ (Distinct s → Distinct s') := by
  have hspec := run_spec h hs hops
  cases hdisk : run st ops with
  | error e =>
      rw [hdisk] at hspec hfree
      rcases hspec with rfl | he
      · exact absurd rfl hfree
      · rw [he]
  | ok r =>
      obtain ⟨rs, st'⟩ := r
      rw [hdisk] at hspec
      obtain ⟨s', hrun, howned, hholds⟩ := hspec
      rw [hrun]
      exact ⟨⟨st', rfl, howned, hholds⟩, fun hdistinct => hdistinct.run hrun⟩

/-! ## An empty directory -/

def emptyInode : Inode := ⟨T_DIR, 0, 0, 1, 0, fun _ => 0⟩

/-- The disk of `emptyFile`, with a directory in place of the file. -/
def emptyDir : Fs := (Fs.emptyFile.setInode 1 emptyInode).iupdate 1

theorem emptyDir_inode (i : UInt32) : emptyDir.inode i
    = if i = 1 then emptyInode else ⟨0, 0, 0, 0, 0, fun _ => 0⟩ := by
  change Function.update Fs.emptyFile.inode 1 emptyInode i = _
  by_cases hi : i = 1
  · rw [hi, if_pos rfl, Function.update_self]
  · rw [if_neg hi, Function.update_of_ne hi]
    exact if_neg hi

theorem emptyDir_owned : emptyDir.Owned := by
  have h := Fs.emptyFile_owned
  have hempty : ∀ i, (emptyDir.inode i).addrs = (fun _ => 0) ∧ (emptyDir.inode i).size = 0 := by
    intro i
    rw [emptyDir_inode]
    split <;> exact ⟨rfl, rfl⟩
  have hheld : ∀ i k, emptyDir.held i k = 0 := by
    intro i k
    simp only [Fs.held, hempty, if_true, ite_self]
  have hused : ∀ b < 4, emptyDir.used b = true := by decide +kernel
  refine ⟨⟨h.ok, by decide +kernel, fun b hb _ => hused b hb, ?_, ?_⟩, ?_, ?_⟩
  · intro i k _ _ hne
    exact absurd (hheld i k) hne
  · intro i j k l _ _ _ _ hne
    exact absurd (hheld i k) hne
  · intro i hi
    have hcached := h.cached i hi
    have hdisk := @Fs.dinode_iupdate (Fs.emptyFile.setInode 1 emptyInode) h.ok 1 i
      (by decide) hi
    unfold Fs.Cached at hcached ⊢
    rw [emptyDir, hdisk]
    by_cases hi1 : i = 1
    · rw [if_pos hi1, hi1]
      rfl
    · rw [if_neg hi1]
      exact hcached.trans (Fs.setInode_ne _ _ hi1).symm
  · intro i _ p hp
    rw [(hempty i).2] at hp
    exact absurd hp (Nat.not_lt_zero p)

/-- Inode 1 is an empty directory. -/
def emptyStore : Store := fun i => if i = 1 then some (.dir []) else none

theorem emptyDir_holds : Holds emptyDir emptyStore := by
  constructor
  · intro i c hi
    unfold emptyStore at hi
    split at hi <;> cases hi
    rename_i hi1
    rw [hi1]
    refine ⟨⟨by decide, by decide⟩, rfl, ?_, nofun⟩
    exact List.eq_nil_of_length_eq_zero (Fs.length_content _ _)
  · intro i htype
    refine ⟨[], if_pos ?_⟩
    by_contra hi
    rw [emptyDir_inode, if_neg hi] at htype
    exact absurd htype (by decide)

/-- There is a block for the first entries. -/
theorem emptyDir_dirlink (name : List UInt8) (inum : Inum) :
    call emptyDir (.dirlink 1 name inum) ≠ .error (.fs .ballocOutOfBlocks) := by
  have hdp : emptyStore 1 = some (.dir []) := rfl
  have hlookup := dirlookup_spec emptyDir_owned emptyDir_holds hdp name
  have hscan := @scan_spec emptyDir emptyStore 1 [] emptyDir_owned emptyDir_holds hdp
    (fun de => de.inum = 0) (fun de => de.inum = 0) nofun .dirlinkRead 0
  have hlen : (Dirent.bytes ⟨(UInt32.ofNat inum.val).toUInt16, strncpy name DIRSIZ⟩).length
      = 16 := Dirent.length_bytes (length_strncpy _ _)
  have hfree : emptyDir.freeBlock = some 4 := by decide +kernel
  have hdev : (emptyDir.inode 1).type ≠ T_DEV := by decide
  obtain ⟨⟨r, st⟩, hwrite⟩ := Fs.writei_first hfree hdev rfl (hlen.trans_le (by decide))
  simp only [call, dirlink, hlookup]
  change (scan 1 _ _ emptyDir 0 >>= _ : Except _ _) >>= _ ≠ _
  rw [show scan 1 (fun de => decide (de.inum = 0)) .dirlinkRead emptyDir 0 = _ from hscan]
  change (writeDirent emptyDir 1 0 _ _ >>= _ : Except _ _) >>= _ ≠ _
  unfold writeDirent
  rw [show emptyDir.writei 1 (UInt32.ofNat 0) _ = _ from hwrite]
  change (((if r = some 16 then _ else _) >>= _ : Except _ _) >>= _ : Except _ _) ≠ _
  split <;> nofun

theorem directories_are_lists_one :
    ∃ st', run emptyDir [.dirlink 1 [97] 7, .dirlookup 1 [97, 0, 98]]
        = .ok ([.linked true, .found (some (7, 0))], st') ∧ st'.Owned := by
  have hops : ∀ op ∈ [Op.dirlink 1 [97] 7, .dirlookup 1 [97, 0, 98]], op.Ok emptyStore := by
    intro op hop
    rcases List.mem_cons.1 hop with rfl | hop
    · trivial
    · rw [List.mem_singleton.1 hop]
      trivial
  have hstore : ∃ s', emptyStore.run [.dirlink 1 [97] 7, .dirlookup 1 [97, 0, 98]]
      = .ok ([.linked true, .found (some (7, 0))], s') := ⟨_, by rfl⟩
  have hfree : run emptyDir [.dirlink 1 [97] 7, .dirlookup 1 [97, 0, 98]]
      ≠ .error (.fs .ballocOutOfBlocks) := by
    have hspec := call_spec emptyDir_owned emptyDir_holds
      (show Op.Ok emptyStore (.dirlink 1 [97] 7) from trivial)
    have hno := emptyDir_dirlink [97] 7
    rw [run]
    cases hcall : call emptyDir (.dirlink 1 [97] 7) with
    | error e =>
        rw [hcall] at hno
        intro he
        cases he
        exact hno rfl
    | ok r =>
        obtain ⟨r, st⟩ := r
        rw [hcall] at hspec
        obtain ⟨s', hs', howned, hholds⟩ := hspec
        cases hs'
        have hlookup := dirlookup_spec howned hholds (Function.update_self _ _ _) [97, 0, 98]
        change (run st _ >>= _) ≠ _
        simp only [run, call, hlookup]
        nofun
  obtain ⟨s', hrun⟩ := hstore
  have hmain := directories_are_lists emptyDir_owned emptyDir_holds hops hfree
  rw [hrun] at hmain
  obtain ⟨⟨st', hdisk, howned, _⟩, _⟩ := hmain
  exact ⟨st', hdisk, howned⟩

end SchoolStuff.Xv6.Dirents
