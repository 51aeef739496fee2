import SchoolStuff.CamCache.Access

/-!
# CamCache — the set-associative type is a write-back LRU cache

`Holds` relates the state of the loop to the write-back LRU machine over
blocks, with the sets as classes; `Holds.access` is one access and
`run_holds` a whole trace. What the machine does is known from its history,
and with it what every set of the simulator holds and what it has counted.
A block is anything that its set and its tag identify (`Blocks`). The clock
orders the lines as long as it does not wrap: for fewer than `2 ^ 31 - 1`
accesses.
-/

namespace SchoolStuff.CamCache

open WriteBack (keys touchSet evictsDirty)

variable {α : Type*}

/-- A block and its set and tag: they are those of every address of the
block, and identify it. -/
structure Blocks (c : Setup) (blk : Word → α) (cls : α → Nat)
    (tagOf : α → Word) : Prop where
  set_eq : ∀ taddr, c.set taddr = cls (blk taddr)
  tag_eq : ∀ taddr, c.tag taddr = tagOf (blk taddr)
  inj : ∀ x y, cls (blk x) = cls (blk y) → tagOf (blk x) = tagOf (blk y) →
    blk x = blk y

/-- With fewer than 64 offset and set bits, the block numbers. -/
theorem Geometry.blocks {k b o : Nat} (hg : Geometry k b o) :
    Blocks (setup k b o) (block o) (· % 2 ^ b) (blockTag k b o) where
  set_eq := hg.set_eq
  tag_eq := hg.tag_eq
  inj x y := blockTag_inj (block_bound o x) (block_bound o y)

/-- The cache holds what the machine `spec` holds after `t` accesses. -/
structure Holds (k b : Nat) (tagOf : α → Word) (st : Cache)
    (spec : WriteBack.Cache α Nat) (t : Nat) : Prop where
  sized : st.lines.Sized (k * 2 ^ b)
  cams : st.sCams.length = 2 ^ b
  sets : ∀ s, s < 2 ^ b → ∃ cam ways, st.sCams[s]? = some cam
    ∧ SetOk k tagOf st.lines cam s ways (spec.sets s)
  misses : st.lines.misses = spec.misses
  writes : st.lines.writes = spec.writes
  hits : st.lines.hits = t
  time : st.lines.time = t + 1

variable {k b o s t : Nat} {st st' : Cache} {spec : WriteBack.Cache α Nat}
  {blk : Word → α} {cls : α → Nat} {tagOf : α → Word} {d d' : Lines}
  {cam cam' : Cam} {ways : List Nat} {es : List (α × Bool)} {a : α}

theorem Holds.inTable (h : Holds k b tagOf st spec t) (hs : s < 2 ^ b) :
    InTable k s st.lines := by
  refine ⟨k * 2 ^ b, h.sized, ?_⟩
  rw [Nat.mul_comm]
  exact Nat.mul_le_mul_left k hs

/-- A set of which no line is valid holds nothing. -/
theorem SetOk.empty (hinv : ∀ j, j < k → (d.at (s * k + j)).valid = false) :
    SetOk k tagOf d ⟨k, List.replicate k 0⟩ s [] [] where
  rows := rfl
  data := List.length_replicate
  perm := List.Perm.refl _
  length_le := Nat.zero_le k
  valid j hj := by
    rw [hinv j hj]
    simp
  recent := List.Pairwise.nil
  clock j hj := absurd hj List.not_mem_nil
  content := rfl

theorem holds_empty (k b : Nat) (tagOf : α → Word) :
    Holds k b tagOf (emptyCache k b) WriteBack.Cache.empty 0 where
  sized := linesCreate_sized (k * 2 ^ b)
  cams := List.length_replicate
  sets s hs := by
    refine ⟨⟨k, List.replicate k 0⟩, [], by simp [emptyCache, hs], ?_⟩
    apply SetOk.empty
    intro j _
    exact congrArg LineStruct.valid (linesCreate_at (k * 2 ^ b) _)
  misses := rfl
  writes := rfl
  hits := rfl
  time := rfl

/-! ## The victim of a miss -/

/-- The row a miss is given, and what stays. -/
structure Victim (k : Nat) (tagOf : α → Word) (d : Lines) (cam : Cam)
    (s : Nat) (ways : List Nat) (es : List (α × Bool)) (j : Nat)
    (q : List Nat) : Prop where
  lt : j < k
  found : lineFirstUsed d (s * k) ((s + 1) * k) = .ok ((s * k + j : Nat) : Int)
  sublist : q.Sublist ways
  not_mem : j ∉ q
  perm : (q ++ [j]).Perm (List.range (q ++ [j]).length)
  length_le : (q ++ [j]).length ≤ k
  valid : ∀ i, i < k → i ≠ j → (i < ways.length ↔ i < (q ++ [j]).length)
  content : q.map (fun j => (cam.row j, (d.at (s * k + j)).dirty))
    = (if es.length < k then es else es.tail).map fun e => (tagOf e.1, e.2)
  dirty : ((d.at (s * k + j)).valid && (d.at (s * k + j)).dirty)
    = evictsDirty k es

theorem SetOk.victim_room (h : SetOk k tagOf d cam s ways es)
    (ht : InTable k s d) (hroom : ways.length < k) :
    Victim k tagOf d cam s ways es ways.length ways := by
  have hes : es.length < k := by
    rw [h.length_eq]
    exact hroom
  constructor
  · exact hroom
  · exact h.firstUsed_room ht hroom
  · exact List.Sublist.refl _
  · exact fun hmem => Nat.lt_irrefl _ (h.mem_ways.mp hmem)
  · rw [List.length_append, List.length_singleton, List.range_succ]
    exact h.perm.append_right _
  · rw [List.length_append, List.length_singleton]
    exact hroom
  · intro i _ hne
    rw [List.length_append, List.length_singleton]
    omega
  · rw [if_pos hes]
    exact h.content
  · have hinv := h.invalid hroom (Nat.lt_irrefl _)
    simp [hinv, evictsDirty, hes]

theorem SetOk.victim_full {j : Nat} {q : List Nat}
    (h : SetOk k tagOf d cam s (j :: q) es) (ht : InTable k s d)
    (hint : CInt.InRange (d.time + 1)) (hfull : (j :: q).length = k) :
    Victim k tagOf d cam s (j :: q) es j q := by
  have hes : ¬ es.length < k := by
    rw [h.length_eq, hfull]
    exact Nat.lt_irrefl k
  have hlen : (q ++ [j]).length = (j :: q).length := by simp
  have hj : j < k := hfull ▸ h.mem_ways.mp List.mem_cons_self
  have hcontent := h.content
  cases es with
  | nil => simp at hcontent
  | cons e es =>
      rw [List.map_cons, List.map_cons, List.cons.injEq] at hcontent
      constructor
      · exact hj
      · exact h.firstUsed_full ht hint hfull
      · exact List.sublist_cons_self j q
      · exact (List.nodup_cons.mp h.nodup).1
      · rw [hlen]
        exact (List.perm_append_singleton j q).trans h.perm
      · rw [hlen]
        exact h.length_le
      · intro i _ _
        rw [hlen]
      · rw [if_neg hes]
        exact hcontent.2
      · have hv := (h.valid j hj).mpr (h.mem_ways.mp List.mem_cons_self)
        have hd : (d.at (s * k + j)).dirty = e.2 := congrArg Prod.snd hcontent.1
        rw [hv, hd, evictsDirty, decide_eq_false hes]
        rfl

theorem SetOk.victim (h : SetOk k tagOf d cam s ways es)
    (ht : InTable k s d) (hint : CInt.InRange (d.time + 1)) (hk : 0 < k) :
    ∃ j q, Victim k tagOf d cam s ways es j q := by
  rcases Nat.lt_or_eq_of_le h.length_le with hroom | hfull
  · exact ⟨_, _, h.victim_room ht hroom⟩
  · cases ways with
    | nil => exact absurd hfull (by simp; omega)
    | cons j q => exact ⟨j, q, h.victim_full ht hint hfull⟩

/-! ## One access -/

variable [DecidableEq α]

/-- The step of the machine, set by set and counter by counter. -/
theorem Holds.step (h : Holds k b tagOf st spec t) {j : Nat} {x w : Bool}
    (hint : CInt.InRange (st.lines.time + 1)) (hj : j < k) (hs : s = cls a)
    (hu : Used st.lines st'.lines (s * k + j) x)
    (hsized : st'.lines.Sized (k * 2 ^ b)) (hcams : st'.sCams.length = 2 ^ b)
    (hother : ∀ s', s' ≠ s → st'.sCams[s']? = st.sCams[s']?)
    (hset : ∃ cam ways, st'.sCams[s]? = some cam
      ∧ SetOk k tagOf st'.lines cam s ways (touchSet k (spec.sets s) a w))
    (hmisses : st'.lines.misses
      = st.lines.misses + if a ∈ keys (spec.sets s) then 0 else 1)
    (hwrites : st'.lines.writes = st.lines.writes
      + if a ∈ keys (spec.sets s) then 0
        else if evictsDirty k (spec.sets s) then 1 else 0)
    (hhits : st'.lines.hits = st.lines.hits + 1) :
    Holds k b tagOf st' (WriteBack.access cls k spec (a, w)) (t + 1) := by
  subst hs
  constructor
  · exact hsized
  · exact hcams
  · intro s' hs'
    show ∃ cam ways, st'.sCams[s']? = some cam
      ∧ SetOk k tagOf st'.lines cam s' ways
        (if s' = cls a then touchSet k (spec.sets s') a w else spec.sets s')
    -- the other sets keep their rows
    by_cases heq : s' = cls a
    · rw [if_pos heq, heq]
      exact hset
    · obtain ⟨cam, ways, hcam, hok⟩ := h.sets s' hs'
      rw [if_neg heq, hother s' heq]
      exact ⟨cam, ways, hcam, hok.frame heq hj hu hint⟩
  · rw [hmisses, h.misses, WriteBack.access]
    push_cast
    split <;> rfl
  · rw [hwrites, h.writes, WriteBack.access]
    push_cast
    split
    · rfl
    · split <;> rfl
  · rw [hhits, h.hits]
    push_cast
    rfl
  · rw [hu.time_eq hint, h.time]
    push_cast
    rfl

/-- **The set after a hit.** The row and its block stand at the same place
of the two orders, and both become the last one. -/
theorem SetOk.touch_hit {j : Nat} (h : SetOk k tagOf d cam s ways es)
    (hj : j ∈ ways) (hrow : cam.row j = tagOf a) (hnd : (keys es).Nodup)
    (hinj : ∀ x ∈ keys es, tagOf x = tagOf a → x = a) {w : Bool}
    (hu : Used d d' (s * k + j) ((d.at (s * k + j)).dirty || w))
    (hint : CInt.InRange (d.time + 1)) :
    ∃ ways', SetOk k tagOf d' cam s ways' (touchSet k es a w) := by
  have hjk : j < k := Nat.lt_of_lt_of_le (h.mem_ways.mp hj) h.length_le
  obtain ⟨p₁, p₂, rfl⟩ := List.append_of_mem hj
  have hcontent := h.content
  rw [List.map_append, List.map_cons] at hcontent
  obtain ⟨e₁, e', rfl, h₁, h'⟩ := List.map_eq_append_iff.mp hcontent.symm
  obtain ⟨⟨x, dirty⟩, e₂, rfl, he, h₂⟩ := List.map_eq_cons_iff.mp h'
  have hxa : x = a :=
    hinj x (by simp [keys]) ((congrArg Prod.fst he).trans hrow)
  have hdirty : (d.at (s * k + j)).dirty = dirty :=
    (congrArg Prod.snd he).symm
  subst hxa
  rw [hdirty] at hu
  have hnot : j ∉ p₁ ++ p₂ :=
    (List.nodup_cons.mp (List.perm_middle.nodup_iff.mp h.nodup)).1
  have hlen : (p₁ ++ p₂ ++ [j]).length = (p₁ ++ j :: p₂).length := by
    simp
  rw [WriteBack.touchSet_of_split hnd]
  refine ⟨p₁ ++ p₂ ++ [j], h.use hu hint ⟨rfl, rfl, hrow, fun _ _ => rfl⟩ hjk
    ((List.sublist_cons_self j p₂).append_left p₁) hnot ?_ ?_ ?_ ?_⟩
  · rw [hlen]
    exact ((List.perm_append_singleton j _).trans
      List.perm_middle.symm).trans h.perm
  · rw [hlen]
    exact h.length_le
  · intro i _ _
    rw [hlen]
  · rw [List.map_append, List.map_append, h₁, h₂]

/-- **The set after a miss.** -/
theorem SetOk.touch_miss {j : Nat} {q : List Nat} {w : Bool}
    (h : SetOk k tagOf d cam s ways es)
    (hv : Victim k tagOf d cam s ways es j q) (ha : a ∉ keys es)
    (hu : Used d d' (s * k + j) w) (hint : CInt.InRange (d.time + 1))
    (hw : Wrote cam cam' j (tagOf a)) :
    SetOk k tagOf d' cam' s (q ++ [j]) (touchSet k es a w) := by
  rw [touchSet, if_neg ha]
  exact h.use hu hint hw hv.lt hv.sublist hv.not_mem hv.perm hv.length_le hv.valid
    hv.content

/-- `case 'S'` on a hit. -/
theorem findS_hit {c : Setup} (hc : c.sLines = k) {j : Nat} {tag : Word}
    (hcam : st.sCams[s]? = some cam) (hread : camRead cam tag = j)
    (hmiss : lineMissing st.lines j (j + s * k) = .ok false) :
    findS c st tag s = .ok (((s * k + j : Nat) : Int), st) := by
  rw [cast_index] at hmiss
  simp only [findS, hcam, hc, hread, cast_index, hmiss, ok_bind,
    Bool.false_eq_true, if_false]

/-- `case 'S'` on a miss. -/
theorem findS_miss {c : Setup} (hc : c.sLines = k) {n j : Nat} {tag : Word}
    (hcam : st.sCams[s]? = some cam)
    (hn : st.lines.Sized n) (hlt : s * k + j < n) (hj : j < k)
    (hmiss : lineMissing st.lines (camRead cam tag) (camRead cam tag + s * k)
      = .ok true)
    (hfound : lineFirstUsed st.lines (s * k) ((s + 1) * k)
      = .ok ((s * k + j : Nat) : Int))
    (hwrite : camWrite cam j tag = .ok cam') :
    findS c st tag s
      = .ok (((s * k + j : Nat) : Int),
        { st with
          sCams := st.sCams.set s cam'
          lines := st.lines.fill (s * k + j) }) := by
  -- `line%s_lines` is the row of the line in its set
  have hrow : ((s * k + j : Nat) : Int).tmod k = j := by
    rw [← Int.ofNat_tmod, Nat.mul_comm, Nat.mul_add_mod, Nat.mod_eq_of_lt hj]
  simp only [findS, hcam, hc, hmiss, ok_bind, if_true, hfound, hrow,
    hwrite, lineSetValid_eq hn hlt]

/-- **A hit.** -/
theorem Holds.access_hit (h : Holds k b tagOf st spec t)
    (hint : CInt.InRange (st.lines.time + 1)) (hs : s = cls a) (hslt : s < 2 ^ b)
    (ha : a ∈ keys (spec.sets s)) (hnd : (keys (spec.sets s)).Nodup)
    (hinj : ∀ x ∈ keys (spec.sets s), tagOf x = tagOf a → x = a) (w : Bool) :
    ∃ st', ((findS (setup k b o) st (tagOf a) s).bind fun found =>
        useLine found.2 found.1 w) = .ok st'
      ∧ Holds k b tagOf st' (WriteBack.access cls k spec (a, w)) (t + 1) := by
  obtain ⟨cam, ways, hcam, hok⟩ := h.sets s hslt
  have ht := h.inTable hslt
  obtain ⟨j, hj, hrow, hread, hmiss⟩ := hok.lookup_hit ht ha
  have hjk : j < k := Nat.lt_of_lt_of_le (hok.mem_ways.mp hj) hok.length_le
  obtain ⟨n, hn, hlt⟩ := ht.line hjk
  have hvalid := (hok.valid j hjk).mpr (hok.mem_ways.mp hj)
  have hu := Lines.used_use hn hlt ((st.lines.at (s * k + j)).dirty || w)
  obtain ⟨ways', hok'⟩ := hok.touch_hit hj hrow hnd hinj hu hint
  rw [findS_hit rfl hcam hread hmiss]
  refine ⟨_, useLine_eq st hn hlt hvalid w, ?_⟩
  refine h.step hint hjk hs hu (h.sized.use _ _) h.cams (fun _ _ => rfl) ?_ ?_ ?_ rfl
  · exact ⟨cam, ways', hcam, hok'⟩
  · rw [if_pos ha, Int.add_zero]
    rfl
  · rw [if_pos ha, Int.add_zero]
    rfl

/-- **A miss.** -/
theorem Holds.access_miss (hk : 0 < k) (h : Holds k b tagOf st spec t)
    (hint : CInt.InRange (st.lines.time + 1)) (hs : s = cls a) (hslt : s < 2 ^ b)
    (ha : a ∉ keys (spec.sets s))
    (hinj : ∀ x ∈ keys (spec.sets s), tagOf x = tagOf a → x = a) (w : Bool) :
    ∃ st', ((findS (setup k b o) st (tagOf a) s).bind fun found =>
        useLine found.2 found.1 w) = .ok st'
      ∧ Holds k b tagOf st' (WriteBack.access cls k spec (a, w)) (t + 1) := by
  obtain ⟨cam, ways, hcam, hok⟩ := h.sets s hslt
  have ht := h.inTable hslt
  have hmiss := hok.lookup_miss ht ha hinj
  obtain ⟨j, q, hv⟩ := hok.victim ht hint hk
  obtain ⟨n, hn, hlt⟩ := ht.line hv.lt
  obtain ⟨cam', hwrite, hwrote⟩ :=
    camWrite_eq hok.rows hok.data hv.lt (tagOf a)
  -- the line is filled clean, so only a write makes it dirty
  have hfill := Lines.fill_at hn hlt (s * k + j)
  rw [if_pos rfl] at hfill
  have huse := useLine_eq
    { st with
      sCams := st.sCams.set s cam'
      lines := st.lines.fill (s * k + j) }
    (hn.fill (s * k + j)) hlt (by rw [hfill]) w
  simp only [Cache.use, hfill, Bool.false_or] at huse
  have hu := Lines.used_fill hn hlt w
  have hcamlt : s < st.sCams.length := h.cams.symm ▸ hslt
  rw [findS_miss rfl hcam hn hlt hv.lt hmiss hv.found hwrite]
  refine ⟨_, huse, ?_⟩
  refine h.step hint hv.lt hs hu ((h.sized.fill _).use _ _) (by simp [h.cams])
    (fun s' hs' => List.getElem?_set_ne (Ne.symm hs')) ?_ ?_ ?_ rfl
  · exact ⟨cam', q ++ [j], by simp [hcamlt], hok.touch_miss hv ha hu hint hwrote⟩
  · rw [if_neg ha]
    rfl
  · rw [if_neg ha, ← hv.dirty]
    rfl

/-! ## A whole trace -/

/-- The accesses of a trace: the block, and whether it is written. -/
def accessesOf (blk : Word → α) (trace : List Record) : List (α × Bool) :=
  trace.filterMap fun r =>
    if isAccess r then r.map fun a => (blk a.2, a.1 == 'W') else none

/-- The accesses, by block number. -/
abbrev accesses (o : Nat) (trace : List Record) : List (Nat × Bool) :=
  accessesOf (block o) trace

omit [DecidableEq α] in
theorem accessesOf_snoc (blk : Word → α) (pre : List Record) (r : Record) :
    accessesOf blk (pre ++ [r])
      = accessesOf blk pre
        ++ (if isAccess r then r.map fun a => (blk a.2, a.1 == 'W')
            else none).toList := by
  rw [accessesOf, List.filterMap_append]
  congr 1

omit [DecidableEq α] in
/-- An access is one of an address. -/
theorem mem_keys_accessesOf {trace : List Record} {x : α}
    (hx : x ∈ keys (accessesOf blk trace)) : ∃ taddr, blk taddr = x := by
  obtain ⟨e, he, rfl⟩ := List.mem_map.mp hx
  obtain ⟨r, _, hr⟩ := List.mem_filterMap.mp he
  split at hr
  · obtain ⟨a, _, rfl⟩ := Option.map_eq_some_iff.mp hr
    exact ⟨a.2, rfl⟩
  · exact absurd hr (by simp)

/-- The machine after a trace. -/
def lru (k b o : Nat) (trace : List Record) : WriteBack.Cache Nat Nat :=
  WriteBack.run (· % 2 ^ b) k (accesses o trace)

/-- **One line of the trace.** -/
theorem holds_step (hk : 0 < k) (hb : b < 31)
    (hblk : Blocks (setup k b o) blk cls tagOf) {pre : List Record}
    (h : Holds k b tagOf st (WriteBack.run cls k (accessesOf blk pre))
      (pre.countP isAccess)) (r : Record)
    (htrace : (pre ++ [r]).countP isAccess < 2 ^ 31 - 1) :
    ∃ st', step (setup k b o) st r = .ok st'
      ∧ Holds k b tagOf st' (WriteBack.run cls k (accessesOf blk (pre ++ [r])))
        ((pre ++ [r]).countP isAccess) := by
  rw [List.countP_append] at htrace ⊢
  cases hr : isAccess r with
  | false =>
      have hcount : [r].countP isAccess = 0 := by simp [hr]
      rw [step_of_not_access _ _ hr, accessesOf_snoc, hr, hcount, Nat.add_zero]
      simp only [Bool.false_eq_true, if_false, Option.toList_none,
        List.append_nil]
      exact ⟨st, rfl, h⟩
  | true =>
      cases r with
      | none => exact absurd hr (by decide)
      | some x =>
          have hsnoc : accessesOf blk (pre ++ [some x])
              = accessesOf blk pre ++ [(blk x.2, x.1 == 'W')] := by
            rw [accessesOf_snoc, if_pos hr]
            rfl
          have hcount : [some x].countP isAccess = 1 := by simp [hr]
          rw [hcount] at htrace ⊢
          have hint : CInt.InRange (st.lines.time + 1) := by
            rw [h.time, CInt.inRange_iff]
            omega
          have hslt : cls (blk x.2) < 2 ^ b :=
            hblk.set_eq x.2 ▸ Setup.set_lt hb x.2
          have hinj : ∀ y ∈ keys ((WriteBack.run cls k (accessesOf blk pre)).sets
              (cls (blk x.2))), tagOf y = tagOf (blk x.2) → y = blk x.2 := by
            intro y hy htag
            obtain ⟨hmem, hcls⟩ := WriteBack.mem_keys_run hk hy
            obtain ⟨taddr, rfl⟩ := mem_keys_accessesOf hmem
            exact hblk.inj taddr x.2 hcls htag
          have hnd : (keys ((WriteBack.run cls k (accessesOf blk pre)).sets
              (cls (blk x.2)))).Nodup :=
            WriteBack.keys_nodup hk (accessesOf blk pre) (cls (blk x.2))
          rw [step_of_access _ _ x.2 hr, hblk.tag_eq, hblk.set_eq, hsnoc,
            WriteBack.run_append]
          by_cases ha : blk x.2
              ∈ keys ((WriteBack.run cls k (accessesOf blk pre)).sets
                (cls (blk x.2)))
          · exact h.access_hit hint rfl hslt ha hnd hinj _
          · exact h.access_miss hk hint rfl hslt ha hinj _

/-- **Run lemma.** -/
theorem run_holds (hk : 0 < k) (hb : b < 31)
    (hblk : Blocks (setup k b o) blk cls tagOf) (trace : List Record)
    (htrace : trace.countP isAccess < 2 ^ 31 - 1) :
    ∃ st, trace.foldlM (step (setup k b o)) (emptyCache k b) = .ok st
      ∧ Holds k b tagOf st (WriteBack.run cls k (accessesOf blk trace))
        (trace.countP isAccess) := by
  induction trace using List.reverseRecOn with
  | nil => exact ⟨emptyCache k b, rfl, holds_empty k b tagOf⟩
  | append_singleton pre r ih =>
      have hpre : pre.countP isAccess < 2 ^ 31 - 1 := by
        rw [List.countP_append] at htrace
        omega
      obtain ⟨st, hrun, h⟩ := ih hpre
      obtain ⟨st', hstep, h'⟩ := holds_step hk hb hblk h r htrace
      refine ⟨st', ?_, h'⟩
      rw [List.foldlM_append, hrun, ok_bind, List.foldlM_cons, hstep]
      rfl

/-! ## What the simulator computes -/

/-- The valid rows of set `s`, the least recently used one first, hold the
blocks `es` with their dirty bits. -/
def SetHolds (k : Nat) (tagOf : α → Word) (st : Cache) (s : Nat)
    (es : List (α × Bool)) : Prop :=
  ∃ (cam : Cam) (ways : List Nat), st.sCams[s]? = some cam ∧ ways.Nodup
    ∧ (∀ j, j ∈ ways ↔ j < k ∧ (st.lines.at (s * k + j)).valid = true)
    ∧ ways.Pairwise (fun i j => (st.lines.at (s * k + i)).lastUsed
        < (st.lines.at (s * k + j)).lastUsed)
    ∧ ways.map (fun j => (cam.row j, (st.lines.at (s * k + j)).dirty))
      = es.map fun e => (tagOf e.1, e.2)

/-- The row that `line_firstUsed` picks in set `s` is valid and holds the
block `a`. -/
def Evicts (k : Nat) (tagOf : α → Word) (st : Cache) (s : Nat) (a : α) : Prop :=
  ∃ cam j, st.sCams[s]? = some cam ∧ j < k
    ∧ lineFirstUsed st.lines (s * k) ((s + 1) * k)
      = .ok ((s * k + j : Nat) : Int)
    ∧ (st.lines.at (s * k + j)).valid = true
    ∧ cam.row j = tagOf a

omit [DecidableEq α] in
theorem Holds.setHolds (h : Holds k b tagOf st spec t) (hs : s < 2 ^ b) :
    SetHolds k tagOf st s (spec.sets s) := by
  obtain ⟨cam, ways, hcam, hok⟩ := h.sets s hs
  refine ⟨cam, ways, hcam, hok.nodup, ?_, hok.recent, hok.content⟩
  intro j
  constructor
  · intro hj
    have hlt := hok.mem_ways.mp hj
    have hjk := Nat.lt_of_lt_of_le hlt hok.length_le
    exact ⟨hjk, (hok.valid j hjk).mpr hlt⟩
  · rintro ⟨hjk, hv⟩
    exact hok.mem_ways.mpr ((hok.valid j hjk).mp hv)

omit [DecidableEq α] in
/-- **The victim of a full set** is its least recently used block. -/
theorem Holds.evicts (hk : 0 < k) (h : Holds k b tagOf st spec t)
    (hint : CInt.InRange (st.lines.time + 1)) (hs : s < 2 ^ b)
    (hfull : (spec.sets s).length = k) {e : α × Bool}
    (he : (spec.sets s).head? = some e) : Evicts k tagOf st s e.1 := by
  obtain ⟨cam, ways, hcam, hok⟩ := h.sets s hs
  have ht := h.inTable hs
  rw [hok.length_eq] at hfull
  cases ways with
  | nil => exact absurd hfull (by simp; omega)
  | cons j q =>
      have hj := hok.mem_ways.mp List.mem_cons_self
      have hjk : j < k := hfull ▸ hj
      refine ⟨cam, j, hcam, hjk, hok.firstUsed_full ht hint hfull,
        (hok.valid j hjk).mpr hj, ?_⟩
      have hcontent := hok.content
      cases hes : spec.sets s with
      | nil => simp [hes] at he
      | cons e' es =>
          rw [hes, List.head?_cons, Option.some.injEq] at he
          rw [hes, List.map_cons, List.map_cons, List.cons.injEq, he]
            at hcontent
          exact congrArg Prod.fst hcontent.1

end SchoolStuff.CamCache
