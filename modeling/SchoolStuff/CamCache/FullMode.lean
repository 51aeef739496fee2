import Mathlib.Data.List.Infix
import SchoolStuff.CamCache.Geometry

/-!
# CamCache — the fully associative type

The first access of a fully associative cache misses, and stores its tag at
row `cache_lines` of a CAM with that many rows: the assertion of
`cam_write` fails. So the type does what the set-associative one does with
a single set exactly on the traces without accesses.
-/

namespace SchoolStuff.CamCache

variable {n : Nat} {o : Nat}

/-- Lines of the trace that are no accesses are skipped. -/
theorem foldlM_step_of_not_access (c : Setup) (st : Cache) :
    ∀ trace : List Record, (∀ r ∈ trace, isAccess r = false) →
      trace.foldlM (step c) st = .ok st := by
  intro trace
  induction trace with
  | nil => exact fun _ => rfl
  | cons r trace ih =>
      intro h
      rw [List.foldlM_cons, step_of_not_access c st (h r List.mem_cons_self),
        ok_bind]
      exact ih fun r' hr' => h r' (List.mem_cons_of_mem r hr')

/-! ## Start-up -/

theorem start_F (n o : Nat) :
    start .F n o 0 = .ok (⟨.F, n, o, 0, 0⟩,
      ⟨linesCreate n, some ⟨n, List.replicate n 0⟩, [], []⟩) := by
  simp only [start, camCreate_nat, ok_bind]

theorem start_oneSet (hn : 1 ≤ n) (o : Nat) :
    start .S n o n = .ok (⟨.S, n, o, 0, n⟩,
      ⟨linesCreate n, none, [], [⟨n, List.replicate n 0⟩]⟩) := by
  have hne : (n : Int) ≠ 0 := by omega
  have hdiv : (n : Int).tdiv n = 1 := Int.tdiv_self hne
  have hmlog : mlog2 1 = .ok 0 := by decide
  simp only [start, if_neg hne, Int.tmod_self, ensure_pos, ok_bind, hdiv, hmlog]
  simp
  rfl

/-! ## The first access -/

/-- **The first access of a fully associative cache** does not get past
`cam_write`. -/
theorem findF_first (hn : 1 ≤ n) (tag : Word) (set : Nat) :
    findF ⟨.F, n, o, 0, 0⟩
        ⟨linesCreate n, some ⟨n, List.replicate n 0⟩, [], []⟩ tag set
      = .error .assertion := by
  have hsized := linesCreate_sized n
  have hmissing : ∃ line, camRead ⟨n, List.replicate n 0⟩ tag = line
      ∧ lineMissing (linesCreate n) line line = .ok true := by
    by_cases htag : tag = 0
    · -- the CAM reports the tag 0 that it starts with, in an invalid line
      subst htag
      refine ⟨0, ?_, ?_⟩
      · obtain ⟨m, rfl⟩ : ∃ m, n = m + 1 := ⟨n - 1, by omega⟩
        simp [camRead, List.replicate_succ, List.findIdx?_cons]
      · have hvalid := hsized.isValid (i := 0) hn
        rw [lineMissing, if_neg (by decide)]
        rw [show ((0 : Nat) : Int) = 0 from rfl] at hvalid
        rw [hvalid, linesCreate_at]
        rfl
    · refine ⟨-1, ?_, by rw [lineMissing, if_pos rfl]⟩
      have hnone : (List.replicate n (0 : Word)).findIdx? (· == tag) = none := by
        rw [List.findIdx?_eq_none_iff]
        intro x hx
        rw [(List.mem_replicate.mp hx).2]
        simpa using Ne.symm htag
      rw [camRead, hnone]
  obtain ⟨line, hread, hmiss⟩ := hmissing
  have hfirst : lineFirstUsed (linesCreate n) 0 n = .ok ((0 : Nat) : Int) := by
    refine (lineFirstUsed_eq hsized (a := 0) hn (Nat.le_refl n)).trans ?_
    exact firstUsedLoop_invalid hsized (by rw [linesCreate_at]) (n - 0) 0 _ _
      (by omega) (Nat.le_refl 0) (by omega) fun i' _ hi' =>
        absurd hi' (Nat.not_lt_zero i')
  have hwrite : camWrite ⟨n, List.replicate n 0⟩ n tag = .error .assertion := by
    rw [camWrite, ensure_neg (Int.lt_irrefl _)]
    rfl
  simp only [findF, hread, hmiss, ok_bind, if_true, hfirst,
    hwrite, error_bind]

/-! ## The two types side by side -/

/-- Both caches have the same counters, and line by line the same valid and
dirty bits and the same tag. -/
structure Agree (f s : Cache) : Prop where
  misses : f.lines.misses = s.lines.misses
  writes : f.lines.writes = s.lines.writes
  bits : f.lines.lines.map (fun l => (l.valid, l.dirty))
    = s.lines.lines.map fun l => (l.valid, l.dirty)
  tags : f.fCam = s.sCams[0]?

theorem run_of_not_access {t : CacheType} {cacheLines ways : Int}
    {s : Setup × Cache} (hstart : start t cacheLines o ways = .ok s)
    {pre : List Record} (hpre : ∀ r ∈ pre, isAccess r = false) :
    run t cacheLines o ways pre = .ok s := by
  rw [run, hstart, ok_bind, foldlM_step_of_not_access _ _ pre hpre]
  rfl

theorem run_F_access (hn : 1 ≤ n) (o : Nat) {pre : List Record} {r : Record}
    (hpre : ∀ r' ∈ pre, isAccess r' = false) (hr : isAccess r = true) :
    run .F n o 0 (pre ++ [r]) = .error .assertion := by
  obtain ⟨a, ha⟩ : ∃ a, r = some a := by
    cases r with
    | none => exact absurd hr (by decide)
    | some a => exact ⟨a, rfl⟩
  subst ha
  rw [run, start_F, ok_bind, List.foldlM_append,
    foldlM_step_of_not_access _ _ pre hpre, ok_bind, List.foldlM_cons,
    step_of_access _ _ a.2 hr, findLine, findF_first hn]
  rfl

/-- **The fully associative type works exactly on traces without
accesses.** There it fails no assertion after any part of the trace and
agrees with the set-associative type with one set of `n` ways; with the
first access its assertion fails. -/
theorem fullMode_iff (n : Nat) (hn : 1 ≤ n) (o : Nat) (trace : List Record) :
    (∀ pre, pre <+: trace → ∃ cf f cs s, run .F n o 0 pre = .ok (cf, f)
        ∧ run .S n o n pre = .ok (cs, s) ∧ Agree f s)
      ↔ ∀ r ∈ trace, isAccess r = false := by
  constructor
  · intro hall r hr
    by_contra hacc
    -- cut the trace behind its first access
    obtain ⟨r', hfind⟩ := Option.isSome_iff_exists.mp
      (List.find?_isSome.mpr ⟨r, hr, by simpa using hacc⟩)
    obtain ⟨hr', pre, post, rfl, hpre⟩ := List.find?_eq_some_iff_append.mp hfind
    obtain ⟨cf, f, cs, s, hF, _⟩ := hall (pre ++ [r']) ⟨post, by simp⟩
    rw [run_F_access hn o (fun x hx => by simpa using hpre x hx) hr'] at hF
    exact absurd hF (by simp)
  · intro hno pre hp
    have hpre : ∀ r ∈ pre, isAccess r = false :=
      fun r hr => hno r (hp.subset hr)
    exact ⟨_, _, _, _, run_of_not_access (start_F n o) hpre,
      run_of_not_access (start_oneSet hn o) hpre, ⟨rfl, rfl, rfl, rfl⟩⟩

theorem fullMode_iff_two :
    (∀ pre, pre <+: [none, some ('X', 64)] → ∃ cf f cs s,
        run .F (2 : Nat) 6 0 pre = .ok (cf, f)
        ∧ run .S (2 : Nat) 6 (2 : Nat) pre = .ok (cs, s) ∧ Agree f s)
      ↔ ∀ r ∈ ([none, some ('X', 64)] : List Record), isAccess r = false :=
  fullMode_iff 2 (by decide) 6 _

/-- The read of one address in a cache of two lines. -/
theorem fullMode_read :
    run .F 2 6 0 [some ('R', 64)] = .error .assertion
      ∧ (run .S 2 6 2 [some ('R', 64)]).toBool = true := by
  decide +kernel

end SchoolStuff.CamCache
