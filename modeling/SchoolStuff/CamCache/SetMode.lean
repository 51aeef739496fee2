import Mathlib.Data.List.Nodup
import SchoolStuff.CamCache.Geometry
import SchoolStuff.Lib.WriteBack

/-!
# CamCache — one set of the set-associative type

`SetOk` ties the CAM and the lines of a set to the resident blocks of a
write-back LRU set: there is an order of its valid rows, by `lastUsed`, in
which they hold these blocks. The valid rows are always the first ones, so
the tag that an invalid row starts with is never taken for a resident
block, and the row written next is the first invalid one.
-/

namespace SchoolStuff.CamCache

open WriteBack (keys touchSet evictsDirty)

variable {α : Type*}

/-- The tag in a row. -/
def Cam.row (cam : Cam) (j : Nat) : Word := cam.data[j]?.getD 0

/-- `ways` are the valid rows of set `s`, the least recently used first, and
`es` the blocks they hold with their dirty bits. -/
structure SetOk (k : Nat) (tagOf : α → Word) (d : Lines) (cam : Cam)
    (s : Nat) (ways : List Nat) (es : List (α × Bool)) : Prop where
  rows : cam.rows = k
  data : cam.data.length = k
  perm : ways.Perm (List.range ways.length)
  length_le : ways.length ≤ k
  valid : ∀ j, j < k → ((d.at (s * k + j)).valid = true ↔ j < ways.length)
  recent : ways.Pairwise fun i j =>
    (d.at (s * k + i)).lastUsed < (d.at (s * k + j)).lastUsed
  clock : ∀ j ∈ ways, (d.at (s * k + j)).lastUsed < d.time
  content : ways.map (fun j => (cam.row j, (d.at (s * k + j)).dirty))
    = es.map fun e => (tagOf e.1, e.2)

variable {k s : Nat} {tagOf : α → Word} {d d' : Lines} {cam : Cam}
  {ways : List Nat} {es : List (α × Bool)} {a : α}

theorem SetOk.mem_ways (h : SetOk k tagOf d cam s ways es) {j : Nat} :
    j ∈ ways ↔ j < ways.length := by
  rw [h.perm.mem_iff, List.mem_range]

theorem SetOk.nodup (h : SetOk k tagOf d cam s ways es) : ways.Nodup :=
  h.perm.nodup_iff.mpr List.nodup_range

theorem SetOk.length_eq (h : SetOk k tagOf d cam s ways es) :
    es.length = ways.length := by
  have := congrArg List.length h.content
  simpa using this.symm

/-- A row behind the valid ones is not valid. -/
theorem SetOk.invalid (h : SetOk k tagOf d cam s ways es) {j : Nat}
    (hj : j < k) (hnot : ¬ j < ways.length) :
    (d.at (s * k + j)).valid = false := by
  cases hv : (d.at (s * k + j)).valid with
  | false => rfl
  | true => exact absurd ((h.valid j hj).mp hv) hnot

/-! ## Looking a tag up -/

theorem Cam.row_of_get {j : Nat} (hj : j < cam.data.length) :
    cam.row j = cam.data[j] := by
  simp [Cam.row, hj]

/-- `cam_read` finds the first row with the tag, if there is one. -/
theorem camRead_cases (cam : Cam) (tag : Word) :
    (camRead cam tag = -1 ∧ ∀ j, j < cam.data.length → cam.row j ≠ tag)
      ∨ ∃ j : Nat, camRead cam tag = j ∧ j < cam.data.length
        ∧ cam.row j = tag ∧ ∀ i, i < j → cam.row i ≠ tag := by
  cases hfind : cam.data.findIdx? (· == tag) with
  | none =>
      refine Or.inl ⟨by rw [camRead, hfind], fun j hj => ?_⟩
      rw [Cam.row_of_get hj]
      have := List.findIdx?_eq_none_iff.mp hfind cam.data[j]
        (List.getElem_mem hj)
      simpa using this
  | some j =>
      obtain ⟨hj, hrow, hbefore⟩ :=
        List.findIdx?_eq_some_iff_getElem.mp hfind
      refine Or.inr ⟨j, by rw [camRead, hfind], hj, ?_, fun i hi => ?_⟩
      · rw [Cam.row_of_get hj]
        simpa using hrow
      · rw [Cam.row_of_get (Nat.lt_trans hi hj)]
        simpa using hbefore i hi

/-- A valid row holds the tag of a resident block. -/
theorem SetOk.resident (h : SetOk k tagOf d cam s ways es) {j : Nat}
    (hj : j ∈ ways) : ∃ e ∈ es, cam.row j = tagOf e.1 := by
  have hmem := List.mem_map_of_mem
    (f := fun j => (cam.row j, (d.at (s * k + j)).dirty)) hj
  rw [h.content] at hmem
  obtain ⟨e, he, heq⟩ := List.mem_map.mp hmem
  exact ⟨e, he, (congrArg Prod.fst heq).symm⟩

/-- A resident block is in a valid row. -/
theorem SetOk.row_of_key (h : SetOk k tagOf d cam s ways es)
    (ha : a ∈ keys es) : ∃ j ∈ ways, cam.row j = tagOf a := by
  obtain ⟨e, he, rfl⟩ := List.mem_map.mp ha
  have hmem := List.mem_map_of_mem (f := fun e => (tagOf e.1, e.2)) he
  rw [← h.content] at hmem
  obtain ⟨j, hj, heq⟩ := List.mem_map.mp hmem
  exact ⟨j, hj, congrArg Prod.fst heq⟩

/-- The lines of the set are lines of the table. -/
def InTable (k s : Nat) (d : Lines) : Prop :=
  ∃ n, d.Sized n ∧ (s + 1) * k ≤ n

theorem InTable.line {j : Nat} (ht : InTable k s d) (hj : j < k) :
    ∃ n, d.Sized n ∧ s * k + j < n := by
  obtain ⟨n, hn, hle⟩ := ht
  rw [Nat.add_mul, Nat.one_mul] at hle
  exact ⟨n, hn, by omega⟩

/-- The absolute number of a row. -/
theorem cast_index (k s j : Nat) :
    (j : Int) + s * k = ((s * k + j : Nat) : Int) := by
  push_cast
  omega

/-- **Hit**: the CAM reports the valid row of a resident block. -/
theorem SetOk.lookup_hit (h : SetOk k tagOf d cam s ways es)
    (ht : InTable k s d) (ha : a ∈ keys es) :
    ∃ j ∈ ways, cam.row j = tagOf a ∧ camRead cam (tagOf a) = j
      ∧ lineMissing d j (j + s * k) = .ok false := by
  obtain ⟨j₀, hj₀, hrow₀⟩ := h.row_of_key ha
  have hlt₀ := h.mem_ways.mp hj₀
  have hle := h.length_le
  rcases camRead_cases cam (tagOf a) with ⟨_, hnone⟩ | ⟨j, hread, _, hrow, hfst⟩
  · exact absurd hrow₀ (hnone j₀ (by rw [h.data]; omega))
  · -- the first row with the tag is not behind this one
    have hjle : j ≤ j₀ := by
      by_contra hgt
      exact hfst j₀ (by omega) hrow₀
    have hj : j ∈ ways := h.mem_ways.mpr (by omega)
    have hjk : j < k := by omega
    refine ⟨j, hj, hrow, hread, ?_⟩
    obtain ⟨n, hn, hlt⟩ := ht.line hjk
    rw [lineMissing, if_neg (by omega), cast_index, hn.isValid hlt,
      (h.valid j hjk).mpr (h.mem_ways.mp hj)]
    rfl

/-- **Miss**: a tag that no resident block has is reported missing, even
where an invalid row happens to hold it. -/
theorem SetOk.lookup_miss (h : SetOk k tagOf d cam s ways es)
    (ht : InTable k s d) (ha : a ∉ keys es)
    (hinj : ∀ x ∈ keys es, tagOf x = tagOf a → x = a) :
    lineMissing d (camRead cam (tagOf a)) (camRead cam (tagOf a) + s * k)
      = .ok true := by
  rcases camRead_cases cam (tagOf a) with ⟨hread, _⟩ | ⟨j, hread, hj, hrow, _⟩
  · rw [hread, lineMissing, if_pos rfl]
  · rw [h.data] at hj
    have hnot : ¬ j < ways.length := by
      intro hlt
      obtain ⟨e, he, heq⟩ := h.resident (h.mem_ways.mpr hlt)
      have hkey : e.1 ∈ keys es := List.mem_map_of_mem he
      exact ha (hinj e.1 hkey (heq ▸ hrow) ▸ hkey)
    obtain ⟨n, hn, hlt⟩ := ht.line hj
    rw [hread, lineMissing, if_neg (by omega), cast_index, hn.isValid hlt,
      h.invalid hj hnot]
    rfl

/-! ## Choosing a victim -/

/-- The range of lines that `line_firstUsed` searches. -/
theorem firstUsed_set (ht : InTable k s d) (hk : 0 < k) :
    ∃ n, d.Sized n ∧ s * k + k ≤ n
      ∧ lineFirstUsed d (s * k) ((s + 1) * k)
        = firstUsedLoop d k (s * k : Nat) (s * k : Nat)
          (CInt.wrap (d.time + 1)) := by
  obtain ⟨n, hn, hle⟩ := ht
  rw [Nat.add_mul, Nat.one_mul] at hle
  refine ⟨n, hn, hle, ?_⟩
  have hstop : ((s : Int) + 1) * k = ((s * k + k : Nat) : Int) := by
    push_cast
    rw [Int.add_mul, Int.one_mul]
  have hstart : (s : Int) * k = ((s * k : Nat) : Int) := by
    push_cast
    rfl
  rw [hstop, hstart, lineFirstUsed_eq hn (by omega) hle,
    Nat.add_sub_cancel_left]

/-- **A set with room** gets its first invalid row. -/
theorem SetOk.firstUsed_room (h : SetOk k tagOf d cam s ways es)
    (ht : InTable k s d) (hroom : ways.length < k) :
    lineFirstUsed d (s * k) ((s + 1) * k)
      = .ok ((s * k + ways.length : Nat) : Int) := by
  obtain ⟨n, hn, hle, heq⟩ := firstUsed_set ht (by omega)
  rw [heq]
  apply firstUsedLoop_invalid hn (h.invalid hroom (Nat.lt_irrefl _)) k (s * k)
    _ _ hle (by omega) (by omega)
  intro i hi hlt
  obtain ⟨j, rfl⟩ : ∃ j, i = s * k + j := ⟨i - s * k, by omega⟩
  exact (h.valid j (by omega)).mpr (by omega)

/-- **A full set** loses its least recently used row, before the clock
wraps. -/
theorem SetOk.firstUsed_full {j : Nat} {q : List Nat}
    (h : SetOk k tagOf d cam s (j :: q) es) (ht : InTable k s d)
    (hint : CInt.InRange (d.time + 1)) (hfull : (j :: q).length = k) :
    lineFirstUsed d (s * k) ((s + 1) * k) = .ok ((s * k + j : Nat) : Int) := by
  have hk : 0 < k := by
    rw [← hfull]
    exact Nat.succ_pos _
  obtain ⟨n, hn, hle, heq⟩ := firstUsed_set ht hk
  have hj : j < k := hfull ▸ h.mem_ways.mp List.mem_cons_self
  have hclock := h.clock j List.mem_cons_self
  rw [heq, CInt.wrap_of_inRange hint]
  refine firstUsedLoop_oldest hn k (s * k) _ _ hle (by omega) (by omega) ?_
    (by omega) ?_
  · intro i hi hlt
    obtain ⟨i, rfl⟩ : ∃ x, i = s * k + x := ⟨i - s * k, by omega⟩
    exact (h.valid i (by omega)).mpr (by omega)
  · intro i hi hlt hne
    obtain ⟨i, rfl⟩ : ∃ x, i = s * k + x := ⟨i - s * k, by omega⟩
    have hmem : i ∈ j :: q := h.mem_ways.mpr (by omega)
    rcases List.mem_cons.mp hmem with rfl | hq
    · exact absurd rfl hne
    · exact (List.pairwise_cons.mp h.recent).1 i hq

end SchoolStuff.CamCache
