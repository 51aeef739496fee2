import Mathlib.Data.List.Perm.Basic

/-!
# Tournament — player pools (`cs220/lab12/pool.c`)

A pool is a counter and a linked list of registration indices, kept apart
as in the source. `addPool` inserts at the position `rand()` picks; the
values `rand()` returns are a parameter. `none` is a failed `assert` or a
null pointer followed. `Pool.Ok` says that the counter is the length of
the list; under it `addPool` and `getPool` succeed and move exactly one
entry.
-/

namespace SchoolStuff.Tournament

/-- `struct spool`. -/
structure Pool where
  count : Nat
  head : List Int
  deriving DecidableEq, Repr

/-- `newPool`. -/
def newPool : Pool := ⟨0, []⟩

/-- Walk `steps` nodes from the head and link `this` in behind the node
reached. -/
def insertAfter (this : Int) : List Int → Nat → Option (List Int)
  | [], _ => none
  | after :: rest, 0 => some (after :: this :: rest)
  | after :: rest, steps + 1 => (insertAfter this rest steps).map (after :: ·)

/-- `addPool` when the next value of `rand()` is `r`. -/
def addPool (p : Pool) (ri : Int) (r : Nat) : Option Pool :=
  if p.count = 0 then some ⟨1, [ri]⟩
  else
    let loc := r % (1 + p.count)
    if loc = 0 then some ⟨p.count + 1, ri :: p.head⟩
    else (insertAfter ri p.head (loc - 1)).map fun head => ⟨p.count + 1, head⟩

/-- How often `addPool` calls `rand()`. -/
def addPoolDraws (p : Pool) : Nat :=
  if p.count = 0 then 0 else 1

/-- `getPool`: the entry and the pool without it. -/
def getPool (p : Pool) : Option (Int × Pool) :=
  if p.count = 0 then none
  else
    match p.head with
    | [] => none
    | this :: next => some (this, ⟨p.count - 1, next⟩)

/-- `spPool`: a single entry is left. -/
def spPool (p : Pool) : Bool := p.count == 1

/-- `numPool`. -/
def numPool (p : Pool) : Nat := p.count

/-! ## Well-formed pools -/

/-- The counter is the length of the linked list. -/
def Pool.Ok (p : Pool) : Prop := p.count = p.head.length

theorem newPool_ok : newPool.Ok := rfl

theorem Pool.Ok.head_eq_nil {p : Pool} (h : p.Ok) (hc : p.count = 0) :
    p.head = [] :=
  List.length_eq_zero_iff.mp (h ▸ hc)

theorem Pool.Ok.eq_newPool {p : Pool} (h : p.Ok) (hc : p.count = 0) :
    p = newPool := by
  cases p with
  | mk count head =>
      have hhead : head = [] := h.head_eq_nil hc
      have hcount : count = 0 := hc
      rw [hhead, hcount, newPool]

/-- The walk stays on the list as long as it takes fewer steps than there
are nodes. -/
theorem insertAfter_perm (this : Int) :
    ∀ (l : List Int) (steps : Nat), steps < l.length →
    ∃ l', insertAfter this l steps = some l' ∧ l'.Perm (this :: l) := by
  intro l
  induction l with
  | nil => intro steps h; simp at h
  | cons x rest ih =>
      intro steps h
      cases steps with
      | zero => exact ⟨_, rfl, List.Perm.swap _ _ _⟩
      | succ k =>
          obtain ⟨l', hl', hperm⟩ := ih k (by simpa using h)
          refine ⟨x :: l', by simp [insertAfter, hl'], ?_⟩
          exact (hperm.cons x).trans (List.Perm.swap _ _ _)

/-- **`addPool` adds exactly its entry**, wherever `rand()` puts it. -/
theorem addPool_ok {p : Pool} (h : p.Ok) (ri : Int) (r : Nat) :
    ∃ p', addPool p ri r = some p' ∧ p'.Ok
      ∧ p'.head.Perm (ri :: p.head) := by
  by_cases hc : p.count = 0
  · refine ⟨⟨1, [ri]⟩, by simp [addPool, hc], rfl, ?_⟩
    rw [h.head_eq_nil hc]
  · by_cases hloc : r % (1 + p.count) = 0
    · refine ⟨⟨p.count + 1, ri :: p.head⟩, by simp [addPool, hc, hloc], ?_,
        List.Perm.refl _⟩
      show p.count + 1 = p.head.length + 1
      rw [h]
    · have hlt : r % (1 + p.count) < 1 + p.count := Nat.mod_lt _ (by omega)
      have hlen : p.count = p.head.length := h
      obtain ⟨l', hl', hperm⟩ := insertAfter_perm ri p.head
        (r % (1 + p.count) - 1) (by omega)
      refine ⟨⟨p.count + 1, l'⟩, by simp [addPool, hc, hloc, hl'], ?_, hperm⟩
      show p.count + 1 = l'.length
      rw [hperm.length_eq, List.length_cons, h]

/-- **`getPool` removes the entry it returns**. -/
theorem getPool_ok {p : Pool} (h : p.Ok) (hc : p.count ≠ 0) :
    ∃ x p', getPool p = some (x, p') ∧ p'.Ok ∧ p.head = x :: p'.head
      ∧ p'.count + 1 = p.count := by
  have hlen : p.count = p.head.length := h
  cases hhead : p.head with
  | nil => simp [hhead] at hlen; omega
  | cons x next =>
      refine ⟨x, ⟨p.count - 1, next⟩, by simp [getPool, hc, hhead], ?_, rfl, ?_⟩
      · show p.count - 1 = next.length
        simp [hhead] at hlen
        omega
      · show p.count - 1 + 1 = p.count
        omega

end SchoolStuff.Tournament
