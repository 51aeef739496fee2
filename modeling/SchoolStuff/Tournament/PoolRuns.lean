import Mathlib.Data.List.Induction
import Mathlib.Data.List.InsertIdx
import SchoolStuff.Tournament.Pool

/-!
# Tournament — any calls on a pool

`addPool` and `getPool` in any order and with any values of `rand()`, the
pool never being empty when an entry is taken. No call fails, each new entry
stands where `rand()` says, and no entry is lost or there twice
(`poolRun_ok`).
-/

namespace SchoolStuff.Tournament

/-- A call on the pool. -/
inductive PoolCall where
  | addPool (ri : Int)
  | getPool
  deriving DecidableEq, Repr

/-- The pool, the calls of `rand()` and what `getPool` returned so far. -/
structure PoolState where
  pool : Pool
  draws : Nat
  returned : List Int
  deriving DecidableEq, Repr

def PoolState.call (rand : Nat → Nat) (st : PoolState) : PoolCall → Option PoolState
  | .addPool ri => (Tournament.addPool st.pool ri (rand st.draws)).map fun pool =>
      { st with pool := pool, draws := st.draws + addPoolDraws st.pool }
  | .getPool => (Tournament.getPool st.pool).map fun (ri, pool) =>
      { st with pool := pool, returned := st.returned ++ [ri] }

/-- The calls one after the other on a new pool. -/
def poolRun (rand : Nat → Nat) (calls : List PoolCall) : Option PoolState :=
  calls.foldlM (PoolState.call rand) ⟨newPool, 0, []⟩

/-- The entries that are added. -/
def added (calls : List PoolCall) : List Int :=
  calls.filterMap fun
    | .addPool ri => some ri
    | .getPool => none

/-- `getPool` is only called on a pool that is not empty. -/
def TakesFromNonEmpty (rand : Nat → Nat) (calls : List PoolCall) : Prop :=
  ∀ earlier later st, calls = earlier ++ .getPool :: later →
    poolRun rand earlier = some st → numPool st.pool ≠ 0

theorem poolRun_append (rand : Nat → Nat) (calls : List PoolCall) (call : PoolCall) :
    poolRun rand (calls ++ [call]) =
      (poolRun rand calls).bind fun st => st.call rand call := by
  simp [poolRun, List.foldlM_append]

theorem TakesFromNonEmpty.init {rand : Nat → Nat} {calls : List PoolCall}
    {call : PoolCall} (h : TakesFromNonEmpty rand (calls ++ [call])) :
    TakesFromNonEmpty rand calls := by
  intro earlier later st hcalls
  exact h earlier (later ++ [call]) st (by simp [hcalls])

/-! ## One call -/

theorem insertAfter_eq (this : Int) {l : List Int} {steps : Nat} (h : steps < l.length) :
    insertAfter this l steps = some (l.insertIdx (steps + 1) this) := by
  induction l generalizing steps with
  | nil => simp at h
  | cons after rest ih =>
      cases steps with
      | zero => simp [insertAfter]
      | succ steps =>
          rw [insertAfter, ih (by simpa using h)]
          simp

/-- `rand()` says where. -/
theorem addPool_insertIdx {p : Pool} (h : p.Ok) (ri : Int) (r : Nat) :
    addPool p ri r = some ⟨p.count + 1, p.head.insertIdx (r % (1 + p.count)) ri⟩ := by
  have hlen : p.count = p.head.length := h
  by_cases hc : p.count = 0
  · simp [addPool, hc, h.head_eq_nil hc, Nat.mod_one]
  · by_cases hloc : r % (1 + p.count) = 0
    · simp [addPool, hc, hloc]
    · have hlt : r % (1 + p.count) < 1 + p.count := Nat.mod_lt _ (by omega)
      have hsteps : r % (1 + p.count) - 1 + 1 = r % (1 + p.count) := by omega
      simp only [addPool, if_neg hc, if_neg hloc]
      rw [insertAfter_eq ri (by omega), hsteps]
      rfl

/-- What holds of a pool between two calls. -/
structure PoolState.Holds (st : PoolState) (all : List Int) : Prop where
  ok : st.pool.Ok
  entries : (st.returned ++ st.pool.head).Perm all

theorem PoolState.Holds.addPool (rand : Nat → Nat) {st : PoolState} {all : List Int}
    (h : st.Holds all) (ri : Int) :
    ∃ st', st.call rand (.addPool ri) = some st' ∧ st'.Holds (all ++ [ri]) := by
  obtain ⟨p', hadd, hok, hperm⟩ := addPool_ok h.ok ri (rand st.draws)
  refine ⟨{ st with pool := p', draws := st.draws + addPoolDraws st.pool },
    by simp [PoolState.call, hadd], hok, ?_⟩
  have hfront : (st.returned ++ ri :: st.pool.head).Perm (ri :: all) :=
    List.perm_middle.trans (h.entries.cons ri)
  exact ((hperm.append_left _).trans hfront).trans (List.perm_append_singleton ri all).symm

theorem PoolState.Holds.getPool (rand : Nat → Nat) {st : PoolState} {all : List Int}
    (h : st.Holds all) (hne : numPool st.pool ≠ 0) :
    ∃ st', st.call rand .getPool = some st' ∧ st'.Holds all := by
  obtain ⟨x, p', hget, hok, hhead, -⟩ := getPool_ok h.ok hne
  refine ⟨{ st with pool := p', returned := st.returned ++ [x] },
    by simp [PoolState.call, hget], hok, ?_⟩
  have hentries := h.entries
  rw [hhead, List.append_cons] at hentries
  exact hentries

/-! ## Runs -/

theorem poolRun_holds {rand : Nat → Nat} {calls : List PoolCall}
    (h : TakesFromNonEmpty rand calls) :
    ∃ st, poolRun rand calls = some st ∧ st.Holds (added calls) := by
  induction calls using List.reverseRecOn with
  | nil => exact ⟨_, rfl, newPool_ok, List.Perm.refl _⟩
  | append_singleton calls call ih =>
      obtain ⟨st, hrun, hst⟩ := ih h.init
      rw [poolRun_append, hrun, Option.bind_some]
      cases call with
      | addPool ri => simpa [added] using hst.addPool rand ri
      | getPool =>
          have hne : numPool st.pool ≠ 0 := h calls [] st rfl hrun
          simpa [added] using hst.getPool rand hne

/-- **Any calls on a pool.** The counter is the length of the list, the pool
holds what was added and not yet returned, and the next entry goes to the
position that `rand()` gives, the others staying in order. -/
theorem poolRun_ok (rand : Nat → Nat) (calls : List PoolCall)
    (h : TakesFromNonEmpty rand calls) :
    ∃ st, poolRun rand calls = some st ∧
      st.pool.count = st.pool.head.length ∧
      (st.returned ++ st.pool.head).Perm (added calls) ∧
      ∀ ri r, addPool st.pool ri r =
        some ⟨st.pool.count + 1, st.pool.head.insertIdx (r % (1 + st.pool.count)) ri⟩ := by
  obtain ⟨st, hrun, hst⟩ := poolRun_holds h
  exact ⟨st, hrun, hst.ok, hst.entries, fun ri r => addPool_insertIdx hst.ok ri r⟩

/-- Two entries, one of them taken out again. -/
theorem poolRun_ok_two :
    ∃ st, poolRun (fun _ => 4) [.addPool 7, .addPool 8, .getPool] = some st ∧
      st.pool.count = st.pool.head.length ∧
      (st.returned ++ st.pool.head).Perm (added [.addPool 7, .addPool 8, .getPool]) ∧
      ∀ ri r, addPool st.pool ri r =
        some ⟨st.pool.count + 1, st.pool.head.insertIdx (r % (1 + st.pool.count)) ri⟩ := by
  refine poolRun_ok _ _ fun earlier later st hcalls hrun => ?_
  match earlier with
  | [] => cases hcalls
  | [_] => cases hcalls
  | [_, _] =>
      cases hcalls
      obtain rfl : (⟨⟨2, [8, 7]⟩, 1, []⟩ : PoolState) = st := Option.some.inj hrun
      decide
  | _ :: _ :: _ :: rest => simp at hcalls

end SchoolStuff.Tournament
