import Mathlib.Algebra.Order.Group.Unbundled.Int
import SchoolStuff.FindMat.Basic

/-!
# FindMat — the nearest value (`findTree`)

`findTree` walks down one path and keeps the closest node so far. What it
finds is closest among the nodes it has met (`findTree_path`), and every
other node of the tree has one of these between itself and the value
sought, so nothing in the tree is closer (`findTree_nearest`). Values are
integers: no difference of two of them is taken to overflow an `int`.
-/

namespace SchoolStuff.FindMat

open SearchTree (inorder path)

/-- The macro `abs`. -/
def abs (a : Int) : Int := if a ≥ 0 then a else -a

/-- What `findTree` prints at a node with the value sought. -/
def foundLine (val : Int) (root : Tnode) : String :=
  s!"Value {val} is in mat[{root.row}][{root.col}]\n"

/-- What `findTree` prints at the end of its path. -/
def closestLine (val : Int) (closest : Tnode) : String :=
  s!"Closest value to {val} is in mat[{closest.row}][{closest.col}]={closest.val}\n"

/-- `findTree`, and what it prints. The root must not be a null pointer. -/
def findTree (val : Int) : Tree → Option Tnode → Option String
  | .nil, _ => none
  | .node root left right, closest =>
      let closest := closest.getD root
      if val = root.val then some (foundLine val root)
      else
        let closest :=
          if abs (val - root.val) < abs (val - closest.val) then root
          else closest
        if val < root.val then
          if left = .nil then some (closestLine val closest)
          else findTree val left (some closest)
        else
          if right = .nil then some (closestLine val closest)
          else findTree val right (some closest)

variable {val : Int} {e f : Tnode} {nodes : List Tnode}

/-- How far the value of a node is from the value sought. -/
def distance (val : Int) (e : Tnode) : Int := |val - e.val|

theorem abs_eq (a : Int) : abs a = |a| := by
  rw [abs]
  split
  · exact (abs_of_nonneg ‹_›).symm
  · exact (abs_of_nonpos (by omega)).symm

/-- `e` is one of the nodes, and none of them is closer. -/
def Nearest (val : Int) (nodes : List Tnode) (e : Tnode) : Prop :=
  e ∈ nodes ∧ ∀ f ∈ nodes, distance val e ≤ distance val f

/-- The closer of two nodes, the second one if both are equally close. -/
def closer (val : Int) (root closest : Tnode) : Tnode :=
  if distance val root < distance val closest then root else closest

/-- A node met on the way may be replaced by the closer of it and the next. -/
theorem Nearest.closer {root closest : Tnode}
    (h : Nearest val (closer val root closest :: nodes) e) :
    Nearest val (closest :: root :: nodes) e := by
  obtain ⟨hmem, hle⟩ := h
  obtain ⟨hhead, htail⟩ := List.forall_mem_cons.mp hle
  have hbest : distance val (FindMat.closer val root closest) ≤ distance val root
      ∧ distance val (FindMat.closer val root closest) ≤ distance val closest
      ∧ (FindMat.closer val root closest = root
        ∨ FindMat.closer val root closest = closest) := by
    rw [FindMat.closer]
    split
    · exact ⟨le_rfl, le_of_lt ‹_›, .inl rfl⟩
    · exact ⟨not_lt.mp ‹_›, le_rfl, .inr rfl⟩
  obtain ⟨hroot, hclosest, heq⟩ := hbest
  constructor
  · rcases List.mem_cons.mp hmem with rfl | hmem
    · rcases heq with heq | heq <;> simp [heq]
    · exact List.mem_cons_of_mem _ (List.mem_cons_of_mem _ hmem)
  · exact List.forall_mem_cons.mpr ⟨hhead.trans hclosest,
      List.forall_mem_cons.mpr ⟨hhead.trans hroot, htail⟩⟩

/-- The result of a search that has `closest` so far and meets `nodes`: the
value is found there, or the nearest of them all is reported. -/
def Reports (val : Int) (closest : Tnode) (nodes : List Tnode)
    (printed : Option String) : Prop :=
  (∃ e ∈ nodes, e.val = val ∧ printed = some (foundLine val e))
    ∨ ∃ e, Nearest val (closest :: nodes) e ∧ (∀ f ∈ nodes, f.val ≠ val)
      ∧ printed = some (closestLine val e)

/-- **Step lemma**: one node that does not have the value, and the subtree
the search goes on in. -/
theorem reports_below {root closest : Tnode} {sub : Tree}
    (hroot : root.val ≠ val)
    (hsub : sub ≠ .nil → ∀ closest, Reports val closest (path Tnode.val val sub)
      (findTree val sub (some closest))) :
    Reports val closest (root :: path Tnode.val val sub)
      (if sub = .nil then some (closestLine val (closer val root closest))
        else findTree val sub (some (closer val root closest))) := by
  by_cases hnull : sub = .nil
  · subst hnull
    rw [if_pos rfl]
    exact .inr ⟨closer val root closest,
      Nearest.closer ⟨List.mem_cons_self, by simp [path]⟩,
      by simpa [path] using hroot, rfl⟩
  · rw [if_neg hnull]
    rcases hsub hnull (closer val root closest) with
      ⟨e, he, hval, hfind⟩ | ⟨e, hnear, hne, hfind⟩
    · exact .inl ⟨e, List.mem_cons_of_mem _ he, hval, hfind⟩
    · exact .inr ⟨e, hnear.closer, List.forall_mem_cons.mpr ⟨hroot, hne⟩, hfind⟩

/-- **Along the path**, by the recursion of the search. -/
theorem findTree_path (val : Int) {t : Tree} (ht : t ≠ .nil) (closest : Tnode) :
    Reports val closest (path Tnode.val val t)
      (findTree val t (some closest)) := by
  induction t generalizing closest with
  | nil => exact absurd rfl ht
  | node root left right ihl ihr =>
      rw [findTree, path]
      simp only [abs_eq, Option.getD_some]
      by_cases heq : val = root.val
      · exact .inl ⟨root, List.mem_cons_self, heq.symm, if_pos heq⟩
      · rw [if_neg heq, if_neg heq]
        by_cases hlt : val < root.val
        · rw [if_pos hlt, if_pos hlt]
          exact reports_below (Ne.symm heq) ihl
        · rw [if_neg hlt, if_neg hlt]
          exact reports_below (Ne.symm heq) ihr

/-- A node between the value and `f` is not farther away than `f`. -/
theorem distance_le (h : (val ≤ e.val ∧ e.val ≤ f.val)
    ∨ (f.val ≤ e.val ∧ e.val ≤ val)) : distance val e ≤ distance val f := by
  rw [distance, distance]
  rcases h with ⟨hve, hef⟩ | ⟨hfe, hev⟩
  · rw [abs_of_nonpos (by omega), abs_of_nonpos (by omega)]
    omega
  · rw [abs_of_nonneg (by omega), abs_of_nonneg (by omega)]
    omega

/-- **The search finds a nearest value.** In every tree built by `newNode`
and `insertTree`, `findTree(root, val, NULL)` returns; it reports the node
with the value if there is one, and otherwise a node whose value is at the
least distance. -/
theorem findTree_nearest (first : Tnode) (rest : List Tnode) (val : Int) :
    ∃ t, build first rest = some t
      ∧ ((∃ e ∈ inorder t, e.val = val
          ∧ findTree val t none = some (foundLine val e))
        ∨ ((∀ f ∈ inorder t, f.val ≠ val) ∧ ∃ e ∈ inorder t,
          (∀ f ∈ inorder t, |val - e.val| ≤ |val - f.val|)
          ∧ findTree val t none = some (closestLine val e))) := by
  refine ⟨_, build_eq first rest, ?_⟩
  have hordered := SearchTree.ordered_insertAll Tnode.val (first :: rest)
  have hnull := insertAll_ne_nil first rest
  generalize SearchTree.insertAll Tnode.val (first :: rest) = t at hordered hnull ⊢
  cases t with
  | nil => exact absurd rfl hnull
  | node root left right =>
      -- the first call takes the root itself as the closest node
      have hstart : findTree val (.node root left right) none
          = findTree val (.node root left right) (some root) := rfl
      rw [hstart]
      rcases findTree_path val hnull root with
        ⟨e, he, hval, hfind⟩ | ⟨e, ⟨hmem, hle⟩, hne, hfind⟩
      · exact .inl ⟨e, SearchTree.mem_of_mem_path Tnode.val he, hval, hfind⟩
      · refine .inr ⟨fun f hf hval => ?_, e, ?_, fun f hf => ?_, hfind⟩
        · obtain ⟨y, hy, hbetween⟩ := hordered.exists_path_between Tnode.val val hf
          exact hne y hy (by omega)
        · rcases List.mem_cons.mp hmem with rfl | hmem
          · exact SearchTree.mem_node.mpr (.inr (.inl rfl))
          · exact SearchTree.mem_of_mem_path Tnode.val hmem
        · obtain ⟨y, hy, hbetween⟩ := hordered.exists_path_between Tnode.val val hf
          exact (hle y (List.mem_cons_of_mem _ hy)).trans (distance_le hbetween)

end SchoolStuff.FindMat
