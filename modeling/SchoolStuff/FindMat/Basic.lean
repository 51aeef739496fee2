import Mathlib.Data.Int.Order.Basic
import SchoolStuff.Lib.SearchTree

/-!
# FindMat — a search tree of matrix entries (`cs220/test_1_review/findMat.c`)

The nodes of a `struct tnode` tree carry a value and where in the matrix it
was seen first; a null pointer is the empty tree, which no function of the
source may be called on. Insertion is `SearchTree.insert` by value
(`insertTree_eq`), so a tree built by `newNode` and `insertTree` is
`SearchTree.insertAll` of the triples (`build_eq`), and printing it lists
the first occurrence of each value in increasing order.
-/

namespace SchoolStuff.FindMat

open SearchTree (inorder insertAll)

/-- The data of a `struct tnode`. -/
structure Tnode where
  val : Int
  row : Int
  col : Int
  deriving DecidableEq, Repr

abbrev Tree := BinaryTree Tnode

def newNode (val row col : Int) : Tree := .node ⟨val, row, col⟩ .nil .nil

/-- `insertTree`. The root must not be a null pointer. -/
def insertTree (val row col : Int) : Tree → Option Tree
  | .nil => none
  | .node root left right =>
      -- a value that is already there is not inserted
      if val = root.val then some (.node root left right)
      else if val < root.val then
        if left = .nil then some (.node root (newNode val row col) right)
        else (insertTree val row col left).map fun left =>
          .node root left right
      else
        if right = .nil then some (.node root left (newNode val row col))
        else (insertTree val row col right).map fun right =>
          .node root left right

/-- `newNode` for the first triple and `insertTree` for the rest. -/
def build (first : Tnode) (rest : List Tnode) : Option Tree :=
  rest.foldlM (fun root e => insertTree e.val e.row e.col root)
    (newNode first.val first.row first.col)

/-- `%3d`. -/
def dec3 (n : Int) : String :=
  "".pushn ' ' (3 - (toString n).length) ++ toString n

/-- What `printSortedTree` prints for a node. -/
def Tnode.line (root : Tnode) : String :=
  s!"  mat[{root.row}][{root.col}] = {dec3 root.val}\n"

/-- The lines that `printSortedTree` prints. -/
def printSortedTree : Tree → Option (List String)
  | .nil => none
  | .node root left right => do
      let before ← (if left = .nil then some [] else printSortedTree left)
      let after ← (if right = .nil then some [] else printSortedTree right)
      some (before ++ root.line :: after)

/-! ## The tree that is built -/

theorem insertTree_eq (e : Tnode) {t : Tree} (ht : t ≠ .nil) :
    insertTree e.val e.row e.col t = some (SearchTree.insert Tnode.val e t) := by
  induction t with
  | nil => exact absurd rfl ht
  | node root left right ihl ihr =>
      rw [insertTree, SearchTree.insert]
      by_cases heq : e.val = root.val
      · rw [if_pos heq, if_pos heq]
      · rw [if_neg heq, if_neg heq]
        by_cases hlt : e.val < root.val
        · rw [if_pos hlt, if_pos hlt]
          by_cases hnull : left = .nil
          · rw [if_pos hnull, hnull]
            rfl
          · rw [if_neg hnull, ihl hnull]
            rfl
        · rw [if_neg hlt, if_neg hlt]
          by_cases hnull : right = .nil
          · rw [if_pos hnull, hnull]
            rfl
          · rw [if_neg hnull, ihr hnull]
            rfl

theorem insert_ne_nil (e : Tnode) (t : Tree) :
    SearchTree.insert Tnode.val e t ≠ .nil := by
  cases t with
  | nil => simp [SearchTree.insert]
  | node root left right =>
      rw [SearchTree.insert]
      split
      · simp
      · split <;> simp

theorem insertAll_ne_nil (first : Tnode) (rest : List Tnode) :
    insertAll Tnode.val (first :: rest) ≠ .nil := by
  induction rest using List.reverseRecOn with
  | nil => exact insert_ne_nil first .nil
  | append_singleton rest e ih =>
      rw [← List.cons_append, SearchTree.insertAll_snoc]
      exact insert_ne_nil e _

theorem build_eq (first : Tnode) (rest : List Tnode) :
    build first rest = some (insertAll Tnode.val (first :: rest)) := by
  induction rest using List.reverseRecOn with
  | nil => rfl
  | append_singleton rest e ih =>
      rw [build, List.foldlM_append]
      rw [build] at ih
      rw [ih, ← List.cons_append, SearchTree.insertAll_snoc]
      simp only [Option.bind_eq_bind, Option.bind_some, List.foldlM_cons,
        List.foldlM_nil, insertTree_eq e (insertAll_ne_nil first rest)]
      rfl

/-! ## Printing -/

theorem printSortedTree_eq {t : Tree} (ht : t ≠ .nil) :
    printSortedTree t = some ((inorder t).map Tnode.line) := by
  induction t with
  | nil => exact absurd rfl ht
  | node root left right ihl ihr =>
      have hsub : ∀ t : Tree, (t ≠ .nil → printSortedTree t
          = some ((inorder t).map Tnode.line)) →
          (if t = .nil then some [] else printSortedTree t)
            = some ((inorder t).map Tnode.line) := by
        intro t hprint
        by_cases hnull : t = .nil
        · rw [if_pos hnull, hnull]
          rfl
        · rw [if_neg hnull, hprint hnull]
      rw [printSortedTree, hsub left ihl, hsub right ihr]
      simp

/-- **The tree prints its distinct values in order.** For every non-empty
sequence of triples, what is printed are the lines of nodes with strictly
increasing values; the values are those of the sequence, and each node is
the first triple of its value. -/
theorem print_sorted (first : Tnode) (rest : List Tnode) :
    ∃ nodes : List Tnode,
      (build first rest).bind printSortedTree = some (nodes.map Tnode.line)
      ∧ (nodes.map Tnode.val).Pairwise (· < ·)
      ∧ (∀ v, v ∈ nodes.map Tnode.val ↔ v ∈ (first :: rest).map Tnode.val)
      ∧ ∀ e ∈ nodes, (first :: rest).find? (fun f => f.val = e.val) = some e := by
  have hmem := SearchTree.mem_insertAll Tnode.val (first :: rest)
  refine ⟨inorder (insertAll Tnode.val (first :: rest)), ?_,
    SearchTree.ordered_insertAll Tnode.val (first :: rest), fun v => ?_,
    fun e he => (hmem e).mp he⟩
  · rw [build_eq, Option.bind_some]
    exact printSortedTree_eq (insertAll_ne_nil first rest)
  · simp only [List.mem_map]
    constructor
    · rintro ⟨e, he, rfl⟩
      exact ⟨e, List.mem_of_find?_eq_some ((hmem e).mp he), rfl⟩
    · rintro ⟨e, he, rfl⟩
      -- some triple of the sequence is the first with this value
      have hsome : ((first :: rest).find? (fun f => f.val = e.val)).isSome := by
        rw [List.find?_isSome]
        exact ⟨e, he, by simp⟩
      obtain ⟨f, hf⟩ := Option.isSome_iff_exists.mp hsome
      have hval : f.val = e.val := by simpa using List.find?_some hf
      exact ⟨f, (hmem f).mpr (by rw [hval]; exact hf), hval⟩

end SchoolStuff.FindMat
