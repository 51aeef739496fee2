import Mathlib.Data.List.Induction
import Mathlib.Data.Tree.Basic
import Mathlib.Order.Lattice
import Mathlib.Tactic.Common

/-!
# SearchTree — binary search trees on keyed entries

Entries are ordered by a key, and insertion leaves an entry alone whose key
is there already (`insert`). A tree built by insertions holds the first
entry of each key (`mem_insertAll`), in the order of the keys
(`ordered_insertAll`). A search for a key follows one path, and that path
comes between the key and every entry of the tree
(`Ordered.exists_path_between`): whatever is nearest in the order, is on it.
-/

namespace SchoolStuff.SearchTree

variable {α κ : Type*}

def inorder : BinaryTree α → List α
  | .nil => []
  | .node a l r => inorder l ++ a :: inorder r

@[simp] theorem inorder_nil : inorder (.nil : BinaryTree α) = [] := rfl

@[simp] theorem inorder_node (a : α) (l r : BinaryTree α) :
    inorder (.node a l r) = inorder l ++ a :: inorder r := rfl

theorem mem_node {a x : α} {l r : BinaryTree α} :
    x ∈ inorder (.node a l r) ↔ x ∈ inorder l ∨ x = a ∨ x ∈ inorder r := by
  simp

variable [LinearOrder κ] (key : α → κ)

/-- The traversal meets the keys in increasing order. -/
def Ordered (t : BinaryTree α) : Prop :=
  ((inorder t).map key).Pairwise (· < ·)

theorem ordered_nil : Ordered key (.nil : BinaryTree α) := List.Pairwise.nil

theorem ordered_node {a : α} {l r : BinaryTree α} :
    Ordered key (.node a l r) ↔ Ordered key l ∧ Ordered key r
      ∧ (∀ x ∈ inorder l, key x < key a) ∧ (∀ x ∈ inorder r, key a < key x) := by
  simp only [Ordered, inorder_node, List.pairwise_map, List.pairwise_append,
    List.pairwise_cons, List.mem_cons]
  constructor
  · rintro ⟨hl, ⟨har, hr⟩, hlr⟩
    exact ⟨hl, hr, fun x hx => hlr x hx a (.inl rfl), har⟩
  · rintro ⟨hl, hr, hla, har⟩
    refine ⟨hl, ⟨har, hr⟩, fun x hx y hy => ?_⟩
    rcases hy with rfl | hy
    · exact hla x hx
    · exact (hla x hx).trans (har y hy)

/-! ## Insertion -/

def insert (x : α) : BinaryTree α → BinaryTree α
  | .nil => .node x .nil .nil
  | .node a l r =>
      if key x = key a then .node a l r
      else if key x < key a then .node a (insert x l) r
      else .node a l (insert x r)

/-- `x` is new if no entry has its key. -/
theorem mem_insert {t : BinaryTree α} (ht : Ordered key t) (x y : α) :
    y ∈ inorder (insert key x t)
      ↔ y ∈ inorder t ∨ (y = x ∧ ∀ z ∈ inorder t, key z ≠ key x) := by
  induction t with
  | nil => simp [insert]
  | node a l r ihl ihr =>
      obtain ⟨hl, hr, hla, har⟩ := (ordered_node key).mp ht
      rw [insert]
      by_cases heq : key x = key a
      · rw [if_pos heq]
        exact ⟨.inl, fun h => h.elim id fun hnew =>
          absurd heq.symm (hnew.2 a (mem_node.mpr (.inr (.inl rfl))))⟩
      · rw [if_neg heq]
        by_cases hlt : key x < key a
        · -- only the left subtree can hold the key
          have hnew : (∀ z ∈ inorder (.node a l r), key z ≠ key x)
              ↔ ∀ z ∈ inorder l, key z ≠ key x := by
            refine ⟨fun h z hz => h z (mem_node.mpr (.inl hz)), fun h z hz => ?_⟩
            rcases mem_node.mp hz with hzl | rfl | hzr
            · exact h z hzl
            · exact Ne.symm heq
            · exact (hlt.trans (har z hzr)).ne'
          rw [if_pos hlt, mem_node, ihl hl, hnew, mem_node, or_right_comm]
        · have hnew : (∀ z ∈ inorder (.node a l r), key z ≠ key x)
              ↔ ∀ z ∈ inorder r, key z ≠ key x := by
            refine ⟨fun h z hz => h z (mem_node.mpr (.inr (.inr hz))),
              fun h z hz => ?_⟩
            rcases mem_node.mp hz with hzl | rfl | hzr
            · exact ((hla z hzl).trans_le (not_lt.mp hlt)).ne
            · exact Ne.symm heq
            · exact h z hzr
          rw [if_neg hlt, mem_node, ihr hr, hnew, mem_node, or_assoc, or_assoc]

theorem Ordered.insert {t : BinaryTree α} (ht : Ordered key t) (x : α) :
    Ordered key (insert key x t) := by
  induction t with
  | nil =>
      exact (ordered_node key).mpr
        ⟨ordered_nil key, ordered_nil key, by simp, by simp⟩
  | node a l r ihl ihr =>
      obtain ⟨hl, hr, hla, har⟩ := (ordered_node key).mp ht
      rw [SearchTree.insert]
      by_cases heq : key x = key a
      · rw [if_pos heq]
        exact ht
      · rw [if_neg heq]
        by_cases hlt : key x < key a
        · rw [if_pos hlt]
          refine (ordered_node key).mpr ⟨ihl hl, hr, fun y hy => ?_, har⟩
          rcases (mem_insert key hl x y).mp hy with hy | ⟨rfl, -⟩
          · exact hla y hy
          · exact hlt
        · rw [if_neg hlt]
          refine (ordered_node key).mpr ⟨hl, ihr hr, hla, fun y hy => ?_⟩
          rcases (mem_insert key hr x y).mp hy with hy | ⟨rfl, -⟩
          · exact har y hy
          · exact lt_of_le_of_ne (not_lt.mp hlt) (Ne.symm heq)

/-- The tree after the insertions `xs`. -/
def insertAll (xs : List α) : BinaryTree α :=
  xs.foldl (fun t x => insert key x t) .nil

theorem insertAll_snoc (xs : List α) (x : α) :
    insertAll key (xs ++ [x]) = insert key x (insertAll key xs) := by
  rw [insertAll, List.foldl_append]
  rfl

theorem ordered_insertAll (xs : List α) : Ordered key (insertAll key xs) := by
  induction xs using List.reverseRecOn with
  | nil => exact ordered_nil key
  | append_singleton xs x ih =>
      rw [insertAll_snoc]
      exact ih.insert key x

/-- A tree holds the first entry of each key that was inserted. -/
theorem mem_insertAll (xs : List α) (y : α) :
    y ∈ inorder (insertAll key xs)
      ↔ xs.find? (fun x => key x = key y) = some y := by
  induction xs using List.reverseRecOn generalizing y with
  | nil => simp [insertAll]
  | append_singleton xs x ih =>
      rw [insertAll_snoc, mem_insert key (ordered_insertAll key xs), ih,
        List.find?_append]
      cases hfind : xs.find? (fun x => key x = key y) with
      | some z =>
          have hkey : key z = key y := by simpa using List.find?_some hfind
          have hz : z ∈ inorder (insertAll key xs) := by
            rw [ih, hkey]
            exact hfind
          rw [Option.some_or]
          exact ⟨fun h => h.elim id fun hnew =>
            absurd (hnew.1 ▸ hkey) (hnew.2 z hz), .inl⟩
      | none =>
          rw [List.find?_eq_none] at hfind
          have hnew : y = x → ∀ z ∈ inorder (insertAll key xs),
              key z ≠ key x := by
            rintro rfl z hz hkey
            have hmem := List.mem_of_find?_eq_some ((ih z).mp hz)
            exact hfind z hmem (by simpa using hkey)
          rw [Option.none_or, List.find?_singleton]
          constructor
          · rintro (h | ⟨rfl, -⟩)
            · cases h
            · simp
          · intro h
            have hx : x = y := by
              split at h
              · exact Option.some.inj h
              · cases h
            exact .inr ⟨hx.symm, hnew hx.symm⟩

/-! ## Searching -/

/-- The entries that a search for `k` meets. -/
def path (k : κ) : BinaryTree α → List α
  | .nil => []
  | .node a l r =>
      a :: if k = key a then [] else if k < key a then path k l else path k r

theorem mem_of_mem_path {k : κ} {t : BinaryTree α} {x : α}
    (hx : x ∈ path key k t) : x ∈ inorder t := by
  induction t with
  | nil => simp [path] at hx
  | node a l r ihl ihr =>
      rw [path, List.mem_cons] at hx
      rw [mem_node]
      rcases hx with rfl | hx
      · exact .inr (.inl rfl)
      · split at hx
        · simp at hx
        · split at hx
          · exact .inl (ihl hx)
          · exact .inr (.inr (ihr hx))

/-- Between the key sought and an entry of the tree there is an entry on the
path. -/
theorem Ordered.exists_path_between {t : BinaryTree α} (ht : Ordered key t)
    (k : κ) {x : α} (hx : x ∈ inorder t) :
    ∃ y ∈ path key k t,
      (k ≤ key y ∧ key y ≤ key x) ∨ (key x ≤ key y ∧ key y ≤ k) := by
  induction t with
  | nil => simp at hx
  | node a l r ihl ihr =>
      obtain ⟨hl, hr, hla, har⟩ := (ordered_node key).mp ht
      rw [path]
      by_cases heq : k = key a
      · refine ⟨a, List.mem_cons_self, ?_⟩
        rw [← heq]
        exact (le_total k (key x)).imp (⟨le_rfl, ·⟩) (⟨·, le_rfl⟩)
      · rw [if_neg heq]
        by_cases hlt : k < key a
        · rw [if_pos hlt]
          rcases mem_node.mp hx with hx | rfl | hx
          · obtain ⟨y, hy, hbetween⟩ := ihl hl hx
            exact ⟨y, List.mem_cons_of_mem _ hy, hbetween⟩
          · exact ⟨x, List.mem_cons_self, .inl ⟨hlt.le, le_rfl⟩⟩
          · exact ⟨a, List.mem_cons_self, .inl ⟨hlt.le, (har x hx).le⟩⟩
        · have hgt : key a ≤ k := not_lt.mp hlt
          rw [if_neg hlt]
          rcases mem_node.mp hx with hx | rfl | hx
          · exact ⟨a, List.mem_cons_self, .inr ⟨(hla x hx).le, hgt⟩⟩
          · exact ⟨x, List.mem_cons_self, .inr ⟨le_rfl, hgt⟩⟩
          · obtain ⟨y, hy, hbetween⟩ := ihr hr hx
            exact ⟨y, List.mem_cons_of_mem _ hy, hbetween⟩

end SchoolStuff.SearchTree
