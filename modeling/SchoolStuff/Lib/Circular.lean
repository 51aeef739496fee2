import Mathlib.Data.List.Nodup
import Mathlib.Logic.Function.Basic

/-!
# Circular — doubly linked lists around a head

Nodes have a `next` and a `prev`. `Seg d a l b` says that the nodes `l` are
between `a` and `b` in both directions. A list around a head is a segment from
the head to itself (`Circle`). A node can be taken out and put in behind the
head, and `walk` finds what a search of the list finds, from either side.
-/

namespace SchoolStuff

/-- The links of all nodes. -/
structure Dlist (ν : Type*) where
  next : ν → ν
  prev : ν → ν

namespace Dlist

variable {ν : Type*} {d d' : Dlist ν} {a b c h : ν} {l r : List ν}

/-- The nodes `l` are between `a` and `b`. -/
def Seg (d : Dlist ν) : ν → List ν → ν → Prop
  | a, [], b => d.next a = b ∧ d.prev b = a
  | a, x :: l, b => (d.next a = x ∧ d.prev x = a) ∧ d.Seg x l b

/-- The list around `h` has the nodes `l`, each once. -/
structure Circle (d : Dlist ν) (h : ν) (l : List ν) : Prop where
  nodup : (h :: l).Nodup
  seg : d.Seg h l h

theorem seg_append {x : ν} : d.Seg a (l ++ x :: r) b ↔ d.Seg a l x ∧ d.Seg x r b := by
  induction l generalizing a with
  | nil => exact Iff.rfl
  | cons y l ih =>
      rw [List.cons_append, Seg, Seg, ih, and_assoc, and_assoc, and_assoc]

/-- A segment is as the links of its nodes are. -/
theorem Seg.congr (hseg : d.Seg a l b) (hnext : ∀ x ∈ a :: l, d'.next x = d.next x)
    (hprev : ∀ x ∈ l ++ [b], d'.prev x = d.prev x) : d'.Seg a l b := by
  induction l generalizing a with
  | nil =>
      rw [Seg, hnext a (List.mem_singleton_self a), hprev b (List.mem_singleton_self b)]
      exact hseg
  | cons x l ih =>
      refine ⟨?_, ih hseg.2 (fun y hy => hnext y (List.mem_cons_of_mem a hy))
        fun y hy => hprev y (List.mem_cons_of_mem x hy)⟩
      rw [hnext a (List.mem_cons_self ..), hprev x (List.mem_cons_self ..)]
      exact hseg.1

theorem Seg.next_mem (hseg : d.Seg a l b) : d.next a ∈ l ++ [b] := by
  cases l with
  | nil => exact List.mem_singleton.2 hseg.1
  | cons x l =>
      rw [hseg.1.1]
      exact List.mem_cons_self ..

theorem Seg.prev_mem (hseg : d.Seg a l b) : d.prev b ∈ a :: l := by
  induction l generalizing a with
  | nil => exact List.mem_singleton.2 hseg.2
  | cons x l ih => exact List.mem_cons_of_mem a (ih hseg.2)

/-! ## The other direction -/

def flip (d : Dlist ν) : Dlist ν := ⟨d.prev, d.next⟩

theorem Seg.flip (hseg : d.Seg a l b) : d.flip.Seg b l.reverse a := by
  induction l generalizing a with
  | nil => exact ⟨hseg.2, hseg.1⟩
  | cons x l ih =>
      rw [List.reverse_cons, seg_append]
      exact ⟨ih hseg.2, hseg.1.2, hseg.1.1⟩

theorem Circle.flip (hd : d.Circle h l) : d.flip.Circle h l.reverse := by
  refine ⟨?_, hd.seg.flip⟩
  obtain ⟨hmem, hl⟩ := List.nodup_cons.1 hd.nodup
  exact List.nodup_cons.2 ⟨fun hr => hmem (List.mem_reverse.1 hr), List.nodup_reverse.2 hl⟩

/-! ## Searches -/

variable [DecidableEq ν]

/-- `for (b = …; b != stop; b = adv(b)) if (P(b)) return b;`, for at most
`fuel` turns. -/
def walk (adv : ν → ν) (stop : ν) (P : ν → Bool) : Nat → ν → Option (Option ν)
  | 0, _ => none
  | fuel + 1, b =>
      if b = stop then some none
      else if P b then some (some b)
      else walk adv stop P fuel (adv b)

theorem Seg.walk_eq (P : ν → Bool) (hseg : d.Seg a l b) (hb : b ∉ l) {fuel : Nat}
    (hfuel : l.length < fuel) : walk d.next b P fuel (d.next a) = some (l.find? P) := by
  induction l generalizing a fuel with
  | nil =>
      obtain ⟨fuel, rfl⟩ := Nat.exists_eq_add_one_of_ne_zero (Nat.ne_of_gt hfuel)
      rw [walk, hseg.1, if_pos rfl]
      rfl
  | cons x l ih =>
      obtain ⟨fuel, rfl⟩ :=
        Nat.exists_eq_add_one_of_ne_zero (Nat.ne_of_gt (Nat.zero_lt_of_lt hfuel))
      obtain ⟨hne, hb'⟩ := not_or.1 fun hor => hb (List.mem_cons.2 hor)
      rw [walk, hseg.1.1, if_neg (Ne.symm hne), List.find?_cons]
      cases P x with
      | true => rfl
      | false => exact ih hseg.2 hb' (Nat.lt_of_succ_lt_succ hfuel)

/-- A walk along `next` searches the list from its first node on. -/
theorem Circle.walk_next (hd : d.Circle h l) (P : ν → Bool) {fuel : Nat}
    (hfuel : l.length < fuel) : walk d.next h P fuel (d.next h) = some (l.find? P) :=
  hd.seg.walk_eq P (List.nodup_cons.1 hd.nodup).1 hfuel

/-- A walk along `prev` searches it from its last node on. -/
theorem Circle.walk_prev (hd : d.Circle h l) (P : ν → Bool) {fuel : Nat}
    (hfuel : l.length < fuel) :
    walk d.prev h P fuel (d.prev h) = some (l.reverse.find? P) :=
  hd.flip.walk_next P (by rwa [List.length_reverse])

/-! ## Changes -/

/-- `b->next->prev = b->prev; b->prev->next = b->next;` -/
def unlink (d : Dlist ν) (b : ν) : Dlist ν :=
  let d := { d with prev := Function.update d.prev (d.next b) (d.prev b) }
  { d with next := Function.update d.next (d.prev b) (d.next b) }

/-- `b->next = h->next; b->prev = h; h->next->prev = b; h->next = b;` -/
def pushFront (d : Dlist ν) (h b : ν) : Dlist ν :=
  let d := { d with next := Function.update d.next b (d.next h) }
  let d := { d with prev := Function.update d.prev b h }
  let d := { d with prev := Function.update d.prev (d.next h) b }
  { d with next := Function.update d.next h b }

/-- A head without nodes. -/
def alone (d : Dlist ν) (h : ν) : Dlist ν :=
  ⟨Function.update d.next h h, Function.update d.prev h h⟩

theorem circle_alone (d : Dlist ν) (h : ν) : (d.alone h).Circle h [] :=
  ⟨List.nodup_singleton h, Function.update_self .., Function.update_self ..⟩

theorem unlink_prev (d : Dlist ν) (b : ν) :
    (d.unlink b).prev = Function.update d.prev (d.next b) (d.prev b) := rfl

theorem unlink_next (hb : d.next b ≠ b) :
    (d.unlink b).next = Function.update d.next (d.prev b) (d.next b) := by
  unfold unlink
  simp only [Function.update_of_ne (Ne.symm hb)]

/-- A node of a segment is taken out. -/
theorem seg_unlink (hl : d.Seg a l b) (hr : d.Seg b r c) (hnodup : (l ++ b :: r).Nodup)
    (ha : a ∉ l ++ b :: r) (hc : c ∉ l ++ b :: r) : (d.unlink b).Seg a (l ++ r) c := by
  have hself : d.next b ≠ b := by
    intro heq
    have hmem := hr.next_mem
    rw [heq] at hmem
    rcases List.mem_append.1 hmem with hmem | hmem
    · exact (List.nodup_cons.1 (List.nodup_append.1 hnodup).2.1).1 hmem
    · rw [List.mem_singleton] at hmem
      exact hc (hmem ▸ List.mem_append_right l (List.mem_cons_self ..))
  induction l generalizing a with
  | nil =>
      -- `a` becomes the node before what is after `b`
      obtain ⟨hnext, hprev⟩ := hl
      cases r with
      | nil =>
          obtain ⟨hnext', hprev'⟩ := hr
          refine ⟨?_, ?_⟩
          · rw [unlink_next hself, hprev, Function.update_self, hnext']
          · rw [unlink_prev, hnext', Function.update_self, hprev]
      | cons y r =>
          obtain ⟨⟨hnext', hprev'⟩, hr⟩ := hr
          simp only [List.nil_append, List.mem_cons, not_or] at ha hc
          have hy : y ∉ r := (List.nodup_cons.1 (List.nodup_cons.1 hnodup).2).1
          refine ⟨⟨?_, ?_⟩, hr.congr (fun x hx => ?_) fun x hx => ?_⟩
          · rw [unlink_next hself, hprev, Function.update_self, hnext']
          · rw [unlink_prev, hnext', Function.update_self, hprev]
          · rw [unlink_next hself, hprev, Function.update_of_ne]
            rintro rfl
            exact (List.mem_cons.1 hx).elim ha.2.1 ha.2.2
          · rw [unlink_prev, hnext', Function.update_of_ne]
            rintro rfl
            rcases List.mem_append.1 hx with hx | hx
            · exact hy hx
            · exact hc.2.1 (List.mem_singleton.1 hx).symm
  | cons x l ih =>
      rw [List.cons_append] at ha hc hnodup
      obtain ⟨hx, hnodup'⟩ := List.nodup_cons.1 hnodup
      have hc' : c ∉ l ++ b :: r := fun hmem => hc (List.mem_cons_of_mem x hmem)
      refine ⟨⟨?_, ?_⟩, ih hl.2 hnodup' hx hc'⟩
      · rw [unlink_next hself, Function.update_of_ne, hl.1.1]
        intro heq
        apply ha
        rw [heq, ← List.cons_append]
        exact List.mem_append_left _ hl.2.prev_mem
      · rw [unlink_prev, Function.update_of_ne, hl.1.2]
        intro heq
        rcases List.mem_append.1 hr.next_mem with hmem | hmem
        · rw [← heq] at hmem
          exact hx (List.mem_append_right l (List.mem_cons_of_mem b hmem))
        · rw [← heq, List.mem_singleton] at hmem
          exact hc (hmem ▸ List.mem_cons_self ..)

/-- A node is taken out. -/
theorem Circle.unlink (hd : d.Circle h (l ++ b :: r)) : (d.unlink b).Circle h (l ++ r) := by
  obtain ⟨hmem, hnodup⟩ := List.nodup_cons.1 hd.nodup
  obtain ⟨hl, hr⟩ := seg_append.1 hd.seg
  have hsub : (l ++ r).Sublist (l ++ b :: r) :=
    (List.Sublist.refl l).append (List.sublist_cons_self b r)
  refine ⟨List.nodup_cons.2 ⟨fun h => hmem (hsub.subset h), hnodup.sublist hsub⟩, ?_⟩
  exact seg_unlink hl hr hnodup hmem hmem

/-- A node is put in behind the head. -/
theorem Circle.pushFront (hd : d.Circle h l) (hb : b ∉ h :: l) :
    (d.pushFront h b).Circle h (b :: l) := by
  obtain ⟨hne, hbl⟩ := not_or.1 fun hor => hb (List.mem_cons.2 hor)
  obtain ⟨hmem, hnodup⟩ := List.nodup_cons.1 hd.nodup
  have hnext : (d.pushFront h b).next = Function.update (Function.update d.next b (d.next h)) h b :=
    rfl
  have hprev : (d.pushFront h b).prev
      = Function.update (Function.update d.prev b h) (d.next h) b := by
    unfold Dlist.pushFront
    simp only [Function.update_of_ne (Ne.symm hne)]
  have hfirst : b ≠ d.next h := by
    intro heq
    rcases List.mem_append.1 (heq ▸ hd.seg.next_mem) with hx | hx
    · exact hbl hx
    · exact hne (List.mem_singleton.1 hx)
  refine ⟨?_, ⟨?_, ?_⟩, ?_⟩
  · refine List.nodup_cons.2 ⟨fun hx => ?_, List.nodup_cons.2 ⟨hbl, hnodup⟩⟩
    exact (List.mem_cons.1 hx).elim (fun heq => hne heq.symm) hmem
  · rw [hnext, Function.update_self]
  · rw [hprev, Function.update_of_ne hfirst, Function.update_self]
  · have hseg := hd.seg
    cases l with
    | nil =>
        refine ⟨?_, ?_⟩
        · rw [hnext, Function.update_of_ne hne, Function.update_self, hseg.1]
        · rw [hprev, hseg.1, Function.update_self]
    | cons y l =>
        obtain ⟨⟨hy, _⟩, hrest⟩ := hseg
        simp only [List.mem_cons, not_or] at hbl hmem
        refine ⟨⟨?_, ?_⟩, hrest.congr (fun x hx => ?_) fun x hx => ?_⟩
        · rw [hnext, Function.update_of_ne hne, Function.update_self, hy]
        · rw [hprev, hy, Function.update_self]
        · rw [hnext, Function.update_of_ne, Function.update_of_ne]
          · rintro rfl
            exact (List.mem_cons.1 hx).elim hbl.1 hbl.2
          · rintro rfl
            exact (List.mem_cons.1 hx).elim hmem.1 hmem.2
        · rw [hprev, hy, Function.update_of_ne, Function.update_of_ne]
          · rintro rfl
            rcases List.mem_append.1 hx with hx | hx
            · exact hbl.2 hx
            · exact hne (List.mem_singleton.1 hx)
          · rintro rfl
            rcases List.mem_append.1 hx with hx | hx
            · exact (List.nodup_cons.1 hnodup).1 hx
            · exact hmem.1 (List.mem_singleton.1 hx).symm

/-- Nodes are put in one after the other. -/
theorem Circle.pushFronts (hd : d.Circle h l) (xs : List ν) (hxs : (h :: (xs ++ l)).Nodup) :
    (xs.foldl (fun d b => d.pushFront h b) d).Circle h (xs.reverse ++ l) := by
  induction xs generalizing d l with
  | nil => exact hd
  | cons x xs ih =>
      obtain ⟨hmem, hnodup⟩ := List.nodup_cons.1 hxs
      have hx : x ∉ h :: l := by
        intro hx
        rcases List.mem_cons.1 hx with rfl | hx
        · exact hmem (List.mem_cons_self ..)
        · exact (List.nodup_cons.1 hnodup).1 (List.mem_append_right xs hx)
      have hrest : (h :: (xs ++ x :: l)).Nodup :=
        hxs.perm (List.perm_middle.symm.cons h)
      rw [List.reverse_cons, List.append_assoc]
      exact ih (hd.pushFront hx) hrest

/-- A node goes to the front. -/
theorem Circle.moveFront (hd : d.Circle h (l ++ b :: r)) :
    ((d.unlink b).pushFront h b).Circle h (b :: (l ++ r)) := by
  refine hd.unlink.pushFront fun hb => ?_
  obtain ⟨hmem, hnodup⟩ := List.nodup_cons.1 hd.nodup
  rcases List.mem_cons.1 hb with rfl | hb
  · exact hmem (List.mem_append_right l (List.mem_cons_self ..))
  · exact (List.nodup_cons.1 (List.nodup_middle.1 hnodup)).1 hb

end Dlist

end SchoolStuff
