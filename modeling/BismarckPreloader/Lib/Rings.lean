import Mathlib.Data.List.Basic
import Mathlib.Data.List.Nodup
import Mathlib.Logic.Function.Basic
import Mathlib.Logic.Function.Iterate

/-!
# Intrusive circular lists

Nodes carry a `next` and a `prev` link. A list is a head node whose ring of links
goes through its members and back to it; an empty list is a head linked to itself.
Several lists may share one set of links, and a node is moved from one to another
by unlinking it and linking it in behind the last member.

`Path.retarget` is the rule behind both operations: a path that ended in one node
ends in another once the last link is changed. `Rings.moveTail` is the result that
clients use: moving a node moves it in the lists of members and nowhere else.
-/

namespace BismarckPreloader

structure Links (α : Type) where
  next : α → α
  prev : α → α

namespace Links

variable {α : Type} {k k' : Links α} {a b l p : α} {xs ys : List α}

def Path (k : Links α) : α → List α → α → Prop
  | a, [], b => k.next a = b ∧ k.prev b = a
  | a, x :: xs, b => (k.next a = x ∧ k.prev x = a) ∧ k.Path x xs b

theorem path_append : k.Path a (xs ++ p :: ys) b ↔ k.Path a xs p ∧ k.Path p ys b := by
  induction xs generalizing a with
  | nil => rfl
  | cons x xs ih =>
    simp only [List.cons_append, Path, ih, and_assoc]

theorem Path.next_eq (h : k.Path a xs b) : k.next a = xs.headD b := by
  cases xs with
  | nil => exact h.1
  | cons x xs => exact h.1.1

theorem Path.prev_mem (h : k.Path a xs b) : k.prev b ∈ a :: xs := by
  induction xs generalizing a with
  | nil => exact List.mem_singleton.mpr h.2
  | cons x xs ih => exact List.mem_cons_of_mem _ (ih h.2)

theorem Path.next_prev (h : k.Path a xs b) : k.next (k.prev b) = b := by
  induction xs generalizing a with
  | nil => rw [h.2, h.1]
  | cons x xs ih => exact ih h.2

theorem Path.congr (h : k.Path a xs b) (hnext : ∀ x ∈ a :: xs, k'.next x = k.next x)
    (hprev : ∀ x ∈ xs ++ [b], k'.prev x = k.prev x) : k'.Path a xs b := by
  induction xs generalizing a with
  | nil =>
    refine ⟨?_, ?_⟩
    · rw [hnext a List.mem_cons_self, h.1]
    · rw [hprev b List.mem_cons_self, h.2]
  | cons x xs ih =>
    refine ⟨⟨?_, ?_⟩, ih h.2 (fun y hy => hnext y (List.mem_cons_of_mem _ hy))
      (fun y hy => hprev y (List.mem_cons_of_mem _ hy))⟩
    · rw [hnext a List.mem_cons_self, h.1.1]
    · rw [hprev x List.mem_cons_self, h.1.2]

theorem Path.retarget (h : k.Path a xs p) (hnodup : (a :: xs).Nodup)
    (hnext : ∀ x ∈ a :: xs, x ≠ k.prev p → k'.next x = k.next x)
    (hprev : ∀ x ∈ xs, k'.prev x = k.prev x)
    (hlink : k'.next (k.prev p) = b ∧ k'.prev b = k.prev p) : k'.Path a xs b := by
  induction xs generalizing a with
  | nil => rwa [h.2] at hlink
  | cons x xs ih =>
    have ha : a ∉ x :: xs := (List.nodup_cons.mp hnodup).1
    -- the changed link leaves the last node, which is further on
    have hne : a ≠ k.prev p := fun he => ha (he ▸ h.2.prev_mem)
    refine ⟨⟨?_, ?_⟩, ih h.2 hnodup.of_cons (fun y hy => hnext y (List.mem_cons_of_mem _ hy))
      (fun y hy => hprev y (List.mem_cons_of_mem _ hy))⟩
    · rw [hnext a List.mem_cons_self hne, h.1.1]
    · rw [hprev x List.mem_cons_self, h.1.2]

def IsRing (k : Links α) (l : α) (xs : List α) : Prop := k.Path l xs l

theorem IsRing.congr (h : k.IsRing l xs) (hnext : ∀ x ∈ l :: xs, k'.next x = k.next x)
    (hprev : ∀ x ∈ l :: xs, k'.prev x = k.prev x) : k'.IsRing l xs := by
  refine Path.congr h hnext (fun x hx => hprev x ?_)
  rw [List.mem_append, List.mem_singleton] at hx
  exact List.mem_cons.mpr hx.symm

section Operations

variable [DecidableEq α]

def setNext (k : Links α) (a b : α) : Links α := { k with next := Function.update k.next a b }

def setPrev (k : Links α) (a b : α) : Links α := { k with prev := Function.update k.prev a b }

def unlink (k : Links α) (p : α) : Links α :=
  let k := k.setPrev (k.next p) (k.prev p)
  k.setNext (k.prev p) (k.next p)

def insertTail (k : Links α) (l p : α) : Links α :=
  let k := k.setPrev p (k.prev l)
  let k := k.setNext p (k.next (k.prev l))
  let k := k.setNext (k.prev l) p
  k.setPrev l p

theorem unlink_next (k : Links α) (p : α) :
    (k.unlink p).next = Function.update k.next (k.prev p) (k.next p) := by
  by_cases h : p = k.next p
  · simp [unlink, setNext, setPrev, ← h]
  · simp [unlink, setNext, setPrev, Function.update_of_ne h]

theorem unlink_prev (k : Links α) (p : α) :
    (k.unlink p).prev = Function.update k.prev (k.next p) (k.prev p) := rfl

theorem unlink_frame (h : k.IsRing l (xs ++ p :: ys)) (ha : a ∉ l :: (xs ++ p :: ys)) :
    (k.unlink p).next a = k.next a ∧ (k.unlink p).prev a = k.prev a := by
  obtain ⟨hbefore, hbehind⟩ := path_append.mp h
  have hprev : a ≠ k.prev p := by
    rintro rfl
    have := hbefore.prev_mem
    grind
  have hnext : a ≠ k.next p := by
    rintro rfl
    rw [hbehind.next_eq] at ha
    cases ys <;> simp at ha
  rw [unlink_next, unlink_prev]
  exact ⟨Function.update_of_ne hprev _ _, Function.update_of_ne hnext _ _⟩

theorem IsRing.unlink (h : k.IsRing l (xs ++ p :: ys)) (hnodup : (l :: (xs ++ p :: ys)).Nodup) :
    (k.unlink p).IsRing l (xs ++ ys) := by
  obtain ⟨hbefore, hbehind⟩ := path_append.mp h
  have hprev := hbefore.prev_mem
  have hjoin : (k.unlink p).Path l xs (k.next p) := by
    refine hbefore.retarget (hnodup.sublist (by simp)) ?_ ?_ ?_
    · intro x _ hx
      rw [unlink_next, Function.update_of_ne hx]
    · intro x hx
      rw [unlink_prev, Function.update_of_ne]
      rintro rfl
      rw [hbehind.next_eq] at hx
      cases ys <;> grind
    · rw [unlink_next, unlink_prev, Function.update_self, Function.update_self]
      exact ⟨rfl, rfl⟩
  cases ys with
  | nil =>
    rw [hbehind.next_eq] at hjoin
    simpa [IsRing] using hjoin
  | cons y ys =>
    rw [hbehind.next_eq] at hjoin
    refine path_append.mpr ⟨hjoin, hbehind.2.congr ?_ ?_⟩
    · intro x hx
      rw [unlink_next, Function.update_of_ne]
      grind
    · intro x hx
      rw [unlink_prev, Function.update_of_ne]
      rw [hbehind.next_eq]
      grind

theorem insertTail_next (hp : p ≠ l) (hnext : k.next (k.prev l) = l) :
    (k.insertTail l p).next = Function.update (Function.update k.next p l) (k.prev l) p := by
  have hl : Function.update k.prev p (k.prev l) l = k.prev l := Function.update_of_ne hp.symm _ _
  simp [insertTail, setNext, setPrev, hl, hnext]

theorem insertTail_prev (k : Links α) (l p : α) :
    (k.insertTail l p).prev = Function.update (Function.update k.prev p (k.prev l)) l p := rfl

theorem insertTail_frame (h : k.IsRing l xs) (hp : p ∉ l :: xs) (ha : a ∉ l :: xs) (hap : a ≠ p) :
    (k.insertTail l p).next a = k.next a ∧ (k.insertTail l p).prev a = k.prev a := by
  have hl : p ≠ l := by grind
  have hal : a ≠ l := by grind
  have hprev : a ≠ k.prev l := fun he => ha (he ▸ Path.prev_mem h)
  rw [insertTail_next hl (Path.next_prev h), insertTail_prev, Function.update_of_ne hprev,
    Function.update_of_ne hap, Function.update_of_ne hal, Function.update_of_ne hap]
  exact ⟨rfl, rfl⟩

theorem IsRing.insertTail (h : k.IsRing l xs) (hnodup : (l :: xs).Nodup) (hp : p ∉ l :: xs) :
    (k.insertTail l p).IsRing l (xs ++ [p]) := by
  have hl : p ≠ l := by grind
  have htail : k.prev l ≠ p := fun he => hp (he ▸ Path.prev_mem h)
  have hnext := insertTail_next hl (Path.next_prev h)
  have hprev := insertTail_prev k l p
  refine path_append.mpr ⟨Path.retarget h hnodup ?_ ?_ ?_, ?_, ?_⟩
  · intro x hx hxl
    rw [hnext, Function.update_of_ne hxl, Function.update_of_ne]
    grind
  · intro x hx
    rw [hprev, Function.update_of_ne, Function.update_of_ne]
    · grind
    · grind
  · rw [hnext, hprev, Function.update_self, Function.update_of_ne hl, Function.update_self]
    exact ⟨rfl, rfl⟩
  · rw [hnext, Function.update_of_ne htail.symm, Function.update_self]
  · rw [hprev, Function.update_self]

end Operations

-- ---------------------------------------------------------------------------
-- Several lists on one set of links
-- ---------------------------------------------------------------------------

variable {ι : Type} {head : ι → α} {member : ι → List α} {i j : ι}

structure Rings (k : Links α) (head : ι → α) (member : ι → List α) : Prop where
  ring : ∀ i, k.IsRing (head i) (member i)
  nodup : ∀ i, (head i :: member i).Nodup
  disjoint : ∀ i j, i ≠ j → (head i :: member i).Disjoint (head j :: member j)

theorem Rings.next_mem (h : k.Rings head member) (hp : p ∈ member i) :
    k.next p ∈ head i :: member i := by
  obtain ⟨xs, ys, hi⟩ := List.append_of_mem hp
  have hring := h.ring i
  rw [hi] at hring ⊢
  rw [(path_append.mp hring).2.next_eq]
  cases ys <;> simp

theorem Rings.iterate_mem (h : k.Rings head member) (i : ι) (n : Nat) :
    k.next^[n] (head i) ∈ head i :: member i := by
  induction n with
  | zero => exact List.mem_cons_self
  | succ n ih =>
    rw [Function.iterate_succ_apply']
    rcases List.mem_cons.mp ih with hhead | hmem
    · rw [hhead, Path.next_eq (h.ring i)]
      cases member i <;> simp
    · exact h.next_mem hmem

theorem Path.exists_iterate (h : k.Path a xs b) (hp : p ∈ xs) : ∃ n, k.next^[n] a = p := by
  induction xs generalizing a with
  | nil => exact absurd hp List.not_mem_nil
  | cons x xs ih =>
    rcases List.mem_cons.mp hp with rfl | hp
    · exact ⟨1, h.1.1⟩
    · obtain ⟨n, hn⟩ := ih h.2 hp
      exact ⟨n + 1, by rw [Function.iterate_succ_apply, h.1.1, hn]⟩

variable [DecidableEq α]

theorem Rings.unlink (h : k.Rings head member) (hp : p ∈ member i) :
    (k.unlink p).Rings head (fun j => (member j).erase p) := by
  obtain ⟨xs, ys, hi⟩ := List.append_of_mem hp
  have hring := h.ring i
  have hnodup := h.nodup i
  rw [hi] at hring hnodup
  refine ⟨fun j => ?_, fun j => ?_, fun j j' hj => ?_⟩
  · by_cases hji : j = i
    · subst hji
      have hxs : p ∉ xs := by grind
      have herase : (member j).erase p = xs ++ ys := by
        rw [hi, List.erase_append_right _ hxs, List.erase_cons_head]
      rw [herase]
      exact hring.unlink hnodup
    · have hdisj := h.disjoint j i hji
      rw [List.erase_of_not_mem (fun hm => hdisj (List.mem_cons_of_mem _ hm)
        (List.mem_cons_of_mem _ hp))]
      rw [hi] at hdisj
      exact (h.ring j).congr (fun x hx => (unlink_frame hring (hdisj hx)).1)
        (fun x hx => (unlink_frame hring (hdisj hx)).2)
  · exact (h.nodup j).sublist (List.Sublist.cons_cons _ List.erase_sublist)
  · have hsub : ∀ m, head m :: (member m).erase p ⊆ head m :: member m :=
      fun m => (List.Sublist.cons_cons _ List.erase_sublist).subset
    exact fun x hx hx' => h.disjoint j j' hj (hsub j hx) (hsub j' hx')

variable [DecidableEq ι]

theorem Rings.insertTail (h : k.Rings head member) (hp : ∀ i, p ∉ head i :: member i) (j : ι) :
    (k.insertTail (head j) p).Rings head (Function.update member j (member j ++ [p])) := by
  refine ⟨fun m => ?_, fun m => ?_, fun m m' hm => ?_⟩
  · by_cases hmj : m = j
    · subst hmj
      rw [Function.update_self]
      exact (h.ring m).insertTail (h.nodup m) (hp m)
    · rw [Function.update_of_ne hmj]
      have hframe : ∀ x ∈ head m :: member m, _ := fun x hx =>
        insertTail_frame (h.ring j) (hp j) (h.disjoint m j hmj hx) (fun he => hp m (he ▸ hx))
      exact (h.ring m).congr (fun x hx => (hframe x hx).1) (fun x hx => (hframe x hx).2)
  · by_cases hmj : m = j
    · subst hmj
      have := h.nodup m
      have := hp m
      rw [Function.update_self]
      grind
    · rw [Function.update_of_ne hmj]
      exact h.nodup m
  · have hmem : ∀ n x, x ∈ head n :: Function.update member j (member j ++ [p]) n →
        x ∈ head n :: member n ∨ x = p ∧ n = j := by
      intro n x hx
      by_cases hnj : n = j
      · subst hnj
        rw [Function.update_self] at hx
        grind
      · rw [Function.update_of_ne hnj] at hx
        exact .inl hx
    intro x hx hx'
    rcases hmem m x hx with hold | ⟨hxp, hmj⟩
    · rcases hmem m' x hx' with hold' | ⟨hxp, -⟩
      · exact h.disjoint m m' hm hold hold'
      · exact hp m (hxp ▸ hold)
    · rcases hmem m' x hx' with hold' | ⟨-, hmj'⟩
      · exact hp m' (hxp ▸ hold')
      · exact hm (hmj.trans hmj'.symm)

def moveTail (k : Links α) (l p : α) : Links α := (k.unlink p).insertTail l p

def moveMember (member : ι → List α) (j : ι) (p : α) : ι → List α :=
  Function.update (fun i => (member i).erase p) j ((member j).erase p ++ [p])

theorem Rings.moveTail (h : k.Rings head member) (hp : p ∈ member i) (j : ι) :
    (k.moveTail (head j) p).Rings head (moveMember member j p) := by
  refine (h.unlink hp).insertTail (fun m => ?_) j
  have hnodup := h.nodup m
  by_cases hmi : m = i
  · subst hmi
    have : p ∉ (member m).erase p := hnodup.of_cons.not_mem_erase
    grind
  · have hm : p ∉ head m :: member m := h.disjoint i m (Ne.symm hmi) (List.mem_cons_of_mem _ hp)
    have := List.mem_of_mem_erase (a := p) (b := p) (l := member m)
    grind

theorem moveTail_prev (k : Links α) (l p : α) : (k.moveTail l p).prev l = p :=
  Function.update_self _ _ _

theorem mem_moveMember_of_ne {q : α} (hq : q ≠ p) (j m : ι) :
    q ∈ moveMember member j p m ↔ q ∈ member m := by
  by_cases hmj : m = j
  · subst hmj
    simp [moveMember, hq, List.mem_erase_of_ne hq]
  · simp [moveMember, Function.update_of_ne hmj, List.mem_erase_of_ne hq]

theorem Rings.mem_moveMember_self (h : k.Rings head member) (j m : ι) :
    p ∈ moveMember member j p m ↔ m = j := by
  by_cases hmj : m = j
  · subst hmj
    simp [moveMember]
  · have hnot : p ∉ (member m).erase p := (h.nodup m).of_cons.not_mem_erase
    simp [moveMember, hnot, hmj]

theorem exists_mem_moveMember {q : α} (hp : p ∈ member i) :
    (∃ m, q ∈ moveMember member j p m) ↔ ∃ m, q ∈ member m := by
  by_cases hq : q = p
  · subst hq
    refine iff_of_true ⟨j, ?_⟩ ⟨i, hp⟩
    rw [moveMember, Function.update_self]
    exact List.mem_append_right _ List.mem_cons_self
  · exact exists_congr fun m => mem_moveMember_of_ne hq j m

end Links

end BismarckPreloader
