import Mathlib.Data.List.Basic
import BismarckPreloader.Lib.Loops

/-!
# Ranges in pieces

A loop that goes through a range takes a piece of it at a time. How long a piece is depends
on where it begins and on how much is left.
-/

namespace BismarckPreloader.Pieces

/-- The pieces of `left` places from `pos` on, with their lengths. Where there is no piece
the list ends. -/
def cut (piece : Nat → Nat → Nat) (pos left : Nat) : List (Nat × Nat) :=
  if _h : 0 < left ∧ 0 < piece pos left then
    (pos, piece pos left) :: cut piece (pos + piece pos left) (left - piece pos left)
  else []
termination_by left

variable {piece : Nat → Nat → Nat} {pos left : Nat}

theorem cut_cons (hl : 0 < left) (hp : 0 < piece pos left) :
    cut piece pos left =
      (pos, piece pos left) :: cut piece (pos + piece pos left) (left - piece pos left) := by
  rw [cut, dif_pos ⟨hl, hp⟩]

theorem cut_nil (h : ¬(0 < left ∧ 0 < piece pos left)) : cut piece pos left = [] := by
  rw [cut, dif_neg h]

def Proper (piece : Nat → Nat → Nat) : Prop :=
  ∀ pos left, 0 < left → 0 < piece pos left ∧ piece pos left ≤ left

theorem cut_bounds (hp : Proper piece) (h : q ∈ cut piece pos left) :
    pos ≤ q.1 ∧ 0 < q.2 ∧ q.1 + q.2 ≤ pos + left := by
  induction left using Nat.strongRecOn generalizing pos with
  | ind left ih =>
    by_cases hl : 0 < left
    · obtain ⟨hpos, hle⟩ := hp pos left hl
      rw [cut_cons hl hpos] at h
      rcases List.mem_cons.mp h with rfl | h
      · exact ⟨Nat.le_refl _, hpos, by dsimp only; omega⟩
      · have := ih _ (by omega) h
        omega
    · rw [cut_nil fun hb => hl hb.1] at h
      cases h

theorem exists_of_mem_cut (h : q ∈ cut piece pos left) : ∃ l, q.2 = piece q.1 l := by
  induction left using Nat.strongRecOn generalizing pos with
  | ind left ih =>
    by_cases hl : 0 < left ∧ 0 < piece pos left
    · rw [cut_cons hl.1 hl.2] at h
      rcases List.mem_cons.mp h with rfl | h
      · exact ⟨left, rfl⟩
      · exact ih _ (by omega) h
    · rw [cut_nil hl] at h
      cases h

theorem cut_disjoint (hp : Proper piece) (h : q ∈ cut piece pos left)
    (h' : q' ∈ cut piece pos left) : q = q' ∨ q.1 + q.2 ≤ q'.1 ∨ q'.1 + q'.2 ≤ q.1 := by
  induction left using Nat.strongRecOn generalizing pos with
  | ind left ih =>
    by_cases hl : 0 < left
    · obtain ⟨hpos, hle⟩ := hp pos left hl
      rw [cut_cons hl hpos] at h h'
      rcases List.mem_cons.mp h with rfl | h
      · rcases List.mem_cons.mp h' with rfl | h'
        · exact .inl rfl
        · exact .inr (.inl (cut_bounds hp h').1)
      · rcases List.mem_cons.mp h' with rfl | h'
        · exact .inr (.inr (cut_bounds hp h).1)
        · exact ih _ (by omega) h h'
    · rw [cut_nil fun hb => hl hb.1] at h
      cases h

theorem flatMap_cut (hp : Proper piece) (pos left : Nat) :
    (cut piece pos left).flatMap (fun q => List.range' q.1 q.2) = List.range' pos left := by
  induction left using Nat.strongRecOn generalizing pos with
  | ind left ih =>
    by_cases hl : 0 < left
    · obtain ⟨hpos, hle⟩ := hp pos left hl
      rw [cut_cons hl hpos, List.flatMap_cons, ih _ (by omega), List.range'_append_1]
      congr 1
      omega
    · rw [cut_nil fun hb => hl hb.1, Nat.eq_zero_of_not_pos hl]
      rfl

theorem getElem?_flatMap_cut (hp : Proper piece) {f : Nat × Nat → List α}
    (hf : ∀ q, (f q).length = q.2) (h : q ∈ cut piece pos left) (hi : i < q.2) :
    ((cut piece pos left).flatMap f)[q.1 - pos + i]? = (f q)[i]? := by
  induction left using Nat.strongRecOn generalizing pos with
  | ind left ih =>
    by_cases hl : 0 < left
    · obtain ⟨hpos, hle⟩ := hp pos left hl
      rw [cut_cons hl hpos] at h ⊢
      rw [List.flatMap_cons]
      rcases List.mem_cons.mp h with rfl | h
      · rw [Nat.sub_self, Nat.zero_add, List.getElem?_append_left (by rw [hf]; exact hi)]
      · have hb := cut_bounds hp h
        rw [List.getElem?_append_right (by rw [hf]; omega), hf, ← ih _ (by omega) h]
        congr 1
        dsimp only
        omega
    · rw [cut_nil fun hb => hl hb.1] at h
      cases h

/-- The rule for a loop that takes the pieces one after the other: `R pos left` holds of its
states before the piece at `pos`. -/
theorem leads_cut {step : σ → Outcome σ ρ η} {R : Nat → Nat → σ → Prop} (hp : Proper piece)
    (hstep : ∀ pos left s, R pos left s → 0 < left →
      ∃ s', step s = .next s' ∧ R (pos + piece pos left) (left - piece pos left) s')
    (h : R pos left s) : ∃ s', Loop.Leads step s (.next s') ∧ R (pos + left) 0 s' := by
  induction left using Nat.strongRecOn generalizing pos s with
  | ind left ih =>
    by_cases hl : 0 < left
    · obtain ⟨hpos, hle⟩ := hp pos left hl
      obtain ⟨t, hs, hr⟩ := hstep pos left s h hl
      obtain ⟨s', hlead, hr'⟩ := ih _ (by omega) hr
      rw [Nat.add_assoc, Nat.add_sub_cancel' hle] at hr'
      exact ⟨s', .head hs hlead, hr'⟩
    · obtain rfl := Nat.eq_zero_of_not_pos hl
      exact ⟨s, .refl s, h⟩

end BismarckPreloader.Pieces
