import Mathlib.Data.List.Basic

/-!
# Files

A file is the list of its bytes. `pieces` is what a loop reads that takes `n` bytes at a
time, `pwrite` a write at an offset, and `pwritePages` a loop of such writes, one right
behind the other.
-/

namespace BismarckPreloader

def pieces (n : Nat) (l : List α) : List (List α) :=
  (List.range ((l.length + n - 1) / n)).map fun i => (l.drop (i * n)).take n

section Pieces

variable {l : List α} {n : Nat}

theorem length_pieces (n : Nat) (l : List α) :
    (pieces n l).length = (l.length + n - 1) / n := by
  rw [pieces, List.length_map, List.length_range]

theorem getElem?_pieces (h : i < (l.length + n - 1) / n) :
    (pieces n l)[i]? = some ((l.drop (i * n)).take n) := by
  rw [pieces, List.getElem?_map, List.getElem?_range h, Option.map_some]

theorem pieces_nil (hn : 0 < n) : pieces n ([] : List α) = [] := by
  apply List.eq_nil_of_length_eq_zero
  rw [length_pieces, List.length_nil]
  exact Nat.div_eq_of_lt (by omega)

theorem pieces_of_ne_nil (hn : 0 < n) (hl : l ≠ []) :
    pieces n l = l.take n :: pieces n (l.drop n) := by
  have hpos := List.length_pos_of_ne_nil hl
  have hcount : (l.length + n - 1) / n = ((l.drop n).length + n - 1) / n + 1 := by
    rw [List.length_drop, ← Nat.add_div_right _ hn]
    by_cases hle : n ≤ l.length
    · congr 1
      omega
    · have hone : ∀ m, n ≤ m → m < 2 * n → m / n = 1 := fun m h₁ h₂ =>
        Nat.div_eq_of_lt_le (by omega) h₂
      rw [hone _ (by omega) (by omega), hone _ (by omega) (by omega)]
  rw [pieces, hcount, List.range_succ_eq_map, List.map_cons, Nat.zero_mul, List.drop_zero,
    List.map_map, pieces]
  congr 1
  apply List.map_congr_left
  intro i _
  rw [Function.comp_apply, List.drop_drop, Nat.succ_mul, Nat.add_comm]

theorem pieces_induction {P : List α → Prop} (hn : 0 < n) (nil : P [])
    (step : ∀ l, l ≠ [] → P (l.drop n) → P l) (l : List α) : P l := by
  induction hk : l.length using Nat.strongRecOn generalizing l with
  | ind k ih =>
    by_cases hl : l = []
    · rw [hl]
      exact nil
    · have hpos := List.length_pos_of_ne_nil hl
      refine step l hl (ih (l.drop n).length ?_ (l.drop n) rfl)
      rw [List.length_drop]
      omega

theorem flatten_pieces (hn : 0 < n) (l : List α) : (pieces n l).flatten = l := by
  induction l using pieces_induction hn with
  | nil => rw [pieces_nil hn, List.flatten_nil]
  | step l hl ih => rw [pieces_of_ne_nil hn hl, List.flatten_cons, ih, List.take_append_drop]

theorem length_le_of_mem_pieces (h : p ∈ pieces n l) : p.length ≤ n := by
  obtain ⟨i, -, rfl⟩ := List.mem_map.mp h
  exact List.length_take_le n _

end Pieces

def pwrite (f : List UInt8) (off : Nat) (b : List UInt8) : List UInt8 :=
  if b = [] then f else (f.take off).rightpad off 0 ++ b ++ f.drop (off + b.length)

def pwritePages (size : Nat) : List UInt8 → Nat → List (List UInt8) → List UInt8
  | f, _, [] => f
  | f, off, b :: bs => pwritePages size (pwrite f off b) (off + size) bs

theorem length_rightpad_take (f : List UInt8) (off : Nat) :
    ((f.take off).rightpad off 0).length = off := by
  rw [List.length_rightpad, List.length_take]
  omega

theorem pwrite_pwrite (f : List UInt8) (off : Nat) (b c : List UInt8) :
    pwrite (pwrite f off b) (off + b.length) c = pwrite f off (b ++ c) := by
  by_cases hb : b = []
  · simp only [hb, pwrite, if_true, List.nil_append, List.length_nil, Nat.add_zero]
  by_cases hc : c = []
  · simp only [hc, pwrite, if_true, List.append_nil]
  have hbc : b ++ c ≠ [] := fun h => hb (List.append_eq_nil_iff.mp h).1
  have hhead : ((f.take off).rightpad off 0 ++ b).length = off + b.length := by
    rw [List.length_append, length_rightpad_take]
  rw [pwrite, if_neg hc, pwrite, if_neg hb, pwrite, if_neg hbc]
  have htake : (((f.take off).rightpad off 0 ++ b ++ f.drop (off + b.length)).take
      (off + b.length)).rightpad (off + b.length) 0 = (f.take off).rightpad off 0 ++ b := by
    rw [List.take_left' hhead, List.rightpad, hhead, Nat.sub_self, List.replicate_zero,
      List.append_nil]
  have hdrop : ((f.take off).rightpad off 0 ++ b ++ f.drop (off + b.length)).drop
      (off + b.length + c.length) = f.drop (off + (b ++ c).length) := by
    rw [← hhead, List.drop_append, List.drop_eq_nil_of_le (Nat.le_add_right _ _),
      List.nil_append, Nat.add_sub_cancel_left, List.drop_drop, hhead, List.length_append,
      Nat.add_assoc]
  rw [htake, hdrop, List.append_assoc (List.rightpad _ _ _)]

theorem pwritePages_eq (h : ∀ b ∈ bs, b.length = size) (f : List UInt8) (off : Nat) :
    pwritePages size f off bs = pwrite f off bs.flatten := by
  induction bs generalizing f off with
  | nil => simp [pwritePages, pwrite]
  | cons b bs ih =>
    have hb : b.length = size := h b List.mem_cons_self
    rw [pwritePages, ih fun c hc => h c (List.mem_cons_of_mem b hc), List.flatten_cons,
      ← pwrite_pwrite, hb]

theorem pwrite_zero (f b : List UInt8) : pwrite f 0 b = b ++ f.drop b.length := by
  by_cases hb : b = []
  · simp [pwrite, hb]
  · rw [pwrite, if_neg hb, Nat.zero_add]
    rfl

theorem pwrite_length (f b : List UInt8) : pwrite f f.length b = f ++ b := by
  by_cases hb : b = []
  · simp [pwrite, hb]
  · rw [pwrite, if_neg hb, List.take_length, List.drop_eq_nil_of_le (Nat.le_add_right _ _),
      List.append_nil, List.rightpad, Nat.sub_self, List.replicate_zero, List.append_nil]

end BismarckPreloader
