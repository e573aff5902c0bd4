import Mathlib.Data.List.Basic
import Mathlib.Data.Nat.Basic
import Mathlib.Logic.Function.Basic

/-!
# Byte memories

A memory maps addresses to bytes. `Mem.copy` is a copy out of a separate
buffer, so source and destination never overlap. `Mem.slice` and `Mem.write` read
and write a region as a list of bytes. `Mem.moves` moves bytes one at a time within
the memory; `moves_spec` is the rule for overlapping regions: a byte has to be read
before its place is written.
-/

namespace BismarckPreloader

abbrev Mem := Nat → UInt8

namespace Mem

def copy (m : Mem) (dst : Nat) (src : Nat → UInt8) (len : Nat) : Mem :=
  fun a => if dst ≤ a ∧ a < dst + len then src (a - dst) else m a

theorem copy_inside (m : Mem) (src : Nat → UInt8) (hk : k < len) :
    m.copy dst src len (dst + k) = src k := by
  simp [copy, hk]

theorem copy_outside (m : Mem) (src : Nat → UInt8) (ha : a < dst ∨ dst + len ≤ a) :
    m.copy dst src len a = m a := by
  unfold copy
  rw [if_neg (by omega)]

theorem copy_other_slot (m : Mem) (src : Nat → UInt8) (hij : i ≠ j) (hk : k < len) :
    m.copy (base + len * i) src len (base + len * j + k) = m (base + len * j + k) := by
  apply copy_outside
  rcases Nat.lt_or_gt_of_ne hij with h | h
  · right
    have : len * (i + 1) ≤ len * j := Nat.mul_le_mul_left len h
    rw [Nat.mul_add] at this
    omega
  · left
    have : len * (j + 1) ≤ len * i := Nat.mul_le_mul_left len h
    rw [Nat.mul_add] at this
    omega

def slice (m : Mem) (a len : Nat) : List UInt8 := (List.range len).map fun k => m (a + k)

def write (m : Mem) (a : Nat) (bs : List UInt8) : Mem := m.copy a (bs.getD · 0) bs.length

@[simp] theorem length_slice (m : Mem) (a len : Nat) : (m.slice a len).length = len := by
  simp [slice]

theorem slice_write_self (m : Mem) (a : Nat) (bs : List UInt8) (h : bs.length = len) :
    (m.write a bs).slice a len = bs := by
  subst h
  apply List.ext_getElem (by simp)
  intro k hk hk'
  simp [slice, write, copy, hk']

theorem slice_write_apart (m : Mem) (bs : List UInt8)
    (h : a + len ≤ b ∨ b + bs.length ≤ a) : (m.write b bs).slice a len = m.slice a len := by
  apply List.map_congr_left
  intro k hk
  rw [List.mem_range] at hk
  exact copy_outside m _ (by omega)

theorem slice_getD (m : Mem) (a : Nat) (hk : k < len) : (m.slice a len).getD k 0 = m (a + k) := by
  simp [slice, hk]

def set (m : Mem) (a : Nat) (b : UInt8) : Mem := Function.update m a b

def moves (m : Mem) : List (Nat × Nat) → Mem
  | [] => m
  | p :: ps => (m.set p.1 (m p.2)).moves ps

theorem moves_frame (m : Mem) (ps : List (Nat × Nat)) (ha : ∀ p ∈ ps, a ≠ p.1) :
    m.moves ps a = m a := by
  induction ps generalizing m with
  | nil => rfl
  | cons p ps ih =>
    rw [moves, ih _ fun q hq => ha q (List.mem_cons_of_mem _ hq), set,
      Function.update_of_ne (ha p List.mem_cons_self)]

theorem moves_spec (m : Mem) {ps : List (Nat × Nat)}
    (h : ps.Pairwise fun p q => p.1 ≠ q.1 ∧ p.1 ≠ q.2) (hp : p ∈ ps) :
    m.moves ps p.1 = m p.2 := by
  induction ps generalizing m with
  | nil => exact absurd hp List.not_mem_nil
  | cons q ps ih =>
    obtain ⟨hq, hps⟩ := List.pairwise_cons.mp h
    rw [moves]
    rcases List.mem_cons.mp hp with rfl | hp
    · rw [moves_frame _ _ fun r hr => (hq r hr).1, set, Function.update_self]
    · rw [ih _ hps hp, set, Function.update_of_ne (hq p hp).2.symm]

end Mem

end BismarckPreloader
