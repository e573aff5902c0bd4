import Mathlib.Data.Nat.ModEq
import Mathlib.Tactic.Ring
import Mathlib.Tactic.Linarith

/-!
# Montgomery arithmetic

Division by the radix modulo `n` without a division. A word `d` that clears the low
word of `t + d * n` is found from `n'`, with `n * n' = -1` modulo the radix; the
rest is `t` divided by the radix, modulo `n`. A product formed word by word that way
is the product divided by `R`, so numbers are kept in the form `v * R`.
-/

namespace BismarckPreloader.Montgomery

theorem dvd_reduce {W n n' : Nat} (hinv : W ∣ n * n' + 1) (t : Nat) :
    W ∣ t + t * n' % W * n := by
  have hmod : t * n' % W * n ≡ t * n' * n [MOD W] := (Nat.mod_modEq _ _).mul_right n
  have hsum : t + t * n' % W * n ≡ t * (n * n' + 1) [MOD W] := by
    calc t + t * n' % W * n ≡ t + t * n' * n [MOD W] := hmod.add_left t
      _ = t * (n * n' + 1) := by ring
  exact (Nat.modEq_zero_iff_dvd.mp (hsum.trans
    (Nat.modEq_zero_iff_dvd.mpr (hinv.mul_left t))))

theorem reduce_lt {W R n a b r d q : Nat} (hr : r < R) (ha : a < W) (hb : b < R) (hd : d < W)
    (hq : W * q = r + a * b + d * n) : q < R + n := by
  have hab : a * b ≤ (W - 1) * (R - 1) := Nat.mul_le_mul (by omega) (by omega)
  have hdn : d * n ≤ (W - 1) * n := Nat.mul_le_mul_right n (by omega)
  have hW : (W - 1) * (R - 1) + (R - 1) = W * (R - 1) := by
    obtain ⟨w, rfl⟩ : ∃ w, W = w + 1 := ⟨W - 1, by omega⟩
    simp only [Nat.add_sub_cancel]
    ring
  have hn : (W - 1) * n ≤ W * n := Nat.mul_le_mul_right n (by omega)
  have hlt : W * q < W * (R + n) := by
    have hR : W * (R - 1) < W * R := Nat.mul_lt_mul_of_pos_left (by omega) (by omega)
    rw [hq, Nat.mul_add]
    omega
  exact Nat.lt_of_mul_lt_mul_left hlt

/-- Words of `a` from the lowest on: each step adds the word's part of the product
and divides by the radix. -/
theorem modEq_accumulate {W n r r' a lo b k : Nat} (hr : r * W ^ k ≡ lo * b [MOD n])
    (hr' : r' * W ≡ r + a * b [MOD n]) :
    r' * W ^ (k + 1) ≡ (lo + W ^ k * a) * b [MOD n] := by
  calc r' * W ^ (k + 1) = r' * W * W ^ k := by ring
    _ ≡ (r + a * b) * W ^ k [MOD n] := hr'.mul_right _
    _ = r * W ^ k + W ^ k * a * b := by ring
    _ ≡ lo * b + W ^ k * a * b [MOD n] := hr.add_right _
    _ = (lo + W ^ k * a) * b := by ring

def Form (R n x v : Nat) : Prop := x ≡ v * R [MOD n]

section

variable {R n r x y u v rr : Nat}

theorem form_of_square (hco : Nat.Coprime n R) (hrr : rr ≡ R * R [MOD n])
    (hr : r * R ≡ v * rr [MOD n]) : Form R n r v := by
  refine Nat.ModEq.cancel_right_of_coprime (c := R) hco ?_
  calc r * R ≡ v * rr [MOD n] := hr
    _ ≡ v * (R * R) [MOD n] := hrr.mul_left v
    _ = v * R * R := by ring

theorem Form.mul (hx : Form R n x u) (hy : Form R n y v) (hco : Nat.Coprime n R)
    (hr : r * R ≡ x * y [MOD n]) : Form R n r (u * v) := by
  refine Nat.ModEq.cancel_right_of_coprime (c := R) hco ?_
  calc r * R ≡ x * y [MOD n] := hr
    _ ≡ u * R * (v * R) [MOD n] := Nat.ModEq.mul hx hy
    _ = u * v * R * R := by ring

theorem Form.mul_plain (hx : Form R n x u) (hco : Nat.Coprime n R)
    (hr : r * R ≡ x * v [MOD n]) : r ≡ u * v [MOD n] := by
  refine Nat.ModEq.cancel_right_of_coprime (c := R) hco ?_
  calc r * R ≡ x * v [MOD n] := hr
    _ ≡ u * R * v [MOD n] := Nat.ModEq.mul_right v hx
    _ = u * v * R := by ring

end

theorem pow_modEq_of_period {b n p : Nat} (h : b ^ p ≡ 1 [MOD n]) (e : Nat) :
    b ^ e ≡ b ^ (e % p) [MOD n] := by
  calc b ^ e = (b ^ p) ^ (e / p) * b ^ (e % p) := by
        rw [← Nat.pow_mul, ← Nat.pow_add, Nat.div_add_mod]
    _ ≡ 1 ^ (e / p) * b ^ (e % p) [MOD n] := (h.pow _).mul_right _
    _ = b ^ (e % p) := by rw [Nat.one_pow, Nat.one_mul]

end BismarckPreloader.Montgomery
