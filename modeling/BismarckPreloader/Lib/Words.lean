import Mathlib.Data.Nat.Digits.Lemmas
import Mathlib.Tactic.GCongr
import Mathlib.Tactic.Ring

/-!
# Words and bytes

A big-endian machine: the bytes of a word lie in memory with the most significant
one first. `bytesVal` is the number a block of bytes spells that way, `wordsVal` the
number a little-endian array of 32-bit words stands for.
-/

namespace BismarckPreloader

-- ---------------------------------------------------------------------------
-- The bytes of a word
-- ---------------------------------------------------------------------------

def packWord (a b c d : UInt8) : UInt32 :=
  UInt32.ofNat (a.toNat * 2 ^ 24 + b.toNat * 2 ^ 16 + c.toNat * 2 ^ 8 + d.toNat)

def packWords : List UInt8 → List UInt32
  | [] => []
  | [a] => [packWord a 0 0 0]
  | [a, b] => [packWord a b 0 0]
  | [a, b, c] => [packWord a b c 0]
  | a :: b :: c :: d :: bs => packWord a b c d :: packWords bs

def wordByte (w : UInt32) (k : Nat) : UInt8 := UInt8.ofNat (w.toNat / 256 ^ (3 - k))

theorem packWord_toNat (a b c d : UInt8) : (packWord a b c d).toNat =
    a.toNat * 2 ^ 24 + b.toNat * 2 ^ 16 + c.toNat * 2 ^ 8 + d.toNat := by
  have ha := a.toNat_lt
  have hb := b.toNat_lt
  have hc := c.toNat_lt
  have hd := d.toNat_lt
  rw [packWord, UInt32.toNat_ofNat', Nat.mod_eq_of_lt (by omega)]

theorem wordByte_packWord (a b c d : UInt8) :
    wordByte (packWord a b c d) 0 = a ∧ wordByte (packWord a b c d) 1 = b ∧
      wordByte (packWord a b c d) 2 = c ∧ wordByte (packWord a b c d) 3 = d := by
  have ha := a.toNat_lt
  have hb := b.toNat_lt
  have hc := c.toNat_lt
  have hd := d.toNat_lt
  simp only [wordByte, packWord_toNat]
  refine ⟨?_, ?_, ?_, ?_⟩ <;>
  · apply UInt8.toNat_inj.mp
    rw [UInt8.toNat_ofNat']
    simp only [Nat.reduceSub, Nat.reducePow]
    omega

theorem length_packWords (bs : List UInt8) : (packWords bs).length = (bs.length + 3) / 4 := by
  induction bs using packWords.induct with
  | case1 => rfl
  | case2 a => simp [packWords]
  | case3 a b => simp [packWords]
  | case4 a b c => simp [packWords]
  | case5 a b c d bs ih =>
    simp only [packWords, List.length_cons, ih]
    omega

def wordBytes (w : UInt32) : List UInt8 := [wordByte w 0, wordByte w 1, wordByte w 2, wordByte w 3]

theorem packWord_wordBytes (w : UInt32) :
    packWord (wordByte w 0) (wordByte w 1) (wordByte w 2) (wordByte w 3) = w := by
  have hw := w.toNat_lt
  apply UInt32.toNat_inj.mp
  simp only [packWord_toNat, wordByte, UInt8.toNat_ofNat', Nat.reduceSub, Nat.reducePow]
  omega

theorem flatMap_wordBytes_packWords (h : 4 ∣ bs.length) :
    (packWords bs).flatMap wordBytes = bs := by
  induction bs using packWords.induct with
  | case1 => rfl
  | case2 a => simp at h
  | case3 a b => simp at h
  | case4 a b c => simp at h
  | case5 a b c d bs ih =>
    obtain ⟨ha, hb, hc, hd⟩ := wordByte_packWord a b c d
    have hbs : 4 ∣ bs.length := by
      simp only [List.length_cons] at h
      omega
    rw [packWords, List.flatMap_cons, ih hbs, wordBytes, ha, hb, hc, hd]
    rfl

theorem toNat_offset {p : UInt32} {i : Nat} (h : p.toNat + i < 2 ^ 32) :
    (p + UInt32.ofNat i).toNat = p.toNat + i := by
  rw [UInt32.toNat_add, UInt32.toNat_ofNat']
  omega

theorem offset_inj {p : UInt32} {i j : Nat} (hi : i < 2 ^ 32) (hj : j < 2 ^ 32)
    (h : (p + UInt32.ofNat i).toNat = (p + UInt32.ofNat j).toNat) : i = j := by
  have hadd := (UInt32.add_right_inj p).mp (UInt32.toNat_inj.mp h)
  rw [← UInt32.toNat_inj, UInt32.toNat_ofNat', UInt32.toNat_ofNat'] at hadd
  omega

-- ---------------------------------------------------------------------------
-- Numbers
-- ---------------------------------------------------------------------------

def bytesVal : List UInt8 → Nat
  | [] => 0
  | b :: bs => b.toNat * 256 ^ bs.length + bytesVal bs

def wordsVal (ws : List UInt32) : Nat := Nat.ofDigits (2 ^ 32) (ws.map UInt32.toNat)

@[simp] theorem wordsVal_nil : wordsVal [] = 0 := rfl

@[simp] theorem wordsVal_cons (w : UInt32) (ws : List UInt32) :
    wordsVal (w :: ws) = w.toNat + 2 ^ 32 * wordsVal ws := by
  simp [wordsVal, Nat.ofDigits_cons]

theorem wordsVal_append (xs ys : List UInt32) :
    wordsVal (xs ++ ys) = wordsVal xs + (2 ^ 32) ^ xs.length * wordsVal ys := by
  simp [wordsVal, Nat.ofDigits_append]

theorem wordsVal_zeros (n : Nat) : wordsVal (List.replicate n 0) = 0 := by
  induction n with
  | zero => rfl
  | succ n ih => simp [List.replicate_succ, ih]

theorem wordsVal_lt (ws : List UInt32) : wordsVal ws < (2 ^ 32) ^ ws.length := by
  have h : ∀ d ∈ ws.map UInt32.toNat, d < 2 ^ 32 := by
    intro d hd
    obtain ⟨w, -, rfl⟩ := List.mem_map.mp hd
    exact w.toNat_lt
  simpa [wordsVal] using Nat.ofDigits_lt_base_pow_length (by decide) h

theorem lt_of_high_lt {lo B x y : Nat} (hlo : lo < B) (hxy : x < y) (lo' : Nat) :
    lo + B * x < lo' + B * y := by
  have h : B * (x + 1) ≤ B * y := Nat.mul_le_mul_left B hxy
  rw [Nat.mul_add] at h
  omega

theorem emod_mul_split {W : Int} (hW : 0 < W) {P : Int} (hP : 0 < P) (t y : Int) :
    (t + W * y) % (W * P) = t % W + W * ((t / W + y) % P) := by
  have hsplit : t + W * y = t % W + W * ((t / W + y) % P) + W * P * ((t / W + y) / P) := by
    calc t + W * y = t % W + W * (t / W) + W * y := by rw [Int.emod_add_mul_ediv]
      _ = t % W + W * (t / W + y) := by ring
      _ = t % W + W * ((t / W + y) % P + P * ((t / W + y) / P)) := by rw [Int.emod_add_mul_ediv]
      _ = _ := by ring
  have hlow := Int.emod_lt_of_pos t hW
  have hlow0 := Int.emod_nonneg t hW.ne'
  have hhigh := Int.emod_lt_of_pos (t / W + y) hP
  have hhigh0 := Int.emod_nonneg (t / W + y) hP.ne'
  rw [hsplit, Int.add_mul_emod_self_left]
  refine Int.emod_eq_of_lt ?_ ?_
  · exact add_nonneg hlow0 (mul_nonneg hW.le hhigh0)
  · calc t % W + W * ((t / W + y) % P) < W + W * ((t / W + y) % P) := by gcongr
      _ = W * ((t / W + y) % P + 1) := by ring
      _ ≤ W * P := by gcongr; omega

theorem bytesVal_wordBytes (ws : List UInt32) :
    bytesVal (ws.flatMap wordBytes) = wordsVal ws.reverse := by
  induction ws with
  | nil => rfl
  | cons w ws ih =>
    have hlen : (ws.flatMap wordBytes).length = 4 * ws.length := by
      simp [wordBytes, Nat.mul_comm]
    have hw := congrArg UInt32.toNat (packWord_wordBytes w)
    rw [packWord_toNat] at hw
    have hpow : (256 : Nat) ^ (4 * ws.length) = (2 ^ 32) ^ ws.length := by
      rw [Nat.pow_mul]
      rfl
    simp only [List.flatMap_cons, wordBytes, List.cons_append, List.nil_append, bytesVal,
      List.length_cons, ih, hlen, List.reverse_cons, wordsVal_append, List.length_reverse,
      wordsVal_cons, wordsVal_nil, Nat.pow_succ, hpow]
    rw [← hw]
    ring

theorem bytesVal_lt (bs : List UInt8) : bytesVal bs < 256 ^ bs.length := by
  induction bs with
  | nil => simp [bytesVal]
  | cons b bs ih =>
    have hb : (b.toNat + 1) * 256 ^ bs.length ≤ 256 * 256 ^ bs.length :=
      Nat.mul_le_mul_right _ b.toNat_lt
    rw [bytesVal, List.length_cons, Nat.pow_succ']
    rw [Nat.add_mul, Nat.one_mul] at hb
    omega

theorem bytesVal_inj {as bs : List UInt8} (hlen : as.length = bs.length)
    (h : bytesVal as = bytesVal bs) : as = bs := by
  induction as generalizing bs with
  | nil => exact (List.eq_nil_of_length_eq_zero hlen.symm).symm
  | cons a as ih =>
    obtain ⟨b, bs, rfl⟩ := List.exists_cons_of_length_eq_add_one hlen.symm
    have hl : as.length = bs.length := Nat.succ.inj hlen
    have ha := bytesVal_lt as
    have hb := bytesVal_lt bs
    simp only [bytesVal, hl] at h
    rw [hl] at ha
    have hhead : a.toNat = b.toNat := by
      have hdiv := congrArg (· / 256 ^ bs.length) h
      simpa only [Nat.mul_comm _ (256 ^ bs.length), Nat.mul_add_div (Nat.pow_pos (by decide : 0 < 256)),
        Nat.div_eq_of_lt ha, Nat.div_eq_of_lt hb, Nat.add_zero] using hdiv
    rw [hhead] at h
    rw [UInt8.toNat_inj.mp hhead, ih hl (Nat.add_left_cancel h)]

end BismarckPreloader
