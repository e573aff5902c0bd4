import BismarckPreloader.Lib.Montgomery
import BismarckPreloader.Lib.Words

/-!
# Multi-word arithmetic modulo the RSA modulus

Numbers are arrays of `len` words, least significant word first. `montgomery_mul`
builds a product with one pass per word of the first factor; each pass adds a
multiple of the second factor and of the modulus and drops the low word. The
subtraction at the end of a pass keeps the result in `len` words, not below the
modulus.
-/

namespace BismarckPreloader.Secure

structure RsaPublicKey where
  len : Nat
  n0inv : UInt32
  modulus : List UInt32
  rr : List UInt32
  exponent : UInt64
  modulus_length : modulus.length = len
  rr_length : rr.length = len
  len_pos : 0 < len

namespace RsaPublicKey

def n (key : RsaPublicKey) : Nat := wordsVal key.modulus

def R (key : RsaPublicKey) : Nat := (2 ^ 32) ^ key.len

end RsaPublicKey

/-- The loop of `subtract_modulus`. The signed accumulator stays within 34 bits, so
its 64-bit arithmetic is exact; the shift rounds down. -/
def subtractLoop : Int → List UInt32 → List UInt32 → List UInt32
  | acc, num :: nums, m :: ms =>
    let acc := acc + num.toNat - m.toNat
    UInt32.ofNat (acc % 2 ^ 32).toNat :: subtractLoop (acc / 2 ^ 32) nums ms
  | _, nums, _ => nums

def subtractModulus (key : RsaPublicKey) (num : List UInt32) : List UInt32 :=
  subtractLoop 0 num key.modulus

/-- The loop of `greater_equal_modulus`, from the most significant word down. -/
def greaterEqualLoop : List UInt32 → List UInt32 → Bool
  | num :: nums, m :: ms =>
    if num < m then false else if num > m then true else greaterEqualLoop nums ms
  | _, _ => true

def greaterEqualModulus (key : RsaPublicKey) (num : List UInt32) : Bool :=
  greaterEqualLoop num.reverse key.modulus.reverse

/-- The two accumulators of `montgomery_mul_add_step`. -/
structure Accs where
  a : UInt64
  b : UInt64
  deriving DecidableEq, Repr

/-- The loop of `montgomery_mul_add_step` over the words from index 1 on: the words
it writes, each one place down, and the accumulators it leaves. -/
def mulAddLoop (a d0 : UInt32) : Accs → List UInt32 → List UInt32 → List UInt32 → List UInt32 × Accs
  | acc, r :: rs, b :: bs, m :: ms =>
    let accA := (acc.a >>> 32) + a.toUInt64 * b.toUInt64 + r.toUInt64
    let accB := (acc.b >>> 32) + d0.toUInt64 * m.toUInt64 + accA.toUInt32.toUInt64
    let rest := mulAddLoop a d0 ⟨accA, accB⟩ rs bs ms
    (accB.toUInt32 :: rest.1, rest.2)
  | acc, _, _, _ => ([], acc)

def montgomeryMulAddStep (key : RsaPublicKey) (result : List UInt32) (a : UInt32)
    (b : List UInt32) : List UInt32 :=
  match result, b, key.modulus with
  | r0 :: rs, b0 :: bs, m0 :: ms =>
    let accA := a.toUInt64 * b0.toUInt64 + r0.toUInt64
    let d0 := accA.toUInt32 * key.n0inv
    let accB := d0.toUInt64 * m0.toUInt64 + accA.toUInt32.toUInt64
    let words := mulAddLoop a d0 ⟨accA, accB⟩ rs bs ms
    let accA := (words.2.a >>> 32) + (words.2.b >>> 32)
    let result := words.1 ++ [accA.toUInt32]
    if accA >>> 32 ≠ 0 then subtractModulus key result else result
  | _, _, _ => result

def montgomeryMul (key : RsaPublicKey) (a b : List UInt32) : List UInt32 :=
  a.foldl (fun result ai => montgomeryMulAddStep key result ai b) (List.replicate key.len 0)

-- ---------------------------------------------------------------------------
-- Subtraction and comparison
-- ---------------------------------------------------------------------------

theorem length_subtractLoop (acc : Int) (nums ms : List UInt32) :
    (subtractLoop acc nums ms).length = nums.length := by
  induction nums generalizing acc ms with
  | nil => simp [subtractLoop]
  | cons num nums ih =>
    cases ms with
    | nil => simp [subtractLoop]
    | cons m ms => simp [subtractLoop, ih]

theorem subtractLoop_val (acc : Int) (h : nums.length = ms.length) :
    (wordsVal (subtractLoop acc nums ms) : Int) =
      (acc + wordsVal nums - wordsVal ms) % (2 ^ 32) ^ nums.length := by
  induction nums generalizing acc ms with
  | nil =>
    obtain rfl := List.length_eq_zero_iff.mp h.symm
    simp only [subtractLoop, wordsVal_nil, List.length_nil, pow_zero, Int.emod_one, Nat.cast_zero]
  | cons num nums ih =>
    obtain ⟨m, ms, rfl⟩ := List.exists_cons_of_length_eq_add_one h.symm
    have hih := ih ((acc + num.toNat - m.toNat) / 2 ^ 32) (by simpa using h)
    have hdigit : ((UInt32.ofNat ((acc + num.toNat - m.toNat) % 2 ^ 32).toNat).toNat : Int) =
        (acc + num.toNat - m.toNat) % 2 ^ 32 := by
      rw [UInt32.toNat_ofNat']
      omega
    simp only [subtractLoop, wordsVal_cons, Nat.cast_add, Nat.cast_mul, hdigit, hih,
      List.length_cons]
    have hsplit := emod_mul_split (W := 2 ^ 32) (by decide) (P := (2 ^ 32) ^ nums.length)
      (by positivity) (acc + num.toNat - m.toNat) (wordsVal nums - wordsVal ms)
    rw [← add_sub_assoc] at hsplit
    rw [pow_succ' (2 ^ 32 : Int) nums.length, Nat.cast_pow, Nat.cast_ofNat, ← hsplit]
    congr 1
    ring

theorem greaterEqualLoop_iff (h : nums.length = ms.length) :
    greaterEqualLoop nums ms = true ↔ wordsVal ms.reverse ≤ wordsVal nums.reverse := by
  induction nums generalizing ms with
  | nil =>
    obtain rfl := List.length_eq_zero_iff.mp h.symm
    simp [greaterEqualLoop]
  | cons num nums ih =>
    obtain ⟨m, ms, rfl⟩ := List.exists_cons_of_length_eq_add_one h.symm
    have hlen : nums.length = ms.length := by simpa using h
    have hnums := wordsVal_lt nums.reverse
    have hms := wordsVal_lt ms.reverse
    simp only [greaterEqualLoop, List.reverse_cons, wordsVal_append, wordsVal_cons, wordsVal_nil,
      List.length_reverse, Nat.mul_zero, Nat.add_zero, hlen] at hnums hms ⊢
    split
    next hlt =>
      have := lt_of_high_lt hnums (UInt32.lt_iff_toNat_lt.mp hlt) (wordsVal ms.reverse)
      simp only [Bool.false_eq_true, false_iff]
      omega
    next hge =>
      split
      next hgt =>
        have := lt_of_high_lt hms (UInt32.lt_iff_toNat_lt.mp hgt) (wordsVal nums.reverse)
        simp only [true_iff]
        omega
      next hle =>
        have heq : num = m := by
          rw [← UInt32.toNat_inj]
          rw [gt_iff_lt, UInt32.lt_iff_toNat_lt] at hle
          rw [UInt32.lt_iff_toNat_lt] at hge
          omega
        rw [ih hlen, heq]
        omega

theorem length_subtractModulus (key : RsaPublicKey) (num : List UInt32) :
    (subtractModulus key num).length = num.length := length_subtractLoop 0 num key.modulus

/-- Subtracting the modulus from a number with a carry word in front of it, where
the difference fits. -/
theorem subtractModulus_val {key : RsaPublicKey} (carry : Nat) (hlen : num.length = key.len)
    (hle : key.n ≤ wordsVal num + key.R * carry)
    (hlt : wordsVal num + key.R * carry < key.n + key.R) :
    wordsVal (subtractModulus key num) + key.n = wordsVal num + key.R * carry := by
  have h := subtractLoop_val 0 (hlen.trans key.modulus_length.symm)
  have hmod : (0 + wordsVal num - wordsVal key.modulus : Int) % (2 ^ 32) ^ num.length =
      wordsVal num + key.R * carry - key.n := by
    rw [hlen, zero_add, ← Int.add_mul_emod_self_left _ _ (carry : Int)]
    rw [Int.emod_eq_of_lt]
    · simp only [RsaPublicKey.R, RsaPublicKey.n]
      push_cast
      ring
    · simp only [RsaPublicKey.R, RsaPublicKey.n] at hle
      zify at hle
      linarith
    · simp only [RsaPublicKey.R, RsaPublicKey.n] at hlt
      zify at hlt
      linarith
  have : (wordsVal (subtractModulus key num) : Int) = wordsVal num + key.R * carry - key.n :=
    h.trans hmod
  zify
  linarith

-- ---------------------------------------------------------------------------
-- One pass of the product
-- ---------------------------------------------------------------------------

theorem toNat_low (x : UInt64) : x.toUInt32.toNat = x.toNat % 2 ^ 32 := UInt64.toNat_toUInt32 x

theorem toNat_high (x : UInt64) : (x >>> 32).toNat = x.toNat / 2 ^ 32 := by
  rw [UInt64.toNat_shiftRight]
  simp [Nat.shiftRight_eq_div_pow]

theorem toNat_mulAdd (carry : UInt64) (a b r : UInt32) (hc : carry.toNat < 2 ^ 32) :
    (carry + a.toUInt64 * b.toUInt64 + r.toUInt64).toNat =
      carry.toNat + a.toNat * b.toNat + r.toNat := by
  have ha := a.toNat_lt
  have hb := b.toNat_lt
  have hr := r.toNat_lt
  have hab : a.toNat * b.toNat ≤ (2 ^ 32 - 1) * (2 ^ 32 - 1) :=
    Nat.mul_le_mul (by omega) (by omega)
  simp only [UInt64.toNat_add, UInt64.toNat_mul, UInt32.toNat_toUInt64]
  rw [Nat.mod_eq_of_lt (a := a.toNat * b.toNat) (by omega), Nat.mod_eq_of_lt (by omega),
    Nat.mod_eq_of_lt (by omega)]

def Accs.carry (acc : Accs) : Nat := acc.a.toNat / 2 ^ 32 + acc.b.toNat / 2 ^ 32

theorem mulAddLoop_val (a d0 : UInt32) (acc : Accs) (hb : bs.length = rs.length)
    (hm : ms.length = rs.length) :
    (mulAddLoop a d0 acc rs bs ms).1.length = rs.length ∧
      wordsVal (mulAddLoop a d0 acc rs bs ms).1 +
          (2 ^ 32) ^ rs.length * (mulAddLoop a d0 acc rs bs ms).2.carry =
        acc.carry + wordsVal rs + a.toNat * wordsVal bs + d0.toNat * wordsVal ms := by
  induction rs generalizing acc bs ms with
  | nil =>
    obtain rfl := List.length_eq_zero_iff.mp hb
    obtain rfl := List.length_eq_zero_iff.mp hm
    simp [mulAddLoop]
  | cons r rs ih =>
    obtain ⟨b, bs, rfl⟩ := List.exists_cons_of_length_eq_add_one hb
    obtain ⟨m, ms, rfl⟩ := List.exists_cons_of_length_eq_add_one hm
    have hA := toNat_mulAdd (acc.a >>> 32) a b r (by rw [toNat_high]; have := acc.a.toNat_lt; omega)
    rw [toNat_high] at hA
    rw [mulAddLoop]
    generalize (acc.a >>> 32) + a.toUInt64 * b.toUInt64 + r.toUInt64 = accA at hA ⊢
    have hB := toNat_mulAdd (acc.b >>> 32) d0 m accA.toUInt32
      (by rw [toNat_high]; have := acc.b.toNat_lt; omega)
    rw [toNat_high, toNat_low] at hB
    generalize (acc.b >>> 32) + d0.toUInt64 * m.toUInt64 + accA.toUInt32.toUInt64 = accB at hB ⊢
    obtain ⟨hlen, hval⟩ := ih ⟨accA, accB⟩ (by simpa using hb) (by simpa using hm)
    refine ⟨by simp [hlen], ?_⟩
    -- the low parts cancel: what A passes on to B it no longer carries
    have hcarry : accB.toNat % 2 ^ 32 + 2 ^ 32 * Accs.carry ⟨accA, accB⟩ =
        acc.carry + r.toNat + a.toNat * b.toNat + d0.toNat * m.toNat := by
      have := Nat.mod_add_div accA.toNat (2 ^ 32)
      have := Nat.mod_add_div accB.toNat (2 ^ 32)
      simp only [Accs.carry]
      omega
    simp only [wordsVal_cons, List.length_cons, toNat_low, Nat.pow_succ]
    calc accB.toNat % 2 ^ 32 + 2 ^ 32 * wordsVal (mulAddLoop a d0 ⟨accA, accB⟩ rs bs ms).1 +
          (2 ^ 32) ^ rs.length * 2 ^ 32 * (mulAddLoop a d0 ⟨accA, accB⟩ rs bs ms).2.carry
        = accB.toNat % 2 ^ 32 + 2 ^ 32 * (wordsVal (mulAddLoop a d0 ⟨accA, accB⟩ rs bs ms).1 +
            (2 ^ 32) ^ rs.length * (mulAddLoop a d0 ⟨accA, accB⟩ rs bs ms).2.carry) := by ring
      _ = accB.toNat % 2 ^ 32 + 2 ^ 32 * Accs.carry ⟨accA, accB⟩ +
            2 ^ 32 * (wordsVal rs + a.toNat * wordsVal bs + d0.toNat * wordsVal ms) := by
          rw [hval]
          ring
      _ = _ := by
          rw [hcarry]
          ring

theorem RsaPublicKey.n_lt (key : RsaPublicKey) : key.n < key.R := by
  have h := wordsVal_lt key.modulus
  rwa [key.modulus_length] at h

theorem dvd_low {n0inv : UInt32} (h : 2 ^ 32 ∣ wordsVal (m :: ms) * n0inv.toNat + 1) :
    2 ^ 32 ∣ m.toNat * n0inv.toNat + 1 := by
  have hsum : wordsVal (m :: ms) * n0inv.toNat + 1 =
      m.toNat * n0inv.toNat + 1 + 2 ^ 32 * (wordsVal ms * n0inv.toNat) := by
    rw [wordsVal_cons]
    ring
  rw [hsum] at h
  exact (Nat.dvd_add_left (Nat.dvd_mul_right _ _)).mp h

theorem carry_first {n0inv : UInt32} (a b r m : UInt32) (hinv : 2 ^ 32 ∣ m.toNat * n0inv.toNat + 1)
    (hA : accA = a.toUInt64 * b.toUInt64 + r.toUInt64) (hd : d0 = accA.toUInt32 * n0inv)
    (hB : accB = d0.toUInt64 * m.toUInt64 + accA.toUInt32.toUInt64) :
    2 ^ 32 * Accs.carry ⟨accA, accB⟩ = r.toNat + a.toNat * b.toNat + d0.toNat * m.toNat := by
  have hA' : accA.toNat = a.toNat * b.toNat + r.toNat := by
    have := toNat_mulAdd 0 a b r (by decide)
    simpa [hA] using this
  have hB' : accB.toNat = d0.toNat * m.toNat + accA.toNat % 2 ^ 32 := by
    have := toNat_mulAdd 0 d0 m accA.toUInt32 (by decide)
    simpa [hB] using this
  have hd' : d0.toNat = accA.toNat % 2 ^ 32 * n0inv.toNat % 2 ^ 32 := by
    rw [hd, UInt32.toNat_mul, toNat_low]
  have hdvd := Montgomery.dvd_reduce hinv (accA.toNat % 2 ^ 32)
  rw [← hd'] at hdvd
  simp only [Accs.carry]
  omega

/-- One pass before its subtraction: the words, with a carry in front of them, times
the radix are `result + a * b` and a multiple of `n`. -/
theorem montgomeryMulAddStep_eq {key : RsaPublicKey}
    (hinv : 2 ^ 32 ∣ key.n * key.n0inv.toNat + 1) (hr : result.length = key.len)
    (hb : b.length = key.len) (a : UInt32) :
    ∃ (ws : List UInt32) (top : UInt64) (d : UInt32), ws.length = key.len ∧
      montgomeryMulAddStep key result a b =
        (if top >>> 32 ≠ 0 then subtractModulus key ws else ws) ∧
      2 ^ 32 * (wordsVal ws + key.R * (top.toNat / 2 ^ 32)) =
        wordsVal result + a.toNat * wordsVal b + d.toNat * key.n := by
  obtain ⟨k, hk⟩ : ∃ k, key.len = k + 1 := ⟨key.len - 1, by have := key.len_pos; omega⟩
  obtain ⟨r0, rs, rfl⟩ := List.exists_cons_of_length_eq_add_one (hr.trans hk)
  obtain ⟨b0, bs, rfl⟩ := List.exists_cons_of_length_eq_add_one (hb.trans hk)
  obtain ⟨m0, ms, hm⟩ := List.exists_cons_of_length_eq_add_one (key.modulus_length.trans hk)
  have hrs : rs.length = k := by simpa [hk] using hr
  have hbs : bs.length = rs.length := by simpa using hb.trans hr.symm
  have hms : ms.length = rs.length := by simpa [hm] using key.modulus_length.trans hr.symm
  simp only [montgomeryMulAddStep, hm]
  rw [RsaPublicKey.n, hm] at hinv ⊢
  have hfirst := carry_first a b0 r0 m0 (dvd_low hinv) rfl rfl rfl
  generalize a.toUInt64 * b0.toUInt64 + r0.toUInt64 = accA at hfirst ⊢
  generalize accA.toUInt32 * key.n0inv = d0 at hfirst ⊢
  generalize d0.toUInt64 * m0.toUInt64 + accA.toUInt32.toUInt64 = accB at hfirst ⊢
  obtain ⟨hlen, hval⟩ := mulAddLoop_val a d0 ⟨accA, accB⟩ hbs hms
  generalize mulAddLoop a d0 ⟨accA, accB⟩ rs bs ms = words at hlen hval ⊢
  have htop : ((words.2.a >>> 32) + (words.2.b >>> 32)).toNat = words.2.carry := by
    have ha := words.2.a.toNat_lt
    have hb := words.2.b.toNat_lt
    rw [UInt64.toNat_add, toNat_high, toNat_high, Accs.carry]
    omega
  generalize (words.2.a >>> 32) + (words.2.b >>> 32) = top at htop ⊢
  refine ⟨words.1 ++ [top.toUInt32], top, d0, by simp [hlen, hrs, hk], rfl, ?_⟩
  have hsum : wordsVal (words.1 ++ [top.toUInt32]) + key.R * (top.toNat / 2 ^ 32) =
      wordsVal words.1 + (2 ^ 32) ^ rs.length * words.2.carry := by
    rw [wordsVal_append, wordsVal_cons, wordsVal_nil, toNat_low, hlen, RsaPublicKey.R, hk, hrs,
      pow_succ', ← htop]
    have hsplit := Nat.mod_add_div top.toNat (2 ^ 32)
    generalize top.toNat % 2 ^ 32 = lo at hsplit ⊢
    generalize top.toNat / 2 ^ 32 = hi at hsplit ⊢
    rw [← hsplit]
    ring
  rw [hsum, hval, Nat.mul_add, Nat.mul_add, Nat.mul_add, hfirst]
  simp only [wordsVal_cons]
  ring

theorem montgomeryMulAddStep_val {key : RsaPublicKey}
    (hinv : 2 ^ 32 ∣ key.n * key.n0inv.toNat + 1) (hr : result.length = key.len)
    (hb : b.length = key.len) (a : UInt32) :
    (montgomeryMulAddStep key result a b).length = key.len ∧
      wordsVal (montgomeryMulAddStep key result a b) * 2 ^ 32 ≡
        wordsVal result + a.toNat * wordsVal b [MOD key.n] := by
  obtain ⟨ws, top, d, hlen, heq, hq⟩ := montgomeryMulAddStep_eq hinv hr hb a
  have hrlt := wordsVal_lt result
  have hblt := wordsVal_lt b
  rw [hr] at hrlt
  rw [hb] at hblt
  have hlt : wordsVal ws + key.R * (top.toNat / 2 ^ 32) < key.R + key.n :=
    Montgomery.reduce_lt hrlt a.toNat_lt hblt d.toNat_lt hq
  have hmod : 2 ^ 32 * (wordsVal ws + key.R * (top.toNat / 2 ^ 32)) ≡
      wordsVal result + a.toNat * wordsVal b [MOD key.n] := by
    rw [hq]
    exact (Nat.modEq_zero_iff_dvd.mpr (Nat.dvd_mul_left _ _)).add_left _
  have hzero : top >>> 32 = 0 ↔ top.toNat / 2 ^ 32 = 0 := by
    rw [← UInt64.toNat_inj, toNat_high, UInt64.toNat_zero]
  rw [heq]
  split
  next hc =>
    have hc : top.toNat / 2 ^ 32 ≠ 0 := fun h => hc (hzero.mpr h)
    have hle : key.n ≤ wordsVal ws + key.R * (top.toNat / 2 ^ 32) := by
      have := Nat.mul_le_mul_left key.R (Nat.pos_of_ne_zero hc)
      have := key.n_lt
      omega
    have hsub := subtractModulus_val (top.toNat / 2 ^ 32) hlen hle (by omega)
    refine ⟨(length_subtractModulus _ _).trans hlen, ?_⟩
    rw [← hsub] at hmod
    refine Nat.ModEq.trans ?_ hmod
    rw [Nat.mul_comm]
    exact ((Nat.modEq_zero_iff_dvd.mpr (dvd_refl key.n)).add_left _).symm.mul_left _
  next hc =>
    have hc : top.toNat / 2 ^ 32 = 0 := hzero.mp (not_not.mp hc)
    refine ⟨hlen, ?_⟩
    rw [hc, Nat.mul_zero, Nat.add_zero] at hmod
    rwa [Nat.mul_comm]

theorem montgomeryMul_val {key : RsaPublicKey} (hinv : 2 ^ 32 ∣ key.n * key.n0inv.toNat + 1)
    (ha : a.length = key.len) (hb : b.length = key.len) :
    (montgomeryMul key a b).length = key.len ∧
      wordsVal (montgomeryMul key a b) * key.R ≡ wordsVal a * wordsVal b [MOD key.n] := by
  -- the words of `a` that are done, from the lowest on
  have hfold : ∀ todo done result, result.length = key.len →
      wordsVal result * (2 ^ 32) ^ done.length ≡ wordsVal done * wordsVal b [MOD key.n] →
      (todo.foldl (fun r ai => montgomeryMulAddStep key r ai b) result).length = key.len ∧
        wordsVal (todo.foldl (fun r ai => montgomeryMulAddStep key r ai b) result) *
            (2 ^ 32) ^ (done ++ todo).length ≡
          wordsVal (done ++ todo) * wordsVal b [MOD key.n] := by
    intro todo
    induction todo with
    | nil =>
      intro done result hlen hval
      simpa using ⟨hlen, hval⟩
    | cons ai todo ih =>
      intro done result hlen hval
      obtain ⟨hlen', hval'⟩ := montgomeryMulAddStep_val hinv hlen hb ai
      have hnext := Montgomery.modEq_accumulate hval hval'
      have := ih (done ++ [ai]) _ hlen' (by simpa [wordsVal_append] using hnext)
      simpa using this
  have := hfold a [] (List.replicate key.len 0) (by simp) (by simp [wordsVal_zeros, Nat.ModEq])
  simpa [montgomeryMul, RsaPublicKey.R, ha] using this

end BismarckPreloader.Secure
