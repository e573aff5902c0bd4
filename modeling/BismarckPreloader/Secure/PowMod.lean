import BismarckPreloader.Secure.Bignum
import Mathlib.Data.Nat.Bitwise
import Mathlib.Data.Nat.Prime.Basic

/-!
# The RSA public operation

`pow_mod` raises the signature to the public exponent, from the exponent's highest
bit down, in Montgomery form. The bits are read by `is_public_exponent_bit_set`,
which returns the masked 64-bit exponent as an `int`: of a bit from position 32 on
nothing is left. Only the highest bit is not read but taken as set. So the power is
taken with the exponent `usedExponent`, which lacks the bits from 32 up to, not
including, the highest (`powMod_val`).
-/

namespace BismarckPreloader.Secure

def joinHalves (high low : UInt32) : UInt64 := (high.toUInt64 <<< 32) ||| low.toUInt64

/-- `__ashldi3`: the 64-bit shift of a CPU that has none. -/
def ashldi3 (u : UInt64) (b : Nat) : UInt64 :=
  if b = 0 then u
  else
    let high := (u >>> 32).toUInt32
    let low := u.toUInt32
    if 32 ≤ b then joinHalves (low <<< UInt32.ofNat (b - 32)) 0
    else
      let carries := low >>> UInt32.ofNat (32 - b)
      joinHalves ((high <<< UInt32.ofNat b) ||| carries) (low <<< UInt32.ofNat b)

/-- The loop of `num_public_exponent_bits`. -/
def exponentBitsLoop : Nat → UInt64 → Nat → Option Nat
  | 0, _, _ => none
  | fuel + 1, exponent, bits =>
    if exponent >>> 1 = 0 then some bits else exponentBitsLoop fuel (exponent >>> 1) (bits + 1)

/-- `num_public_exponent_bits`; `none` is its failure. -/
def numPublicExponentBits (key : RsaPublicKey) : Option Nat :=
  if key.exponent = 0 then some 0 else exponentBitsLoop 64 key.exponent 1

def isPublicExponentBitSet (key : RsaPublicKey) (pos : Nat) : Bool :=
  (key.exponent &&& ashldi3 1 pos).toUInt32 ≠ 0

/-- The loop of `pow_mod`, for `j` from the given value down to 1. -/
def powLoop (key : RsaPublicKey) (aScaled : List UInt32) : Nat → List UInt32 → List UInt32
  | 0, acc => acc
  | j + 1, acc =>
    let tmp := montgomeryMul key acc acc
    powLoop key aScaled j
      (if isPublicExponentBitSet key (j + 1) then montgomeryMul key tmp aScaled else tmp)

/-- The arithmetic of `pow_mod`, for an exponent of `k` bits. -/
def powWords (key : RsaPublicKey) (k : Nat) (val : List UInt32) : List UInt32 :=
  let aScaled := montgomeryMul key val key.rr
  let acc := powLoop key aScaled (k - 2) aScaled
  let tmp := montgomeryMul key acc acc
  -- by the plain number, which also takes the product out of Montgomery form
  let acc := montgomeryMul key tmp val
  if greaterEqualModulus key acc then subtractModulus key acc else acc

/-- `pow_mod` on a block of `4 * len` bytes: its return value and the block it
leaves. -/
def powMod (key : RsaPublicKey) (inout : List UInt8) : Nat × List UInt8 :=
  let val := (packWords inout).reverse
  match numPublicExponentBits key with
  | none => (1, inout)
  | some k =>
    if k < 2 then (1, inout)
    else if !isPublicExponentBitSet key 0 then (1, inout)
    else (0, (powWords key k val).reverse.flatMap wordBytes)

-- ---------------------------------------------------------------------------
-- The bits of the exponent
-- ---------------------------------------------------------------------------

theorem ashldi3_one : ∀ b < 64, (ashldi3 1 b).toNat = 2 ^ b := by decide

theorem isPublicExponentBitSet_eq (key : RsaPublicKey) (hpos : pos < 64) :
    isPublicExponentBitSet key pos = (decide (pos < 32) && key.exponent.toNat.testBit pos) := by
  have hand : (key.exponent &&& ashldi3 1 pos).toNat =
      (key.exponent.toNat.testBit pos).toNat * 2 ^ pos := by
    rw [UInt64.toNat_and, ashldi3_one pos hpos, Nat.and_two_pow]
  simp only [isPublicExponentBitSet, ne_eq, ← UInt32.toNat_inj, toNat_low, hand, UInt32.toNat_zero]
  by_cases h : pos < 32
  · have hlt : 2 ^ pos < 2 ^ 32 := Nat.pow_lt_pow_right (by decide) h
    cases key.exponent.toNat.testBit pos with
    | false => simp [h]
    | true =>
      simp only [Bool.toNat_true, Nat.one_mul, Nat.mod_eq_of_lt hlt]
      simp [h]
  · have hdvd : 2 ^ 32 ∣ (key.exponent.toNat.testBit pos).toNat * 2 ^ pos :=
      Dvd.dvd.mul_left (Nat.pow_dvd_pow 2 (by omega)) _
    simp only [Nat.mod_eq_zero_of_dvd hdvd]
    simp [h]

theorem exponentBitsLoop_eq (h0 : exponent.toNat ≠ 0) (hlt : exponent.toNat < 2 ^ fuel) (bits : Nat) :
    exponentBitsLoop fuel exponent bits = some (bits + Nat.log2 exponent.toNat) := by
  induction fuel generalizing exponent bits with
  | zero => omega
  | succ fuel ih =>
    have hhalf : (exponent >>> 1).toNat = exponent.toNat / 2 := by
      rw [UInt64.toNat_shiftRight]
      simp [Nat.shiftRight_eq_div_pow]
    have hzero : exponent >>> 1 = 0 ↔ exponent.toNat / 2 = 0 := by
      rw [← UInt64.toNat_inj, hhalf, UInt64.toNat_zero]
    rw [exponentBitsLoop, Nat.log2_def]
    by_cases hz : exponent.toNat / 2 = 0
    · rw [if_pos (hzero.mpr hz), if_neg (by omega), Nat.add_zero]
    · rw [if_neg fun h => hz (hzero.mp h), if_pos (by omega)]
      rw [ih (by omega) (by omega), hhalf]
      congr 1
      omega

def usedExponent (e : Nat) : Nat := if e < 2 ^ 32 then e else 2 ^ Nat.log2 e + e % 2 ^ 32

theorem usedExponent_testBit (e : Nat) (hj : j < Nat.log2 e) :
    (usedExponent e).testBit j = (decide (j < 32) && e.testBit j) := by
  unfold usedExponent
  split
  next h =>
    have hlog : Nat.log2 e < 32 := by
      by_cases h0 : e = 0
      · simp [h0]
      · exact (Nat.log2_lt h0).mpr h
    simp [show j < 32 by omega]
  next => rw [Nat.testBit_two_pow_add_gt hj, Nat.testBit_mod_two_pow]

theorem usedExponent_top (h0 : e ≠ 0) : usedExponent e / 2 ^ Nat.log2 e = 1 := by
  unfold usedExponent
  have hself := Nat.log2_self_le h0
  have hlt : e < 2 ^ (Nat.log2 e + 1) := Nat.lt_log2_self
  rw [Nat.pow_succ] at hlt
  split
  next => exact Nat.div_eq_of_lt_le (by omega) (by omega)
  next h =>
    have h32 : 2 ^ 32 ≤ 2 ^ Nat.log2 e :=
      Nat.pow_le_pow_right (by decide) ((Nat.le_log2 h0).mpr (by omega))
    have := Nat.mod_lt e (show 0 < 2 ^ 32 by decide)
    exact Nat.div_eq_of_lt_le (by omega) (by omega)

def readExponent (key : RsaPublicKey) : Nat → Nat → Nat
  | 0, m => m
  | j + 1, m => readExponent key j (2 * m + (isPublicExponentBitSet key (j + 1)).toNat)

theorem readExponent_eq (key : RsaPublicKey) (hj : j < Nat.log2 key.exponent.toNat) :
    readExponent key j (usedExponent key.exponent.toNat / 2 ^ (j + 1)) =
      usedExponent key.exponent.toNat / 2 := by
  induction j with
  | zero => rw [readExponent, Nat.zero_add, Nat.pow_one]
  | succ j ih =>
    have hlog : Nat.log2 key.exponent.toNat < 64 := by
      by_cases h0 : key.exponent.toNat = 0
      · simp [h0]
      · exact (Nat.log2_lt h0).mpr key.exponent.toNat_lt
    rw [readExponent, isPublicExponentBitSet_eq key (by omega),
      ← usedExponent_testBit key.exponent.toNat hj, ← ih (by omega)]
    congr 1
    rw [Nat.toNat_testBit, Nat.pow_succ 2 (j + 1), ← Nat.div_div_eq_div_mul]
    omega

theorem readExponent_all (key : RsaPublicKey) (hodd : key.exponent.toNat % 2 = 1)
    (h3 : 3 ≤ key.exponent.toNat) :
    2 * readExponent key (Nat.log2 key.exponent.toNat - 1) 1 + 1 =
      usedExponent key.exponent.toNat := by
  have hlog : 1 ≤ Nat.log2 key.exponent.toNat := (Nat.le_log2 (by omega)).mpr (by omega)
  have h := readExponent_eq key (j := Nat.log2 key.exponent.toNat - 1) (by omega)
  rw [Nat.sub_add_cancel hlog, usedExponent_top (by omega)] at h
  have hbit := usedExponent_testBit key.exponent.toNat (j := 0) (by omega)
  simp only [Nat.testBit_zero, hodd, Nat.zero_lt_succ, decide_true, Bool.and_self,
    decide_eq_true_eq] at hbit
  rw [h]
  omega

-- ---------------------------------------------------------------------------
-- The power
-- ---------------------------------------------------------------------------

structure RsaKey extends RsaPublicKey where
  odd : toRsaPublicKey.n % 2 = 1
  top : 2 ^ (32 * len - 1) < toRsaPublicKey.n
  n0inv_spec : 2 ^ 32 ∣ toRsaPublicKey.n * n0inv.toNat + 1
  rr_spec : wordsVal rr = 2 ^ (64 * len) % toRsaPublicKey.n
  exponent_odd : exponent.toNat % 2 = 1
  exponent_ge : 3 ≤ exponent.toNat

namespace RsaKey

/-- A signature: a number below the modulus, spelled in as many bytes as the
modulus. -/
structure Block (key : RsaKey) where
  bytes : List UInt8
  length : bytes.length = 4 * key.len
  lt : bytesVal bytes < key.n

def Block.val (s : Block key) : Nat := bytesVal s.bytes

/-- `pow_mod` succeeds and leaves the power of the signature, in full length. -/
def PowModCorrect (key : RsaKey) (s : key.Block) : Prop :=
  ∃ out, powMod key.toRsaPublicKey s.bytes = (0, out) ∧ out.length = 4 * key.len ∧
    bytesVal out = s.val ^ key.exponent.toNat % key.n

theorem coprime (key : RsaKey) : Nat.Coprime key.n key.R := by
  have h2 : Nat.Coprime key.n 2 := Nat.coprime_two_right.mpr (Nat.odd_iff.mpr key.odd)
  exact (h2.pow_right 32).pow_right key.len

theorem R_lt (key : RsaKey) : key.R < 2 * key.n := by
  have htop := key.top
  have hpow : key.R = 2 * 2 ^ (32 * key.len - 1) := by
    have := key.len_pos
    rw [RsaPublicKey.R, ← Nat.pow_mul, ← Nat.pow_succ']
    congr 1
    omega
  omega

theorem rr_modEq (key : RsaKey) : wordsVal key.rr ≡ key.R * key.R [MOD key.n] := by
  rw [key.rr_spec, RsaPublicKey.R, ← Nat.pow_mul, ← Nat.pow_add,
    show 32 * key.len + 32 * key.len = 64 * key.len by omega]
  exact Nat.mod_modEq _ _

def Holds (key : RsaKey) (ws : List UInt32) (v : Nat) : Prop :=
  ws.length = key.len ∧ Montgomery.Form key.R key.n (wordsVal ws) v

theorem Holds.mul {key : RsaKey} (hx : key.Holds x u) (hy : key.Holds y v) :
    key.Holds (montgomeryMul key.toRsaPublicKey x y) (u * v) := by
  obtain ⟨hlen, hval⟩ := montgomeryMul_val key.n0inv_spec hx.1 hy.1
  exact ⟨hlen, hx.2.mul hy.2 key.coprime hval⟩

theorem powLoop_holds {key : RsaKey} (ha : key.Holds aScaled s) (hacc : key.Holds acc (s ^ m)) :
    key.Holds (powLoop key.toRsaPublicKey aScaled j acc)
      (s ^ readExponent key.toRsaPublicKey j m) := by
  induction j generalizing acc m with
  | zero => exact hacc
  | succ j ih =>
    have hsq := hacc.mul hacc
    rw [← Nat.pow_add, ← Nat.two_mul] at hsq
    rw [powLoop, readExponent]
    cases isPublicExponentBitSet key.toRsaPublicKey (j + 1) with
    | false => exact ih hsq
    | true =>
      have hmul := hsq.mul ha
      rw [← Nat.pow_succ] at hmul
      exact ih hmul

theorem reduce_once {key : RsaKey} (hlen : ws.length = key.len) :
    (if greaterEqualModulus key.toRsaPublicKey ws then
        subtractModulus key.toRsaPublicKey ws else ws).length = key.len ∧
      wordsVal (if greaterEqualModulus key.toRsaPublicKey ws then
        subtractModulus key.toRsaPublicKey ws else ws) = wordsVal ws % key.n := by
  have hlt := wordsVal_lt ws
  rw [hlen] at hlt
  have hR := key.R_lt
  rw [RsaPublicKey.R] at hR
  have hge : greaterEqualModulus key.toRsaPublicKey ws = true ↔ key.n ≤ wordsVal ws := by
    have hlens : ws.reverse.length = key.modulus.reverse.length := by
      simp [hlen, key.modulus_length]
    simpa [greaterEqualModulus, RsaPublicKey.n] using greaterEqualLoop_iff hlens
  split
  next h =>
    have hle := hge.mp h
    have := subtractModulus_val 0 hlen (by omega) (by rw [RsaPublicKey.R]; omega)
    refine ⟨(length_subtractModulus _ _).trans hlen, ?_⟩
    rw [Nat.mod_eq_sub_mod hle, Nat.mod_eq_of_lt (by omega)]
    omega
  next h =>
    have : ¬ key.n ≤ wordsVal ws := fun hle => h (hge.mpr hle)
    exact ⟨hlen, by rw [Nat.mod_eq_of_lt (by omega)]⟩

theorem powWords_val (key : RsaKey) (hlen : val.length = key.len) :
    (powWords key.toRsaPublicKey (1 + Nat.log2 key.exponent.toNat) val).length = key.len ∧
      wordsVal (powWords key.toRsaPublicKey (1 + Nat.log2 key.exponent.toNat) val) =
        wordsVal val ^ usedExponent key.exponent.toNat % key.n := by
  obtain ⟨hslen, hsval⟩ := montgomeryMul_val key.n0inv_spec hlen key.rr_length
  have hscaled : key.Holds (montgomeryMul key.toRsaPublicKey val key.rr) (wordsVal val) :=
    ⟨hslen, Montgomery.form_of_square key.coprime key.rr_modEq hsval⟩
  have hacc := powLoop_holds (j := Nat.log2 key.exponent.toNat - 1) (m := 1) hscaled
    (by rwa [Nat.pow_one])
  have hsq := hacc.mul hacc
  rw [← Nat.pow_add, ← Nat.two_mul] at hsq
  obtain ⟨hllen, hlval⟩ := montgomeryMul_val key.n0inv_spec hsq.1 hlen
  have hpow := hsq.2.mul_plain key.coprime hlval
  rw [← Nat.pow_add_one, readExponent_all _ key.exponent_odd key.exponent_ge] at hpow
  rw [powWords, show 1 + Nat.log2 key.exponent.toNat - 2 = Nat.log2 key.exponent.toNat - 1 by omega]
  obtain ⟨hrlen, hrval⟩ := reduce_once hllen
  exact ⟨hrlen, hrval.trans hpow⟩

theorem powMod_val (key : RsaKey) (hbytes : bytes.length = 4 * key.len) :
    ∃ out, powMod key.toRsaPublicKey bytes = (0, out) ∧ out.length = 4 * key.len ∧
      bytesVal out = bytesVal bytes ^ usedExponent key.exponent.toNat % key.n := by
  have hge := key.exponent_ge
  have hbits : numPublicExponentBits key.toRsaPublicKey =
      some (1 + Nat.log2 key.exponent.toNat) := by
    have h0 : key.exponent.toNat ≠ 0 := by omega
    rw [numPublicExponentBits, if_neg fun h => h0 (by rw [h]; rfl)]
    exact exponentBitsLoop_eq h0 key.exponent.toNat_lt 1
  have hlog : 1 ≤ Nat.log2 key.exponent.toNat := (Nat.le_log2 (by omega)).mpr (by omega)
  have hbit0 : isPublicExponentBitSet key.toRsaPublicKey 0 = true := by
    rw [isPublicExponentBitSet_eq _ (by decide), Nat.testBit_zero]
    simp [key.exponent_odd]
  have h4 : 4 ∣ bytes.length := by
    rw [hbytes]
    exact Nat.dvd_mul_right 4 _
  have hval : wordsVal (packWords bytes).reverse = bytesVal bytes := by
    rw [← bytesVal_wordBytes, flatMap_wordBytes_packWords h4]
  have hvlen : (packWords bytes).reverse.length = key.len := by
    rw [List.length_reverse, length_packWords, hbytes]
    omega
  obtain ⟨hlen, hpow⟩ := powWords_val key hvlen
  refine ⟨(powWords key.toRsaPublicKey (1 + Nat.log2 key.exponent.toNat)
    (packWords bytes).reverse).reverse.flatMap wordBytes, ?_, ?_, ?_⟩
  · rw [powMod, hbits]
    simp only [hbit0, Bool.not_true, Bool.false_eq_true, if_false]
    rw [if_neg (by omega)]
  · simp [wordBytes, hlen, Nat.mul_comm]
  · rw [bytesVal_wordBytes, List.reverse_reverse, hpow, hval]

theorem powModCorrect_iff (key : RsaKey) (s : key.Block) :
    key.PowModCorrect s ↔
      s.val ^ usedExponent key.exponent.toNat % key.n = s.val ^ key.exponent.toNat % key.n := by
  obtain ⟨out, hout, hlen, hval⟩ := powMod_val key s.length
  constructor
  · rintro ⟨out', hout', -, hval'⟩
    rw [hout] at hout'
    obtain ⟨-, rfl⟩ := Prod.mk.inj hout'
    exact hval.symm.trans hval'
  · intro h
    exact ⟨out, hout, hlen, hval.trans h⟩

end RsaKey

def wideExponentKey : RsaKey where
  len := 1
  n0inv := 0x7FFFFFFF
  modulus := [0x80000001]
  rr := [4]
  exponent := 0x300000001
  modulus_length := rfl
  rr_length := rfl
  len_pos := Nat.one_pos
  odd := by decide
  top := by decide
  n0inv_spec := by decide
  rr_spec := by decide
  exponent_odd := by decide
  exponent_ge := by decide

def signatureTwo : wideExponentKey.Block where
  bytes := [0, 0, 0, 2]
  length := rfl
  lt := by decide

/-- The result is `2 ^ 9`, the power without bit 32 of the exponent; it should be
`2 ^ 13`. -/
theorem wideExponentKey_wrong_power : ¬ wideExponentKey.PowModCorrect signatureTwo := by
  rintro ⟨out, hout, -, hval⟩
  have hrun : powMod wideExponentKey.toRsaPublicKey signatureTwo.bytes = (0, [0, 0, 2, 0]) := by
    decide +kernel
  have hperiod : signatureTwo.val ^ 62 ≡ 1 [MOD wideExponentKey.n] := by decide
  have hexp : wideExponentKey.exponent.toNat % 62 = 13 := by decide
  have hpow := Montgomery.pow_modEq_of_period hperiod wideExponentKey.exponent.toNat
  rw [hexp] at hpow
  rw [hrun] at hout
  obtain ⟨-, rfl⟩ := Prod.mk.inj hout
  exact absurd (hval.trans hpow) (by decide)

end BismarckPreloader.Secure
