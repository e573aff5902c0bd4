import BismarckPreloader.Lib.Loops
import BismarckPreloader.Secure.PowMod
import BismarckPreloader.Secure.Sha1

/-!
# Checking a signature

`rsa_verify` raises the signature to the exponent of the built-in key and compares
the block it recovers: first the padding, then the hash. A read outside a buffer ends
the check with a `BufferFault`. `rsaVerify_zero`: a signature that passes has 256
bytes, and the block of the RSA standard for it ends with the hash.
-/

namespace BismarckPreloader.Secure

structure BufferFault where
  index : Nat
  deriving DecidableEq, Repr

abbrev Checked := Except BufferFault

def byteAt (buf : List UInt8) (i : Nat) : Checked UInt8 :=
  match buf[i]? with
  | some b => .ok b
  | none => .error ⟨i⟩

def memcmpLoop (s0 s1 : List UInt8) (i j : Nat) : Nat → Checked Nat
  | 0 => .ok 0
  | size + 1 => do
    let b0 ← byteAt s0 i
    let b1 ← byteAt s1 j
    if b0 ≠ b1 then .ok 1 else memcmpLoop s0 s1 (i + 1) (j + 1) size

/-- `memcmp(s0 + i, s1 + j, size)`. A negative size ends the loop at once with a
difference. -/
def memcmp (s0 : List UInt8) (i : Nat) (s1 : List UInt8) (j : Nat) (size : Int) : Checked Nat :=
  if size < 0 then .ok 1 else memcmpLoop s0 s1 i j size.toNat

structure ChecksumAlgo where
  checksumLen : Nat
  derLen : Nat
  derPrefix : List UInt8
  calculate : List UInt8 → List UInt8 → Nat × List UInt8

def sha1DerPrefix : List UInt8 :=
  [0x30, 0x21, 0x30, 0x09, 0x06, 0x05, 0x2b, 0x0e, 0x03, 0x02, 0x1a, 0x05, 0x00, 0x04, 0x14]

def sha1Algo : ChecksumAlgo where
  checksumLen := 20
  derLen := 15
  derPrefix := sha1DerPrefix
  calculate buffer image := (0, sha1Calculate buffer image)

def checksumAlgos : List ChecksumAlgo := [sha1Algo]

structure KeyProp where
  rr : List UInt32
  modulus : List UInt32
  publicExponent : UInt64
  n0inv : UInt32
  numBits : Nat
  modulus_length : modulus.length = numBits / 32
  rr_length : rr.length = numBits / 32
  bits_pos : 0 < numBits / 32

/-- The key that `rsa_mod_exp_sw` builds with `rsa_convert_big_endian`. -/
def KeyProp.key (prop : KeyProp) : RsaPublicKey where
  len := prop.numBits / 32
  n0inv := prop.n0inv
  modulus := prop.modulus.reverse
  rr := prop.rr.reverse
  exponent := prop.publicExponent
  modulus_length := by rw [List.length_reverse, prop.modulus_length]
  rr_length := by rw [List.length_reverse, prop.rr_length]
  len_pos := prop.bits_pos

/-- `rsa_mod_exp_sw`: the return value and the output block. `pow_mod` works on the
first words of the copy, whatever its length. -/
def rsaModExpSw (sig : List UInt8) (sigLen : Nat) (prop : KeyProp) : Checked (Nat × List UInt8) :=
  if sig.length < sigLen then .error ⟨sig.length⟩
  else if sigLen < 4 * prop.key.len then .error ⟨sigLen⟩
  else
    let buf := sig.take sigLen
    let (ret, block) := powMod prop.key (buf.take (4 * prop.key.len))
    .ok (ret, block ++ buf.drop (4 * prop.key.len))

def rsaVerifyPadding (msg : List UInt8) (padLen : Nat) (algo : ChecksumAlgo) : Checked Nat := do
  -- 00 01 ff ... ff 00, then the prefix that names the hash
  let first ← byteAt msg 0
  let second ← byteAt msg 1
  let ffLen := padLen - algo.derLen - 3
  let ff ← byteAt msg 2
  let ffs ← memcmp msg 2 msg 3 (ffLen - 1)
  let zero ← byteAt msg (2 + ffLen)
  let der ← memcmp msg (3 + ffLen) algo.derPrefix 0 algo.derLen
  return first.toNat ||| (second.toNat ^^^ 0x01) ||| (ff.toNat ^^^ 0xff) ||| ffs ||| zero.toNat ||| der

def rsaVerifyKey (prop : KeyProp) (sig : List UInt8) (sigLen keyLen : Nat)
    (hashAlgo : ChecksumAlgo) (hashVal : List UInt8) : Checked Nat := do
  let (ret, buf) ← rsaModExpSw sig sigLen prop
  if ret ≠ 0 then return ret
  let padLen := keyLen - hashAlgo.checksumLen
  let ret ← rsaVerifyPadding buf padLen hashAlgo
  if ret ≠ 0 then return ret
  let differs ← memcmp buf padLen hashVal 0 (sigLen - padLen)
  if differs ≠ 0 then return 1
  return 0

def builtinModulus : List UInt32 :=
  [0xab2bcc86, 0x887f23e7, 0xef1e038a, 0xde9cac04, 0xae0743d1, 0x026779aa, 0xf16ca6d2, 0xefe38086,
    0x4594a42f, 0x2efafbb3, 0x1a7ab671, 0x9077bd62, 0x779e08da, 0xb0d22bdb, 0x90f3d581, 0xb778498f,
    0xc96d5d5f, 0x0cfe0aad, 0x750d4f1c, 0x578e5ece, 0x84b177e7, 0x0730d873, 0xf9d2a4ef, 0xe381d445,
    0xc3229ef9, 0x87a40dbb, 0x6878cc23, 0xfccfa9ca, 0x7a84ae18, 0xe2b1235e, 0xda6495ab, 0x12efc224,
    0x3301fa7b, 0x4da55518, 0x414c2f79, 0xea8df02f, 0x559be27b, 0x3aa7f6e9, 0x29000473, 0x029e85f8,
    0x4d140c66, 0x7f892b8f, 0x60a05458, 0x51fbfd41, 0x47474c4b, 0xd314d416, 0xd906ef7b, 0xa0e9daee,
    0x1bc5ed33, 0x42134ecb, 0x1da7af95, 0xea8b3f19, 0x0d9a523e, 0x3ccb85d9, 0x799df0eb, 0x4d0f1b21,
    0xbacc565b, 0x4f395f99, 0x43ae75df, 0x2a309110, 0xa2c89b73, 0xea377071, 0xfa5d9ae6, 0x053dbf67]

def builtinRr : List UInt32 :=
  [0x0681b44a, 0xf689fa88, 0xf9fdcada, 0x03f5b908, 0xc5c05b84, 0x6b2be556, 0xe342e452, 0x26bad86a,
    0xff650995, 0x24834ad3, 0xb7372762, 0xf45a3bdb, 0x7535b6b2, 0xb488caa1, 0xb0f7f77f, 0x68dec422,
    0xda1e9aa9, 0xb7993b30, 0x69291095, 0xbab066e7, 0x234acf51, 0xa06efdbe, 0xdbb8e10b, 0xff1099b3,
    0x1017b3d9, 0x0e05f7d3, 0x17706753, 0x0953a3a0, 0xbf0ccd40, 0xbffe7205, 0x473739a1, 0x6e2568a1,
    0xa562afe9, 0x79339c62, 0x86b4cf4b, 0xa371d4d2, 0xe036de52, 0xdb287955, 0xc9ebfaa8, 0x13fcb956,
    0x5f6bde33, 0x9be53cb3, 0xd4f190c5, 0x09bbf3bd, 0x038276ec, 0x690cd4bc, 0xc0234a3a, 0x4d8199ae,
    0x66652225, 0x3723094b, 0x423adb57, 0x0b7ff10d, 0x9f66eee7, 0x94304968, 0xed78020d, 0xec64a086,
    0x5b02b0a6, 0xd492f4e3, 0x592b97fc, 0xbd5a578d, 0xa3049e84, 0x265bc660, 0xa84437e0, 0xec0cda9c]

/-- The properties that `rsa_verify` fills in. -/
def builtinProp : KeyProp where
  rr := builtinRr
  modulus := builtinModulus
  publicExponent := 0x0000000000010001
  n0inv := 0xa5b813a9
  numBits := 0x800
  modulus_length := rfl
  rr_length := rfl
  bits_pos := by decide

def rsaVerify (sig : List UInt8) (sigLen keyLen : Nat) (hashAlgo : ChecksumAlgo)
    (hashVal : List UInt8) : Checked Nat :=
  rsaVerifyKey builtinProp sig sigLen keyLen hashAlgo hashVal

structure CryptoAlgo where
  keyLen : Nat
  verify : List UInt8 → Nat → Nat → ChecksumAlgo → List UInt8 → Checked Nat

def rsa2048Algo : CryptoAlgo where
  keyLen := 2048 / 8
  verify := rsaVerify

def cryptoAlgos : List CryptoAlgo := [rsa2048Algo]

/-- The built-in key is one for which `pow_mod` is the RSA operation. -/
def builtinKey : RsaKey where
  toRsaPublicKey := builtinProp.key
  odd := by decide +kernel
  top := by decide +kernel
  n0inv_spec := by decide +kernel
  rr_spec := by decide +kernel
  exponent_odd := by decide
  exponent_ge := by decide

-- ---------------------------------------------------------------------------
-- What passes the check
-- ---------------------------------------------------------------------------

theorem byteAt_ok : byteAt buf i = .ok b ↔ buf[i]? = some b := by
  unfold byteAt
  split <;> simp_all

theorem memcmpLoop_zero : memcmpLoop s0 s1 i j size = .ok 0 ↔
    ∀ k < size, ∃ b, s0[i + k]? = some b ∧ s1[j + k]? = some b := by
  induction size generalizing i j with
  | zero => simp [memcmpLoop]
  | succ size ih =>
    have hstep : memcmpLoop s0 s1 i j (size + 1) = .ok 0 ↔
        (∃ b, s0[i]? = some b ∧ s1[j]? = some b) ∧ memcmpLoop s0 s1 (i + 1) (j + 1) size = .ok 0 := by
      simp only [memcmpLoop, bind_ok, byteAt_ok]
      constructor
      · rintro ⟨b0, h0, b1, h1, h⟩
        split at h
        next => cases h
        next heq => exact ⟨⟨b0, h0, by rw [not_not.mp heq, h1]⟩, h⟩
      · rintro ⟨⟨b, h0, h1⟩, h⟩
        exact ⟨b, h0, b, h1, by simpa using h⟩
    rw [hstep, ih]
    constructor
    · rintro ⟨h0, h⟩ k hk
      cases k with
      | zero => exact h0
      | succ k => simpa [Nat.add_assoc, Nat.add_comm 1] using h k (by omega)
    · intro h
      refine ⟨h 0 (by omega), fun k hk => ?_⟩
      simpa [Nat.add_assoc, Nat.add_comm 1] using h (k + 1) (by omega)

theorem memcmp_zero_suffix (hlen : s0.length = i + s1.length)
    (h : memcmp s0 i s1 0 s1.length = .ok 0) : s0.drop i = s1 := by
  rw [memcmp, if_neg (by omega), Int.toNat_natCast, memcmpLoop_zero] at h
  apply List.ext_getElem?
  intro k
  rw [List.getElem?_drop]
  by_cases hk : k < s1.length
  · obtain ⟨b, h0, h1⟩ := h k hk
    rw [h0, ← h1, Nat.zero_add]
  · rw [List.getElem?_eq_none (by omega), List.getElem?_eq_none (by omega)]

theorem rsaModExpSw_ok (hsig : sig.length = 256) :
    rsaModExpSw sig sigLen builtinProp = .ok (ret, buf) ↔
      sigLen = 256 ∧ powMod builtinProp.key sig = (ret, buf) := by
  have hlen : 4 * builtinProp.key.len = 256 := rfl
  unfold rsaModExpSw
  rw [hlen]
  split
  next => exact iff_of_false (fun h => by cases h) (by omega)
  next =>
    split
    next => exact iff_of_false (fun h => by cases h) (by omega)
    next =>
      have h256 : sigLen = 256 := by omega
      have htake : sig.take 256 = sig := List.take_of_length_le (by omega)
      have hdrop : sig.drop 256 = [] := List.drop_eq_nil_of_le (by omega)
      simp [h256, htake, hdrop, Prod.ext_iff]

theorem rsaVerify_zero (hsig : sig.length = 256) (hhash : hashVal.length = 20)
    (halgo : algo.checksumLen = 20) (h : rsaVerify sig sigLen 256 algo hashVal = .ok 0) :
    sigLen = 256 ∧ ∃ block, block.length = 256 ∧
      bytesVal block = bytesVal sig ^ 65537 % builtinKey.n ∧ block.drop 236 = hashVal := by
  simp only [rsaVerify, rsaVerifyKey, bind_ok, halgo] at h
  obtain ⟨⟨ret, buf⟩, hexp, h⟩ := h
  obtain ⟨h256, hpow⟩ := (rsaModExpSw_ok hsig).mp hexp
  obtain ⟨block, hblock, hlen, hval⟩ := RsaKey.powMod_val builtinKey (hsig.trans rfl)
  have hexponent : usedExponent builtinKey.exponent.toNat = 65537 := by decide
  rw [hexponent] at hval
  obtain ⟨rfl, rfl⟩ := Prod.mk.inj (hpow.symm.trans hblock)
  rw [if_neg (by simp), bind_ok] at h
  obtain ⟨pad, -, h⟩ := h
  split at h
  next hne =>
    cases h
    exact absurd rfl hne
  next =>
    obtain ⟨differs, hcmp, h⟩ := bind_ok.mp h
    split at h
    next => cases h
    next heq =>
      rw [not_not.mp heq, h256] at hcmp
      refine ⟨h256, buf, hlen, hval, ?_⟩
      apply memcmp_zero_suffix
      · rw [hhash]
        exact hlen
      · rw [hhash]
        exact hcmp

end BismarckPreloader.Secure
