import BismarckPreloader.Secure.Rsa

/-!
# The padding of a signature

`rsa_verify_key` checks the recovered block piece by piece: two bytes, a run of `ff`
that it compares with itself one byte further on, a zero, the prefix that names the
hash, and the hash. `rsaVerifyKey_zero_iff` says that the pieces tile the block: only
the block of the standard passes, and no byte outside the buffers is read.
-/

namespace BismarckPreloader.Secure

def emsaPkcs1 (ffLen : Nat) (info : List UInt8) : List UInt8 :=
  [0x00, 0x01] ++ List.replicate ffLen 0xff ++ [0x00] ++ info

theorem byteAt_of_lt {buf : List UInt8} (h : i < buf.length) : byteAt buf i = .ok buf[i] := by
  rw [byteAt_ok]
  exact List.getElem?_eq_getElem h

theorem memcmpLoop_total {s0 s1 : List UInt8} (h0 : i + size ≤ s0.length)
    (h1 : j + size ≤ s1.length) : ∃ ret, memcmpLoop s0 s1 i j size = .ok ret := by
  induction size generalizing i j with
  | zero => exact ⟨0, rfl⟩
  | succ size ih =>
    rw [memcmpLoop, byteAt_of_lt (by omega), byteAt_of_lt (by omega)]
    simp only [ok_bind]
    split
    · exact ⟨1, rfl⟩
    · exact ih (by omega) (by omega)

theorem memcmp_total {s0 s1 : List UInt8} {size : Nat} (h0 : i + size ≤ s0.length)
    (h1 : j + size ≤ s1.length) : ∃ ret, memcmp s0 i s1 j size = .ok ret := by
  rw [memcmp, if_neg (by omega), Int.toNat_natCast]
  exact memcmpLoop_total h0 h1

theorem memcmp_zero_iff {s0 s1 : List UInt8} {size : Nat} :
    memcmp s0 i s1 j size = .ok 0 ↔
      ∀ k < size, ∃ b, s0[i + k]? = some b ∧ s1[j + k]? = some b := by
  rw [memcmp, if_neg (by omega), Int.toNat_natCast, memcmpLoop_zero]

theorem memcmp_zero_suffix_iff (hlen : s0.length = i + s1.length) :
    memcmp s0 i s1 0 s1.length = .ok 0 ↔ s0.drop i = s1 := by
  refine ⟨memcmp_zero_suffix hlen, fun h => ?_⟩
  rw [memcmp_zero_iff]
  intro k hk
  refine ⟨s1[k], ?_, ?_⟩
  · rw [← List.getElem?_drop, h, List.getElem?_eq_getElem hk]
  · rw [Nat.zero_add, List.getElem?_eq_getElem hk]

theorem memcmp_shift_zero_iff {msg : List UInt8} {len : Nat} (hb : msg[i]? = some b) :
    memcmp msg i msg (i + 1) len = .ok 0 ↔ ∀ k ≤ len, msg[i + k]? = some b := by
  rw [memcmp_zero_iff]
  constructor
  · intro h k hk
    induction k with
    | zero => exact hb
    | succ k ih =>
      obtain ⟨c, h0, h1⟩ := h k hk
      rw [ih (by omega)] at h0
      rw [show i + (k + 1) = i + 1 + k by omega, h1, h0]
  · intro h k hk
    refine ⟨b, h k (by omega), ?_⟩
    rw [show i + 1 + k = i + (k + 1) by omega]
    exact h (k + 1) hk

-- ---------------------------------------------------------------------------
-- The padding
-- ---------------------------------------------------------------------------

theorem length_emsaPkcs1 (ffLen : Nat) (info : List UInt8) :
    (emsaPkcs1 ffLen info).length = 3 + ffLen + info.length := by
  simp [emsaPkcs1]
  omega

theorem getElem?_emsaPkcs1 (ffLen : Nat) (info : List UInt8) (k : Nat) :
    (emsaPkcs1 ffLen info)[k]? =
      if k = 0 then some 0x00 else if k = 1 then some 0x01
      else if k < 2 + ffLen then some 0xff
      else if k = 2 + ffLen then some 0x00 else info[k - (3 + ffLen)]? := by
  rcases k with - | - | k
  · rfl
  · rfl
  · rw [if_neg (by omega), if_neg (by omega)]
    show (List.replicate ffLen 0xff ++ [0x00] ++ info)[k]? = _
    rw [List.append_assoc]
    split
    · rw [List.getElem?_append_left (by simp; omega), List.getElem?_replicate_of_lt (by omega)]
    · rw [List.getElem?_append_right (by simp; omega), List.length_replicate]
      split
      · rw [show k - ffLen = 0 by omega]
        rfl
      · rw [show k - ffLen = k + 1 + 1 - (3 + ffLen) + 1 by omega]
        rfl

theorem eq_emsaPkcs1_iff {msg : List UInt8} (hlen : msg.length = 3 + ffLen + info.length) :
    msg = emsaPkcs1 ffLen info ↔
      msg[0]? = some 0x00 ∧ msg[1]? = some 0x01 ∧ (∀ k < ffLen, msg[2 + k]? = some 0xff) ∧
        msg[2 + ffLen]? = some 0x00 ∧ ∀ k < info.length, msg[3 + ffLen + k]? = info[k]? := by
  constructor
  · rintro rfl
    refine ⟨rfl, rfl, fun k hk => ?_, ?_, fun k hk => ?_⟩
    · rw [getElem?_emsaPkcs1, if_neg (by omega), if_neg (by omega), if_pos (by omega)]
    · rw [getElem?_emsaPkcs1, if_neg (by omega), if_neg (by omega), if_neg (by omega), if_pos rfl]
    · rw [getElem?_emsaPkcs1, if_neg (by omega), if_neg (by omega), if_neg (by omega),
        if_neg (by omega), Nat.add_sub_cancel_left]
  · rintro ⟨h0, h1, hff, hz, hinfo⟩
    refine List.ext_getElem? fun k => ?_
    rw [getElem?_emsaPkcs1]
    split
    next hk => rw [hk, h0]
    next =>
      split
      next hk => rw [hk, h1]
      next =>
        split
        next => rw [show k = 2 + (k - 2) by omega, hff _ (by omega)]
        next =>
          split
          next hk => rw [hk, hz]
          next =>
            by_cases hk : k - (3 + ffLen) < info.length
            · rw [← hinfo _ hk, show 3 + ffLen + (k - (3 + ffLen)) = k by omega]
            · rw [List.getElem?_eq_none (by omega), List.getElem?_eq_none (by omega)]

theorem take_eq_emsaPkcs1_iff {msg : List UInt8} (hlen : 3 + ffLen + info.length ≤ msg.length) :
    msg.take (3 + ffLen + info.length) = emsaPkcs1 ffLen info ↔
      msg[0]? = some 0x00 ∧ msg[1]? = some 0x01 ∧ (∀ k < ffLen, msg[2 + k]? = some 0xff) ∧
        msg[2 + ffLen]? = some 0x00 ∧
        ∀ k < info.length, ∃ b, msg[3 + ffLen + k]? = some b ∧ info[0 + k]? = some b := by
  have hget : ∀ k < 3 + ffLen + info.length,
      (msg.take (3 + ffLen + info.length))[k]? = msg[k]? := fun k hk => List.getElem?_take_of_lt hk
  rw [eq_emsaPkcs1_iff (List.length_take_of_le hlen), hget 0 (by omega), hget 1 (by omega),
    hget (2 + ffLen) (by omega)]
  refine and_congr_right fun _ => and_congr_right fun _ =>
    and_congr ?_ (and_congr_right fun _ => ?_)
  · refine forall₂_congr fun k hk => ?_
    rw [hget _ (by omega)]
  · refine forall₂_congr fun k hk => ?_
    rw [hget _ (by omega), Nat.zero_add, List.getElem?_eq_getElem hk]
    simp

theorem all_ff_iff {msg : List UInt8} {ff : UInt8} (h2 : msg[2]? = some ff) (hff : 0 < ffLen) :
    (ff = 0xff ∧ ∀ k ≤ ffLen - 1, msg[2 + k]? = some ff) ↔
      ∀ k < ffLen, msg[2 + k]? = some 0xff := by
  constructor
  · rintro ⟨rfl, hall⟩ k hk
    exact hall k (by omega)
  · intro hall
    obtain rfl : ff = 0xff := Option.some.inj (h2.symm.trans (hall 0 hff))
    exact ⟨rfl, fun k hk => hall k (by omega)⟩

theorem toNat_eq_zero (a : UInt8) : a.toNat = 0 ↔ a = 0 := by
  rw [← UInt8.toNat_inj]
  rfl

theorem toNat_xor_eq_zero (a b : UInt8) : a.toNat ^^^ b.toNat = 0 ↔ a = b := by
  rw [← UInt8.toNat_xor, ← UInt8.toNat_zero, UInt8.toNat_inj, UInt8.xor_eq_zero_iff]

/-- The padding check reads inside the buffers, and is passed by the padding of the
standard only. -/
theorem rsaVerifyPadding_iff (ffLen : Nat) {algo : ChecksumAlgo} {msg : List UInt8}
    (hder : algo.derPrefix.length = algo.derLen) (hff : 0 < ffLen)
    (hlen : 3 + ffLen + algo.derLen ≤ msg.length) :
    ∃ ret, rsaVerifyPadding msg (3 + ffLen + algo.derLen) algo = .ok ret ∧
      (ret = 0 ↔ msg.take (3 + ffLen + algo.derLen) = emsaPkcs1 ffLen algo.derPrefix) := by
  have hffLen : 3 + ffLen + algo.derLen - algo.derLen - 3 = ffLen := by omega
  have hpred : ((ffLen : Int) - 1) = ((ffLen - 1 : Nat) : Int) := by omega
  obtain ⟨ffs, hffs⟩ : ∃ ret, memcmp msg 2 msg 3 (ffLen - 1 : Nat) = .ok ret :=
    memcmp_total (by omega) (by omega)
  obtain ⟨der, hcmp⟩ : ∃ ret, memcmp msg (3 + ffLen) algo.derPrefix 0 algo.derLen = .ok ret :=
    memcmp_total hlen (by omega)
  have hbyte : ∀ i < 3 + ffLen, ∃ b, msg[i]? = some b := fun i hi =>
    ⟨msg[i], List.getElem?_eq_getElem (by omega)⟩
  obtain ⟨first, h0⟩ := hbyte 0 (by omega)
  obtain ⟨second, h1⟩ := hbyte 1 (by omega)
  obtain ⟨ff, h2⟩ := hbyte 2 (by omega)
  obtain ⟨zero, hz⟩ := hbyte (2 + ffLen) (by omega)
  refine ⟨first.toNat ||| (second.toNat ^^^ 0x01) ||| (ff.toNat ^^^ 0xff) ||| ffs ||| zero.toNat |||
    der, ?_, ?_⟩
  · simp only [rsaVerifyPadding, hffLen, hpred, byteAt_ok.mpr h0, byteAt_ok.mpr h1,
      byteAt_ok.mpr h2, byteAt_ok.mpr hz, hffs, hcmp, ok_bind]
    rfl
  · have hrun : ffs = 0 ↔ ∀ k ≤ ffLen - 1, msg[2 + k]? = some ff := by
      rw [← memcmp_shift_zero_iff h2, hffs, Except.ok.injEq]
    have hprefix : der = 0 ↔ ∀ k < algo.derLen, ∃ b, msg[3 + ffLen + k]? = some b ∧
        algo.derPrefix[0 + k]? = some b := by
      rw [← memcmp_zero_iff, hcmp, Except.ok.injEq]
    have hfirst : first.toNat = 0 ↔ first = 0x00 := toNat_eq_zero first
    have hzero : zero.toNat = 0 ↔ zero = 0x00 := toNat_eq_zero zero
    have hsecond : second.toNat ^^^ 0x01 = 0 ↔ second = 0x01 := toNat_xor_eq_zero second 0x01
    have hff2 : ff.toNat ^^^ 0xff = 0 ↔ ff = 0xff := toNat_xor_eq_zero ff 0xff
    rw [← hder] at hlen hprefix ⊢
    rw [take_eq_emsaPkcs1_iff hlen, ← all_ff_iff h2 hff, h0, h1, hz]
    simp only [Nat.or_eq_zero_iff, hrun, hprefix, hfirst, hzero, hsecond, hff2,
      Option.some.injEq, and_assoc]

-- ---------------------------------------------------------------------------
-- The whole check
-- ---------------------------------------------------------------------------

/-- A block that `rsa_mod_exp_sw` recovers from a signature with a 2048-bit key. -/
structure Recovered where
  prop : KeyProp
  bits : prop.numBits = 2048
  signature : Vector UInt8 256
  block : Vector UInt8 256
  recovers : rsaModExpSw signature.toList 256 prop = .ok (0, block.toList)

theorem rsaVerifyKey_total (r : Recovered) (hash : Vector UInt8 20) :
    ∃ ret, rsaVerifyKey r.prop r.signature.toList 256 256 sha1Algo hash.toList = .ok ret ∧
      (ret = 0 ↔ r.block.toList.take 236 = emsaPkcs1 218 sha1DerPrefix ∧
        r.block.toList.drop 236 = hash.toList) := by
  have hlen : r.block.toList.length = 256 := r.block.length_toList
  have hhash : hash.toList.length = 20 := hash.length_toList
  have hpadLen : 3 + 218 + sha1Algo.derLen = 236 := rfl
  obtain ⟨pad, hpad, hpad0⟩ :=
    @rsaVerifyPadding_iff 218 sha1Algo r.block.toList rfl (by decide) (by rw [hlen]; decide)
  rw [hpadLen] at hpad hpad0
  obtain ⟨differs, hcmp⟩ : ∃ ret, memcmp r.block.toList 236 hash.toList 0 (20 : Nat) = .ok ret :=
    memcmp_total (by omega) (by omega)
  have hrun : rsaVerifyKey r.prop r.signature.toList 256 256 sha1Algo hash.toList =
      if pad ≠ 0 then .ok pad else if differs ≠ 0 then .ok 1 else .ok 0 := by
    rw [rsaVerifyKey, r.recovers]
    show (rsaVerifyPadding r.block.toList 236 sha1Algo >>= _) = _
    rw [hpad, ok_bind]
    split
    · rfl
    · show (memcmp r.block.toList 236 hash.toList 0 (20 : Nat) >>= _) = _
      rw [hcmp]
      rfl
  have hsuffix : differs = 0 ↔ r.block.toList.drop 236 = hash.toList := by
    rw [← memcmp_zero_suffix_iff (by omega), hhash, hcmp, Except.ok.injEq]
  rw [hrun]
  by_cases hp : pad = 0
  · rw [if_neg (not_not.mpr hp)]
    by_cases hd : differs = 0
    · rw [if_neg (not_not.mpr hd)]
      exact ⟨0, rfl, iff_of_true rfl ⟨hpad0.mp hp, hsuffix.mp hd⟩⟩
    · rw [if_pos hd]
      exact ⟨1, rfl, iff_of_false (by decide) fun h => hd (hsuffix.mpr h.2)⟩
  · rw [if_pos hp]
    exact ⟨pad, rfl, iff_of_false hp fun h => hp (hpad0.mpr h.1)⟩

theorem rsaVerifyKey_zero_iff (r : Recovered) (hash : Vector UInt8 20) :
    (∀ fault, rsaVerifyKey r.prop r.signature.toList 256 256 sha1Algo hash.toList ≠ .error fault) ∧
      (rsaVerifyKey r.prop r.signature.toList 256 256 sha1Algo hash.toList = .ok 0 ↔
        r.block.toList = [0x00, 0x01] ++ List.replicate 218 0xff ++ [0x00] ++ sha1DerPrefix ++
          hash.toList) := by
  obtain ⟨ret, hret, hzero⟩ := rsaVerifyKey_total r hash
  have hsplit : r.block.toList = emsaPkcs1 218 sha1DerPrefix ++ hash.toList ↔
      r.block.toList.take 236 = emsaPkcs1 218 sha1DerPrefix ∧
        r.block.toList.drop 236 = hash.toList := by
    have hlen : (emsaPkcs1 218 sha1DerPrefix).length = 236 := length_emsaPkcs1 218 sha1DerPrefix
    constructor
    · intro h
      rw [h]
      exact ⟨List.take_left' hlen, List.drop_left' hlen⟩
    · rintro ⟨htake, hdrop⟩
      rw [← htake, ← hdrop, List.take_append_drop]
  rw [hret]
  refine ⟨by simp, ?_⟩
  rw [Except.ok.injEq, hzero, ← hsplit, emsaPkcs1]

theorem exists_recovered (signature : Vector UInt8 256) :
    ∃ r : Recovered, r.prop = builtinProp ∧ r.signature = signature ∧
      bytesVal r.block.toList = bytesVal signature.toList ^ 65537 % builtinKey.n := by
  have hsig : signature.toList.length = 256 := signature.length_toList
  obtain ⟨block, hblock, hlen, hval⟩ := RsaKey.powMod_val builtinKey (hsig.trans rfl)
  have hexponent : usedExponent builtinKey.exponent.toNat = 65537 := by decide
  rw [hexponent] at hval
  have hrun : rsaModExpSw signature.toList 256 builtinProp = .ok (0, block) :=
    (rsaModExpSw_ok hsig).mpr ⟨rfl, hblock⟩
  obtain ⟨v, rfl⟩ : ∃ v : Vector UInt8 256, v.toList = block := ⟨⟨block.toArray, hlen⟩, rfl⟩
  exact ⟨⟨builtinProp, rfl, signature, v, hrun⟩, rfl, rfl, hval⟩

theorem rsaVerify_total (signature : Vector UInt8 256) {hash : List UInt8} (h : hash.length = 20) :
    ∃ ret, rsaVerify signature.toList 256 256 sha1Algo hash = .ok ret := by
  obtain ⟨r, hprop, hsig, -⟩ := exists_recovered signature
  obtain ⟨v, rfl⟩ : ∃ v : Vector UInt8 20, v.toList = hash := ⟨⟨hash.toArray, h⟩, rfl⟩
  obtain ⟨ret, hret, -⟩ := rsaVerifyKey_total r v
  rw [hprop, hsig] at hret
  exact ⟨ret, hret⟩

end BismarckPreloader.Secure
