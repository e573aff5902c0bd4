import BismarckPreloader.Xmodem.Sessions
import Mathlib.Data.List.Nodup
import Mathlib.Data.Nat.Bitwise

/-!
# What the check of a packet finds

The low bytes of the entries of `crc16tab` all differ. So a step of `crc16_ccitt` can be taken
back, and two bytes can be told from the sixteen bits that they leave: whatever happens to two
neighbouring bytes of a packet, the check finds it.
-/

namespace BismarckPreloader.Xmodem

def crcIndex (crc : UInt16) (b : UInt8) : Nat := (((crc >>> 8) ^^^ b.toUInt16) &&& 0x00FF).toNat

/-- A step of `crc16_ccitt`. -/
def crcStep (crc : UInt16) (b : UInt8) : UInt16 := (crc <<< 8) ^^^ crc16tab.getD (crcIndex crc b) 0

theorem crc16Ccitt_eq (buf : List UInt8) : crc16Ccitt buf = buf.foldl crcStep 0 := rfl

variable {crc crc' : UInt16} {a b a' b' : UInt8}

theorem crcIndex_eq (crc : UInt16) (b : UInt8) : crcIndex crc b = crc.toNat / 256 ^^^ b.toNat := by
  have hc := crc.toNat_lt
  have hx : crc.toNat / 256 ^^^ b.toNat < 2 ^ 8 := Nat.xor_lt_two_pow (by omega) b.toNat_lt
  rw [crcIndex, UInt16.toNat_and, UInt16.toNat_xor, UInt16.toNat_shiftRight, UInt8.toNat_toUInt16,
    Nat.shiftRight_eq_div_pow, show UInt16.toNat 8 % 16 = 8 from rfl,
    show UInt16.toNat 0x00FF = 2 ^ 8 - 1 from rfl, Nat.and_two_pow_sub_one_eq_mod,
    Nat.mod_eq_of_lt hx]

theorem crc16tab_length : crc16tab.length = 2 ^ 8 := by decide +kernel

theorem crcIndex_lt (crc : UInt16) (b : UInt8) : crcIndex crc b < crc16tab.length := by
  have hc := crc.toNat_lt
  rw [crcIndex_eq, crc16tab_length]
  exact Nat.xor_lt_two_pow (by omega) b.toNat_lt

theorem shift8_toNat (crc : UInt16) : (crc <<< 8).toNat = crc.toNat % 256 * 256 := by
  rw [UInt16.toNat_shiftLeft, Nat.shiftLeft_eq, show UInt16.toNat 8 % 16 = 8 from rfl]
  omega

theorem crc16tab_low_nodup : (crc16tab.map UInt16.toUInt8).Nodup := by decide +kernel

theorem low_crcStep (crc : UInt16) (b : UInt8) : (crcStep crc b).toUInt8 =
    (crc16tab.map UInt16.toUInt8).get
      ⟨crcIndex crc b, (crcIndex_lt crc b).trans_eq (List.length_map _).symm⟩ := by
  have hlow : (crc <<< 8).toUInt8 = 0 := by
    rw [← UInt8.toNat_inj, UInt16.toNat_toUInt8, shift8_toNat]
    exact Nat.mul_mod_left _ _
  rw [crcStep, UInt16.toUInt8_xor, hlow, UInt8.zero_xor, List.getD_eq_getElem _ _ (crcIndex_lt _ _),
    List.get_eq_getElem, List.getElem_map]

theorem get_inj {l : List UInt8} (hl : l.Nodup) {i j : Nat} {hi : i < l.length} {hj : j < l.length}
    (h : l.get ⟨i, hi⟩ = l.get ⟨j, hj⟩) : i = j :=
  congrArg Fin.val (List.nodup_iff_injective_get.mp hl h)

theorem crcIndex_inj (h : (crcStep crc a).toUInt8 = (crcStep crc' b).toUInt8) :
    crcIndex crc a = crcIndex crc' b := by
  rw [low_crcStep, low_crcStep] at h
  exact get_inj crc16tab_low_nodup h

theorem crcStep_inj (h : crcStep crc a = crcStep crc' b) :
    crcIndex crc a = crcIndex crc' b ∧ crc.toNat % 256 = crc'.toNat % 256 := by
  have hindex := crcIndex_inj (congrArg UInt16.toUInt8 h)
  refine ⟨hindex, ?_⟩
  rw [crcStep, crcStep, hindex, UInt16.xor_left_inj] at h
  have hnat := congrArg UInt16.toNat h
  rw [shift8_toNat, shift8_toNat] at hnat
  omega

theorem crcStep_left (h : crcStep crc b = crcStep crc' b) : crc = crc' := by
  obtain ⟨hindex, hlow⟩ := crcStep_inj h
  rw [crcIndex_eq, crcIndex_eq] at hindex
  have hhigh : crc.toNat / 256 = crc'.toNat / 256 := Nat.xor_left_injective hindex
  exact UInt16.toNat_inj.mp (by omega)

theorem crcIndex_right (h : crcIndex crc a = crcIndex crc a') : a = a' := by
  rw [crcIndex_eq, crcIndex_eq] at h
  exact UInt8.toNat_inj.mp (Nat.xor_right_injective h)

theorem crcStep_two (h : crcStep (crcStep crc a) b = crcStep (crcStep crc a') b') :
    a = a' ∧ b = b' := by
  obtain ⟨hindex, hlow⟩ := crcStep_inj h
  have hfirst : a = a' := crcIndex_right (crcIndex_inj (UInt8.toNat_inj.mp hlow))
  subst hfirst
  exact ⟨rfl, crcIndex_right hindex⟩

theorem foldl_crcStep_inj (post : List UInt8)
    (h : post.foldl crcStep crc = post.foldl crcStep crc') : crc = crc' := by
  induction post generalizing crc crc' with
  | nil => exact h
  | cons b post ih => exact crcStep_left (ih h)

theorem crc16Ccitt_two {pre post : List UInt8}
    (h : crc16Ccitt (pre ++ a :: b :: post) = crc16Ccitt (pre ++ a' :: b' :: post)) :
    a = a' ∧ b = b' := by
  rw [crc16Ccitt_eq, crc16Ccitt_eq, List.foldl_append, List.foldl_append] at h
  simp only [List.foldl_cons] at h
  exact crcStep_two (foldl_crcStep_inj post h)

theorem crc16Ccitt_residue (data : List UInt8) (high low : UInt8)
    (h : crc16Ccitt data = (high.toUInt16 <<< 8) + low.toUInt16) :
    crc16Ccitt (data ++ [high, low]) = 0 := by
  have hhigh := high.toNat_lt
  have hlow := low.toNat_lt
  have hfold : crc16Ccitt (data ++ [high, low]) = crcStep (crcStep (crc16Ccitt data) high) low := by
    rw [crc16Ccitt_eq, crc16Ccitt_eq, List.foldl_append]
    rfl
  have hnat : (crc16Ccitt data).toNat = high.toNat * 256 + low.toNat := by
    rw [h, UInt16.toNat_add, shift8_toNat, UInt8.toNat_toUInt16, UInt8.toNat_toUInt16]
    omega
  have hzero : crc16tab.getD 0 0 = 0 := rfl
  have h1 : crcStep (crc16Ccitt data) high = crc16Ccitt data <<< 8 := by
    have hi : crcIndex (crc16Ccitt data) high = 0 := by
      rw [crcIndex_eq, hnat, show (high.toNat * 256 + low.toNat) / 256 = high.toNat by omega,
        Nat.xor_self]
    rw [crcStep, hi, hzero, UInt16.xor_zero]
  have h2 : crcIndex (crc16Ccitt data <<< 8) low = 0 := by
    rw [crcIndex_eq, shift8_toNat, hnat,
      show (high.toNat * 256 + low.toNat) % 256 * 256 / 256 = low.toNat by omega, Nat.xor_self]
  rw [hfold, h1, crcStep, h2, hzero, UInt16.xor_zero, ← UInt16.toNat_inj, shift8_toNat,
    shift8_toNat, Nat.mul_mod_left]
  rfl

theorem residue_of_check {buf : List UInt8} {sz : Nat} (hlen : buf.length = sz + 2)
    (h : check true buf sz = true) : crc16Ccitt buf = 0 := by
  rw [check, if_pos rfl, beq_iff_eq] at h
  have hbuf : buf = buf.take sz ++ [buf.getD sz 0, buf.getD (sz + 1) 0] := by
    refine List.ext_getElem (by simp; omega) fun i hi hi' => ?_
    rw [List.getElem_append]
    split
    · simp
    · next hge =>
      simp only [List.length_take] at hge
      obtain rfl | rfl : i = sz ∨ i = sz + 1 := by omega
      · simp [hlen]
      · simp [hlen]
  rw [hbuf]
  exact crc16Ccitt_residue _ _ _ h

/-- A packet checked by CRC that arrives with two neighbouring bytes of its payload or its check
changed. -/
structure Garbled where
  sent : Packet
  received : Packet
  crc : sent.crc = true ∧ received.crc = true
  pre : List UInt8
  post : List UInt8
  word : UInt8 × UInt8
  changed : UInt8 × UInt8
  sent_body : sent.body.drop 2 = pre ++ word.1 :: word.2 :: post
  received_body : received.body.drop 2 = pre ++ changed.1 :: changed.2 :: post
  ne : word ≠ changed

-- Intact packets that arrive with a wrong first byte.
example (start : Start) (n : Nat) : ∃ g : Garbled, g.sent.intact = true := by
  refine ⟨{ sent := zeroPacket start n
            received := ⟨start, true, 0 :: 0 :: 1 :: List.replicate (start.bufsz + 1) 0, by
              simp [packetLength]⟩
            crc := ⟨rfl, rfl⟩, pre := [], post := List.replicate start.bufsz 0
            word := (0, 0), changed := (1, 0), sent_body := rfl, received_body := rfl
            ne := by decide }, zeroPacket_intact start n⟩

/-- No such packet is taken for the one that was sent. -/
theorem Garbled.detected (g : Garbled) : (g.sent.intact && g.received.intact) = false := by
  have residue : ∀ k : Packet, k.crc = true → k.intact = true → crc16Ccitt (k.body.drop 2) = 0 := by
    intro k hcrc hk
    have hfull := k.full
    rw [Packet.intact, hcrc, Bool.and_eq_true] at hk
    rw [packetLength, hcrc] at hfull
    exact residue_of_check (by rw [List.length_drop, hfull]; simp) hk.2
  by_contra hboth
  rw [Bool.not_eq_false, Bool.and_eq_true] at hboth
  have hsent := residue g.sent g.crc.1 hboth.1
  have hreceived := residue g.received g.crc.2 hboth.2
  rw [g.sent_body] at hsent
  rw [g.received_body, ← hsent] at hreceived
  obtain ⟨h1, h2⟩ := crc16Ccitt_two hreceived
  exact g.ne (Prod.ext h1.symm h2.symm)

end BismarckPreloader.Xmodem
