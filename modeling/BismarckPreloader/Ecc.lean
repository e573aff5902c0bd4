import Mathlib.Data.List.Basic
import Mathlib.Tactic.IntervalCases

/-!
# The ECC status word

`ecc_decode_bch_sector` decodes a page sector by sector and folds the engine's
results into one 32-bit status: the largest number of corrected bits when every
sector decoded, the error flag with one bit per failed sector otherwise.
`IS_ECC_DECODE_FAIL` reads the flag back by masking the low byte.

The main result is that the mask and the encoding agree on pages of up to eight
sectors (`isEccDecodeFail_eccDecodeBchSector`), and that no page of that size
ever has the bare flag as its status (`eccDecodeBchSector_ne_eccCtrlErr`).
-/

namespace BismarckPreloader

def eccErrorFlag : BitVec 32 := 0xECDEAD00#32

def eccCtrlErr : BitVec 32 := eccErrorFlag

def eccDecodeAllOne : BitVec 32 := 0xECCFFFFF#32

def eccUseOdeErr : BitVec 32 := 0xDEDEAD00#32

def isEccDecodeFail (eccsts : BitVec 32) : Bool :=
  eccsts &&& 0xFFFFFF00#32 == eccErrorFlag || eccsts &&& 0xFFFFFF00#32 == eccUseOdeErr

/-- The fields of the ECC status register that the driver reads once the engine
is done with a sector. -/
structure EccSts where
  ecer : Bool
  allOne : Bool
  eccn : BitVec 8
  deriving DecidableEq, Repr

/-- More bit errors than the code corrects. An erased sector also raises `ecer`,
but is told apart by `all_one`. -/
def EccSts.Uncorrectable (r : EccSts) : Prop := r.ecer = true ∧ r.allOne = false

instance (r : EccSts) : Decidable r.Uncorrectable :=
  inferInstanceAs (Decidable (r.ecer = true ∧ r.allOne = false))

def checkEccCtrlStatus (r : EccSts) : BitVec 32 :=
  if r.ecer then
    if r.allOne then eccDecodeAllOne else eccCtrlErr
  else r.eccn.setWidth 32

/-- The loop of `ecc_decode_bch_sector` from sector `j` on. -/
def decodeSectors : Nat → BitVec 32 → BitVec 32 → List EccSts → BitVec 32 × BitVec 32
  | _, eccErrorSector, sectorCorrectBits, [] => (eccErrorSector, sectorCorrectBits)
  | j, eccErrorSector, sectorCorrectBits, r :: rs =>
    let ret := checkEccCtrlStatus r
    if ret = eccCtrlErr then
      decodeSectors (j + 1) (eccErrorSector ||| 1#32 <<< j) sectorCorrectBits rs
    else if sectorCorrectBits.slt ret then decodeSectors (j + 1) eccErrorSector ret rs
    else decodeSectors (j + 1) eccErrorSector sectorCorrectBits rs

def eccDecodeBchSector (sectors : List EccSts) : BitVec 32 :=
  let (eccErrorSector, sectorCorrectBits) := decodeSectors 0 0#32 0#32 sectors
  if eccErrorSector = 0#32 then sectorCorrectBits else eccCtrlErr ||| eccErrorSector

/-- Nothing above the low byte: what `IS_ECC_DECODE_FAIL` masks away. -/
def LowByte (x : BitVec 32) : Prop := x &&& 0xFFFFFF00#32 = 0#32

theorem lowByte_zero : LowByte 0#32 := by
  unfold LowByte
  decide

theorem LowByte.or {x y : BitVec 32} (hx : LowByte x) (hy : LowByte y) : LowByte (x ||| y) := by
  unfold LowByte at *
  rw [BitVec.and_comm, BitVec.and_or_distrib_left, BitVec.and_comm _ x, BitVec.and_comm _ y, hx, hy]
  rfl

theorem lowByte_sectorBit (h : j < 8) : LowByte (1#32 <<< j) := by
  unfold LowByte
  interval_cases j <;> decide

theorem lowByte_setWidth (b : BitVec 8) : LowByte (b.setWidth 32) := by
  unfold LowByte
  revert b
  decide

theorem LowByte.eq_and {x : BitVec 32} (hx : LowByte x) : x = x &&& 0xFF#32 := by
  have hmask : (0xFFFFFF00#32 ||| 0xFF#32) = BitVec.allOnes 32 := by decide
  calc x = x &&& (0xFFFFFF00#32 ||| 0xFF#32) := by rw [hmask, BitVec.and_allOnes]
    _ = (x &&& 0xFFFFFF00#32) ||| (x &&& 0xFF#32) := BitVec.and_or_distrib_left ..
    _ = x &&& 0xFF#32 := by rw [hx, BitVec.zero_or]

theorem flag_or_ne {x : BitVec 32} (hx : LowByte x) (h : x ≠ 0#32) :
    eccCtrlErr ||| x ≠ eccCtrlErr := by
  intro he
  have hlow : (eccCtrlErr ||| x) &&& 0xFF#32 = 0#32 := by
    rw [he]
    decide
  rw [BitVec.and_comm, BitVec.and_or_distrib_left] at hlow
  apply h
  rw [hx.eq_and, BitVec.and_comm]
  exact (BitVec.or_eq_zero_iff.mp hlow).2

theorem isEccDecodeFail_flag_or {x : BitVec 32} (hx : LowByte x) :
    isEccDecodeFail (eccCtrlErr ||| x) = true := by
  have h : (eccCtrlErr ||| x) &&& 0xFFFFFF00#32 = eccErrorFlag := by
    rw [BitVec.and_comm, BitVec.and_or_distrib_left, BitVec.and_comm _ x, hx]
    decide
  simp [isEccDecodeFail, h]

theorem isEccDecodeFail_lowByte {x : BitVec 32} (hx : LowByte x) : isEccDecodeFail x = false := by
  unfold LowByte at hx
  simp [isEccDecodeFail, hx, eccErrorFlag, eccUseOdeErr]

theorem LowByte.ne_eccCtrlErr {x : BitVec 32} (hx : LowByte x) : x ≠ eccCtrlErr := by
  rintro rfl
  revert hx
  unfold LowByte
  decide

-- ---------------------------------------------------------------------------
-- The decoder's status
-- ---------------------------------------------------------------------------

theorem checkEccCtrlStatus_eq_err (r : EccSts) :
    checkEccCtrlStatus r = eccCtrlErr ↔ r.Uncorrectable := by
  obtain ⟨ecer, allOne, eccn⟩ := r
  cases ecer with
  | false =>
    simp only [checkEccCtrlStatus, EccSts.Uncorrectable, Bool.false_eq_true, if_false, false_and,
      iff_false]
    exact (lowByte_setWidth eccn).ne_eccCtrlErr
  | true =>
    cases allOne with
    | false => simp [checkEccCtrlStatus, EccSts.Uncorrectable]
    | true =>
      simp only [checkEccCtrlStatus, EccSts.Uncorrectable, if_true, Bool.true_eq_false, and_false,
        iff_false]
      decide

theorem lowByte_of_slt {bits : BitVec 32} (hb : LowByte bits) (r : EccSts)
    (he : checkEccCtrlStatus r ≠ eccCtrlErr) (h : bits.slt (checkEccCtrlStatus r) = true) :
    LowByte (checkEccCtrlStatus r) := by
  obtain ⟨ecer, allOne, eccn⟩ := r
  cases ecer with
  | false => exact lowByte_setWidth eccn
  | true =>
    cases allOne with
    | false => exact absurd rfl he
    | true =>
      have hn : bits.toNat < 2 ^ 31 := by
        rw [hb.eq_and, BitVec.toNat_and]
        exact Nat.lt_of_le_of_lt Nat.and_le_right (by decide)
      exfalso
      simp only [checkEccCtrlStatus, if_true, BitVec.slt, eccDecodeAllOne, decide_eq_true_eq] at h
      rw [BitVec.toInt_eq_toNat_of_lt (by omega)] at h
      have : (0xECCFFFFF#32).toInt < 0 := by decide
      omega

theorem decodeSectors_spec (sectors : List EccSts) (hj : j + sectors.length ≤ 8)
    (he : LowByte err) (hb : LowByte bits) :
    LowByte (decodeSectors j err bits sectors).1 ∧ LowByte (decodeSectors j err bits sectors).2 ∧
      ((decodeSectors j err bits sectors).1 = 0#32 ↔
        err = 0#32 ∧ ∀ r ∈ sectors, ¬ r.Uncorrectable) := by
  induction sectors generalizing j err bits with
  | nil => simp [decodeSectors, he, hb]
  | cons r rs ih =>
    simp only [List.length_cons] at hj
    rw [decodeSectors]
    split
    next hr =>
      have hu := (checkEccCtrlStatus_eq_err r).mp hr
      have hbit := lowByte_sectorBit (j := j) (by omega)
      obtain ⟨h₁, h₂, h₃⟩ := ih (j := j + 1) (by omega) (he.or hbit) hb
      refine ⟨h₁, h₂, h₃.trans ?_⟩
      have hne : err ||| 1#32 <<< j ≠ 0#32 := by
        intro h0
        have h1 := (BitVec.or_eq_zero_iff.mp h0).2
        have hj8 : j < 8 := by omega
        revert h1
        interval_cases j <;> decide
      simp [hne, hu]
    next hr =>
      have hu : ¬ r.Uncorrectable := fun h => hr ((checkEccCtrlStatus_eq_err r).mpr h)
      split
      next hlt =>
        have := ih (j := j + 1) (by omega) he (lowByte_of_slt hb r hr hlt)
        simpa [hu] using this
      next =>
        have := ih (j := j + 1) (by omega) he hb
        simpa [hu] using this

/-- The status of a page with a failed sector is never the bare flag: at least
one bit of the mask is set. -/
theorem eccDecodeBchSector_ne_eccCtrlErr (sectors : List EccSts) (h : sectors.length ≤ 8) :
    eccDecodeBchSector sectors ≠ eccCtrlErr := by
  obtain ⟨he, hb, -⟩ := decodeSectors_spec (j := 0) sectors (by omega) lowByte_zero lowByte_zero
  unfold eccDecodeBchSector
  dsimp only
  split
  next => exact hb.ne_eccCtrlErr
  next h0 => exact flag_or_ne he h0

/-- `IS_ECC_DECODE_FAIL` recognises exactly the pages with a failed sector. -/
theorem isEccDecodeFail_eccDecodeBchSector (sectors : List EccSts) (h : sectors.length ≤ 8) :
    isEccDecodeFail (eccDecodeBchSector sectors) = true ↔ ∃ r ∈ sectors, r.Uncorrectable := by
  obtain ⟨he, hb, hz⟩ := decodeSectors_spec (j := 0) sectors (by omega) lowByte_zero lowByte_zero
  unfold eccDecodeBchSector
  dsimp only
  split
  next h0 =>
    have hc := (hz.mp h0).2
    simp only [isEccDecodeFail_lowByte hb, Bool.false_eq_true, false_iff]
    rintro ⟨r, hr, hu⟩
    exact hc r hr hu
  next h0 =>
    simp only [isEccDecodeFail_flag_or he, true_iff]
    by_contra hn
    apply h0
    rw [hz]
    exact ⟨rfl, fun r hr hu => hn ⟨r, hr, hu⟩⟩

example : eccDecodeBchSector [⟨false, false, 3⟩, ⟨true, false, 0⟩, ⟨true, true, 0⟩, ⟨true, false, 0⟩]
    = 0xECDEAD0A#32 := by decide

end BismarckPreloader
