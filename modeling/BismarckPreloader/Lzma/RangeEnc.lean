import BismarckPreloader.Lib.RangeCoder
import Mathlib.Tactic.Linarith

/-!
# The range encoder

`RangeEnc_EncodeBit`, `RangeEnc_EncodeDirectBits`, `RangeEnc_ShiftLow` and
`RangeEnc_FlushData` of the LZMA tool. A byte is held back in `cache`, followed by
`cacheSize - 1` bytes 0xff, as long as a carry out of the low 32 bits of `low` can still change
them.

Held back or not, the digits so far and `low` spell one number. A shift multiplies it by 256,
whatever happens to the carry, and the calls are steps of a range coder.
-/

namespace BismarckPreloader.Lzma

open RangeCoder

-- ---------------------------------------------------------------------------
-- Probabilities
-- ---------------------------------------------------------------------------

@[ext] structure Prob where
  val : UInt16
  ge : 31 ≤ val.toNat
  le : val.toNat ≤ 2017

theorem initValue_ge : 31 ≤ (1024 : UInt16).toNat := by decide

theorem initValue_le : (1024 : UInt16).toNat ≤ 2017 := by decide

namespace Prob

def initValue : Prob := ⟨1024, initValue_ge, initValue_le⟩

def ttt (p : Prob) : UInt32 := p.val.toUInt32

theorem ttt_toNat (p : Prob) : p.ttt.toNat = p.val.toNat := by
  simp [ttt]

theorem up_toNat (p : Prob) : (p.ttt + (2048 - p.ttt) >>> 5).toUInt16.toNat =
    p.val.toNat + (2048 - p.val.toNat) / 32 := by
  have hge := p.ge
  have hle := p.le
  have hsub : (2048 - p.ttt).toNat = 2048 - p.val.toNat := by
    rw [UInt32.toNat_sub_of_le, p.ttt_toNat]
    · rfl
    · rw [UInt32.le_iff_toNat_le, p.ttt_toNat]
      exact hle.trans (by decide)
  have hshift : ((2048 - p.ttt) >>> 5).toNat = (2048 - p.val.toNat) / 32 := by
    rw [UInt32.toNat_shiftRight, hsub, Nat.shiftRight_eq_div_pow]
    rfl
  rw [UInt32.toNat_toUInt16, UInt32.toNat_add, hshift, p.ttt_toNat]
  omega

theorem down_toNat (p : Prob) : (p.ttt - p.ttt >>> 5).toUInt16.toNat =
    p.val.toNat - p.val.toNat / 32 := by
  have hle := p.le
  have hshift : (p.ttt >>> 5).toNat = p.val.toNat / 32 := by
    simp [UInt32.toNat_shiftRight, p.ttt_toNat, Nat.shiftRight_eq_div_pow]
  have hsub : (p.ttt - p.ttt >>> 5).toNat = p.val.toNat - p.val.toNat / 32 := by
    rw [UInt32.toNat_sub_of_le, p.ttt_toNat, hshift]
    rw [UInt32.le_iff_toNat_le, p.ttt_toNat, hshift]
    omega
  rw [UInt32.toNat_toUInt16, hsub]
  omega

theorem up_ge (p : Prob) : 31 ≤ (p.ttt + (2048 - p.ttt) >>> 5).toUInt16.toNat := by
  have := p.ge
  rw [p.up_toNat]
  omega

theorem up_le (p : Prob) : (p.ttt + (2048 - p.ttt) >>> 5).toUInt16.toNat ≤ 2017 := by
  have := p.le
  rw [p.up_toNat]
  omega

theorem down_ge (p : Prob) : 31 ≤ (p.ttt - p.ttt >>> 5).toUInt16.toNat := by
  have := p.ge
  rw [p.down_toNat]
  omega

theorem down_le (p : Prob) : (p.ttt - p.ttt >>> 5).toUInt16.toNat ≤ 2017 := by
  have := p.le
  rw [p.down_toNat]
  omega

def update (p : Prob) (bit : Bool) : Prob :=
  if bit then ⟨(p.ttt - p.ttt >>> 5).toUInt16, p.down_ge, p.down_le⟩
  else ⟨(p.ttt + (2048 - p.ttt) >>> 5).toUInt16, p.up_ge, p.up_le⟩

def bound (p : Prob) (range : UInt32) : UInt32 := (range >>> 11) * p.ttt

theorem bound_toNat (p : Prob) (range : UInt32) :
    (p.bound range).toNat = range.toNat / 2048 * p.val.toNat := by
  have hle := p.le
  have hrange := range.toNat_lt
  have hmul : range.toNat / 2048 * p.val.toNat ≤ range.toNat / 2048 * 2017 :=
    Nat.mul_le_mul_left _ hle
  have hshift : (range >>> 11).toNat = range.toNat / 2048 := by
    simp [UInt32.toNat_shiftRight, Nat.shiftRight_eq_div_pow]
  rw [bound, UInt32.toNat_mul, p.ttt_toNat, hshift, Nat.mod_eq_of_lt (by omega)]

theorem bound_spec (p : Prob) {range : UInt32} (h : 2 ^ 24 ≤ range.toNat) :
    2 ^ 17 ≤ (p.bound range).toNat ∧ (p.bound range).toNat + 2 ^ 17 ≤ range.toNat := by
  have hge := p.ge
  have hle := p.le
  have hlow : range.toNat / 2048 * 31 ≤ range.toNat / 2048 * p.val.toNat :=
    Nat.mul_le_mul_left _ hge
  have hhigh : range.toNat / 2048 * p.val.toNat ≤ range.toNat / 2048 * 2017 :=
    Nat.mul_le_mul_left _ hle
  rw [p.bound_toNat]
  omega

end Prob

def kTopValue : UInt32 := (1 : UInt32) <<< 24

/-- `out` is what has been given to the output stream. The stream does not fail, and there are
fewer bytes held back than a 64-bit counter can count. -/
structure RangeEnc where
  range : UInt32
  cache : UInt8
  low : UInt64
  cacheSize : Nat
  out : List UInt8

namespace RangeEnc

def init : RangeEnc where
  range := 0xFFFFFFFF
  cache := 0
  low := 0
  cacheSize := 1
  out := []

def drain (carry temp : UInt8) : Nat → List UInt8
  | 0 => []
  | n + 1 => (temp + carry) :: drain carry 0xFF n

def shiftLow (p : RangeEnc) : RangeEnc :=
  let p :=
    if p.low.toUInt32 < 0xFF000000 ∨ (p.low >>> 32).toUInt32 ≠ 0 then
      { p with
        out := p.out ++ drain (p.low >>> 32).toUInt8 p.cache p.cacheSize
        cacheSize := 0
        cache := (p.low.toUInt32 >>> 24).toUInt8 }
    else p
  { p with cacheSize := p.cacheSize + 1, low := (p.low.toUInt32 <<< 8).toUInt64 }

def normalize (p : RangeEnc) : RangeEnc :=
  if p.range < kTopValue then { p with range := p.range <<< 8 }.shiftLow else p

def flushData (p : RangeEnc) : RangeEnc := p.shiftLow.shiftLow.shiftLow.shiftLow.shiftLow

def narrowDirect (p : RangeEnc) (bit : Bool) : RangeEnc :=
  let range := p.range >>> 1
  { p with range := range, low := p.low + (range &&& (0 - if bit then 1 else 0)).toUInt64 }

def encodeDirectBit (p : RangeEnc) (bit : Bool) : RangeEnc := (p.narrowDirect bit).normalize

def narrowBit (p : RangeEnc) (prob : Prob) (symbol : Bool) : RangeEnc :=
  let newBound := prob.bound p.range
  if symbol then { p with range := p.range - newBound, low := p.low + newBound.toUInt64 }
  else { p with range := newBound }

def encodeBit (p : RangeEnc) (prob : Prob) (symbol : Bool) : RangeEnc :=
  (p.narrowBit prob symbol).normalize

variable {p : RangeEnc} {r : Nat}

def pending (p : RangeEnc) : List UInt8 := p.cache :: List.replicate (p.cacheSize - 1) 0xFF

def digits (p : RangeEnc) : List UInt8 := p.out ++ p.pending

def value (p : RangeEnc) : Nat := bytesVal p.digits * 2 ^ 32 + p.low.toNat

def span (p : RangeEnc) : Span := ⟨p.value, p.range.toNat, p.digits.length + 4⟩

/-- With `r` numbers from `low` on a carry does not run past the bytes held back. -/
structure Fits (p : RangeEnc) (r : Nat) : Prop where
  pos : 0 < p.cacheSize
  low_le : p.low.toNat + r ≤ 2 ^ 33
  carry_le : bytesVal p.pending * 2 ^ 32 + p.low.toNat + r ≤ 256 ^ p.cacheSize * 2 ^ 32

theorem Fits.mono (h : Fits p r) (hr : r' ≤ r) : Fits p r' := by
  have h1 := h.low_le
  have h2 := h.carry_le
  exact ⟨h.pos, by omega, by omega⟩

theorem bytesVal_ones (n : Nat) : bytesVal (List.replicate n 0xFF) + 1 = 256 ^ n := by
  induction n with
  | zero => rfl
  | succ n ih =>
    rw [List.replicate_succ, bytesVal, List.length_replicate, Nat.pow_succ,
      show (0xFF : UInt8).toNat = 255 from rfl]
    omega

theorem bytesVal_pending (p : RangeEnc) :
    bytesVal p.pending + 1 = (p.cache.toNat + 1) * 256 ^ (p.cacheSize - 1) := by
  have := bytesVal_ones (p.cacheSize - 1)
  rw [pending, bytesVal, List.length_replicate, Nat.add_mul]
  omega

theorem drain_zero (temp : UInt8) (n : Nat) :
    drain 0 temp (n + 1) = temp :: List.replicate n 0xFF := by
  induction n generalizing temp with
  | zero => simp [drain]
  | succ n ih =>
    rw [drain, ih, List.replicate_succ]
    simp

theorem length_drain (carry temp : UInt8) (n : Nat) : (drain carry temp n).length = n := by
  induction n generalizing temp with
  | zero => rfl
  | succ n ih => rw [drain, List.length_cons, ih]

theorem bytesVal_drain_one_ones (n : Nat) : bytesVal (drain 1 0xFF n) = 0 := by
  induction n with
  | zero => rfl
  | succ n ih =>
    rw [drain, bytesVal, ih, show ((0xFF : UInt8) + 1).toNat = 0 from rfl]
    simp

theorem bytesVal_drain_one {temp : UInt8} (h : temp.toNat + 1 < 256) (n : Nat) :
    bytesVal (drain 1 temp (n + 1)) = (temp.toNat + 1) * 256 ^ n := by
  have hadd : (temp + 1).toNat = temp.toNat + 1 := by
    rw [UInt8.toNat_add, show (1 : UInt8).toNat = 1 from rfl]
    omega
  rw [drain, bytesVal, bytesVal_drain_one_ones, length_drain, hadd, Nat.add_zero]

-- ---------------------------------------------------------------------------
-- A shift
-- ---------------------------------------------------------------------------

theorem low32_toNat (p : RangeEnc) : p.low.toUInt32.toNat = p.low.toNat % 2 ^ 32 :=
  UInt64.toNat_toUInt32 _

theorem carry_toNat (p : RangeEnc) : (p.low >>> 32).toNat = p.low.toNat / 2 ^ 32 := by
  rw [UInt64.toNat_shiftRight, Nat.shiftRight_eq_div_pow]
  rfl

theorem cached_toNat (p : RangeEnc) :
    (p.low.toUInt32 >>> 24).toUInt8.toNat = p.low.toNat % 2 ^ 32 / 2 ^ 24 := by
  rw [UInt32.toNat_toUInt8, UInt32.toNat_shiftRight, low32_toNat, Nat.shiftRight_eq_div_pow,
    show UInt32.toNat 24 % 32 = 24 from rfl]
  omega

theorem shifted_toNat (p : RangeEnc) :
    (p.low.toUInt32 <<< 8).toUInt64.toNat = p.low.toNat % 2 ^ 24 * 256 := by
  rw [UInt32.toNat_toUInt64, UInt32.toNat_shiftLeft, low32_toNat, Nat.shiftLeft_eq,
    show UInt32.toNat 8 % 32 = 8 from rfl]
  omega

theorem length_pending (hpos : 0 < p.cacheSize) : p.pending.length = p.cacheSize := by
  rw [pending, List.length_cons, List.length_replicate]
  omega

theorem shifted_low_le (L : Nat) (hsmall : r ≤ 2 ^ 24) :
    L % 2 ^ 24 * 256 + 256 * r ≤ 2 ^ 33 := by omega

theorem hold_carry_le {A L N : Nat} (h : A * 2 ^ 32 + L + r ≤ N * 2 ^ 32)
    (hlow : 0xFF000000 ≤ L) (hhigh : L < 2 ^ 32) :
    (A * 256 + 255) * 2 ^ 32 + L % 2 ^ 24 * 256 + 256 * r ≤ N * 256 * 2 ^ 32 := by
  have hmod : L % 2 ^ 24 + 0xFF000000 = L := by omega
  linarith

theorem emit_carry_le {L : Nat} (hle : L + r ≤ 2 ^ 33) (hsmall : r ≤ 2 ^ 24)
    (hlow : L < 0xFF000000 ∨ 2 ^ 32 ≤ L) :
    L % 2 ^ 32 / 2 ^ 24 * 2 ^ 32 + L % 2 ^ 24 * 256 + 256 * r ≤ 256 ^ 1 * 2 ^ 32 := by omega

structure Shifted (p p' : RangeEnc) (r : Nat) : Prop where
  value : p'.value = 256 * p.value
  length : p'.digits.length = p.digits.length + 1
  fits : Fits p' (256 * r)
  low_eq : p'.low.toNat = p.low.toNat % 2 ^ 24 * 256

theorem shifted_hold (h : Fits p r) (hsmall : r ≤ 2 ^ 24) (hlow : 0xFF000000 ≤ p.low.toNat)
    (hhigh : p.low.toNat < 2 ^ 32) : Shifted p p.shiftLow r := by
  have hnot : ¬(p.low.toUInt32 < 0xFF000000 ∨ (p.low >>> 32).toUInt32 ≠ 0) := by
    rw [UInt32.lt_iff_toNat_lt, low32_toNat, ← UInt32.toNat_inj.ne, UInt64.toNat_toUInt32,
      carry_toNat, show UInt32.toNat 0xFF000000 = 0xFF000000 from rfl,
      show UInt32.toNat 0 = 0 from rfl]
    omega
  have hp : p.shiftLow =
      { p with cacheSize := p.cacheSize + 1, low := (p.low.toUInt32 <<< 8).toUInt64 } := by
    rw [shiftLow, if_neg hnot]
  have hpos := h.pos
  have hpend : p.shiftLow.pending = p.pending ++ [0xFF] := by
    rw [hp, pending, pending, Nat.add_sub_cancel, List.cons_append, ← List.replicate_succ',
      Nat.sub_add_cancel hpos]
  have hdig : p.shiftLow.digits = p.digits ++ [0xFF] := by
    rw [digits, hpend, digits, ← List.append_assoc, hp]
  have hlow' : p.shiftLow.low.toNat = p.low.toNat % 2 ^ 24 * 256 := by
    rw [hp]
    exact p.shifted_toNat
  have hval : ∀ ds : List UInt8, bytesVal (ds ++ [0xFF]) = bytesVal ds * 256 + 255 := fun ds => by
    rw [bytesVal_append]
    rfl
  have hcarry := h.carry_le
  refine ⟨?_, ?_, ⟨?_, ?_, ?_⟩, hlow'⟩
  · rw [value, value, hdig, hval, hlow']
    omega
  · rw [hdig, List.length_append]
    rfl
  · rw [hp]
    exact Nat.succ_pos _
  · rw [hlow']
    exact shifted_low_le _ hsmall
  · have hsize : p.shiftLow.cacheSize = p.cacheSize + 1 := by rw [hp]
    rw [hpend, hval, hlow', hsize, Nat.pow_succ]
    exact hold_carry_le hcarry hlow hhigh

theorem shifted_emit (h : Fits p r) (hr : 0 < r) (hsmall : r ≤ 2 ^ 24)
    (hlow : p.low.toNat < 0xFF000000 ∨ 2 ^ 32 ≤ p.low.toNat) : Shifted p p.shiftLow r := by
  have hle := h.low_le
  have hcarry := h.carry_le
  have hpos := h.pos
  obtain ⟨n, hn⟩ : ∃ n, p.cacheSize = n + 1 := ⟨p.cacheSize - 1, by omega⟩
  have hemit : p.low.toUInt32 < 0xFF000000 ∨ (p.low >>> 32).toUInt32 ≠ 0 := by
    rw [UInt32.lt_iff_toNat_lt, low32_toNat, ← UInt32.toNat_inj.ne, UInt64.toNat_toUInt32,
      carry_toNat, show UInt32.toNat 0xFF000000 = 0xFF000000 from rfl,
      show UInt32.toNat 0 = 0 from rfl]
    omega
  have hdrain : bytesVal (drain (p.low >>> 32).toUInt8 p.cache p.cacheSize) =
      bytesVal p.pending + p.low.toNat / 2 ^ 32 := by
    have hpend := p.bytesVal_pending
    rw [hn] at hpend ⊢
    rw [Nat.add_sub_cancel] at hpend
    rcases hlow with hlow | hlow
    · have hzero : (p.low >>> 32).toUInt8 = 0 := by
        rw [← UInt8.toNat_inj, UInt64.toNat_toUInt8, carry_toNat, show UInt8.toNat 0 = 0 from rfl]
        omega
      rw [hzero, drain_zero, pending, hn, Nat.add_sub_cancel]
      omega
    · have hone : (p.low >>> 32).toUInt8 = 1 := by
        rw [← UInt8.toNat_inj, UInt64.toNat_toUInt8, carry_toNat, show UInt8.toNat 1 = 1 from rfl]
        omega
      have hcache : p.cache.toNat + 1 < 256 := by
        by_contra hge
        have hmul : 256 * 256 ^ n ≤ (p.cache.toNat + 1) * 256 ^ n :=
          Nat.mul_le_mul_right _ (by omega)
        rw [hn, Nat.pow_succ] at hcarry
        omega
      rw [hone, bytesVal_drain_one hcache]
      omega
  have hp : p.shiftLow = { p with
      out := p.out ++ drain (p.low >>> 32).toUInt8 p.cache p.cacheSize
      cacheSize := 1
      cache := (p.low.toUInt32 >>> 24).toUInt8
      low := (p.low.toUInt32 <<< 8).toUInt64 } := by
    rw [shiftLow, if_pos hemit]
  have hpend : p.shiftLow.pending = [(p.low.toUInt32 >>> 24).toUInt8] := by
    rw [hp]
    rfl
  have hlow' : p.shiftLow.low.toNat = p.low.toNat % 2 ^ 24 * 256 := by
    rw [hp]
    exact p.shifted_toNat
  have hdig : p.shiftLow.digits = p.out ++ drain (p.low >>> 32).toUInt8 p.cache p.cacheSize ++
      [(p.low.toUInt32 >>> 24).toUInt8] := by
    rw [digits, hpend, hp]
  have hlast : ∀ (ds : List UInt8) (d : UInt8),
      bytesVal (ds ++ [d]) = bytesVal ds * 256 + d.toNat := fun ds d => by
    rw [bytesVal_append]
    simp [bytesVal]
  refine ⟨?_, ?_, ⟨?_, ?_, ?_⟩, hlow'⟩
  · rw [value, value, hdig, hlast, hlow', cached_toNat, bytesVal_append, hdrain, length_drain,
      digits, bytesVal_append, length_pending hpos]
    omega
  · rw [hdig, digits, List.length_append, List.length_append, List.length_append, length_drain,
      length_pending hpos]
    rfl
  · rw [hp]
    exact Nat.one_pos
  · rw [hlow']
    exact shifted_low_le _ hsmall
  · have hsize : p.shiftLow.cacheSize = 1 := by rw [hp]
    have hone : bytesVal [(p.low.toUInt32 >>> 24).toUInt8] =
        (p.low.toUInt32 >>> 24).toUInt8.toNat := by simp [bytesVal]
    rw [hpend, hsize, hlow', hone, cached_toNat]
    exact emit_carry_le hle hsmall hlow

theorem shiftLow_spec (h : Fits p r) (hr : 0 < r) (hsmall : r ≤ 2 ^ 24) :
    Shifted p p.shiftLow r := by
  by_cases hlow : p.low.toNat < 0xFF000000 ∨ 2 ^ 32 ≤ p.low.toNat
  · exact shifted_emit h hr hsmall hlow
  · rw [not_or, Nat.not_lt, Nat.not_le] at hlow
    exact shifted_hold h hsmall hlow.1 hlow.2

@[simp] theorem range_shiftLow (p : RangeEnc) : p.shiftLow.range = p.range := by
  unfold shiftLow
  split
  · rfl
  · rfl

-- ---------------------------------------------------------------------------
-- The calls
-- ---------------------------------------------------------------------------

structure Ready (p : RangeEnc) : Prop where
  fits : Fits p p.range.toNat
  top_le : 2 ^ 24 ≤ p.range.toNat

theorem kTopValue_toNat : kTopValue.toNat = 2 ^ 24 := rfl

theorem ready_init : Ready init where
  fits := ⟨by decide, by decide, by decide⟩
  top_le := by decide

theorem init_span : init.span = ⟨0, 0xFFFFFFFF, 5⟩ := rfl

/-- An interval that has been narrowed and may be small. -/
structure Narrowed (p : RangeEnc) : Prop where
  fits : Fits p p.range.toNat
  low_le : 2 ^ 16 ≤ p.range.toNat

theorem Narrowed.shifted (h : Narrowed p) (htop : p.range < kTopValue) :
    Ready p.normalize ∧ p.normalize.span = p.span.shift := by
  have hlow := h.low_le
  rw [normalize, if_pos htop]
  rw [UInt32.lt_iff_toNat_lt, kTopValue_toNat] at htop
  have hrange : (p.range <<< 8).toNat = 256 * p.range.toNat := by
    rw [UInt32.toNat_shiftLeft, Nat.shiftLeft_eq, show UInt32.toNat 8 % 32 = 8 from rfl]
    omega
  have hfits : Fits { p with range := p.range <<< 8 } p.range.toNat :=
    ⟨h.fits.pos, h.fits.low_le, h.fits.carry_le⟩
  have hs := shiftLow_spec hfits (by omega) (by omega)
  refine ⟨⟨?_, ?_⟩, ?_⟩
  · rw [range_shiftLow, hrange]
    exact hs.fits
  · rw [range_shiftLow, hrange]
    omega
  · ext
    · exact hs.value
    · exact (congrArg UInt32.toNat (range_shiftLow _)).trans hrange
    · exact congrArg (· + 4) hs.length

theorem Narrowed.ready (h : Narrowed p) : Ready p.normalize := by
  by_cases htop : p.range < kTopValue
  · exact (h.shifted htop).1
  · rw [normalize, if_neg htop]
    rw [UInt32.lt_iff_toNat_lt, kTopValue_toNat, Nat.not_lt] at htop
    exact ⟨h.fits, htop⟩

theorem Narrowed.steps (h : Narrowed p) : Steps p.span p.normalize.span := by
  by_cases htop : p.range < kTopValue
  · rw [(h.shifted htop).2]
    exact .single .shift
  · rw [normalize, if_neg htop]

theorem narrow_spec (h : Ready p) {low : UInt64} {range : UInt32} {off : Nat}
    (hlow : low.toNat = p.low.toNat + off) (hsize : off + range.toNat ≤ p.range.toNat)
    (hbig : 2 ^ 16 ≤ range.toNat) :
    Narrowed { p with range := range, low := low } ∧
      ({ p with range := range, low := low } : RangeEnc).span =
        p.span.narrow off range.toNat := by
  obtain ⟨hpos, hle, hcarry⟩ := h.fits
  refine ⟨⟨⟨hpos, ?_, ?_⟩, hbig⟩, ?_⟩
  · change low.toNat + range.toNat ≤ 2 ^ 33
    omega
  · change bytesVal p.pending * 2 ^ 32 + low.toNat + range.toNat ≤ 256 ^ p.cacheSize * 2 ^ 32
    omega
  · ext
    · change bytesVal p.digits * 2 ^ 32 + low.toNat = bytesVal p.digits * 2 ^ 32 + p.low.toNat + off
      omega
    · rfl
    · rfl

theorem low_add_toNat (h : Ready p) {w : UInt32} (hw : w.toNat ≤ p.range.toNat) :
    (p.low + w.toUInt64).toNat = p.low.toNat + w.toNat := by
  have := h.fits.low_le
  rw [UInt64.toNat_add, UInt32.toNat_toUInt64]
  omega

theorem sub_bound_toNat (h : Ready p) (prob : Prob) :
    (p.range - prob.bound p.range).toNat = p.range.toNat - (prob.bound p.range).toNat := by
  have := prob.bound_spec h.top_le
  rw [UInt32.toNat_sub_of_le]
  rw [UInt32.le_iff_toNat_le]
  omega

theorem narrowBit_zero (h : Ready p) (prob : Prob) :
    Narrowed (p.narrowBit prob false) ∧
      (p.narrowBit prob false).span = p.span.narrow 0 (prob.bound p.range).toNat := by
  obtain ⟨hlow, hhigh⟩ := prob.bound_spec h.top_le
  exact narrow_spec h rfl (by omega) (by omega)

theorem narrowBit_one (h : Ready p) (prob : Prob) :
    Narrowed (p.narrowBit prob true) ∧
      (p.narrowBit prob true).span = p.span.narrow (prob.bound p.range).toNat
        (p.range - prob.bound p.range).toNat := by
  obtain ⟨hlow, hhigh⟩ := prob.bound_spec h.top_le
  have hsub := sub_bound_toNat h prob
  exact narrow_spec h (low_add_toNat h (by omega)) (by omega) (by omega)

theorem half_toNat (range : UInt32) : (range >>> 1).toNat = range.toNat / 2 := by
  rw [UInt32.toNat_shiftRight, Nat.shiftRight_eq_div_pow]
  rfl

theorem narrowDirect_zero (h : Ready p) :
    Narrowed (p.narrowDirect false) ∧
      (p.narrowDirect false).span = p.span.narrow 0 (p.range >>> 1).toNat := by
  have htop := h.top_le
  have hhalf := half_toNat p.range
  have hmask : (p.range >>> 1) &&& ((0 : UInt32) - if false = true then (1 : UInt32) else 0) =
      0 := by simp
  rw [narrowDirect, hmask]
  exact narrow_spec h (low_add_toNat (w := 0) h (Nat.zero_le _)) (by omega) (by omega)

theorem narrowDirect_one (h : Ready p) :
    Narrowed (p.narrowDirect true) ∧
      (p.narrowDirect true).span = p.span.narrow (p.range >>> 1).toNat (p.range >>> 1).toNat := by
  have htop := h.top_le
  have hhalf := half_toNat p.range
  have hmask : (p.range >>> 1) &&& ((0 : UInt32) - if true = true then (1 : UInt32) else 0) =
      p.range >>> 1 := by
    rw [if_pos rfl, show (0 - 1 : UInt32) = -1 from rfl, UInt32.and_neg_one]
  rw [narrowDirect, hmask]
  exact narrow_spec h (low_add_toNat h (by omega)) (by omega) (by omega)

theorem narrowBit_spec (h : Ready p) (prob : Prob) (symbol : Bool) :
    Narrowed (p.narrowBit prob symbol) ∧ Step p.span (p.narrowBit prob symbol).span := by
  obtain ⟨hlow, hhigh⟩ := prob.bound_spec h.top_le
  have hsub := sub_bound_toNat h prob
  cases symbol with
  | false =>
    obtain ⟨hn, hspan⟩ := narrowBit_zero h prob
    rw [hspan]
    exact ⟨hn, .narrow (by change 0 + _ ≤ p.range.toNat; omega)⟩
  | true =>
    obtain ⟨hn, hspan⟩ := narrowBit_one h prob
    rw [hspan]
    exact ⟨hn, .narrow (by change _ + _ ≤ p.range.toNat; omega)⟩

theorem narrowDirect_spec (h : Ready p) (bit : Bool) :
    Narrowed (p.narrowDirect bit) ∧ Step p.span (p.narrowDirect bit).span := by
  have hhalf := half_toNat p.range
  cases bit with
  | false =>
    obtain ⟨hn, hspan⟩ := narrowDirect_zero h
    rw [hspan]
    exact ⟨hn, .narrow (by change 0 + _ ≤ p.range.toNat; omega)⟩
  | true =>
    obtain ⟨hn, hspan⟩ := narrowDirect_one h
    rw [hspan]
    exact ⟨hn, .narrow (by change _ + _ ≤ p.range.toNat; omega)⟩

theorem out_shiftLow_of_low_eq_zero (hlow : p.low.toNat = 0) (hpos : 0 < p.cacheSize) :
    p.shiftLow.out = p.digits := by
  obtain ⟨n, hn⟩ : ∃ n, p.cacheSize = n + 1 := ⟨p.cacheSize - 1, by omega⟩
  have hzero : p.low = 0 := UInt64.toNat_inj.mp hlow
  have hemit : p.low.toUInt32 < 0xFF000000 ∨ (p.low >>> 32).toUInt32 ≠ 0 := by
    rw [hzero]
    exact .inl (by decide)
  rw [shiftLow, if_pos hemit, digits, pending, hzero, hn, Nat.add_sub_cancel]
  exact congrArg (p.out ++ ·) (drain_zero p.cache n)

theorem flushData_spec (h : Ready p) :
    bytesVal p.flushData.out = p.value ∧ p.flushData.out.length = p.digits.length + 4 := by
  have hone : ∀ {q : RangeEnc} {r : Nat}, Fits q r → 0 < r → Shifted q q.shiftLow 1 :=
    fun hq hr => shiftLow_spec (hq.mono hr) Nat.one_pos (by decide)
  have htop := h.top_le
  obtain ⟨v1, l1, f1, w1⟩ := hone h.fits (by omega)
  obtain ⟨v2, l2, f2, w2⟩ := hone f1 (by decide)
  obtain ⟨v3, l3, f3, w3⟩ := hone f2 (by decide)
  obtain ⟨v4, l4, f4, w4⟩ := hone f3 (by decide)
  -- After four shifts nothing is left in `low`.
  have hlow : p.shiftLow.shiftLow.shiftLow.shiftLow.low.toNat = 0 := by omega
  rw [flushData, out_shiftLow_of_low_eq_zero hlow f4.pos]
  have hvalue : bytesVal p.shiftLow.shiftLow.shiftLow.shiftLow.digits * 2 ^ 32 +
      p.shiftLow.shiftLow.shiftLow.shiftLow.low.toNat = 256 * (256 * (256 * (256 * p.value))) := by
    rw [← v1, ← v2, ← v3, ← v4, value]
  exact ⟨by omega, by omega⟩

theorem flushData_holds (h : Ready p) (more : List UInt8) :
    p.span.Holds (p.flushData.out ++ more) := by
  obtain ⟨hval, hlen⟩ := flushData_spec h
  refine Span.Holds.append ?_ more
  have htake : p.flushData.out.take (p.digits.length + 4) = p.flushData.out :=
    List.take_of_length_le hlen.le
  have htop := h.top_le
  refine ⟨hlen.ge, ?_, ?_⟩
  · change p.value ≤ bytesVal (p.flushData.out.take (p.digits.length + 4))
    rw [htake, hval]
  · change bytesVal (p.flushData.out.take (p.digits.length + 4)) < p.value + p.range.toNat
    rw [htake, hval]
    omega

end RangeEnc

end BismarckPreloader.Lzma
