import BismarckPreloader.Lzma.Lookahead
import Mathlib.Data.Rat.Cast.Order
import Mathlib.Tactic.Linarith
import Mathlib.Tactic.NormNum
import Mathlib.Tactic.Positivity

/-!
# Any input

Whatever bytes the decoder is given, it stays inside its input, its probabilities and its
output, and it comes to an end.

That twenty bytes of input are enough for any packet is a matter of weights: a bit with a
probability leaves at least one part in 67 of the interval, a direct bit about a half, and a
byte makes it 256 times as large. `Fuelled` says that the interval and the bytes left outweigh
what the bits still to be read can take.
-/

namespace BismarckPreloader.Lzma

open RangeCoder

-- ---------------------------------------------------------------------------
-- Programs with a bound
-- ---------------------------------------------------------------------------

def half : ℚ := 20001 / 10000

/-- Every path has a result with the property, and the bits on it take at most so much of the
interval. -/
def Prog.Bounded {α : Type} (P : α → Prop) : Prog α → ℚ → Prop
  | .ret a, w => P a ∧ 1 ≤ w
  | .bit _ k, w => ∃ v, 67 * v ≤ w ∧ ∀ b, (k b).Bounded P v
  | .direct k, w => ∃ v, half * v ≤ w ∧ ∀ b, (k b).Bounded P v
  | .fault _, _ => False

section
variable {α β : Type} {P : α → Prop} {Q : β → Prop} {p : Prog α} {v w : ℚ}

theorem Prog.Bounded.one_le (h : p.Bounded P w) : 1 ≤ w := by
  induction p generalizing w with
  | ret a => exact h.2
  | bit i k ih =>
    obtain ⟨v, hv, hk⟩ := h
    have := ih true (hk true)
    linarith
  | direct k ih =>
    obtain ⟨v, hv, hk⟩ := h
    have := ih true (hk true)
    rw [half] at hv
    linarith
  | fault f => exact h.elim

theorem Prog.Bounded.mono (h : p.Bounded P v) (hw : v ≤ w) {P' : α → Prop}
    (hP : ∀ a, P a → P' a) : p.Bounded P' w := by
  induction p generalizing v w with
  | ret a => exact ⟨hP a h.1, h.2.trans hw⟩
  | bit i k ih =>
    obtain ⟨u, hu, hk⟩ := h
    exact ⟨u, hu.trans hw, fun b => ih b (hk b) (le_refl u)⟩
  | direct k ih =>
    obtain ⟨u, hu, hk⟩ := h
    exact ⟨u, hu.trans hw, fun b => ih b (hk b) (le_refl u)⟩
  | fault f => exact h

theorem Prog.Bounded.bind {f : α → Prog β} (hp : p.Bounded P v) (hw : 0 ≤ w)
    (hf : ∀ a, P a → (f a).Bounded Q w) : (p >>= f).Bounded Q (v * w) := by
  induction p generalizing v with
  | ret a => exact (hf a hp.1).mono (le_mul_of_one_le_left hw hp.2) fun _ => id
  | bit i k ih =>
    obtain ⟨u, hu, hk⟩ := hp
    refine ⟨u * w, ?_, fun b => ih b (hk b)⟩
    rw [← mul_assoc]
    exact mul_le_mul_of_nonneg_right hu hw
  | direct k ih =>
    obtain ⟨u, hu, hk⟩ := hp
    refine ⟨u * w, ?_, fun b => ih b (hk b)⟩
    rw [← mul_assoc]
    exact mul_le_mul_of_nonneg_right hu hw
  | fault f => exact hp.elim

theorem Prog.Bounded.getBit {i : Nat} {k : Bool → Prog α} (h : ∀ b, (k b).Bounded P v) :
    (Prog.getBit i >>= k).Bounded P (67 * v) := ⟨v, le_refl _, h⟩

theorem Prog.Bounded.map {f : α → β} (h : p.Bounded P w) (hf : ∀ a, P a → Q (f a)) :
    (p >>= fun a => .ret (f a)).Bounded Q w := by
  have hb : (p >>= fun a => .ret (f a)).Bounded Q (w * 1) :=
    h.bind zero_le_one fun a ha => ⟨hf a ha, le_refl _⟩
  rw [mul_one] at hb
  exact hb

end

theorem treeDecode_bounded (base n i : Nat) :
    (treeDecode base n i).Bounded (fun s => s < (i + 1) * 2 ^ n) (67 ^ n) := by
  induction n generalizing i with
  | zero => exact ⟨by omega, le_refl _⟩
  | succ n ih =>
    refine ⟨67 ^ n, (pow_succ' 67 n).ge, fun b => (ih _).mono (le_refl _) fun s hs =>
      hs.trans_le ?_⟩
    have hb := Bool.toNat_le b
    calc (i + i + b.toNat + 1) * 2 ^ n ≤ (2 * (i + 1)) * 2 ^ n := Nat.mul_le_mul_right _ (by omega)
      _ = (i + 1) * 2 ^ (n + 1) := by ring

theorem reverseDecode_bounded (base n i mask distance : Nat) :
    (reverseDecode base n i mask distance).Bounded (fun _ => True) (67 ^ n) := by
  induction n generalizing i mask distance with
  | zero => exact ⟨trivial, le_refl _⟩
  | succ n ih => exact ⟨67 ^ n, (pow_succ' 67 n).ge, fun b => ih _ _ _⟩

theorem matchedDecode_bounded (base n offs matchByte symbol : Nat) :
    (matchedDecode base n offs matchByte symbol).Bounded (fun _ => True) (67 ^ n) := by
  induction n generalizing offs matchByte symbol with
  | zero => exact ⟨trivial, le_refl _⟩
  | succ n ih => exact ⟨67 ^ n, (pow_succ' 67 n).ge, fun b => ih _ _ _⟩

theorem directDecode_bounded (n distance : Nat) :
    (directDecode n distance).Bounded (fun _ => True) (half ^ n) := by
  induction n generalizing distance with
  | zero => exact ⟨trivial, (pow_zero half).ge⟩
  | succ n ih => exact ⟨half ^ n, (pow_succ' half n).ge, fun b => ih _⟩

theorem lenTree_bounded (base offset n : Nat) :
    (lenTree base offset n).Bounded (fun len => len < offset + 2 ^ n) (67 ^ n) := by
  refine (treeDecode_bounded base n 1).map fun s hs => ?_
  have hpos : 0 < 2 ^ n := Nat.two_pow_pos n
  omega

theorem lenDecode_bounded (prob posState : Nat) :
    (lenDecode prob posState).Bounded (fun len => len < 272) (67 ^ 10) := by
  refine Prog.Bounded.mono (v := 67 * (67 * 67 ^ 8)) (P := fun len => len < 272) ?_ (by norm_num)
    fun _ => id
  refine Prog.Bounded.getBit fun b => ?_
  cases b with
  | false =>
    exact (lenTree_bounded _ 0 3).mono (by norm_num) fun len h => h.trans (by decide)
  | true =>
    refine Prog.Bounded.getBit fun b => ?_
    cases b with
    | false =>
      exact (lenTree_bounded _ 8 3).mono (by norm_num) fun len h => h.trans (by decide)
    | true => exact lenTree_bounded _ 16 8

theorem footerDecode_bounded {posSlot : Nat} (h : posSlot < 64) :
    (footerDecode posSlot).Bounded (fun _ => True) (half ^ 26 * 67 ^ 4) := by
  rw [footerDecode]
  have hbits : posSlot >>> 1 = posSlot / 2 := Nat.shiftRight_eq_div_pow posSlot 1
  by_cases hs : posSlot ≥ kStartPosModelIndex
  · by_cases hl : posSlot < kEndPosModelIndex
    · simp only [if_pos hs, if_pos hl]
      simp only [kEndPosModelIndex] at hl
      refine ((reverseDecode_bounded _ _ _ _ _).map fun _ _ => trivial).mono ?_ fun _ => id
      calc (67 : ℚ) ^ (posSlot >>> 1 - 1) ≤ 67 ^ 5 := pow_le_pow_right₀ (by norm_num) (by omega)
        _ ≤ half ^ 26 * 67 ^ 4 := by norm_num [half]
    · simp only [if_pos hs, if_neg hl]
      have hdirect :=
        directDecode_bounded (posSlot >>> 1 - 1 - kNumAlignBits) (2 ||| (posSlot &&& 1))
      refine (hdirect.bind (by positivity) fun distance _ =>
        (reverseDecode_bounded _ 4 _ _ _).map fun _ _ => trivial).mono ?_ fun _ => id
      have hn : posSlot >>> 1 - 1 - kNumAlignBits ≤ 26 := by
        simp only [kNumAlignBits]
        omega
      have hpow : half ^ (posSlot >>> 1 - 1 - kNumAlignBits) ≤ half ^ 26 :=
        pow_le_pow_right₀ (by norm_num [half]) hn
      exact mul_le_mul_of_nonneg_right hpow (by positivity)
  · rw [if_neg hs]
    exact ⟨trivial, by norm_num [half]⟩

theorem distDecode_bounded (len : Nat) :
    (distDecode len).Bounded (fun _ => True) (67 ^ 6 * (half ^ 26 * 67 ^ 4)) := by
  have htree := treeDecode_bounded (PosSlot +
    (if len < kNumLenToPosStates then len else kNumLenToPosStates - 1) <<< kNumPosSlotBits)
    kNumPosSlotBits 1
  refine htree.bind (by norm_num [half]) fun s hs => footerDecode_bounded ?_
  have hs' : s < (1 + 1) * 2 ^ 6 := hs
  omega

-- ---------------------------------------------------------------------------
-- Weights
-- ---------------------------------------------------------------------------

structure RangeDec.Fuelled (w : ℚ) (d : RangeDec) : Prop where
  weight : 2 ^ 24 * w ≤ d.range.toNat * 256 ^ d.buf.length
  low : 2 ^ 16 ≤ d.range.toNat

def packetWeight : ℚ := 67 ^ 22 * half ^ 26

section
variable {v w : ℚ} {d : RangeDec}

theorem RangeDec.Fuelled.start (hr : 2 ^ 24 ≤ d.range.toNat) (hb : 20 ≤ d.buf.length) :
    d.Fuelled packetWeight := by
  refine ⟨?_, by omega⟩
  have hr' : (2 ^ 24 : ℚ) ≤ d.range.toNat := by exact_mod_cast hr
  calc (2 ^ 24 * packetWeight : ℚ) ≤ 2 ^ 24 * 256 ^ 20 := by norm_num [packetWeight, half]
    _ ≤ d.range.toNat * 256 ^ d.buf.length :=
      mul_le_mul hr' (pow_le_pow_right₀ (by norm_num) hb) (by positivity) (by positivity)

theorem RangeDec.Fuelled.again (hr : 2 ^ 16 ≤ d.range.toNat) (hb : 20 < d.buf.length) :
    d.Fuelled packetWeight := by
  refine ⟨?_, hr⟩
  have hr' : (2 ^ 16 : ℚ) ≤ d.range.toNat := by exact_mod_cast hr
  calc (2 ^ 24 * packetWeight : ℚ) ≤ 2 ^ 16 * 256 ^ 21 := by norm_num [packetWeight, half]
    _ ≤ d.range.toNat * 256 ^ d.buf.length :=
      mul_le_mul hr' (pow_le_pow_right₀ (by norm_num) hb) (by positivity) (by positivity)

theorem RangeDec.Fuelled.mono (h : d.Fuelled w) (hv : v ≤ w) : d.Fuelled v :=
  ⟨(mul_le_mul_of_nonneg_left hv (by norm_num)).trans h.weight, h.low⟩

theorem shift_toNat {range : UInt32} (h : range.toNat < 2 ^ 24) :
    (range <<< 8).toNat = 256 * range.toNat := by
  rw [UInt32.toNat_shiftLeft, Nat.shiftLeft_eq, show UInt32.toNat 8 % 32 = 8 from rfl]
  omega

theorem RangeDec.Fuelled.normalize (h : d.Fuelled w) (hone : 1 ≤ w) :
    ∃ dn, d.normalize = .ok dn ∧ dn.Fuelled w ∧ 2 ^ 24 ≤ dn.range.toNat ∧
      dn.numProbs = d.numProbs := by
  have hlow := h.low
  have hw := h.weight
  by_cases htop : d.range < kTopValue
  · have hsmall : d.range.toNat < 2 ^ 24 := htop
    have hshift := shift_toNat hsmall
    rw [RangeDec.normalize, if_pos htop]
    cases hbuf : d.buf with
    | nil =>
      rw [hbuf, List.length_nil, pow_zero, mul_one] at hw
      have hsmall' : (d.range.toNat : ℚ) < 2 ^ 24 := by exact_mod_cast hsmall
      linarith
    | cons b buf =>
      refine ⟨_, rfl, ⟨?_, ?_⟩, ?_, rfl⟩
      · rw [hbuf, List.length_cons, pow_succ 256 buf.length] at hw
        change 2 ^ 24 * w ≤ ((d.range <<< 8).toNat : ℚ) * 256 ^ buf.length
        rw [hshift]
        push_cast
        linarith
      · change 2 ^ 16 ≤ (d.range <<< 8).toNat
        omega
      · change 2 ^ 24 ≤ (d.range <<< 8).toNat
        omega
  · refine ⟨d, ?_, h, ?_, rfl⟩
    · rw [RangeDec.normalize, if_neg htop]
    · rw [UInt32.lt_iff_toNat_lt, RangeEnc.kTopValue_toNat] at htop
      omega

theorem RangeDec.Fuelled.narrow (h : d.Fuelled w) {k : ℚ} (hk : 0 < k) (hv : k * v ≤ w)
    {range code : UInt32} {probs : Nat → Prob} (hr : (d.range.toNat : ℚ) ≤ k * range.toNat)
    (hlow : 2 ^ 16 ≤ range.toNat) :
    RangeDec.Fuelled v { d with range := range, code := code, probs := probs } := by
  refine ⟨?_, hlow⟩
  have hle : k * (2 ^ 24 * v) ≤ k * (range.toNat * 256 ^ d.buf.length) := by
    calc k * (2 ^ 24 * v) = 2 ^ 24 * (k * v) := by ring
      _ ≤ 2 ^ 24 * w := by gcongr
      _ ≤ d.range.toNat * 256 ^ d.buf.length := h.weight
      _ ≤ k * range.toNat * 256 ^ d.buf.length := by gcongr
      _ = k * (range.toNat * 256 ^ d.buf.length) := by ring
  exact le_of_mul_le_mul_left hle hk

theorem Prob.bound_share (q : Prob) {range : UInt32} (h : 2 ^ 24 ≤ range.toNat) :
    range.toNat ≤ 67 * (q.bound range).toNat ∧
      range.toNat ≤ 67 * (range.toNat - (q.bound range).toNat) := by
  have hge := q.ge
  have hle := q.le
  have hlow : range.toNat / 2048 * 31 ≤ range.toNat / 2048 * q.val.toNat :=
    Nat.mul_le_mul_left _ hge
  have hhigh : range.toNat / 2048 * q.val.toNat ≤ range.toNat / 2048 * 2017 :=
    Nat.mul_le_mul_left _ hle
  rw [q.bound_toNat]
  omega

theorem RangeDec.Fuelled.getBit (h : d.Fuelled w) (hv : 67 * v ≤ w) (hone : 1 ≤ v) {i : Nat}
    (hi : i < d.numProbs) :
    ∃ b d', d.getBit i = .ok (b, d') ∧ d'.Fuelled v ∧ d'.numProbs = d.numProbs := by
  obtain ⟨dn, hdn, hf, htop, hnum⟩ := h.normalize (by linarith)
  obtain ⟨hlo, hhi⟩ := (dn.probs i).bound_spec htop
  obtain ⟨hshare, hshare'⟩ := (dn.probs i).bound_share htop
  have hsub : (dn.range - (dn.probs i).bound dn.range).toNat =
      dn.range.toNat - ((dn.probs i).bound dn.range).toNat :=
    UInt32.toNat_sub_of_le _ _ (UInt32.le_iff_toNat_le.mpr (by omega))
  rw [← hsub] at hshare'
  rw [RangeDec.getBit, if_pos hi, hdn, ok_bind]
  dsimp only
  split
  · exact ⟨_, _, rfl, hf.narrow (by norm_num) hv (by exact_mod_cast hshare) (by omega), hnum⟩
  · exact ⟨_, _, rfl, hf.narrow (by norm_num) hv (by exact_mod_cast hshare') (by omega), hnum⟩

theorem RangeDec.Fuelled.getDirect (h : d.Fuelled w) (hv : half * v ≤ w) (hone : 1 ≤ v) :
    ∃ b d', d.getDirect = .ok (b, d') ∧ d'.Fuelled v ∧ d'.numProbs = d.numProbs := by
  have hw : 1 ≤ w := by
    rw [half] at hv
    linarith
  obtain ⟨dn, hdn, hf, htop, hnum⟩ := h.normalize hw
  have hhalf := RangeEnc.half_toNat dn.range
  have hshare : (dn.range.toNat : ℚ) ≤ half * (dn.range >>> 1).toNat := by
    have hnat : 10000 * dn.range.toNat ≤ 20001 * (dn.range >>> 1).toNat := by omega
    have hrat : (10000 : ℚ) * dn.range.toNat ≤ (20001 : ℚ) * (dn.range >>> 1).toNat := by
      exact_mod_cast hnat
    rw [half]
    linarith
  rw [RangeDec.getDirect, hdn, ok_bind]
  exact ⟨_, _, rfl, hf.narrow (by norm_num [half]) hv hshare (by omega), hnum⟩

theorem Prog.Bounded.decode {α : Type} {P : α → Prop} {p : Prog α} {R : Nat → Prop}
    (hp : p.Bounded P w) (hw : p.Within R) (hR : ∀ j, R j → j < d.numProbs)
    (h : d.Fuelled w) : ∃ a d', p.decode d = .ok (a, d') ∧ P a ∧ d'.Fuelled 1 := by
  induction p generalizing w d R with
  | ret a => exact ⟨a, d, rfl, hp.1, h.mono hp.2⟩
  | bit i k ih =>
    obtain ⟨v, hv, hk⟩ := hp
    obtain ⟨b, d1, hd1, hf, hnum⟩ := h.getBit hv (hk true).one_le (hR i hw.1)
    obtain ⟨a, d', hd', ha, hf'⟩ := ih b (hk b) (hw.2 b) (fun j hj => hnum ▸ hR j hj.1) hf
    refine ⟨a, d', ?_, ha, hf'⟩
    rw [Prog.decode, hd1, ok_bind]
    exact hd'
  | direct k ih =>
    obtain ⟨v, hv, hk⟩ := hp
    obtain ⟨b, d1, hd1, hf, hnum⟩ := h.getDirect hv (hk true).one_le
    obtain ⟨a, d', hd', ha, hf'⟩ := ih b (hk b) (hw b) (fun j hj => hnum ▸ hR j hj) hf
    refine ⟨a, d', ?_, ha, hf'⟩
    rw [Prog.decode, hd1, ok_bind]
    exact hd'
  | fault f => exact hp.elim

structure RangeDec.Kept (d d' : RangeDec) : Prop where
  low : 2 ^ 16 ≤ d'.range.toNat
  numProbs : d'.numProbs = d.numProbs
  buf : d'.buf.length ≤ d.buf.length

theorem RangeDec.Kept.trans {d d' d'' : RangeDec} (h : d.Kept d') (h' : d'.Kept d'') : d.Kept d'' :=
  ⟨h'.low, h'.numProbs.trans h.numProbs, h'.buf.trans h.buf⟩

theorem RangeDec.normalize_kept {dn : RangeDec} (h : d.normalize = .ok dn)
    (hlow : 2 ^ 16 ≤ d.range.toNat) : d.Kept dn ∧ 2 ^ 24 ≤ dn.range.toNat := by
  rw [RangeDec.normalize] at h
  split at h
  · next htop =>
    have hsmall : d.range.toNat < 2 ^ 24 := htop
    split at h
    · cases h
    · next b buf hbuf =>
      cases h
      have hshift := shift_toNat hsmall
      refine ⟨⟨?_, rfl, ?_⟩, ?_⟩
      · change 2 ^ 16 ≤ (d.range <<< 8).toNat
        omega
      · rw [hbuf]
        exact Nat.le_succ _
      · change 2 ^ 24 ≤ (d.range <<< 8).toNat
        omega
  · next htop =>
    cases h
    rw [UInt32.lt_iff_toNat_lt, RangeEnc.kTopValue_toNat] at htop
    exact ⟨⟨hlow, rfl, le_refl _⟩, by omega⟩

theorem RangeDec.getBit_kept {i : Nat} {b : Bool} {d' : RangeDec} (h : d.getBit i = .ok (b, d'))
    (hlow : 2 ^ 16 ≤ d.range.toNat) : d.Kept d' := by
  rw [RangeDec.getBit] at h
  split at h
  · obtain ⟨dn, hdn, hrest⟩ := bind_ok.mp h
    obtain ⟨hk, htop⟩ := RangeDec.normalize_kept hdn hlow
    obtain ⟨hlo, hhi⟩ := (dn.probs i).bound_spec htop
    have hsub : (dn.range - (dn.probs i).bound dn.range).toNat =
        dn.range.toNat - ((dn.probs i).bound dn.range).toNat :=
      UInt32.toNat_sub_of_le _ _ (UInt32.le_iff_toNat_le.mpr (by omega))
    dsimp only at hrest
    split at hrest
    · cases hrest
      exact hk.trans ⟨by change 2 ^ 16 ≤ ((dn.probs i).bound dn.range).toNat; omega, rfl, le_refl _⟩
    · cases hrest
      exact hk.trans
        ⟨by change 2 ^ 16 ≤ (dn.range - (dn.probs i).bound dn.range).toNat; omega, rfl, le_refl _⟩
  · cases h

theorem RangeDec.getDirect_kept {b : Bool} {d' : RangeDec} (h : d.getDirect = .ok (b, d'))
    (hlow : 2 ^ 16 ≤ d.range.toNat) : d.Kept d' := by
  rw [RangeDec.getDirect] at h
  obtain ⟨dn, hdn, hrest⟩ := bind_ok.mp h
  obtain ⟨hk, htop⟩ := RangeDec.normalize_kept hdn hlow
  have hhalf := RangeEnc.half_toNat dn.range
  cases hrest
  exact hk.trans ⟨by change 2 ^ 16 ≤ (dn.range >>> 1).toNat; omega, rfl, le_refl _⟩

theorem Prog.decode_kept {α : Type} {p : Prog α} {a : α} {d' : RangeDec}
    (h : p.decode d = .ok (a, d')) (hlow : 2 ^ 16 ≤ d.range.toNat) : d.Kept d' := by
  induction p generalizing d with
  | ret a =>
    cases h
    exact ⟨hlow, rfl, le_refl _⟩
  | bit i k ih =>
    obtain ⟨⟨b, d1⟩, hd1, hrest⟩ := bind_ok.mp h
    have hk := RangeDec.getBit_kept hd1 hlow
    exact hk.trans (ih b hrest hk.low)
  | direct k ih =>
    obtain ⟨⟨b, d1⟩, hd1, hrest⟩ := bind_ok.mp h
    have hk := RangeDec.getDirect_kept hd1 hlow
    exact hk.trans (ih b hrest hk.low)
  | fault f => cases h

theorem Shadows.decode {α β : Type} {stop P : α → Prop} {q : Prog β} {p : Prog α} {R : Nat → Prop}
    {d0 d0' : RangeDec} {b : β} (h : Shadows stop q p) (hp : p.Bounded P w) (hq : q.Within R)
    (hl : d.Like R d0) (hcheck : q.check d0 = .ok (b, d0')) :
    ∃ a d', p.decode d = .ok (a, d') ∧ P a ∧ (stop a ∨ d'.Like (fun _ => False) d0') := by
  induction h generalizing w R d d0 with
  | stop _ hs => exact ⟨_, _, rfl, hp.1, .inl hs⟩
  | ret =>
    cases hcheck
    exact ⟨_, _, rfl, hp.1, .inr ⟨hl.range, hl.code, hl.buf, hl.numProbs, fun _ hf => hf.elim⟩⟩
  | @bit i k' k hk ih =>
    obtain ⟨v, -, hbound⟩ := hp
    have hbit := hl.getBit hq.1
    rw [Prog.check] at hcheck
    rw [Prog.decode]
    generalize d.getBit i = x at hbit ⊢
    generalize d0.getBitCheck i = y at hbit hcheck
    cases hbit with
    | ok c hlike => exact ih c (hbound c) (hq.2 c) hlike hcheck
    | ended => cases hcheck
    | fault f => cases hcheck
  | @direct k' k hk ih =>
    obtain ⟨v, -, hbound⟩ := hp
    have hbit := hl.getDirect
    rw [Prog.check] at hcheck
    rw [Prog.decode]
    generalize d.getDirect = x at hbit ⊢
    generalize d0.getDirectCheck = y at hbit hcheck
    cases hbit with
    | ok c hlike => exact ih c (hbound c) (hq c) hlike hcheck
    | ended => cases hcheck
    | fault f => cases hcheck
  | fault f => exact hp.elim

end

-- ---------------------------------------------------------------------------
-- The decoder on any input
-- ---------------------------------------------------------------------------

/-- What holds between packets, whatever has been read. -/
structure LzmaDec.Safe (p : LzmaDec) : Prop where
  formed : p.Formed
  inside : p.dicPos ≤ p.dicBufSize
  size : p.dicBufSize < 2 ^ 32
  processed : p.processedPos = p.dicPos
  dicPos : 0 < p.prop.dicSize
  dicLt : p.prop.dicSize < 2 ^ 32
  window : p.checkDicSize = 0 ∨ (p.checkDicSize = p.prop.dicSize ∧ p.prop.dicSize ≤ p.dicPos)
  reps : ∀ r ∈ [p.rep0, p.rep1, p.rep2, p.rep3], 0 < r ∧ r - 1 ≤ p.dicPos - 1
  first : p.dicPos = 0 → p.state < 7

def LzmaDec.Readable (p : LzmaDec) : Packet → Prop
  | .lit _ => True
  | .shortRep => 0 < p.dicPos
  | .rep _ len => 0 < p.dicPos ∧ len < 272
  | .mtch len _ => len < 272
  | .endMark _ => True
  | .bad => True

namespace LzmaDec

variable {p : LzmaDec}

theorem Safe.seen_iff (h : p.Safe) :
    (p.checkDicSize ≠ 0 ∨ p.processedPos ≠ 0) ↔ 0 < p.dicPos := by
  have hproc := h.processed
  have hpos := h.dicPos
  rcases h.window with hw | ⟨hw, hle⟩ <;> omega

theorem backPos_eq {rep : Nat} (hle : rep ≤ p.dicPos) (hlt : p.dicPos < 2 ^ 32) :
    p.backPos rep = p.dicPos - rep := by
  rw [LzmaDec.backPos, subSize_of_le hle hlt, if_neg (by omega)]
  omega

theorem Safe.rep0_le (h : p.Safe) (hpos : 0 < p.dicPos) : 0 < p.rep0 ∧ p.rep0 ≤ p.dicPos := by
  have := h.reps p.rep0 (List.mem_cons_self ..)
  omega

theorem Safe.back (h : p.Safe) (hpos : 0 < p.dicPos) :
    p.backPos p.rep0 = p.dicPos - p.rep0 ∧ p.backPos p.rep0 < p.dicPos := by
  obtain ⟨hlo, hle⟩ := h.rep0_le hpos
  have hin := h.inside
  have hsize := h.size
  have hback : p.backPos p.rep0 = p.dicPos - p.rep0 := backPos_eq hle (by omega)
  omega

theorem peek_bounded {i : Nat} (hi : i < p.dicBufSize) :
    (p.peek i).Bounded (fun _ => True) 1 := by
  rw [peek, if_pos hi]
  exact ⟨trivial, le_refl _⟩

theorem Safe.litProb_bounded (h : p.Safe) : p.litProb.Bounded (fun _ => True) 1 := by
  have hin := h.inside
  rw [litProb]
  split
  · next hseen =>
    have hpos := h.seen_iff.mp hseen
    refine (peek_bounded ?_).map fun _ _ => trivial
    rw [if_neg (by omega)]
    omega
  · exact ⟨trivial, le_refl _⟩

theorem Safe.literal_bounded (h : p.Safe) : p.literal.Bounded (fun _ => True) (67 ^ 8) := by
  have hin := h.inside
  refine (h.litProb_bounded.bind (w := 67 ^ 8) (by norm_num) fun prob _ => ?_).mono
    (one_mul _).le fun _ => id
  split
  · exact (treeDecode_bounded prob 8 1).map fun _ _ => trivial
  · next hstate =>
    have hpos : 0 < p.dicPos := by
      by_contra hz
      exact hstate (h.first (by omega))
    have hback := (h.back hpos).2
    exact ((peek_bounded (by omega)).bind (w := 67 ^ 8) (by norm_num) fun b _ =>
      (matchedDecode_bounded prob 8 _ _ _).map fun _ _ => trivial).mono (one_mul _).le fun _ => id

theorem repIndex_bounded (p : LzmaDec) : p.repIndex.Bounded (fun _ => True) (67 * (67 * 1)) := by
  refine Prog.Bounded.getBit fun b => ?_
  cases b with
  | false => exact ⟨trivial, by norm_num⟩
  | true =>
    refine Prog.Bounded.getBit fun b => ?_
    cases b <;> exact ⟨trivial, le_refl _⟩

theorem repTail_bounded {α : Type} {P : α → Prop} (p : LzmaDec) {f : Fin 4 → Nat → Prog α}
    {g : Prog α} (hf : ∀ i, ∀ len < 272, (f i len).Bounded P 1) (hg : g.Bounded P 1) :
    (do
      if ← Prog.getBit (IsRepG0 + p.state) then
        let i ← p.repIndex
        let len ← lenDecode RepLenCoder p.posState
        f i len
      else if ← Prog.getBit (IsRep0Long + p.state <<< kNumPosBitsMax + p.posState) then
        let len ← lenDecode RepLenCoder p.posState
        f 0 len
      else g).Bounded P (67 * (67 * (67 * 1) * (67 ^ 10 * 1))) := by
  have hlen := lenDecode_bounded RepLenCoder p.posState
  refine Prog.Bounded.getBit fun b => ?_
  cases b with
  | true =>
    exact p.repIndex_bounded.bind (by norm_num) fun i _ => hlen.bind zero_le_one (hf i)
  | false =>
    refine Prog.Bounded.mono (v := 67 * (67 ^ 10 * 1)) (P := P) ?_ (by norm_num) fun _ => id
    refine Prog.Bounded.getBit fun b => ?_
    cases b with
    | true => exact hlen.bind zero_le_one (hf 0)
    | false => exact hg.mono (by norm_num) fun _ => id

theorem Safe.choice_bounded {α : Type} {P : α → Prop} (h : p.Safe) {r : Prog α} {m : Nat → Prog α}
    {l : UInt8 → Prog α} (hr : r.Bounded P (67 * (67 * (67 * 1) * (67 ^ 10 * 1))))
    (hm : ∀ len < 272, (m len).Bounded P (67 ^ 6 * (half ^ 26 * 67 ^ 4)))
    (hl : ∀ b, (l b).Bounded P 1) :
    (do
      if ← Prog.getBit (IsMatch + p.state <<< kNumPosBitsMax + p.posState) then
        if ← Prog.getBit (IsRep + p.state) then r
        else
          let len ← lenDecode LenCoder p.posState
          m len
      else
        let b ← p.literal
        l b).Bounded P packetWeight := by
  refine Prog.Bounded.mono (v := 67 * (67 * (67 ^ 10 * (67 ^ 6 * (half ^ 26 * 67 ^ 4)))))
    (P := P) ?_ (by norm_num [packetWeight, half]) fun _ => id
  refine Prog.Bounded.getBit fun b => ?_
  cases b with
  | false =>
    exact (h.literal_bounded.bind zero_le_one fun b _ => hl b).mono (by norm_num [half]) fun _ => id
  | true =>
    refine Prog.Bounded.getBit fun b => ?_
    cases b with
    | false => exact (lenDecode_bounded LenCoder p.posState).bind (by norm_num [half]) hm
    | true => exact hr.mono (by norm_num [half]) fun _ => id

/-- The comment at `LZMA_REQUIRED_INPUT_MAX`: no packet takes more than 22 bits with a
probability and 26 direct ones. -/
theorem Safe.packet_bounded (h : p.Safe) : p.packet.Bounded p.Readable packetWeight := by
  refine h.choice_bounded (P := p.Readable) (r := if p.checkDicSize = 0 ∧ p.processedPos = 0
    then .ret .bad else p.repPacket) (l := fun b => .ret (.lit b)) ?_ (fun len hlen => ?_)
    fun _ => ⟨trivial, le_refl _⟩
  · split
    · exact ⟨trivial, by norm_num⟩
    · next hseen =>
      have hpos := h.seen_iff.mp (by omega)
      exact p.repTail_bounded (P := p.Readable) (f := fun i len => .ret (.rep i len))
        (g := .ret .shortRep) (fun _ _ hlen => ⟨⟨hpos, hlen⟩, le_refl _⟩) ⟨hpos, le_refl _⟩
  · refine ((distDecode_bounded len).bind (w := 1) zero_le_one fun o _ => ?_).mono (mul_one _).le
      fun _ => id
    cases o with
    | none => exact ⟨trivial, le_refl _⟩
    | some distance => exact ⟨hlen, le_refl _⟩

end LzmaDec

end BismarckPreloader.Lzma
