import BismarckPreloader.Lzma.Dec

/-!
# Looking ahead

`LzmaDec_TryDummy` reads the bits of the next packet without changing a probability. It sees
the same bits as the decoder will, since no packet uses a probability twice: `Within` says
that a program takes each of its indices at most once, and from which set.

The packet and the program of `LzmaDec_TryDummy` ask for the same bits (`Shadows`), up to a
packet the decoder refuses half way.
-/

namespace BismarckPreloader.Lzma

-- ---------------------------------------------------------------------------
-- No index twice
-- ---------------------------------------------------------------------------

def Prog.Within {α : Type} : Prog α → (Nat → Prop) → Prop
  | .ret _, _ => True
  | .bit i k, R => R i ∧ ∀ b, (k b).Within fun j => R j ∧ j ≠ i
  | .direct k, R => ∀ b, (k b).Within R
  | .fault _, _ => True

section
variable {α β : Type} {p : Prog α} {R S T : Nat → Prop}

theorem Prog.Within.mono (h : p.Within R) (hsub : ∀ j, R j → S j) : p.Within S := by
  induction p generalizing R S with
  | ret a => trivial
  | bit i k ih => exact ⟨hsub i h.1, fun b => ih b (h.2 b) fun j hj => ⟨hsub j hj.1, hj.2⟩⟩
  | direct k ih => exact fun b => ih b (h b) hsub
  | fault f => trivial

theorem Prog.Within.bind {f : α → Prog β} (hp : p.Within R) (hf : ∀ a, (f a).Within S)
    (hd : ∀ j, R j → ¬ S j) (hR : ∀ j, R j → T j) (hS : ∀ j, S j → T j) : (p >>= f).Within T := by
  induction p generalizing R T with
  | ret a => exact (hf a).mono hS
  | bit i k ih =>
    refine ⟨hR i hp.1, fun b => ih b (hp.2 b) (fun j hj => hd j hj.1) ?_ ?_⟩
    · exact fun j hj => ⟨hR j hj.1, hj.2⟩
    · exact fun j hj => ⟨hS j hj, fun he => hd i hp.1 (he ▸ hj)⟩
  | direct k ih => exact fun b => ih b (hp b) hd hR hS
  | fault f => trivial

theorem Prog.Within.andThen {f : α → Prog β} (hp : p.Within R) (hf : ∀ a S, (f a).Within S) :
    (p >>= f).Within R :=
  hp.bind (fun a => hf a fun _ => False) (fun _ _ => id) (fun _ => id) (fun _ => False.elim)

theorem Prog.Within.map (hp : p.Within R) (g : α → β) :
    (p >>= fun a => Prog.ret (g a)).Within R := hp.andThen fun _ _ => trivial

theorem Prog.within_getBit {i : Nat} (h : R i) {k : Bool → Prog α}
    (hk : ∀ b, (k b).Within fun j => R j ∧ j ≠ i) : (Prog.getBit i >>= k).Within R := ⟨h, hk⟩

end

theorem treeDecode_within (base B n : Nat) {m : Nat} (hpos : 0 < m) (hm : (m + 1) * 2 ^ n ≤ 2 * B) :
    (treeDecode base n m).Within fun j => base + m ≤ j ∧ j < base + B := by
  induction n generalizing m with
  | zero => trivial
  | succ n ih =>
    have hlt := index_lt_of_double hm
    refine ⟨⟨le_refl _, by omega⟩, fun b => ?_⟩
    refine (ih (by omega) (double_le hm (Bool.toNat_le b))).mono fun j hj => ?_
    exact ⟨⟨by omega, hj.2⟩, by omega⟩

theorem reverseDecode_within (base B n : Nat) {i : Nat} (mask distance : Nat) (hpos : 0 < i)
    (hi : (i + 1) * 2 ^ n ≤ 2 * B) :
    (reverseDecode base n i mask distance).Within fun j => base + i ≤ j ∧ j < base + B := by
  induction n generalizing i mask distance with
  | zero => trivial
  | succ n ih =>
    have hlt := index_lt_of_double hi
    refine ⟨⟨le_refl _, by omega⟩, fun b => ?_⟩
    refine (ih _ _ (by omega) (double_le hi (Bool.toNat_le b))).mono fun j hj => ?_
    exact ⟨⟨by omega, hj.2⟩, by omega⟩

theorem directDecode_within (n distance : Nat) (R : Nat → Prop) :
    (directDecode n distance).Within R := by
  induction n generalizing distance with
  | zero => trivial
  | succ n ih => exact fun b => ih _

theorem matchedDecode_within (base n : Nat) {offs : Nat} (ho : offs = 0 ∨ offs = 256)
    (matchByte : Nat) {symbol : Nat} (hpos : 0 < symbol) (hs : (symbol + 1) * 2 ^ n ≤ 2 * 256) :
    (matchedDecode base n offs matchByte symbol).Within fun j =>
      base ≤ j ∧ j < base + 768 ∧ symbol ≤ (j - base) % 256 := by
  induction n generalizing offs matchByte symbol with
  | zero => trivial
  | succ n ih =>
    have hlt := index_lt_of_double hs
    have hand : (matchByte <<< 1) &&& offs = 0 ∨ (matchByte <<< 1) &&& offs = 256 := by
      rcases ho with rfl | rfl
      · exact .inl (Nat.and_zero _)
      · rw [and_offs]
        split
        · exact .inr rfl
        · exact .inl rfl
    refine ⟨⟨by omega, by omega, by omega⟩, fun b => ?_⟩
    have hnext : (if b then offs &&& ((matchByte <<< 1) &&& offs)
        else offs ^^^ (offs &&& ((matchByte <<< 1) &&& offs))) = 0 ∨
        (if b then offs &&& ((matchByte <<< 1) &&& offs)
        else offs ^^^ (offs &&& ((matchByte <<< 1) &&& offs))) = 256 := by
      rcases ho with rfl | rfl <;> rcases hand with h | h <;> rw [h] <;> cases b <;> decide
    refine (ih hnext _ (by omega) (double_le hs (Bool.toNat_le b))).mono fun j hj => ?_
    exact ⟨⟨hj.1, hj.2.1, by omega⟩, by omega⟩

theorem lenTree_within (base B n offset : Nat) (h : 2 ^ n ≤ B) :
    (lenTree base offset n).Within fun j => base < j ∧ j < base + B := by
  refine Prog.Within.andThen ?_ fun _ _ => trivial
  exact (treeDecode_within base B n Nat.one_pos (by omega)).mono fun j hj => ⟨hj.1, hj.2⟩

theorem lenDecode_within (prob : Nat) {posState : Nat} (h : posState < 16) :
    (lenDecode prob posState).Within fun j => prob ≤ j ∧ j < prob + 514 := by
  have hlow : posState <<< kLenNumLowBits = posState * 8 := Nat.shiftLeft_eq posState 3
  have hmid : posState <<< kLenNumMidBits = posState * 8 := Nat.shiftLeft_eq posState 3
  refine Prog.within_getBit ⟨Nat.le_refl _, by simp only [LenChoice]; omega⟩ fun b => ?_
  cases b with
  | false =>
    refine (lenTree_within _ 8 _ _ (le_refl _)).mono fun j hj => ?_
    simp only [LenLow, LenChoice] at hj ⊢
    omega
  | true =>
    refine Prog.within_getBit (by simp only [LenChoice, LenChoice2]; omega) fun b => ?_
    cases b with
    | false =>
      refine (lenTree_within _ 8 _ _ (le_refl _)).mono fun j hj => ?_
      simp only [LenMid, LenChoice, LenChoice2] at hj ⊢
      omega
    | true =>
      refine (lenTree_within _ 256 _ _ (le_refl _)).mono fun j hj => ?_
      simp only [LenHigh, LenChoice, LenChoice2] at hj ⊢
      omega

theorem slotTree_within (len : Nat) :
    (treeDecode (PosSlot + (if len < kNumLenToPosStates then len else kNumLenToPosStates - 1)
      <<< kNumPosSlotBits) kNumPosSlotBits 1).Within fun j => 432 ≤ j ∧ j < 688 := by
  have hlen : (if len < kNumLenToPosStates then len else kNumLenToPosStates - 1) ≤ 3 := by
    split
    · next h =>
      simp only [kNumLenToPosStates] at h
      omega
    · exact Nat.le_refl 3
  have hshift : ∀ x, x <<< kNumPosSlotBits = x * 64 := fun x => Nat.shiftLeft_eq x 6
  refine (treeDecode_within _ 64 _ Nat.one_pos (by decide)).mono fun j hj => ?_
  rw [hshift] at hj
  simp only [PosSlot] at hj
  omega

theorem footer_bounds {posSlot : Nat} (hs : 4 ≤ posSlot) (hl : posSlot < 14) :
    posSlot ≤ slotBase posSlot ∧ slotBase posSlot + 2 ^ (posSlot >>> 1 - 1) ≤ posSlot + 115 := by
  interval_cases posSlot <;> decide

theorem footerDecode_within (posSlot : Nat) :
    (footerDecode posSlot).Within fun j => 688 ≤ j ∧ j < 818 := by
  rw [footerDecode]
  by_cases hs : posSlot ≥ kStartPosModelIndex
  · by_cases hl : posSlot < kEndPosModelIndex
    · simp only [if_pos hs, if_pos hl]
      refine Prog.Within.andThen ?_ fun _ _ => trivial
      have hb := footer_bounds hs hl
      refine (reverseDecode_within _ (2 ^ (posSlot >>> 1 - 1)) _ _ _ Nat.one_pos
        (by omega)).mono fun j hj => ?_
      simp only [SpecPos] at hj
      omega
    · simp only [if_pos hs, if_neg hl]
      refine Prog.Within.bind (directDecode_within _ _ fun _ => False) (fun distance => ?_)
        (fun _ h => h.elim) (fun _ h => h.elim) fun _ h => h
      refine Prog.Within.andThen ?_ fun _ _ => trivial
      refine (reverseDecode_within _ 16 _ _ _ Nat.one_pos (by decide)).mono fun j hj => ?_
      simp only [Align] at hj
      omega
  · rw [if_neg hs]
    trivial

theorem distDecode_within (len : Nat) :
    (distDecode len).Within fun j => 432 ≤ j ∧ j < 818 :=
  (slotTree_within len).bind (fun _ => footerDecode_within _) (fun _ h h' => by omega)
    (fun _ h => by omega) fun _ h => by omega

/-- What a decoder has between packets, whatever it has read. -/
structure LzmaDec.Formed (p : LzmaDec) : Prop where
  state : p.state < 12
  lc : p.prop.lc ≤ 8
  lp : p.prop.lp ≤ 4
  pb : p.prop.pb ≤ 4
  numProbs : p.rc.numProbs = Literal + litSize <<< (p.prop.lc + p.prop.lp)

namespace LzmaDec

variable {p : LzmaDec}

theorem mask_lt (x n : Nat) : x &&& (1 <<< n - 1) < 2 ^ n := by
  rw [Nat.one_shiftLeft, Nat.and_two_pow_sub_one_eq_mod]
  exact Nat.mod_lt _ (Nat.two_pow_pos n)

theorem posState_lt (h : p.Formed) : p.posState < 16 :=
  (mask_lt _ _).trans_le (Nat.pow_le_pow_right (by decide) h.pb)

theorem litTable_lt {lc lp x : Nat} (hlc : lc ≤ 8) (hx : x < 2 ^ lp) (b : UInt8) :
    x <<< lc + b.toNat >>> (8 - lc) < 2 ^ (lc + lp) := by
  have hb : b.toNat >>> (8 - lc) < 2 ^ lc := by
    rw [Nat.shiftRight_eq_div_pow, Nat.div_lt_iff_lt_mul (Nat.two_pow_pos _), ← Nat.pow_add,
      Nat.add_sub_cancel' hlc]
    exact b.toNat_lt
  rw [Nat.shiftLeft_eq, Nat.add_comm lc lp, Nat.pow_add]
  calc x * 2 ^ lc + b.toNat >>> (8 - lc) < x * 2 ^ lc + 2 ^ lc := by omega
    _ = (x + 1) * 2 ^ lc := by ring
    _ ≤ 2 ^ lp * 2 ^ lc := Nat.mul_le_mul_right _ hx

theorem peek_bind_within {α : Type} (i : Nat) {f : UInt8 → Prog α} {R : Nat → Prop}
    (hf : ∀ b, (f b).Within R) : (p.peek i >>= f).Within R := by
  rw [peek]
  split
  · exact hf _
  · trivial

def LitBase (p : LzmaDec) (prob : Nat) : Prop := Literal ≤ prob ∧ prob + 768 ≤ p.rc.numProbs

theorem litTable_base (h : p.Formed) (b : UInt8) : p.LitBase (Literal + litSize *
    ((p.processedPos &&& (1 <<< p.prop.lp - 1)) <<< p.prop.lc + b.toNat >>> (8 - p.prop.lc))) := by
  have hlt := litTable_lt h.lc (mask_lt p.processedPos p.prop.lp) b
  refine ⟨Nat.le_add_right _ _, ?_⟩
  rw [h.numProbs, Nat.shiftLeft_eq]
  simp only [litSize]
  omega

theorem first_base (h : p.Formed) : p.LitBase Literal := by
  refine ⟨le_refl _, ?_⟩
  rw [h.numProbs, Nat.shiftLeft_eq]
  have := Nat.two_pow_pos (p.prop.lc + p.prop.lp)
  simp only [litSize]
  omega

theorem litProb_within {α : Type} (h : p.Formed) {f : Nat → Prog α} {R : Nat → Prop}
    (hf : ∀ prob, p.LitBase prob → (f prob).Within R) : (p.litProb >>= f).Within R := by
  rw [litProb]
  split
  · rw [Prog.bind_assoc]
    exact peek_bind_within _ fun b => hf _ (litTable_base h b)
  · exact hf _ (first_base h)

theorem literal_within (h : p.Formed) :
    p.literal.Within fun j => Literal ≤ j ∧ j < p.rc.numProbs := by
  refine litProb_within h fun prob hprob => ?_
  obtain ⟨hlo, hhi⟩ := hprob
  split
  · refine Prog.Within.andThen ?_ fun _ _ => trivial
    refine (treeDecode_within prob 256 8 Nat.one_pos (by decide)).mono fun j hj => ?_
    omega
  · refine peek_bind_within _ fun b => Prog.Within.andThen ?_ fun _ _ => trivial
    refine (matchedDecode_within prob 8 (.inr rfl) _ Nat.one_pos (by decide)).mono fun j hj => ?_
    omega

theorem state_shift (p : LzmaDec) : p.state <<< kNumPosBitsMax = p.state * 16 :=
  Nat.shiftLeft_eq p.state 4

theorem numProbs_gt (h : p.Formed) : 1846 ≤ p.rc.numProbs := by
  rw [h.numProbs]
  exact Nat.le_add_right _ _

theorem repIndex_within (h : p.Formed) : p.repIndex.Within fun j => 216 ≤ j ∧ j < 240 := by
  have hs := h.state
  refine Prog.within_getBit (by simp only [IsRepG1]; omega) fun b => ?_
  cases b with
  | false => trivial
  | true =>
    refine Prog.within_getBit (by simp only [IsRepG1, IsRepG2]; omega) fun b => ?_
    cases b <;> trivial

theorem repTail_within {α : Type} (h : p.Formed) {f : Fin 4 → Nat → Prog α} {g : Prog α}
    (hf : ∀ i len R, (f i len).Within R) (hg : ∀ R, g.Within R) :
    (do
      if ← Prog.getBit (IsRepG0 + p.state) then
        let i ← p.repIndex
        let len ← lenDecode RepLenCoder p.posState
        f i len
      else if ← Prog.getBit (IsRep0Long + p.state <<< kNumPosBitsMax + p.posState) then
        let len ← lenDecode RepLenCoder p.posState
        f 0 len
      else g).Within fun j => (204 ≤ j ∧ j < 432) ∨ (1332 ≤ j ∧ j < 1846) := by
  have hs := h.state
  have hpos := posState_lt h
  have hshift := state_shift p
  have hlen : (lenDecode RepLenCoder p.posState).Within fun j => 1332 ≤ j ∧ j < 1846 :=
    lenDecode_within RepLenCoder (posState_lt h)
  refine Prog.within_getBit (by simp only [IsRepG0]; omega) fun b => ?_
  cases b with
  | true =>
    refine Prog.Within.bind (repIndex_within h)
      (fun i => hlen.andThen fun len R => hf i len R) (fun j hj hj' => by omega) ?_ ?_
    · intro j hj
      simp only [IsRepG0]
      omega
    · intro j hj
      simp only [IsRepG0]
      omega
  | false =>
    refine Prog.within_getBit (by simp only [IsRepG0, IsRep0Long]; omega) fun b => ?_
    cases b with
    | true =>
      refine (hlen.andThen fun len R => hf 0 len R).mono fun j hj => ?_
      simp only [IsRepG0, IsRep0Long]
      omega
    | false => exact hg _

theorem choice_within {α : Type} (h : p.Formed) {r : Prog α} {m : Nat → Prog α} {l : UInt8 → Prog α}
    (hr : r.Within fun j => (204 ≤ j ∧ j < 432) ∨ (1332 ≤ j ∧ j < 1846))
    (hm : ∀ len, (m len).Within fun j => 432 ≤ j ∧ j < 818) (hl : ∀ b R, (l b).Within R) :
    (do
      if ← Prog.getBit (IsMatch + p.state <<< kNumPosBitsMax + p.posState) then
        if ← Prog.getBit (IsRep + p.state) then r
        else
          let len ← lenDecode LenCoder p.posState
          m len
      else
        let b ← p.literal
        l b).Within fun j => j < p.rc.numProbs := by
  have hs := h.state
  have hpos := posState_lt h
  have hshift := state_shift p
  have hnum := numProbs_gt h
  refine Prog.within_getBit (by simp only [IsMatch]; omega) fun b => ?_
  cases b with
  | false =>
    refine ((literal_within h).andThen hl).mono fun j hj => ?_
    simp only [IsMatch, Literal] at hj ⊢
    omega
  | true =>
    refine Prog.within_getBit (by simp only [IsMatch, IsRep]; omega) fun b => ?_
    cases b with
    | false =>
      refine ((lenDecode_within LenCoder hpos).bind hm (fun j hj hj' => ?_) (fun j hj => ?_)
        fun j hj => ?_)
      · simp only [LenCoder] at hj
        omega
      · simp only [LenCoder, IsMatch, IsRep] at hj ⊢
        omega
      · simp only [IsMatch, IsRep]
        omega
    | true =>
      refine hr.mono fun j hj => ?_
      simp only [IsMatch, IsRep]
      omega

theorem packet_within (h : p.Formed) : p.packet.Within fun j => j < p.rc.numProbs := by
  refine choice_within h (r := if p.checkDicSize = 0 ∧ p.processedPos = 0 then .ret .bad
    else p.repPacket) (l := fun b => .ret (.lit b)) ?_
    (fun len => (distDecode_within len).andThen fun o _ => ?_) fun _ _ => trivial
  · split
    · trivial
    · exact repTail_within h (f := fun i len => .ret (Packet.rep i len)) (fun _ _ _ => trivial)
        (g := .ret Packet.shortRep) fun _ => trivial
  · cases o <;> trivial

end LzmaDec

theorem treeDecode_forget {α : Type} (base n i mask distance : Nat) (k : Prog α) :
    (treeDecode base n i >>= fun _ => k) =
      reverseDecode base n i mask distance >>= fun _ => k := by
  induction n generalizing i mask distance with
  | zero => rfl
  | succ n ih => exact congrArg (Prog.bit _) (funext fun b => ih _ _ _)

theorem directDecode_forget {α : Type} (n d d' : Nat) (k : Prog α) :
    (directDecode n d >>= fun _ => k) = directDecode n d' >>= fun _ => k := by
  induction n generalizing d d' with
  | zero => rfl
  | succ n ih => exact congrArg Prog.direct (funext fun b => ih _ _)

theorem dummyFooter_eq (posSlot : Nat) :
    dummyFooter posSlot = footerDecode posSlot >>= fun _ => pure () := by
  rw [dummyFooter, footerDecode]
  by_cases hs : posSlot ≥ kStartPosModelIndex
  · by_cases hl : posSlot < kEndPosModelIndex
    · simp only [if_pos hs, if_pos hl, Prog.bind_assoc]
      exact treeDecode_forget _ _ _ _ _ _
    · simp only [if_pos hs, if_neg hl, Prog.bind_assoc]
      rw [directDecode_forget _ 0 (2 ||| (posSlot &&& 1))]
      exact congrArg _ (funext fun _ => treeDecode_forget _ _ _ _ _ _)
  · rw [if_neg hs, if_neg hs]
    rfl

theorem dummyDist_eq (len : Nat) : dummyDist len = distDecode len >>= fun _ => pure () := by
  rw [dummyDist, distDecode, Prog.bind_assoc]
  exact congrArg _ (funext fun posSlot => dummyFooter_eq _)

theorem LzmaDec.dummy_within {p : LzmaDec} (h : p.Formed) :
    p.dummy.Within fun j => j < p.rc.numProbs := by
  have hm : ∀ len, (dummyDist len >>= fun _ => pure Dummy.mtch).Within
      fun j => 432 ≤ j ∧ j < 818 := by
    intro len
    rw [dummyDist_eq, Prog.bind_assoc]
    exact (distDecode_within len).map _
  have hr := repTail_within h (f := fun _ _ => pure Dummy.rep) (fun _ _ _ => trivial)
    (g := pure Dummy.rep) fun _ => trivial
  have hall := choice_within h (l := fun _ => pure Dummy.lit) hr hm fun _ _ => trivial
  exact hall

-- ---------------------------------------------------------------------------
-- Reading without a change
-- ---------------------------------------------------------------------------

/-- Two decoders at the same place, with the same probabilities in a set. -/
structure RangeDec.Like (R : Nat → Prop) (d d0 : RangeDec) : Prop where
  range : d.range = d0.range
  code : d.code = d0.code
  buf : d.buf = d0.buf
  numProbs : d.numProbs = d0.numProbs
  probs : ∀ j, R j → d.probs j = d0.probs j

inductive Agrees {α : Type} (R : Nat → Prop) :
    Except Fault (α × RangeDec) → Except Short (α × RangeDec) → Prop
  | ok (a : α) {d d0 : RangeDec} (h : d.Like R d0) : Agrees R (.ok (a, d)) (.ok (a, d0))
  | ended : Agrees R (.error .input) (.error .ended)
  | fault (f : Fault) : Agrees R (.error f) (.error (.fault f))

section
variable {α β : Type} {R : Nat → Prop} {d d0 : RangeDec}

theorem RangeDec.Like.normalize (h : d.Like R d0) :
    (∃ dn dn0, d.normalize = .ok dn ∧ d0.normalizeCheck = .ok dn0 ∧ dn.Like R dn0) ∨
      (d.normalize = .error .input ∧ d0.normalizeCheck = .error .ended) := by
  rw [RangeDec.normalize, RangeDec.normalizeCheck, h.range, h.code, h.buf]
  split
  · cases d0.buf with
    | nil => exact .inr ⟨rfl, rfl⟩
    | cons b buf => exact .inl ⟨_, _, rfl, rfl, rfl, rfl, rfl, h.numProbs, h.probs⟩
  · exact .inl ⟨_, _, rfl, rfl, h⟩

theorem RangeDec.Like.getBit (h : d.Like R d0) {i : Nat} (hi : R i) :
    Agrees (fun j => R j ∧ j ≠ i) (d.getBit i) (d0.getBitCheck i) := by
  rw [RangeDec.getBit, RangeDec.getBitCheck, h.numProbs]
  split
  · obtain ⟨dn, dn0, hn, hn0, hlike⟩ | ⟨hn, hn0⟩ := h.normalize
    · rw [hn, hn0, ok_bind, ok_bind, hlike.range, hlike.code, hlike.probs i hi]
      have hupd : ∀ q, ∀ j, R j ∧ j ≠ i → Function.update dn.probs i q j = dn0.probs j := by
        intro q j hj
        rw [Function.update_of_ne hj.2, hlike.probs j hj.1]
      dsimp only
      split
      · exact .ok _ ⟨rfl, rfl, hlike.buf, hlike.numProbs, hupd _⟩
      · exact .ok _ ⟨rfl, rfl, hlike.buf, hlike.numProbs, hupd _⟩
    · rw [hn, hn0]
      exact .ended
  · exact .fault _

theorem direct_same (code range : UInt32) :
    let t := (0 : UInt32) - (code - range) >>> 31
    let mask := (code - range) >>> 31 - 1
    (t + 1 == 1) = (mask == -1) ∧ code - range + (range &&& t) = code - (range &&& mask) := by
  have hlt : ((code - range) >>> 31).toNat < 2 := by
    rw [UInt32.toNat_shiftRight, Nat.shiftRight_eq_div_pow,
      show UInt32.toNat 31 % 32 = 31 from rfl]
    have := (code - range).toNat_lt
    omega
  have hcases : (code - range) >>> 31 = 0 ∨ (code - range) >>> 31 = 1 := by
    have : ((code - range) >>> 31).toNat = 0 ∨ ((code - range) >>> 31).toNat = 1 := by omega
    exact this.imp (fun h => UInt32.toNat_inj.mp h) fun h => UInt32.toNat_inj.mp h
  rcases hcases with h | h
  · simp [h]
  · rw [h]
    exact ⟨by decide, by simp⟩

theorem RangeDec.Like.getDirect (h : d.Like R d0) :
    Agrees R d.getDirect d0.getDirectCheck := by
  rw [RangeDec.getDirect, RangeDec.getDirectCheck]
  obtain ⟨dn, dn0, hn, hn0, hlike⟩ | ⟨hn, hn0⟩ := h.normalize
  · rw [hn, hn0, ok_bind, ok_bind, hlike.range, hlike.code]
    obtain ⟨hbit, hcode⟩ := direct_same dn0.code (dn0.range >>> 1)
    dsimp only at hbit hcode ⊢
    rw [hbit, hcode]
    exact .ok _ ⟨rfl, rfl, hlike.buf, hlike.numProbs, hlike.probs⟩
  · rw [hn, hn0]
    exact .ended

/-- `q` asks for the bits `p` asks for, and may go on where `p` stops early. -/
inductive Shadows (stop : α → Prop) : Prog β → Prog α → Prop
  | stop {a : α} (q : Prog β) (h : stop a) : Shadows stop q (.ret a)
  | ret (b : β) (a : α) : Shadows stop (.ret b) (.ret a)
  | bit {i : Nat} {k' : Bool → Prog β} {k : Bool → Prog α} (h : ∀ b, Shadows stop (k' b) (k b)) :
      Shadows stop (.bit i k') (.bit i k)
  | direct {k' : Bool → Prog β} {k : Bool → Prog α} (h : ∀ b, Shadows stop (k' b) (k b)) :
      Shadows stop (.direct k') (.direct k)
  | fault (f : Fault) : Shadows stop (.fault f) (.fault f)

variable {stop : α → Prop}

theorem Shadows.bind {γ : Type} (p : Prog γ) {g : γ → Prog β} {f : γ → Prog α}
    (h : ∀ a, Shadows stop (g a) (f a)) : Shadows stop (p >>= g) (p >>= f) := by
  induction p with
  | ret a => exact h a
  | bit i k ih => exact .bit ih
  | direct k ih => exact .direct ih
  | fault f => exact .fault f

theorem LzmaDec.dummy_shadows (p : LzmaDec) : Shadows (· = Packet.bad) p.dummy p.packet := by
  refine .bit fun b => ?_
  cases b with
  | false => exact .bind p.literal fun _ => .ret _ _
  | true =>
    refine .bit fun b => ?_
    cases b with
    | false =>
      refine .bind (lenDecode LenCoder p.posState) fun len => ?_
      rw [dummyDist_eq, Prog.bind_assoc]
      refine .bind (distDecode len) fun o => ?_
      cases o <;> exact .ret _ _
    | true =>
      change Shadows _ _ (if p.checkDicSize = 0 ∧ p.processedPos = 0 then _ else _)
      split
      · exact .stop _ rfl
      · refine .bit fun b => ?_
        cases b with
        | true => exact .bind p.repIndex fun _ => .bind _ fun _ => .ret _ _
        | false =>
          refine .bit fun b => ?_
          cases b with
          | true => exact .bind (lenDecode RepLenCoder p.posState) fun _ => .ret _ _
          | false => exact .ret _ _

end

end BismarckPreloader.Lzma
