import BismarckPreloader.Lzma.Untrusted

/-!
# lzma_decompress on any input

Calls of `LzmaDec_DecodeToDic`, `LzmaDecode` and `lzma_decompress` on bytes of which nothing is
known. They always return, and they touch no memory but their own, with one exception: the heap
of `lzma_decompress` is too small for some headers.
-/

namespace BismarckPreloader.Lzma

namespace LzmaDec

variable {p q : LzmaDec}

-- ---------------------------------------------------------------------------
-- From a buffer
-- ---------------------------------------------------------------------------

structure Flowing (limit : Nat) (p : LzmaDec) : Prop where
  resting : p.Resting
  needFlush : p.needFlush = false
  needInitState : p.needInitState = false
  tempBuf : p.tempBuf = []
  inside : p.dicPos ≤ limit
  fits : limit ≤ p.dicBufSize

def Answers (limit : Nat) (p : LzmaDec) (reply : Reply) : Prop :=
  reply.dec.dicPos ≤ limit ∧ ∀ i, p.dicBufSize ≤ i → reply.dec.dic i = p.dic i

def Turned (limit : Nat) (p : LzmaDec) : ToDic → Prop
  | .next q _ _ => q.Flowing limit ∧ p.Frame q ∧
      (p.dicPos < q.dicPos ∨ q.remainLen = kMatchSpecLenStart)
  | .ret reply => p.Answers limit reply

theorem Flowing.runSrc {limit : Nat} (h : p.Flowing limit) {keep : Nat} {src : List UInt8}
    (hp : (p.withBuf src).Primed keep) (hlim : p.dicPos < limit) (srcLen : Nat) :
    ∃ r, p.runSrc limit keep src srcLen = .ok r ∧ p.Turned limit r := by
  have hresting : (p.withBuf src).Resting :=
    ⟨h.resting.safe.withRc rfl, h.resting.top, h.resting.unfilled⟩
  obtain ⟨res, q, hreal, hframe, hin, hok⟩ := hresting.decodeReal2 hp hlim h.fits
  have hframe' : p.Frame q := { hframe with }
  rw [LzmaDec.runSrc, hreal, ok_bind]
  cases res with
  | ok =>
    obtain ⟨hrest, hmoved⟩ := hok rfl
    exact ⟨_, rfl, ⟨hrest, hframe'.needFlush.trans h.needFlush,
      hframe'.needInitState.trans h.needInitState, hframe'.tempBuf.trans h.tempBuf, hin,
      hframe'.dicBufSize ▸ h.fits⟩, hframe', hmoved⟩
  | errorData | errorUnsupported | errorInputEof => exact ⟨_, rfl, hin, hframe'.rest⟩

theorem Flowing.fromSrc {limit : Nat} (h : p.Flowing limit) (hlim : p.dicPos < limit)
    (src : List UInt8) (srcLen : Nat) :
    ∃ r, p.fromSrc limit false src srcLen = .ok r ∧ p.Turned limit r := by
  have hsafe := h.resting.safe
  have htop := h.resting.top
  rw [LzmaDec.fromSrc]
  simp only [Bool.false_eq_true, or_false, false_and, if_false]
  split
  · obtain ⟨hnone, -⟩ | ⟨res, d, dn, hsome, hcheck, hn⟩ := hsafe.tryDummy_cases src
    · rw [hnone]
      exact ⟨_, rfl, h.inside, fun _ _ => rfl⟩
    · rw [hsome, ok_bind]
      exact h.runSrc (hsafe.primed_of_dummy (by omega) hcheck hn) hlim srcLen
  · next hlen =>
    have hfuel : (p.withBuf src).rc.Fuelled packetWeight := .start htop (Nat.not_lt.mp hlen)
    have hsafe' : (p.withBuf src).Safe := hsafe.withRc rfl
    exact h.runSrc (hsafe'.primed_of_fuelled hfuel (le_refl _)) hlim srcLen

theorem Flowing.toDicPass {limit : Nat} (h : p.Flowing limit) (room : Nat) (src : List UInt8)
    (srcLen : Nat) : ∃ r, p.toDicPass room limit .any src srcLen = .ok r ∧ p.Turned limit r := by
  rw [LzmaDec.toDicPass, flushPart, h.needFlush, if_neg Bool.false_ne_true]
  dsimp only
  by_cases hfull : p.dicPos ≥ limit
  · simp only [hfull, decide_true, true_and, if_true]
    split
    · exact ⟨_, rfl, h.inside, fun _ _ => rfl⟩
    · exact ⟨_, rfl, h.inside, fun _ _ => rfl⟩
  · simp only [hfull, decide_false, Bool.false_eq_true, false_and, if_false, h.needInitState,
      h.tempBuf, ok_bind, if_true]
    exact h.fromSrc (Nat.not_le.mp hfull) src srcLen

theorem Flowing.toDicLoop {limit : Nat} (h : p.Flowing limit) (room : Nat) {n : Nat}
    (hn : limit - p.dicPos + 2 ≤ n ∨ (0 < n ∧ p.remainLen = kMatchSpecLenStart))
    (src : List UInt8) (srcLen : Nat) :
    ∃ reply, LzmaDec.toDicLoop room limit .any n p src srcLen = .ok reply ∧
      p.Answers limit reply := by
  induction n generalizing p src srcLen with
  | zero => omega
  | succ n ih =>
    rw [LzmaDec.toDicLoop]
    split
    · refine ⟨_, rfl, ?_⟩
      split
      · exact ⟨h.inside, fun _ _ => rfl⟩
      · exact ⟨h.inside, fun _ _ => rfl⟩
    · next hrem =>
      obtain ⟨r, hr, hturn⟩ := h.toDicPass room src srcLen
      rw [hr, ok_bind]
      cases r with
      | next q src' srcLen' =>
        obtain ⟨hflow, hframe, hmoved⟩ := hturn
        have hin := hflow.inside
        obtain ⟨reply, hreply, hans⟩ := ih hflow (by omega) src' srcLen'
        exact ⟨reply, hreply, hans.1, fun i hi =>
          (hans.2 i (hframe.dicBufSize ▸ hi)).trans (hframe.rest i hi)⟩
      | ret reply => exact ⟨reply, rfl, hturn⟩

end LzmaDec

-- ---------------------------------------------------------------------------
-- One call
-- ---------------------------------------------------------------------------

theorem heap_room_iff (k : Nat) : Literal + litSize <<< k ≤ heapSize / 2 ↔ k ≤ 9 := by
  rw [Nat.shiftLeft_eq]
  simp only [Literal, litSize, heapSize]
  constructor
  · intro h
    by_contra hk
    have hpow : 2 ^ 10 ≤ 2 ^ k := Nat.pow_le_pow_right (by decide) (by omega)
    omega
  · intro h
    have hpow : 2 ^ k ≤ 2 ^ 9 := Nat.pow_le_pow_right (by decide) h
    omega

section
variable (prop : Props) (dest : Nat → UInt8) (n : Nat) (b1 b2 b3 b4 : UInt8) (src : List UInt8)

def flushed : LzmaDec :=
  { (freshDec prop dest n).init.initRc b1 b2 b3 b4 with tempBuf := [] }

theorem flushPart_first : (freshDec prop dest n).init.flushPart (0 :: b1 :: b2 :: b3 :: b4 :: src)
    0 = .next (flushed prop dest n b1 b2 b3 b4) src 5 := by
  have hnum : min (rcInitSize - (freshDec prop dest n).init.tempBuf.length)
      (0 :: b1 :: b2 :: b3 :: b4 :: src).length = 5 := by
    change min 5 (src.length + 5) = 5
    omega
  rw [LzmaDec.flushPart, if_pos (show (freshDec prop dest n).init.needFlush = true from rfl)]
  simp only [hnum]
  rfl

def initialised : LzmaDec :=
  { flushed prop dest n b1 b2 b3 b4 with
    rc := { (flushed prop dest n b1 b2 b3 b4).rc with
      probs := fun i => if i < Literal + litSize <<< (prop.lc + prop.lp) then Prob.initValue
        else (flushed prop dest n b1 b2 b3 b4).rc.probs i }
    rep0 := 1, rep1 := 1, rep2 := 1, rep3 := 1
    state := 0
    needInitState := false }

variable {prop}

theorem initStateReal_ok {room : Nat}
    (h : Literal + litSize <<< (prop.lc + prop.lp) ≤ room) :
    (flushed prop dest n b1 b2 b3 b4).initStateReal room =
      .ok (initialised prop dest n b1 b2 b3 b4) := if_pos h

theorem toDicPass_first {room : Nat} (h : Literal + litSize <<< (prop.lc + prop.lp) ≤ room)
    (hn : 0 < n) : (freshDec prop dest n).init.toDicPass room n .any
      (0 :: b1 :: b2 :: b3 :: b4 :: src) 0 =
        (initialised prop dest n b1 b2 b3 b4).fromSrc n false src 5 := by
  have hfull : decide (n ≤ (flushed prop dest n b1 b2 b3 b4).dicPos) = false :=
    decide_eq_false (Nat.not_le.mpr hn)
  have hinit : (flushed prop dest n b1 b2 b3 b4).needInitState = true := rfl
  have htemp : (initialised prop dest n b1 b2 b3 b4).tempBuf = [] := rfl
  simp only [LzmaDec.toDicPass, flushPart_first, ge_iff_le, hfull, Bool.false_eq_true, false_and,
    if_false, hinit, if_true, initStateReal_ok dest n b1 b2 b3 b4 h, ok_bind, htemp]

theorem toDicPass_overrun {room : Nat} (h : room < Literal + litSize <<< (prop.lc + prop.lp))
    (hn : 0 < n) : (freshDec prop dest n).init.toDicPass room n .any
      (0 :: b1 :: b2 :: b3 :: b4 :: src) 0 = .error .heap := by
  have hfull : decide (n ≤ (flushed prop dest n b1 b2 b3 b4).dicPos) = false :=
    decide_eq_false (Nat.not_le.mpr hn)
  have hinit : (flushed prop dest n b1 b2 b3 b4).needInitState = true := rfl
  have herr : (flushed prop dest n b1 b2 b3 b4).initStateReal room = .error .heap :=
    if_neg (Nat.not_le.mpr h)
  simp only [LzmaDec.toDicPass, flushPart_first, ge_iff_le, hfull, Bool.false_eq_true, false_and,
    if_false, hinit, if_true, herr, error_bind]

theorem toDicPass_none (room : Nat) : (freshDec prop dest 0).init.toDicPass room 0 .any
    (0 :: b1 :: b2 :: b3 :: b4 :: src) 0 = .ok (.ret ⟨.ok,
      if (flushed prop dest 0 b1 b2 b3 b4).rc.code = 0 then .maybeFinishedWithoutMark
      else .notFinished, 5, flushed prop dest 0 b1 b2 b3 b4⟩) := by
  have hrest : (flushed prop dest 0 b1 b2 b3 b4).remainLen = 0 := rfl
  simp only [LzmaDec.toDicPass, flushPart_first, ge_iff_le, Nat.zero_le, decide_true, true_and,
    hrest, if_true]
  split <;> rfl

end

structure Props.Valid (prop : Props) : Prop where
  lc : prop.lc ≤ 8
  lp : prop.lp ≤ 4
  pb : prop.pb ≤ 4
  pos : 0 < prop.dicSize
  lt : prop.dicSize < 2 ^ 32

theorem propsDecode_valid {d b1 b2 b3 b4 : UInt8} {prop : Props}
    (h : propsDecode d b1 b2 b3 b4 = some prop) :
    prop.Valid ∧ prop.lc + prop.lp = d.toNat % 9 + d.toNat / 9 % 5 := by
  have h1 := b1.toNat_lt
  have h2 := b2.toNat_lt
  have h3 := b3.toNat_lt
  have h4 := b4.toNat_lt
  have hsize : b1.toNat ||| b2.toNat <<< 8 ||| b3.toNat <<< 16 ||| b4.toNat <<< 24 < 2 ^ 32 := by
    refine Nat.or_lt_two_pow (Nat.or_lt_two_pow (Nat.or_lt_two_pow ?_ ?_) ?_) ?_
    · omega
    · rw [Nat.shiftLeft_eq]
      omega
    · rw [Nat.shiftLeft_eq]
      omega
    · rw [Nat.shiftLeft_eq]
      omega
  rw [propsDecode] at h
  generalize b1.toNat ||| b2.toNat <<< 8 ||| b3.toNat <<< 16 ||| b4.toNat <<< 24 = size at h hsize
  by_cases hd : d.toNat ≥ 9 * 5 * 5
  · rw [if_pos hd] at h
    cases h
  · rw [if_neg hd] at h
    cases h
    refine ⟨⟨?_, ?_, ?_, ?_, ?_⟩, rfl⟩
    · change d.toNat % 9 ≤ 8
      omega
    · change d.toNat / 9 % 5 ≤ 4
      omega
    · change d.toNat / 9 / 5 ≤ 4
      omega
    · change 0 < if size < 2 ^ 12 then 2 ^ 12 else size
      split <;> omega
    · change (if size < 2 ^ 12 then 2 ^ 12 else size) < 2 ^ 32
      split <;> omega

section
variable {prop : Props} (hprop : prop.Valid) (dest : Nat → UInt8) {n : Nat} (hn : n < 2 ^ 32)
  (b0 b1 b2 b3 b4 : UInt8) (src : List UInt8)

include hprop hn in
theorem initialised_flowing : (initialised prop dest n b1 b2 b3 b4).Flowing n where
  resting := {
    safe := {
      formed := ⟨(by decide : 0 < 12), hprop.lc, hprop.lp, hprop.pb, rfl⟩
      inside := Nat.zero_le n
      size := hn
      processed := rfl
      dicPos := hprop.pos
      dicLt := hprop.lt
      window := .inl rfl
      reps := by
        change ∀ r ∈ [1, 1, 1, 1], 0 < r ∧ r - 1 ≤ 0 - 1
        decide
      first := fun _ => (by decide : 0 < 7) }
    top := by
      change 2 ^ 24 ≤ (0xFFFFFFFF : UInt32).toNat
      decide
    unfilled := fun _ => hprop.pos }
  needFlush := rfl
  needInitState := rfl
  tempBuf := rfl
  inside := Nat.zero_le n
  fits := le_refl n

theorem exists_supplied (src : List UInt8) : ∃ s : LzmaDec.Supplied, s.src = src := by
  have hflow : (initialised ⟨3, 0, 2, 4096⟩ (fun _ => 0) 4096 0 0 0 0).Flowing 4096 :=
    initialised_flowing ⟨by decide, by decide, by decide, by decide, by decide⟩ _ (by decide)
      0 0 0 0
  exact ⟨⟨_, src, hflow.resting.safe, hflow.resting.top⟩, rfl⟩

theorem tryDummy_zeros : ∃ s : LzmaDec.Supplied, s.src = [0, 0, 0] ∧
    match s.dec.tryDummy s.src with
    | .ok (some _) => ∃ packet, s.dec.readPacket s.src = .ok packet
    | .ok none => s.dec.readPacket s.src = .error .input ∨ s.dec.readPacket s.src = .ok .bad
    | .error _ => False := by
  obtain ⟨s, hs⟩ := exists_supplied [0, 0, 0]
  exact ⟨s, hs, s.tryDummy_spec⟩

theorem readPacket_zeros : ∃ s : LzmaDec.Stocked, s.src = List.replicate 20 0 ∧
    ∃ packet, s.dec.readPacket s.src = .ok packet := by
  obtain ⟨s, hs⟩ := exists_supplied (List.replicate 20 0)
  let t : LzmaDec.Stocked := ⟨s, by rw [hs]; decide⟩
  exact ⟨t, hs, t.readPacket_ok⟩

theorem toDicPass_corrupt (room : Nat) (hb : b0 ≠ 0) :
    (freshDec prop dest n).init.toDicPass room n .any (b0 :: b1 :: b2 :: b3 :: b4 :: src) 0 =
      .ok (.ret ⟨.errorData, .notSpecified, 5,
        { (freshDec prop dest n).init with tempBuf := [b0, b1, b2, b3, b4] }⟩) := by
  have hnum : min (rcInitSize - (freshDec prop dest n).init.tempBuf.length)
      (b0 :: b1 :: b2 :: b3 :: b4 :: src).length = 5 := by
    change min 5 (src.length + 5) = 5
    omega
  have hflush : (freshDec prop dest n).init.flushPart (b0 :: b1 :: b2 :: b3 :: b4 :: src) 0 =
      .ret ⟨.errorData, .notSpecified, 5,
        { (freshDec prop dest n).init with tempBuf := [b0, b1, b2, b3, b4] }⟩ := by
    rw [LzmaDec.flushPart, if_pos (show (freshDec prop dest n).init.needFlush = true from rfl)]
    simp only [hnum]
    exact if_pos hb
  rw [LzmaDec.toDicPass, hflush]

include hprop hn in
theorem decodeToDic_any (room : Nat) :
    let p := (freshDec prop dest n).init
    let r := p.decodeToDic room n .any (b0 :: b1 :: b2 :: b3 :: b4 :: src)
    if b0 = 0 ∧ 0 < n ∧ room < Literal + litSize <<< (prop.lc + prop.lp) then r = .error .heap
    else ∃ reply, r = .ok reply ∧ p.Answers n reply := by
  intro p r
  have hloop : r =
      LzmaDec.toDicLoop room n .any (n + 3) p (b0 :: b1 :: b2 :: b3 :: b4 :: src) 0 := rfl
  rw [hloop, LzmaDec.toDicLoop, if_neg (show ¬ p.remainLen = kMatchSpecLenStart by
    change ¬ 0 = kMatchSpecLenStart; decide)]
  by_cases hb : b0 = 0
  · subst hb
    rcases Nat.eq_zero_or_pos n with rfl | hpos
    · rw [if_neg (by omega), toDicPass_none, ok_bind]
      exact ⟨_, rfl, Nat.zero_le _, fun _ _ => rfl⟩
    · by_cases hroom : room < Literal + litSize <<< (prop.lc + prop.lp)
      · rw [if_pos ⟨rfl, hpos, hroom⟩, toDicPass_overrun dest n b1 b2 b3 b4 src hroom hpos]
        rfl
      · have hflow := initialised_flowing hprop dest hn b1 b2 b3 b4
        rw [if_neg (by omega), toDicPass_first dest n b1 b2 b3 b4 src (Nat.not_lt.mp hroom) hpos]
        obtain ⟨t, ht, hturn⟩ := hflow.fromSrc hpos src 5
        rw [ht, ok_bind]
        cases t with
        | next q src' srcLen' =>
          obtain ⟨hflow', hframe, hmoved⟩ := hturn
          obtain ⟨reply, hreply, hans⟩ := hflow'.toDicLoop room (n := n + 2) (by omega) src' srcLen'
          exact ⟨reply, hreply, hans.1, fun i hi =>
            (hans.2 i (hframe.dicBufSize ▸ hi)).trans (hframe.rest i hi)⟩
        | ret reply => exact ⟨reply, rfl, hturn⟩
  · rw [if_neg (fun h => hb h.1), toDicPass_corrupt dest b0 b1 b2 b3 b4 src room hb, ok_bind]
    exact ⟨_, rfl, Nat.zero_le _, fun _ _ => rfl⟩

end

/-- A header with more probabilities than the heap has room for, before a stream that makes the
decoder set them. -/
def Overruns (src : Nat → UInt8) (srcLen : Nat) : Prop :=
  (src 0).toNat < 9 * 5 * 5 ∧ 9 < (src 0).toNat % 9 + (src 0).toNat / 9 % 5 ∧ 0 < fileSize src ∧
    rcInitSize ≤ srcLen ∧ src 13 = 0

theorem endianSwap_lt (b0 b1 b2 b3 : UInt8) : endianSwap b0 b1 b2 b3 < 2 ^ 32 :=
  Nat.mod_lt _ (by decide)

theorem cons_of_le {n : Nat} {l : List UInt8} (h : n + 1 ≤ l.length) :
    ∃ a t, l = a :: t ∧ n ≤ t.length := by
  cases l with
  | nil => cases h
  | cons a t => exact ⟨a, t, rfl, Nat.le_of_succ_le_succ h⟩

theorem five_of_le {n : Nat} {l : List UInt8} (h : n + 5 ≤ l.length) :
    ∃ b0 b1 b2 b3 b4 t, l = b0 :: b1 :: b2 :: b3 :: b4 :: t ∧ n ≤ t.length := by
  obtain ⟨b0, l0, rfl, h0⟩ := cons_of_le h
  obtain ⟨b1, l1, rfl, h1⟩ := cons_of_le h0
  obtain ⟨b2, l2, rfl, h2⟩ := cons_of_le h1
  obtain ⟨b3, l3, rfl, h3⟩ := cons_of_le h2
  obtain ⟨b4, l4, rfl, h4⟩ := cons_of_le h3
  exact ⟨b0, b1, b2, b3, b4, l4, rfl, h4⟩

/-- All that can come of a call of `LzmaDecode`: an overrun of the heap, or a return with
everything behind the output untouched. -/
theorem lzmaDecode_any (d b1 b2 b3 b4 : UInt8) (room : Nat) (dest : Nat → UInt8) {n : Nat}
    (hn : n < 2 ^ 32) (src : List UInt8) :
    let r := lzmaDecode room dest n src (propsDecode d b1 b2 b3 b4) .any
    if d.toNat < 9 * 5 * 5 ∧ room < Literal + litSize <<< (d.toNat % 9 + d.toNat / 9 % 5) ∧ 0 < n ∧
        rcInitSize ≤ src.length ∧ src.head? = some 0 then r = .error .heap
    else ∃ out, r = .ok out ∧ out.destLen ≤ n ∧ ∀ i, n ≤ i → out.dest i = dest i := by
  intro r
  have hr : r = lzmaDecode room dest n src (propsDecode d b1 b2 b3 b4) .any := rfl
  rw [hr]
  unfold lzmaDecode
  by_cases hlen : src.length < rcInitSize
  · rw [if_neg (by omega), if_pos hlen]
    exact ⟨_, rfl, Nat.zero_le _, fun _ _ => rfl⟩
  rw [if_neg hlen]
  obtain ⟨c0, c1, c2, c3, c4, rest, rfl, -⟩ := five_of_le (n := 0) (Nat.not_lt.mp hlen)
  cases hprop : propsDecode d b1 b2 b3 b4 with
  | none =>
    have hd : ¬ d.toNat < 9 * 5 * 5 := by
      intro hd
      rw [propsDecode] at hprop
      simp only [if_neg (Nat.not_le.mpr hd)] at hprop
      cases hprop
    rw [if_neg (fun h => hd h.1)]
    exact ⟨_, rfl, Nat.zero_le _, fun _ _ => rfl⟩
  | some prop =>
    have hd : d.toNat < 9 * 5 * 5 := by
      by_contra hd
      rw [propsDecode] at hprop
      simp only [if_pos (Nat.not_lt.mp hd)] at hprop
      cases hprop
    obtain ⟨hvalid, hsum⟩ := propsDecode_valid hprop
    have hany := decodeToDic_any hvalid dest hn c0 c1 c2 c3 c4 rest room
    rw [hsum] at hany
    by_cases hover : c0 = 0 ∧ 0 < n ∧ room < Literal + litSize <<< (d.toNat % 9 + d.toNat / 9 % 5)
    · rw [if_pos ⟨hd, hover.2.2, hover.2.1, Nat.not_lt.mp hlen, congrArg some hover.1⟩]
      dsimp only at hany ⊢
      rw [if_pos hover] at hany
      rw [hany, error_bind]
    · have hnot : ¬ (d.toNat < 9 * 5 * 5 ∧
          room < Literal + litSize <<< (d.toNat % 9 + d.toNat / 9 % 5) ∧ 0 < n ∧
            rcInitSize ≤ (c0 :: c1 :: c2 :: c3 :: c4 :: rest).length ∧
              (c0 :: c1 :: c2 :: c3 :: c4 :: rest).head? = some 0) :=
        fun h => hover ⟨Option.some.inj h.2.2.2.2, h.2.2.1, h.2.1⟩
      rw [if_neg hnot]
      dsimp only at hany ⊢
      rw [if_neg hover] at hany
      obtain ⟨reply, hreply, hpos, hrest⟩ := hany
      rw [hreply, ok_bind]
      exact ⟨_, rfl, hpos, hrest⟩

theorem length_payload (src : Nat → UInt8) (srcLen : Nat) :
    (payload src srcLen).length = srcLen := by
  rw [payload, List.length_map, List.length_range]

theorem head_payload {src : Nat → UInt8} {srcLen : Nat} (h : 0 < srcLen) :
    (payload src srcLen).head? = some (src 13) := by
  rw [payload, List.head?_map, List.head?_range, if_neg h.ne', Option.map_some]

theorem lzmaDecompress_any (src dest : Nat → UInt8) (srcLen : Nat) :
    (lzmaDecompress src dest srcLen = .error .heap ∧ Overruns src srcLen) ∨
      ¬ Overruns src srcLen ∧ ∃ out, lzmaDecompress src dest srcLen = .ok out ∧
        out.destLen ≤ fileSize src ∧ ∀ i, fileSize src ≤ i → out.dest i = dest i := by
  have hany := lzmaDecode_any (src 0) (src 1) (src 2) (src 3) (src 4) (heapSize / 2) dest
    (endianSwap_lt (src 5) (src 6) (src 7) (src 8)) (payload src srcLen)
  have hroom : heapSize / 2 < Literal + litSize <<< ((src 0).toNat % 9 + (src 0).toNat / 9 % 5) ↔
      9 < (src 0).toNat % 9 + (src 0).toNat / 9 % 5 := by
    rw [← Nat.not_le, heap_room_iff, Nat.not_le]
  have hhead : rcInitSize ≤ srcLen → ((payload src srcLen).head? = some 0 ↔ src 13 = 0) := by
    intro hlen
    rw [head_payload (Nat.lt_of_lt_of_le (by decide) hlen), Option.some.injEq]
  have hiff : ((src 0).toNat < 9 * 5 * 5 ∧
      heapSize / 2 < Literal + litSize <<< ((src 0).toNat % 9 + (src 0).toNat / 9 % 5) ∧
        0 < endianSwap (src 5) (src 6) (src 7) (src 8) ∧ rcInitSize ≤ (payload src srcLen).length ∧
          (payload src srcLen).head? = some 0) ↔ Overruns src srcLen := by
    rw [hroom, length_payload, Overruns]
    exact and_congr_right fun _ => and_congr_right fun _ => and_congr_right fun _ =>
      and_congr_right hhead
  dsimp only at hany
  by_cases hover : Overruns src srcLen
  · rw [if_pos (hiff.mpr hover)] at hany
    exact .inl ⟨hany, hover⟩
  · rw [if_neg (mt hiff.mp hover)] at hany
    exact .inr ⟨hover, hany⟩

/-- Whatever the bytes are, `lzma_decompress` returns without a read outside what it is given or
a write outside its own memory, unless the header asks for more probabilities than the heap has
room for. -/
theorem lzmaDecompress_error_iff (src dest : Nat → UInt8) (srcLen : Nat) (f : Fault) :
    lzmaDecompress src dest srcLen = .error f ↔ f = .heap ∧ Overruns src srcLen := by
  obtain ⟨herr, hover⟩ | ⟨hnot, out, hout, -⟩ := lzmaDecompress_any src dest srcLen
  · rw [herr, Except.error.injEq]
    exact ⟨fun hf => ⟨hf.symm, hover⟩, fun hf => hf.1.symm⟩
  · rw [hout]
    exact iff_of_false nofun fun hf => hnot hf.2

/-- At most `size` bytes count as output, and what lies behind them is as it was. The only
other end is that the heap is too small for the probabilities. -/
def WritesBelow (size : Nat) (dest : Nat → UInt8) : Except Fault Decoded → Prop
  | .ok out => out.destLen ≤ size ∧ ∀ i, size ≤ i → out.dest i = dest i
  | .error f => f = .heap

/-- `lzma_decompress` writes nothing behind the size in the header, whatever the stream is. -/
theorem lzmaDecompress_writes_below (src dest : Nat → UInt8) (srcLen : Nat) :
    WritesBelow (fileSize src) dest (lzmaDecompress src dest srcLen) := by
  obtain ⟨herr, -⟩ | ⟨-, out, hout, hin⟩ := lzmaDecompress_any src dest srcLen
  · rw [herr]
    rfl
  · rw [hout]
    exact hin

end BismarckPreloader.Lzma
