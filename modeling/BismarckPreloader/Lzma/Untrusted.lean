import BismarckPreloader.Lzma.Safety

/-!
# The loops of LzmaDec.c on any input

The decoder on bytes of which nothing is known. Whatever they are, every pass of the loops
writes a byte, comes to an end mark or stops with an error, each distance stays within what has
been written, and no read of the input goes past its end: either enough bytes are left for any
packet, or `LzmaDec_TryDummy` has seen a whole one.
-/

namespace BismarckPreloader.Lzma

-- ---------------------------------------------------------------------------
-- Looking ahead on any input
-- ---------------------------------------------------------------------------

namespace LzmaDec

variable {p q : LzmaDec}

theorem Safe.dummy_bounded (h : p.Safe) : p.dummy.Bounded (fun _ => True) packetWeight := by
  have hm : ∀ len < 272, (dummyDist len >>= fun _ => pure Dummy.mtch).Bounded (fun _ => True)
      (67 ^ 6 * (half ^ 26 * 67 ^ 4)) := by
    intro len _
    rw [dummyDist_eq, Prog.bind_assoc]
    exact (distDecode_bounded len).map fun _ _ => trivial
  have hr := p.repTail_bounded (P := fun _ => True) (f := fun _ _ => pure Dummy.rep)
    (g := pure Dummy.rep) (fun _ _ _ => ⟨trivial, le_refl _⟩) ⟨trivial, le_refl _⟩
  have hall := h.choice_bounded (l := fun _ => pure Dummy.lit) hr hm fun _ => ⟨trivial, le_refl _⟩
  exact hall

end LzmaDec

theorem RangeDec.normalizeCheck_cases (d : RangeDec) :
    d.normalizeCheck = .error .ended ∨
      ∃ dn, d.normalizeCheck = .ok dn ∧ dn.numProbs = d.numProbs := by
  rw [normalizeCheck]
  split
  · cases d.buf with
    | nil => exact .inl rfl
    | cons b buf => exact .inr ⟨_, rfl, rfl⟩
  · exact .inr ⟨_, rfl, rfl⟩

theorem Prog.Bounded.check {α : Type} {P : α → Prop} {p : Prog α} {w : ℚ} {R : Nat → Prop}
    {d : RangeDec} (hp : p.Bounded P w) (hw : p.Within R) (hR : ∀ j, R j → j < d.numProbs) :
    p.check d = .error .ended ∨ ∃ a d', p.check d = .ok (a, d') := by
  induction p generalizing w d R with
  | ret a => exact .inr ⟨a, d, rfl⟩
  | bit i k ih =>
    obtain ⟨v, -, hk⟩ := hp
    rw [Prog.check, RangeDec.getBitCheck, if_pos (hR i hw.1)]
    obtain hn | ⟨dn, hn, hnum⟩ := d.normalizeCheck_cases
    · exact .inl (by rw [hn]; rfl)
    · rw [hn, ok_bind]
      dsimp only
      split
      · exact ih _ (hk _) (hw.2 _) fun j hj => hnum ▸ hR j hj.1
      · exact ih _ (hk _) (hw.2 _) fun j hj => hnum ▸ hR j hj.1
  | direct k ih =>
    obtain ⟨v, -, hk⟩ := hp
    rw [Prog.check, RangeDec.getDirectCheck]
    obtain hn | ⟨dn, hn, hnum⟩ := d.normalizeCheck_cases
    · exact .inl (by rw [hn]; rfl)
    · rw [hn, ok_bind]
      exact ih _ (hk _) (hw _) fun j hj => hnum ▸ hR j hj
  | fault f => exact hp.elim

namespace LzmaDec

variable {p q : LzmaDec}

theorem Safe.tryDummy_cases (h : p.Safe) (src : List UInt8) :
    (p.tryDummy src = .ok none ∧ (p.dummy.check (p.withBuf src).rc = .error .ended ∨
      ∃ res d, p.dummy.check (p.withBuf src).rc = .ok (res, d) ∧
        d.normalizeCheck = .error .ended)) ∨
      ∃ res d dn, p.tryDummy src = .ok (some res) ∧
        p.dummy.check (p.withBuf src).rc = .ok (res, d) ∧ d.normalizeCheck = .ok dn := by
  rw [tryDummy]
  obtain hc | ⟨res, d, hc⟩ := h.dummy_bounded.check (d := (p.withBuf src).rc)
    (dummy_within h.formed) fun j hj => hj
  · rw [hc]
    exact .inl ⟨rfl, .inl rfl⟩
  · rw [hc, ok_bind]
    dsimp only
    obtain hn | ⟨dn, hn, -⟩ := d.normalizeCheck_cases
    · rw [hn]
      exact .inl ⟨rfl, .inr ⟨res, d, rfl, hn⟩⟩
    · rw [hn]
      exact .inr ⟨res, d, dn, rfl, rfl, hn⟩

/-- What decoding one packet and the `NORMALIZE` behind it give. A faulty packet is not read on. -/
def readPacket (p : LzmaDec) (src : List UInt8) : Except Fault Packet := do
  let (packet, rc) ← p.packet.decode (p.withBuf src).rc
  if packet = .bad then pure packet
  else
    let _ ← rc.normalize
    pure packet

end LzmaDec

/-- A program that asks for no more bits than one that ran out of input does so too, if it does
not stop before. -/
theorem Shadows.decode_ended {α β : Type} {stop P : α → Prop} {q : Prog β} {p : Prog α} {w : ℚ}
    {R : Nat → Prop} {d d0 : RangeDec} (h : Shadows stop q p) (hp : p.Bounded P w)
    (hq : q.Within R) (hl : d.Like R d0) (hcheck : q.check d0 = .error .ended) :
    p.decode d = .error .input ∨ ∃ a d', p.decode d = .ok (a, d') ∧ stop a := by
  induction h generalizing w R d d0 with
  | stop _ hs => exact .inr ⟨_, _, rfl, hs⟩
  | ret => cases hcheck
  | @bit i k' k hk ih =>
    obtain ⟨v, -, hbound⟩ := hp
    have hbit := hl.getBit hq.1
    rw [Prog.check] at hcheck
    rw [Prog.decode]
    generalize d.getBit i = x at hbit ⊢
    generalize d0.getBitCheck i = y at hbit hcheck
    cases hbit with
    | ok c hlike => exact ih c (hbound c) (hq.2 c) hlike hcheck
    | ended => exact .inl rfl
    | fault f => cases hcheck
  | @direct k' k hk ih =>
    obtain ⟨v, -, hbound⟩ := hp
    have hbit := hl.getDirect
    rw [Prog.check] at hcheck
    rw [Prog.decode]
    generalize d.getDirect = x at hbit ⊢
    generalize d0.getDirectCheck = y at hbit hcheck
    cases hbit with
    | ok c hlike => exact ih c (hbound c) (hq c) hlike hcheck
    | ended => exact .inl rfl
    | fault f => cases hcheck
  | fault f => exact hp.elim

namespace LzmaDec

variable {p q : LzmaDec}

-- ---------------------------------------------------------------------------
-- What a packet does
-- ---------------------------------------------------------------------------

structure Frame (p q : LzmaDec) : Prop where
  prop : q.prop = p.prop
  dicBufSize : q.dicBufSize = p.dicBufSize
  needFlush : q.needFlush = p.needFlush
  needInitState : q.needInitState = p.needInitState
  tempBuf : q.tempBuf = p.tempBuf
  rest : ∀ i, p.dicBufSize ≤ i → q.dic i = p.dic i

theorem Frame.trans {r : LzmaDec} (h : p.Frame q) (h' : q.Frame r) : p.Frame r where
  prop := h'.prop.trans h.prop
  dicBufSize := h'.dicBufSize.trans h.dicBufSize
  needFlush := h'.needFlush.trans h.needFlush
  needInitState := h'.needInitState.trans h.needInitState
  tempBuf := h'.tempBuf.trans h.tempBuf
  rest i hi := (h'.rest i (h.dicBufSize ▸ hi)).trans (h.rest i hi)

structure Moved (limit : Nat) (p q : LzmaDec) : Prop where
  safe : q.Safe
  frame : p.Frame q
  moved : p.dicPos < q.dicPos
  inside : q.dicPos ≤ limit
  remain : q.remainLen < kMatchSpecLenStart
  left : q.remainLen ≠ 0 → q.dicPos = limit

structure Marked (limit : Nat) (p q : LzmaDec) : Prop where
  safe : q.Safe
  frame : p.Frame q
  moved : p.dicPos ≤ q.dicPos
  inside : q.dicPos ≤ limit
  remain : kMatchSpecLenStart ≤ q.remainLen

def Went (limit : Nat) (R : RangeDec → Prop) (p : LzmaDec) : Pass → Prop
  | .next q => p.Moved limit q ∧ R q.rc
  | .mark q => p.Marked limit q ∧ R q.rc
  | .bad q => p.Frame q

theorem Moved.of_frame {p' : LzmaDec} {limit : Nat} (h : p'.Moved limit q) (hf : p.Frame p')
    (hpos : p'.dicPos = p.dicPos) : p.Moved limit q :=
  { h with frame := hf.trans h.frame, moved := hpos ▸ h.moved }

theorem Moved.went {r : Pass} {limit : Nat} {R : RangeDec → Prop} (h : p.Moved limit q)
    (hw : q.Went limit R r) : p.Went limit R r := by
  cases r with
  | next q' =>
    exact ⟨{ hw.1 with frame := h.frame.trans hw.1.frame, moved := h.moved.trans hw.1.moved }, hw.2⟩
  | mark q' =>
    exact ⟨{ hw.1 with
      frame := h.frame.trans hw.1.frame, moved := h.moved.le.trans hw.1.moved }, hw.2⟩
  | bad q' => exact h.frame.trans hw

theorem put_ok (h : p.dicPos < p.dicBufSize) (b : UInt8) :
    p.put b = .ok { p with dic := Function.update p.dic p.dicPos b, dicPos := p.dicPos + 1 } := by
  rw [put, if_pos h]

theorem copyStraight_ok (n pos : Nat) {p : LzmaDec} (hpos : pos < p.dicPos)
    (hend : p.dicPos + n ≤ p.dicBufSize) :
    ∃ dic, copyStraight n pos p = .ok { p with dic := dic, dicPos := p.dicPos + n } ∧
      ∀ i, p.dicBufSize ≤ i → dic i = p.dic i := by
  induction n generalizing pos p with
  | zero => exact ⟨p.dic, rfl, fun _ _ => rfl⟩
  | succ n ih =>
    obtain ⟨dic, hcopy, hrest⟩ := ih (pos + 1)
      (p := { p with dic := Function.update p.dic p.dicPos (p.dic pos), dicPos := p.dicPos + 1 })
      (Nat.add_lt_add_right hpos 1) (by change p.dicPos + 1 + n ≤ p.dicBufSize; omega)
    have hsum : p.dicPos + 1 + n = p.dicPos + (n + 1) := by omega
    refine ⟨dic, ?_, fun i hi => (hrest i hi).trans (Function.update_of_ne (by omega) _ _)⟩
    rw [copyStraight, readDic, if_pos (by omega), ok_bind, put_ok (by omega), ok_bind, hcopy]
    simp only [hsum]

theorem copyRem_ok (n : Nat) {p : LzmaDec} (hpos : 0 < p.rep0) (hle : p.rep0 ≤ p.dicPos)
    (hend : p.dicPos + n ≤ p.dicBufSize) (hsize : p.dicBufSize < 2 ^ 32) :
    ∃ dic, copyRem n p = .ok { p with dic := dic, dicPos := p.dicPos + n } ∧
      ∀ i, p.dicBufSize ≤ i → dic i = p.dic i := by
  induction n generalizing p with
  | zero => exact ⟨p.dic, rfl, fun _ _ => rfl⟩
  | succ n ih =>
    have hback : p.backPos p.rep0 = p.dicPos - p.rep0 := backPos_eq hle (by omega)
    obtain ⟨dic, hcopy, hrest⟩ := ih
      (p := { p with
        dic := Function.update p.dic p.dicPos (p.dic (p.dicPos - p.rep0)), dicPos := p.dicPos + 1 })
      hpos (hle.trans (Nat.le_succ _)) (by change p.dicPos + 1 + n ≤ p.dicBufSize; omega) hsize
    have hsum : p.dicPos + 1 + n = p.dicPos + (n + 1) := by omega
    refine ⟨dic, ?_, fun i hi => (hrest i hi).trans (Function.update_of_ne (by omega) _ _)⟩
    rw [copyRem, hback, readDic, if_pos (by omega), ok_bind, put_ok (by omega), ok_bind, hcopy]
    simp only [hsum]

theorem copyMatch_ok {limit len : Nat} (hlen : 0 < len) (hpos : 0 < p.rep0)
    (hle : p.rep0 ≤ p.dicPos) (hlim : p.dicPos < limit) (hend : limit ≤ p.dicBufSize)
    (hsize : p.dicBufSize < 2 ^ 32) :
    ∃ dic n, copyMatch limit len p = .ok (.next { p with
        dic := dic, dicPos := p.dicPos + n, processedPos := p.processedPos + n
        remainLen := len - n }) ∧
      (∀ i, p.dicBufSize ≤ i → dic i = p.dic i) ∧ 0 < n ∧ p.dicPos + n ≤ limit ∧
        (len - n ≠ 0 → p.dicPos + n = limit) := by
  have hrem : subSize limit p.dicPos = limit - p.dicPos := subSize_of_le hlim.le (by omega)
  have hback : p.backPos p.rep0 = p.dicPos - p.rep0 := backPos_eq hle (by omega)
  obtain ⟨n, hn, hn0, hnl, hnr⟩ : ∃ n, (if subSize limit p.dicPos < len then subSize limit p.dicPos
      else len) = n ∧ 0 < n ∧ p.dicPos + n ≤ limit ∧ (len - n ≠ 0 → p.dicPos + n = limit) := by
    refine ⟨_, rfl, ?_⟩
    split <;> omega
  obtain ⟨dic, hcopy, hrest⟩ := copyStraight_ok n (p.dicPos - p.rep0)
    (p := { p with processedPos := p.processedPos + n, remainLen := len - n })
    (show p.dicPos - p.rep0 < p.dicPos by omega) (show p.dicPos + n ≤ p.dicBufSize by omega)
  refine ⟨dic, n, ?_, hrest, hn0, hnl, hnr⟩
  rw [copyMatch, if_neg (by omega)]
  simp only [hn, hback, if_pos (show p.dicPos - p.rep0 + n ≤ p.dicBufSize by omega), hcopy, ok_bind]
  rfl

theorem Safe.withRc (h : p.Safe) {rc : RangeDec} (hnum : rc.numProbs = p.rc.numProbs) :
    Safe { p with rc := rc } :=
  { h with formed := { h.formed with numProbs := hnum.trans h.formed.numProbs } }

theorem Safe.withRemain (h : p.Safe) (n : Nat) : Safe { p with remainLen := n } :=
  { h with formed := { h.formed with } }

theorem Safe.withReps (h : p.Safe) (hpos : 0 < p.dicPos) {state r0 r1 r2 r3 : Nat}
    (hs : state < 12) (hr : ∀ r ∈ [r0, r1, r2, r3], 0 < r ∧ r - 1 ≤ p.dicPos - 1) :
    Safe { p with rep0 := r0, rep1 := r1, rep2 := r2, rep3 := r3, state := state } :=
  { h with
    formed := { h.formed with state := hs }
    reps := hr
    first := fun hz => absurd (show p.dicPos = 0 from hz) hpos.ne' }

theorem Safe.rotate (h : p.Safe) (hpos : 0 < p.dicPos) (i : Fin 4) {state : Nat}
    (hs : state < 12) : Safe { p.rotate i with state := state } := by
  match i with
  | 0 => exact h.withReps hpos hs h.reps
  | 1 =>
    refine h.withReps hpos hs fun r hr => h.reps r ?_
    simp only [List.mem_cons] at hr ⊢
    tauto
  | 2 =>
    refine h.withReps hpos hs fun r hr => h.reps r ?_
    simp only [List.mem_cons] at hr ⊢
    tauto
  | 3 =>
    refine h.withReps hpos hs fun r hr => h.reps r ?_
    simp only [List.mem_cons] at hr ⊢
    tauto

theorem Safe.moved (h : p.Safe) {limit n state remainLen : Nat} {dic : Nat → UInt8} (hn : 0 < n)
    (hlim : p.dicPos + n ≤ limit) (hend : limit ≤ p.dicBufSize) (hs : state < 12)
    (hrest : ∀ i, p.dicBufSize ≤ i → dic i = p.dic i) (hrem : remainLen < kMatchSpecLenStart)
    (hleft : remainLen ≠ 0 → p.dicPos + n = limit) :
    p.Moved limit { p with
      dic := dic, dicPos := p.dicPos + n, processedPos := p.processedPos + n, state := state
      remainLen := remainLen } where
  safe := {
    formed := { h.formed with state := hs }
    inside := hlim.trans hend
    size := h.size
    processed := congrArg (· + n) h.processed
    dicPos := h.dicPos
    dicLt := h.dicLt
    window := h.window.imp_right fun hw => ⟨hw.1, hw.2.trans (Nat.le_add_right _ _)⟩
    reps := fun r hr => by
      have hr' := h.reps r hr
      change 0 < r ∧ r - 1 ≤ p.dicPos + n - 1
      omega
    first := fun hz => by
      have hz' : p.dicPos + n = 0 := hz
      omega }
  frame := ⟨rfl, rfl, rfl, rfl, rfl, hrest⟩
  moved := Nat.lt_add_of_pos_right hn
  inside := hlim
  remain := hrem
  left := hleft

theorem Safe.copyMatch (h : p.Safe) (limit : Nat) {len : Nat} (hpos : 0 < p.dicPos)
    (hlim : p.dicPos < limit) (hend : limit ≤ p.dicBufSize) (hlen : len < 272) :
    ∃ r, LzmaDec.copyMatch limit (len + kMatchMinLen) p = .ok r ∧ p.Went limit (· = p.rc) r := by
  obtain ⟨hrep, hle⟩ := h.rep0_le hpos
  obtain ⟨dic, n, hcopy, hrest, hn, hnl, hleft⟩ :=
    copyMatch_ok (show 0 < len + kMatchMinLen from Nat.succ_pos _) hrep hle hlim hend h.size
  exact ⟨_, hcopy, h.moved hn hnl hend h.formed.state hrest
    (by simp only [kMatchMinLen, kMatchSpecLenStart]; omega) hleft, rfl⟩

theorem Went.of_frame {p' : LzmaDec} {r : Pass} {limit : Nat} {R : RangeDec → Prop}
    (h : p'.Went limit R r) (hf : p.Frame p') (hpos : p'.dicPos = p.dicPos) : p.Went limit R r := by
  cases r with
  | next q => exact ⟨h.1.of_frame hf hpos, h.2⟩
  | mark q => exact ⟨{ h.1 with frame := hf.trans h.1.frame, moved := hpos ▸ h.1.moved }, h.2⟩
  | bad q => exact hf.trans h

theorem frame_rotate (p : LzmaDec) (i : Fin 4) (state : Nat) :
    p.Frame { p.rotate i with state := state } ∧ (p.rotate i).dicPos = p.dicPos ∧
      (p.rotate i).dicBufSize = p.dicBufSize ∧ (p.rotate i).rc = p.rc := by
  match i with
  | 0 => exact ⟨⟨rfl, rfl, rfl, rfl, rfl, fun _ _ => rfl⟩, rfl, rfl, rfl⟩
  | 1 => exact ⟨⟨rfl, rfl, rfl, rfl, rfl, fun _ _ => rfl⟩, rfl, rfl, rfl⟩
  | 2 => exact ⟨⟨rfl, rfl, rfl, rfl, rfl, fun _ _ => rfl⟩, rfl, rfl, rfl⟩
  | 3 => exact ⟨⟨rfl, rfl, rfl, rfl, rfl, fun _ _ => rfl⟩, rfl, rfl, rfl⟩

theorem litState_lt {state : Nat} (h : state < 12) : litState state < 12 := by
  rw [litState]
  split <;> split <;> omega

theorem Safe.near (h : p.Safe) {distance : Nat} (hd : ¬ p.farOff distance) :
    distance < p.dicPos := by
  rw [farOff] at hd
  have hproc := h.processed
  rcases h.window with hw | ⟨hw, hle⟩
  · rw [if_pos hw] at hd
    simp only [decide_eq_true_eq] at hd
    omega
  · have hpos := h.dicPos
    rw [if_neg (by omega)] at hd
    simp only [decide_eq_true_eq] at hd
    omega

theorem Safe.act (h : p.Safe) (limit : Nat) {packet : Packet} (hr : p.Readable packet)
    (hlim : p.dicPos < limit) (hend : limit ≤ p.dicBufSize) (hzero : p.remainLen = 0) :
    ∃ r, p.act limit packet = .ok r ∧ p.Went limit (· = p.rc) r := by
  have hstate := h.formed.state
  have hrest : ∀ b, ∀ i, p.dicBufSize ≤ i → Function.update p.dic p.dicPos b i = p.dic i :=
    fun b i hi => Function.update_of_ne (by omega) _ _
  have hrem : p.remainLen < kMatchSpecLenStart := by rw [hzero]; decide
  cases packet with
  | lit b =>
    refine ⟨_, by rw [LzmaDec.act, put_ok (by omega), ok_bind]; rfl, ?_⟩
    exact ⟨h.moved Nat.one_pos hlim hend (litState_lt hstate) (hrest b) hrem
      fun hz => absurd hzero hz, rfl⟩
  | shortRep =>
    have hback := (h.back hr).2
    refine ⟨_, by
      rw [LzmaDec.act, readDic, if_pos (by omega), ok_bind, put_ok (by omega), ok_bind]; rfl, ?_⟩
    exact ⟨h.moved Nat.one_pos hlim hend (by split <;> omega) (hrest _) hrem
      fun hz => absurd hzero hz, rfl⟩
  | rep i len =>
    obtain ⟨hf, hpos, hbuf, hrc⟩ :=
      frame_rotate p i (if p.state < kNumLitStates then 8 else 11)
    have hstate' : (if p.state < kNumLitStates then 8 else 11) < 12 := by split <;> omega
    have hsafe := h.rotate hr.1 i hstate'
    obtain ⟨r, hact, hwent⟩ := hsafe.copyMatch limit (hpos ▸ hr.1) (hpos ▸ hlim)
      (hbuf ▸ hend) hr.2
    rw [← hrc]
    exact ⟨r, hact, hwent.of_frame hf hpos⟩
  | mtch len distance =>
    rw [LzmaDec.act]
    split
    · exact ⟨_, rfl, rfl, rfl, rfl, rfl, rfl, fun _ _ => rfl⟩
    · next hfar =>
      have hnear := h.near hfar
      have hstate' :
          (if p.state < kNumLitStates then kNumLitStates else kNumLitStates + 3) < 12 := by
        split <;> decide
      have hreps : ∀ r ∈ [distance + 1, p.rep0, p.rep1, p.rep2], 0 < r ∧ r - 1 ≤ p.dicPos - 1 := by
        intro r hr
        rcases List.mem_cons.mp hr with rfl | hr
        · omega
        · refine h.reps r ?_
          simp only [List.mem_cons] at hr ⊢
          tauto
      have hsafe := h.withReps (by omega) hstate' hreps
      obtain ⟨r, hact, hwent⟩ := hsafe.copyMatch limit (by change 0 < p.dicPos; omega)
        hlim hend hr
      exact ⟨r, hact, hwent.of_frame ⟨rfl, rfl, rfl, rfl, rfl, fun _ _ => rfl⟩ rfl⟩
  | endMark len =>
    exact ⟨_, rfl, ⟨h.withRemain _, ⟨rfl, rfl, rfl, rfl, rfl, fun _ _ => rfl⟩, le_refl _, hlim.le,
      Nat.le_add_left _ _⟩, rfl⟩
  | bad => exact ⟨_, rfl, rfl, rfl, rfl, rfl, rfl, fun _ _ => rfl⟩

-- ---------------------------------------------------------------------------
-- The loops
-- ---------------------------------------------------------------------------

/-- The next packet can be read to its end. If input is left behind `bufLimit`, that is a
stretch of twenty bytes. -/
def Primed (keep : Nat) (p : LzmaDec) : Prop :=
  ∃ packet rc, p.packet.decode p.rc = .ok (packet, rc) ∧ p.Readable packet ∧ p.rc.Kept rc ∧
    (packet ≠ .bad → ∃ dn, rc.normalize = .ok dn) ∧
      (keep < rc.buf.length → requiredInputMax ≤ keep)

theorem Safe.primed_of_fuelled (h : p.Safe) {keep : Nat} (hf : p.rc.Fuelled packetWeight)
    (hk : requiredInputMax ≤ keep) : p.Primed keep := by
  obtain ⟨packet, rc, hdec, hread, hone⟩ :=
    h.packet_bounded.decode (packet_within h.formed) (fun _ hj => hj) hf
  obtain ⟨dn, hdn, -⟩ := hone.normalize (le_refl 1)
  exact ⟨packet, rc, hdec, hread, Prog.decode_kept hdec hf.low, fun _ => ⟨dn, hdn⟩, fun _ => hk⟩

theorem Safe.primed_of_dummy (h : p.Safe) {src : List UInt8} {res : Dummy} {d dn : RangeDec}
    (hlow : 2 ^ 16 ≤ p.rc.range.toNat) (hcheck : p.dummy.check (p.withBuf src).rc = .ok (res, d))
    (hn : d.normalizeCheck = .ok dn) : (p.withBuf src).Primed src.length := by
  have hsafe : (p.withBuf src).Safe := h.withRc rfl
  have hlike : (p.withBuf src).rc.Like (fun j => j < p.rc.numProbs) (p.withBuf src).rc :=
    ⟨rfl, rfl, rfl, rfl, fun _ _ => rfl⟩
  obtain ⟨packet, rc, hdec, hread, hlast⟩ := (p.withBuf src).dummy_shadows.decode
    hsafe.packet_bounded (dummy_within hsafe.formed) hlike hcheck
  have hkept := Prog.decode_kept hdec hlow
  refine ⟨packet, rc, hdec, hread, hkept, fun hbad => ?_,
    fun hk => absurd hk (Nat.not_lt.mpr hkept.buf)⟩
  obtain ⟨rn, -, hrn, -⟩ | ⟨-, hended⟩ := (hlast.resolve_left hbad).normalize
  · exact ⟨rn, hrn⟩
  · rw [hn] at hended
    cases hended

/-- A decoder between packets, with the input it is to read from. -/
structure Supplied where
  dec : LzmaDec
  src : List UInt8
  safe : dec.Safe
  top : 2 ^ 24 ≤ dec.rc.range.toNat

theorem Primed.readPacket {keep : Nat} {src : List UInt8} (h : (p.withBuf src).Primed keep) :
    ∃ packet, p.readPacket src = .ok packet := by
  obtain ⟨packet, rc, hdec, -, -, hnorm, -⟩ := h
  have hdec' : p.packet.decode (p.withBuf src).rc = .ok (packet, rc) := hdec
  refine ⟨packet, ?_⟩
  rw [LzmaDec.readPacket, hdec', ok_bind]
  by_cases hbad : packet = .bad
  · exact if_pos hbad
  · obtain ⟨dn, hdn⟩ := hnorm hbad
    dsimp only
    rw [if_neg hbad, hdn]
    rfl

/-- `LzmaDec_TryDummy` is right about the input: with its yes a packet can be read to its end,
and after its no the input does end within the packet, or the packet is one that the decoder
refuses. -/
theorem Supplied.tryDummy_spec (s : Supplied) :
    match s.dec.tryDummy s.src with
    | .ok (some _) => ∃ packet, s.dec.readPacket s.src = .ok packet
    | .ok none => s.dec.readPacket s.src = .error .input ∨ s.dec.readPacket s.src = .ok .bad
    | .error _ => False := by
  have htop := s.top
  obtain ⟨hnone, hend⟩ | ⟨res, d, dn, hsome, hcheck, hn⟩ := s.safe.tryDummy_cases s.src
  · rw [hnone]
    have hsafe : (s.dec.withBuf s.src).Safe := s.safe.withRc rfl
    have hlike : (s.dec.withBuf s.src).rc.Like (fun j => j < s.dec.rc.numProbs)
        (s.dec.withBuf s.src).rc := ⟨rfl, rfl, rfl, rfl, fun _ _ => rfl⟩
    have hshadow := (s.dec.withBuf s.src).dummy_shadows
    rw [readPacket]
    rcases hend with hcheck | ⟨res, d, hcheck, hn⟩
    · obtain hdec | ⟨packet, rc, hdec, hstop⟩ :=
        hshadow.decode_ended hsafe.packet_bounded (dummy_within hsafe.formed) hlike hcheck
      · left
        have hdec' : s.dec.packet.decode (s.dec.withBuf s.src).rc = .error .input := hdec
        rw [hdec', error_bind]
      · right
        have hdec' : s.dec.packet.decode (s.dec.withBuf s.src).rc = .ok (packet, rc) := hdec
        rw [hdec', ok_bind]
        dsimp only
        rw [if_pos hstop, hstop]
        rfl
    · obtain ⟨packet, rc, hdec, -, hlast⟩ :=
        hshadow.decode hsafe.packet_bounded (dummy_within hsafe.formed) hlike hcheck
      have hdec' : s.dec.packet.decode (s.dec.withBuf s.src).rc = .ok (packet, rc) := hdec
      rw [hdec', ok_bind]
      dsimp only
      by_cases hbad : packet = .bad
      · rw [if_pos hbad, hbad]
        exact .inr rfl
      · obtain ⟨rn, dn, -, hdn, -⟩ | ⟨hrn, -⟩ := (hlast.resolve_left hbad).normalize
        · rw [hn] at hdn
          cases hdn
        · rw [if_neg hbad, hrn, error_bind]
          exact .inl rfl
  · rw [hsome]
    exact (s.safe.primed_of_dummy (by omega) hcheck hn).readPacket

/-- One with `LZMA_REQUIRED_INPUT_MAX` bytes. -/
structure Stocked extends Supplied where
  bytes : requiredInputMax ≤ src.length

/-- `LZMA_REQUIRED_INPUT_MAX` bytes are enough for any packet. -/
theorem Stocked.readPacket_ok (s : Stocked) : ∃ packet, s.dec.readPacket s.src = .ok packet := by
  have hsafe : (s.dec.withBuf s.src).Safe := s.safe.withRc rfl
  have hfuel : (s.dec.withBuf s.src).rc.Fuelled packetWeight := .start s.top s.bytes
  exact (hsafe.primed_of_fuelled hfuel (le_refl requiredInputMax)).readPacket

/-- After the `NORMALIZE` at the end. -/
def Rested (keep : Nat) (rc : RangeDec) : Prop :=
  2 ^ 24 ≤ rc.range.toNat ∧ (keep < rc.buf.length → requiredInputMax ≤ keep)

theorem Safe.again (h : p.Safe) {keep : Nat} (hlow : 2 ^ 16 ≤ p.rc.range.toNat)
    (hk : requiredInputMax ≤ keep) (hbuf : keep < p.rc.buf.length) : p.Primed keep :=
  h.primed_of_fuelled (.again hlow (hk.trans_lt hbuf)) hk

theorem normalize_ok {dn : RangeDec} (h : p.rc.normalize = .ok dn) :
    p.normalize = .ok { p with rc := dn } := by
  rw [LzmaDec.normalize, h]
  rfl

theorem Moved.withRc {limit : Nat} (h : p.Moved limit q) {rc : RangeDec}
    (hnum : rc.numProbs = q.rc.numProbs) : p.Moved limit { q with rc := rc } :=
  { h with safe := h.safe.withRc hnum, frame := { h.frame with } }

theorem Marked.withRc {limit : Nat} (h : p.Marked limit q) {rc : RangeDec}
    (hnum : rc.numProbs = q.rc.numProbs) : p.Marked limit { q with rc := rc } :=
  { h with safe := h.safe.withRc hnum, frame := { h.frame with } }

theorem act_bad (p : LzmaDec) (limit : Nat) : p.act limit .bad = .ok (.bad p) := rfl

theorem Safe.realLoop (h : p.Safe) (limit : Nat) {keep n : Nat} (hp : p.Primed keep)
    (hzero : p.remainLen = 0) (hlim : p.dicPos < limit) (hend : limit ≤ p.dicBufSize)
    (hn : limit - p.dicPos ≤ n) :
    ∃ r, LzmaDec.realLoop limit keep n p = .ok r ∧ p.Went limit (Rested keep) r := by
  induction n generalizing p with
  | zero => omega
  | succ n ih =>
    obtain ⟨packet, rc, hdec, hread, hkept, hnorm, hkeep⟩ := hp
    obtain ⟨r, hact, hwent⟩ := (h.withRc hkept.numProbs).act limit hread hlim hend hzero
    have hbad : ∀ s, r = s → (∀ q, s ≠ .bad q) → packet ≠ .bad := by
      rintro s rfl hs rfl
      rw [act_bad] at hact
      exact hs _ (Except.ok.inj hact).symm
    have hwent' := hwent.of_frame (p := p) ⟨rfl, rfl, rfl, rfl, rfl, fun _ _ => rfl⟩ rfl
    rw [LzmaDec.realLoop, pass, hdec, ok_bind]
    dsimp only
    rw [hact, ok_bind]
    cases r with
    | next q =>
      obtain ⟨hm, hrc⟩ := hwent'
      have hrc' : q.rc = rc := hrc
      dsimp only
      split
      · next hc =>
        obtain ⟨hpos, hbuf⟩ := hc
        have hprimed := hm.safe.again (hrc' ▸ hkept.low) (hkeep (hrc' ▸ hbuf)) hbuf
        have hrem : q.remainLen = 0 := by
          by_contra hne
          exact hpos.ne (hm.left hne)
        have hmoved := hm.moved
        obtain ⟨r, hr, hw⟩ := ih hm.safe hprimed hrem hpos (hm.frame.dicBufSize ▸ hend) (by omega)
        exact ⟨r, hr, hm.went hw⟩
      · obtain ⟨dn, hdn⟩ := hnorm (hbad _ rfl fun _ => nofun)
        obtain ⟨hk, htop⟩ := RangeDec.normalize_kept hdn hkept.low
        rw [normalize_ok (hrc' ▸ hdn), ok_bind]
        exact ⟨_, rfl, hm.withRc (hrc' ▸ hk.numProbs), htop, fun hlt => hkeep (hlt.trans_le hk.buf)⟩
    | mark q =>
      obtain ⟨hm, hrc⟩ := hwent'
      have hrc' : q.rc = rc := hrc
      obtain ⟨dn, hdn⟩ := hnorm (hbad _ rfl fun _ => nofun)
      obtain ⟨hk, htop⟩ := RangeDec.normalize_kept hdn hkept.low
      dsimp only
      rw [normalize_ok (hrc' ▸ hdn), ok_bind]
      exact ⟨_, rfl, hm.withRc (hrc' ▸ hk.numProbs), htop, fun hlt => hkeep (hlt.trans_le hk.buf)⟩
    | bad q => exact ⟨_, rfl, hwent'⟩

theorem Safe.decodeReal (h : p.Safe) {limit keep : Nat} (hp : p.Primed keep)
    (hlim : p.dicPos < limit) (hend : limit ≤ p.dicBufSize) :
    ∃ res q, p.decodeReal limit keep = .ok (res, q) ∧ p.Frame q ∧ q.dicPos ≤ limit ∧
      (res = .ok → (p.Moved limit q ∨ p.Marked limit q) ∧ Rested keep q.rc) := by
  have hframe : p.Frame { p with remainLen := 0 } := ⟨rfl, rfl, rfl, rfl, rfl, fun _ _ => rfl⟩
  obtain ⟨r, hloop, hwent⟩ := (h.withRemain 0).realLoop limit (n := limit - p.dicPos + 1)
    (show Primed keep _ from hp) rfl hlim hend (Nat.le_succ _)
  have hwent' := hwent.of_frame hframe rfl
  rw [LzmaDec.decodeReal, hloop, ok_bind]
  cases r with
  | next q =>
    exact ⟨_, _, rfl, hwent'.1.frame, hwent'.1.inside, fun _ => ⟨.inl hwent'.1, hwent'.2⟩⟩
  | mark q =>
    exact ⟨_, _, rfl, hwent'.1.frame, hwent'.1.inside, fun _ => ⟨.inr hwent'.1, hwent'.2⟩⟩
  | bad q => exact ⟨_, _, rfl, ⟨rfl, rfl, rfl, rfl, rfl, hwent'.rest⟩, hlim.le, nofun⟩

structure Tidied (limit : Nat) (p q : LzmaDec) : Prop where
  safe : q.Safe
  frame : p.Frame q
  rc : q.rc = p.rc
  moved : p.dicPos ≤ q.dicPos
  inside : q.dicPos ≤ limit
  unfilled : q.checkDicSize = 0 → q.dicPos < q.prop.dicSize
  mark : kMatchSpecLenStart ≤ p.remainLen → q.remainLen = p.remainLen
  left : p.remainLen < kMatchSpecLenStart →
    q.remainLen < kMatchSpecLenStart ∧ (q.remainLen ≠ 0 → q.dicPos = limit)

theorem Safe.writeRem (h : p.Safe) (limit : Nat) (hin : p.dicPos ≤ limit)
    (hend : limit ≤ p.dicBufSize) (hpos : p.remainLen ≠ 0 → p.remainLen < kMatchSpecLenStart →
      0 < p.dicPos) (hun : p.checkDicSize = 0 → p.dicPos < p.prop.dicSize) :
    ∃ q, p.writeRem limit = .ok q ∧ p.Tidied limit q := by
  have hsize := h.size
  have hdic := h.dicPos
  have hdicLt := h.dicLt
  have hproc := h.processed
  rw [LzmaDec.writeRem]
  split
  · next hrem =>
    have hsub : subSize limit p.dicPos = limit - p.dicPos := subSize_of_le hin (by omega)
    obtain ⟨len, hlen, hlimit, hle, hleft⟩ : ∃ len,
        (if subSize limit p.dicPos < p.remainLen then subSize limit p.dicPos else p.remainLen) =
          len ∧ p.dicPos + len ≤ limit ∧ len ≤ p.remainLen ∧
            (p.remainLen - len ≠ 0 → p.dicPos + len = limit) := by
      refine ⟨_, rfl, ?_⟩
      split <;> omega
    simp only [hlen]
    obtain ⟨hrep, hrepLe⟩ := h.rep0_le (hpos hrem.1 hrem.2)
    have hwin : p.checkDicSize = 0 →
        subSize p.prop.dicSize p.processedPos = p.prop.dicSize - p.dicPos := by
      intro hz
      have := hun hz
      rw [hproc, subSize_of_le (by omega) hdicLt]
    -- `checkDicSize` is set as soon as the window has been filled
    obtain ⟨size, hcheck, hwindow, hunfilled⟩ : ∃ size,
        (if p.checkDicSize = 0 ∧ subSize p.prop.dicSize p.processedPos ≤ len then p.prop.dicSize
          else p.checkDicSize) = size ∧
        (size = 0 ∨ (size = p.prop.dicSize ∧ p.prop.dicSize ≤ p.dicPos + len)) ∧
          (size = 0 → p.dicPos + len < p.prop.dicSize) := by
      refine ⟨_, rfl, ?_⟩
      rcases h.window with hw | ⟨hw, hwle⟩
      · have hw' := hwin hw
        have := hun hw
        split <;> omega
      · rw [if_neg (by omega)]
        omega
    simp only [hcheck]
    obtain ⟨dic, hcopy, hrest⟩ := copyRem_ok len
      (p := { p with
        checkDicSize := size, processedPos := p.processedPos + len
        remainLen := p.remainLen - len })
      hrep hrepLe (hlimit.trans hend) hsize
    refine ⟨_, hcopy, ?_⟩
    exact {
      safe := {
        formed := { h.formed with }
        inside := hlimit.trans hend
        size := h.size
        processed := congrArg (· + len) h.processed
        dicPos := h.dicPos
        dicLt := h.dicLt
        window := hwindow
        reps := fun r hr => by
          have hr' := h.reps r hr
          change 0 < r ∧ r - 1 ≤ p.dicPos + len - 1
          omega
        first := fun hz => h.first (Nat.le_zero.mp (hz ▸ Nat.le_add_right _ _)) }
      frame := ⟨rfl, rfl, rfl, rfl, rfl, hrest⟩
      rc := rfl
      moved := Nat.le_add_right _ _
      inside := hlimit
      unfilled := hunfilled
      mark := fun hm => absurd hrem.2 (Nat.not_lt.mpr hm)
      left := fun _ => ⟨(Nat.sub_le _ _).trans_lt hrem.2, hleft⟩ }
  · next hrem =>
    exact ⟨p, rfl, h, ⟨rfl, rfl, rfl, rfl, rfl, fun _ _ => rfl⟩, rfl, le_refl _, hin, hun,
      fun _ => rfl, fun hlt => ⟨hlt, fun hne => absurd ⟨hne, hlt⟩ hrem⟩⟩

structure Resting (p : LzmaDec) : Prop where
  safe : p.Safe
  top : 2 ^ 24 ≤ p.rc.range.toNat
  unfilled : p.checkDicSize = 0 → p.dicPos < p.prop.dicSize

theorem Resting.windowLimit (h : p.Resting) {limit : Nat} (hlim : p.dicPos < limit)
    (hend : limit ≤ p.dicBufSize) :
    p.dicPos < p.windowLimit limit ∧ p.windowLimit limit ≤ limit := by
  have hsize := h.safe.size
  have hdicLt := h.safe.dicLt
  have hproc := h.safe.processed
  rw [LzmaDec.windowLimit]
  split
  · next hz =>
    have hun := h.unfilled hz.1
    rw [hproc, subSize_of_le hlim.le (by omega), subSize_of_le hun.le hdicLt] at hz
    rw [hproc, subSize_of_le hun.le hdicLt]
    omega
  · exact ⟨hlim, le_refl _⟩

theorem Safe.filled (h : p.Safe) :
    Safe { p with
      checkDicSize := if p.processedPos ≥ p.prop.dicSize then p.prop.dicSize else p.checkDicSize } ∧
      ((if p.processedPos ≥ p.prop.dicSize then p.prop.dicSize else p.checkDicSize) = 0 →
        p.dicPos < p.prop.dicSize) := by
  have hdic := h.dicPos
  have hproc := h.processed
  split
  · next hge =>
    exact ⟨{ h with formed := { h.formed with }, window := .inr ⟨rfl, hproc ▸ hge⟩ }, by omega⟩
  · exact ⟨{ h with formed := { h.formed with } }, by omega⟩

structure Ran (limit : Nat) (p q : LzmaDec) : Prop where
  resting : q.Resting
  frame : p.Frame q
  inside : q.dicPos ≤ limit
  moved : q.remainLen < kMatchSpecLenStart → p.dicPos < q.dicPos

theorem Resting.decodeReal (h : p.Resting) {limit keep : Nat} (hp : p.Primed keep)
    (hlim : p.dicPos < limit) (hend : limit ≤ p.dicBufSize) :
    ∃ res q, p.decodeReal (p.windowLimit limit) keep = .ok (res, q) ∧ p.Frame q ∧
      q.dicPos ≤ limit ∧ (res = .ok → ∃ q', LzmaDec.writeRem limit { q with
        checkDicSize := if q.processedPos ≥ q.prop.dicSize then q.prop.dicSize
          else q.checkDicSize } = .ok q' ∧ p.Ran limit q' ∧ Rested keep q'.rc) := by
  obtain ⟨hwlt, hwle⟩ := h.windowLimit hlim hend
  obtain ⟨res, q, hreal, hframe, hin, hok⟩ := h.safe.decodeReal hp hwlt (hwle.trans hend)
  refine ⟨res, q, hreal, hframe, hin.trans hwle, fun hres => ?_⟩
  obtain ⟨hm, hrest⟩ := hok hres
  have hsafe : q.Safe := hm.elim Moved.safe Marked.safe
  obtain ⟨hfilled, hun⟩ := hsafe.filled
  obtain ⟨q', hq', ht⟩ := hfilled.writeRem limit (hin.trans hwle)
    (show limit ≤ q.dicBufSize from hframe.dicBufSize ▸ hend)
    (fun _ hlt => hm.elim (fun hm => Nat.zero_lt_of_lt hm.moved)
      fun hm => absurd hlt (Nat.not_lt.mpr hm.remain)) hun
  have hrc : q'.rc = q.rc := ht.rc
  have hframe' : q.Frame q' := { ht.frame with }
  refine ⟨q', hq', ⟨⟨ht.safe, hrc ▸ hrest.1, ht.unfilled⟩, hframe.trans hframe', ht.inside,
    fun hlt => ?_⟩, hrc ▸ hrest⟩
  rcases hm with hm | hm
  · exact hm.moved.trans_le ht.moved
  · have hmark : q'.remainLen = q.remainLen := ht.mark hm.remain
    have := hm.remain
    omega

theorem Resting.real2Loop (h : p.Resting) {limit keep n : Nat} (hp : p.Primed keep)
    (hlim : p.dicPos < limit) (hend : limit ≤ p.dicBufSize) (hn : limit - p.dicPos ≤ n) :
    ∃ res q, LzmaDec.real2Loop limit keep n p = .ok (res, q) ∧ p.Frame q ∧ q.dicPos ≤ limit ∧
      (res = .ok → p.Ran limit q) := by
  induction n generalizing p with
  | zero => omega
  | succ n ih =>
    obtain ⟨res, q, hreal, hframe, hin, hok⟩ := h.decodeReal hp hlim hend
    rw [LzmaDec.real2Loop, hreal, ok_bind]
    cases res with
    | ok =>
      obtain ⟨q', hq', hran, hrest⟩ := hok rfl
      dsimp only
      rw [hq', ok_bind]
      split
      · next hc =>
        have hmoved := hran.moved hc.2.2
        have hprimed : q'.Primed keep :=
          hran.resting.safe.again (Nat.le_trans (by decide) hrest.1) (hrest.2 hc.2.1) hc.2.1
        obtain ⟨res, r, hloop, hf, hr, hok'⟩ := ih hran.resting hprimed hc.1
          (hran.frame.dicBufSize ▸ hend) (by omega)
        refine ⟨res, r, hloop, hran.frame.trans hf, hr, fun hres => ?_⟩
        have hran' := hok' hres
        exact { hran' with
          frame := hran.frame.trans hf, moved := fun hlt => hmoved.trans (hran'.moved hlt) }
      · exact ⟨_, _, rfl, hran.frame, hran.inside, fun _ => hran⟩
    | errorData | errorUnsupported | errorInputEof => exact ⟨_, _, rfl, hframe, hin, nofun⟩

theorem Resting.withRemain (h : p.Resting) (n : Nat) : Resting { p with remainLen := n } :=
  ⟨h.safe.withRemain n, h.top, h.unfilled⟩

theorem Resting.decodeReal2 (h : p.Resting) {limit keep : Nat} (hp : p.Primed keep)
    (hlim : p.dicPos < limit) (hend : limit ≤ p.dicBufSize) :
    ∃ res q, p.decodeReal2 limit keep = .ok (res, q) ∧ p.Frame q ∧ q.dicPos ≤ limit ∧
      (res = .ok → q.Resting ∧ (p.dicPos < q.dicPos ∨ q.remainLen = kMatchSpecLenStart)) := by
  obtain ⟨res, q, hloop, hframe, hin, hok⟩ := h.real2Loop (n := limit - p.dicPos + 1) hp hlim hend
    (Nat.le_succ _)
  rw [LzmaDec.decodeReal2, hloop, ok_bind]
  cases res with
  | ok =>
    have hran := hok rfl
    refine ⟨_, _, rfl, { hframe with }, hin, fun _ => ⟨hran.resting.withRemain _, ?_⟩⟩
    change p.dicPos < q.dicPos ∨
      (if q.remainLen > kMatchSpecLenStart then kMatchSpecLenStart else q.remainLen) =
        kMatchSpecLenStart
    by_cases hlt : q.remainLen < kMatchSpecLenStart
    · exact .inl (hran.moved hlt)
    · right
      split <;> omega
  | errorData | errorUnsupported | errorInputEof => exact ⟨_, _, rfl, hframe, hin, nofun⟩

end LzmaDec

end BismarckPreloader.Lzma
