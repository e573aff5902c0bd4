import BismarckPreloader.Lzma.Symbols

/-!
# The decoder of the loader

`LzmaDec_DecodeReal` and the functions around it, up to `lzma_decompress`. An access outside
its array is a `Fault`.

A pass of the loop of `LzmaDec_DecodeReal` reads the bits of one packet and then acts on it.
Between the bits the source already changes its local variables; no bit is read with a
changed one.
-/

namespace BismarckPreloader.Lzma

structure Props where
  lc : Nat
  lp : Nat
  pb : Nat
  dicSize : Nat
  deriving DecidableEq

/-- `CLzmaDec`. `rc` has `range`, `code`, `probs` and what is left of the input from `buf` on.
`processedPos` counts the bytes of the output, of which there are fewer than 2 ^ 32. -/
structure LzmaDec where
  prop : Props
  rc : RangeDec
  dic : Nat → UInt8
  dicBufSize : Nat
  dicPos : Nat
  processedPos : Nat
  checkDicSize : Nat
  state : Nat
  rep0 : Nat
  rep1 : Nat
  rep2 : Nat
  rep3 : Nat
  remainLen : Nat
  needFlush : Bool
  needInitState : Bool
  tempBuf : List UInt8

def subSize (a b : Nat) : Nat := (2 ^ 32 + a - b) % 2 ^ 32

theorem subSize_of_le {a b : Nat} (h : b ≤ a) (ha : a < 2 ^ 32) : subSize a b = a - b := by
  rw [subSize]
  omega

namespace LzmaDec

-- ---------------------------------------------------------------------------
-- The bits of a packet
-- ---------------------------------------------------------------------------

def backPos (p : LzmaDec) (rep : Nat) : Nat :=
  (subSize p.dicPos rep + if p.dicPos < rep then p.dicBufSize else 0) % 2 ^ 32

def posState (p : LzmaDec) : Nat := p.processedPos &&& (1 <<< p.prop.pb - 1)

def peek (p : LzmaDec) (i : Nat) : Prog UInt8 :=
  if i < p.dicBufSize then .ret (p.dic i) else .fault .dic

def litProb (p : LzmaDec) : Prog Nat :=
  if p.checkDicSize ≠ 0 ∨ p.processedPos ≠ 0 then do
    let prev ← p.peek ((if p.dicPos = 0 then p.dicBufSize else p.dicPos) - 1)
    pure (Literal + litSize *
      ((p.processedPos &&& (1 <<< p.prop.lp - 1)) <<< p.prop.lc + prev.toNat >>> (8 - p.prop.lc)))
  else pure Literal

def literal (p : LzmaDec) : Prog UInt8 := do
  let prob ← p.litProb
  if p.state < kNumLitStates then
    let symbol ← treeDecode prob 8 1
    pure (UInt8.ofNat symbol)
  else
    let matchByte ← p.peek (p.backPos p.rep0)
    let symbol ← matchedDecode prob 8 0x100 matchByte.toNat 1
    pure (UInt8.ofNat symbol)

end LzmaDec

/-- What a pass has read. Lengths are less `kMatchMinLen`, a distance is less one. `bad` is a
repeated match before the first byte. -/
inductive Packet where
  | lit (b : UInt8)
  | shortRep
  | rep (i : Fin 4) (len : Nat)
  | mtch (len distance : Nat)
  | endMark (len : Nat)
  | bad
  deriving DecidableEq

namespace LzmaDec

def repIndex (p : LzmaDec) : Prog (Fin 4) := do
  if ← Prog.getBit (IsRepG1 + p.state) then
    if ← Prog.getBit (IsRepG2 + p.state) then pure 3 else pure 2
  else pure 1

def repPacket (p : LzmaDec) : Prog Packet := do
  if ← Prog.getBit (IsRepG0 + p.state) then
    let i ← p.repIndex
    let len ← lenDecode RepLenCoder p.posState
    pure (.rep i len)
  else if ← Prog.getBit (IsRep0Long + p.state <<< kNumPosBitsMax + p.posState) then
    let len ← lenDecode RepLenCoder p.posState
    pure (.rep 0 len)
  else pure .shortRep

def matchPacket (p : LzmaDec) : Prog Packet := do
  let len ← lenDecode LenCoder p.posState
  match ← distDecode len with
  | none => pure (.endMark len)
  | some distance => pure (.mtch len distance)

def packet (p : LzmaDec) : Prog Packet := do
  if ← Prog.getBit (IsMatch + p.state <<< kNumPosBitsMax + p.posState) then
    if ← Prog.getBit (IsRep + p.state) then
      if p.checkDicSize = 0 ∧ p.processedPos = 0 then pure .bad else p.repPacket
    else p.matchPacket
  else
    let b ← p.literal
    pure (.lit b)

-- ---------------------------------------------------------------------------
-- Writing
-- ---------------------------------------------------------------------------

def readDic (p : LzmaDec) (i : Nat) : Except Fault UInt8 :=
  if i < p.dicBufSize then .ok (p.dic i) else .error .dic

def put (p : LzmaDec) (b : UInt8) : Except Fault LzmaDec :=
  if p.dicPos < p.dicBufSize then
    .ok { p with dic := Function.update p.dic p.dicPos b, dicPos := p.dicPos + 1 }
  else .error .dic

def copyStraight : Nat → Nat → LzmaDec → Except Fault LzmaDec
  | 0, _, p => .ok p
  | n + 1, pos, p => do
    let b ← p.readDic pos
    let p ← p.put b
    copyStraight n (pos + 1) p

def copyRound : Nat → Nat → LzmaDec → Except Fault LzmaDec
  | 0, _, p => .ok p
  | n + 1, pos, p => do
    let b ← p.readDic pos
    let p ← p.put b
    copyRound n (if pos + 1 = p.dicBufSize then 0 else pos + 1) p

def copyRem : Nat → LzmaDec → Except Fault LzmaDec
  | 0, p => .ok p
  | n + 1, p => do
    let b ← p.readDic (p.backPos p.rep0)
    let p ← p.put b
    copyRem n p

/-- How a pass ends: go on, leave the loop at the end mark, or return `SZ_ERROR_DATA`. -/
inductive Pass where
  | next (p : LzmaDec)
  | mark (p : LzmaDec)
  | bad (p : LzmaDec)

def copyMatch (limit len : Nat) (p : LzmaDec) : Except Fault Pass :=
  if limit = p.dicPos then .ok (.bad p)
  else do
    let rem := subSize limit p.dicPos
    let curLen := if rem < len then rem else len
    let pos := p.backPos p.rep0
    let q := { p with processedPos := p.processedPos + curLen, remainLen := len - curLen }
    let q ←
      if pos + curLen ≤ p.dicBufSize then copyStraight curLen pos q else copyRound curLen pos q
    pure (.next q)

def rotate (p : LzmaDec) : Fin 4 → LzmaDec
  | 0 => p
  | 1 => { p with rep0 := p.rep1, rep1 := p.rep0 }
  | 2 => { p with rep0 := p.rep2, rep1 := p.rep0, rep2 := p.rep1 }
  | 3 => { p with rep0 := p.rep3, rep1 := p.rep0, rep2 := p.rep1, rep3 := p.rep2 }

def litState (state : Nat) : Nat :=
  if state < kNumLitStates then state - (if state < 4 then state else 3)
  else state - (if state < 10 then 3 else 6)

def farOff (p : LzmaDec) (distance : Nat) : Bool :=
  if p.checkDicSize = 0 then distance ≥ p.processedPos else distance ≥ p.checkDicSize

def act (limit : Nat) (p : LzmaDec) : Packet → Except Fault Pass
  | .lit b => do
    let p ← p.put b
    pure (.next { p with state := litState p.state, processedPos := p.processedPos + 1 })
  | .shortRep => do
    let b ← p.readDic (p.backPos p.rep0)
    let p ← p.put b
    pure (.next { p with
      state := if p.state < kNumLitStates then 9 else 11, processedPos := p.processedPos + 1 })
  | .rep i len =>
    copyMatch limit (len + kMatchMinLen)
      { p.rotate i with state := if p.state < kNumLitStates then 8 else 11 }
  | .mtch len distance =>
    if p.farOff distance then .ok (.bad p)
    else
      copyMatch limit (len + kMatchMinLen) { p with
        rep0 := distance + 1, rep1 := p.rep0, rep2 := p.rep1, rep3 := p.rep2
        state := if p.state < kNumLitStates then kNumLitStates else kNumLitStates + 3 }
  | .endMark len => .ok (.mark { p with remainLen := len + kMatchSpecLenStart })
  | .bad => .ok (.bad p)

def pass (limit : Nat) (p : LzmaDec) : Except Fault Pass := do
  let (packet, rc) ← p.packet.decode p.rc
  { p with rc := rc }.act limit packet

end LzmaDec

-- ---------------------------------------------------------------------------
-- The loops
-- ---------------------------------------------------------------------------

inductive SRes where
  | ok
  | errorData
  | errorUnsupported
  | errorInputEof
  deriving DecidableEq, Repr

namespace LzmaDec

/-- `NORMALIZE` at the end of `LzmaDec_DecodeReal`. -/
def normalize (p : LzmaDec) : Except Fault LzmaDec := do
  let rc ← p.rc.normalize
  pure { p with rc := rc }

/-- The loop of `LzmaDec_DecodeReal`. Each pass but one with the end mark writes a byte, so
there are not more of them than bytes up to `limit`; `keep` is how many bytes of the input lie
behind `bufLimit`. -/
def realLoop (limit keep : Nat) : Nat → LzmaDec → Except Fault Pass
  | 0, _ => .error .loop
  | n + 1, p => do
    match ← p.pass limit with
    | .next q =>
      if q.dicPos < limit ∧ keep < q.rc.buf.length then realLoop limit keep n q
      else pure (.next (← q.normalize))
    | .mark q => pure (.mark (← q.normalize))
    | .bad q => pure (.bad q)

def decodeReal (limit keep : Nat) (p : LzmaDec) : Except Fault (SRes × LzmaDec) := do
  match ← realLoop limit keep (limit - p.dicPos + 1) { p with remainLen := 0 } with
  | .next q => pure (.ok, q)
  | .mark q => pure (.ok, q)
  | .bad q => pure (.errorData, { p with dic := q.dic, rc := { p.rc with probs := q.rc.probs } })

def writeRem (limit : Nat) (p : LzmaDec) : Except Fault LzmaDec :=
  if p.remainLen ≠ 0 ∧ p.remainLen < kMatchSpecLenStart then
    let len := if subSize limit p.dicPos < p.remainLen then subSize limit p.dicPos else p.remainLen
    copyRem len { p with
      checkDicSize :=
        if p.checkDicSize = 0 ∧ subSize p.prop.dicSize p.processedPos ≤ len then p.prop.dicSize
        else p.checkDicSize
      processedPos := p.processedPos + len
      remainLen := p.remainLen - len }
  else .ok p

def windowLimit (limit : Nat) (p : LzmaDec) : Nat :=
  if p.checkDicSize = 0 ∧ subSize limit p.dicPos > subSize p.prop.dicSize p.processedPos then
    p.dicPos + subSize p.prop.dicSize p.processedPos
  else limit

def real2Loop (limit keep : Nat) : Nat → LzmaDec → Except Fault (SRes × LzmaDec)
  | 0, _ => .error .loop
  | n + 1, p => do
    match ← p.decodeReal (p.windowLimit limit) keep with
    | (.ok, q) =>
      let q ← writeRem limit { q with
        checkDicSize := if q.processedPos ≥ q.prop.dicSize then q.prop.dicSize else q.checkDicSize }
      if q.dicPos < limit ∧ keep < q.rc.buf.length ∧ q.remainLen < kMatchSpecLenStart then
        real2Loop limit keep n q
      else pure (.ok, q)
    | (res, q) => pure (res, q)

def decodeReal2 (limit keep : Nat) (p : LzmaDec) : Except Fault (SRes × LzmaDec) := do
  match ← real2Loop limit keep (limit - p.dicPos + 1) p with
  | (.ok, q) => pure (.ok, { q with
      remainLen := if q.remainLen > kMatchSpecLenStart then kMatchSpecLenStart else q.remainLen })
  | (res, q) => pure (res, q)

end LzmaDec

-- ---------------------------------------------------------------------------
-- Looking ahead
-- ---------------------------------------------------------------------------

/-- Why looking ahead stops: `DUMMY_ERROR`, or an access outside an array. -/
inductive Short where
  | ended
  | fault (f : Fault)
  deriving DecidableEq, Repr

namespace RangeDec

/-- `NORMALIZE_CHECK`. -/
def normalizeCheck (d : RangeDec) : Except Short RangeDec :=
  if d.range < kTopValue then
    match d.buf with
    | [] => .error .ended
    | b :: buf => .ok
        { d with range := d.range <<< 8, code := (d.code <<< 8) ||| b.toUInt32, buf := buf }
  else .ok d

/-- `GET_BIT_CHECK`. No probability changes. -/
def getBitCheck (d : RangeDec) (i : Nat) : Except Short (Bool × RangeDec) :=
  if i < d.numProbs then do
    let d ← d.normalizeCheck
    let bound := (d.probs i).bound d.range
    if d.code < bound then pure (false, { d with range := bound })
    else pure (true, { d with range := d.range - bound, code := d.code - bound })
  else .error (.fault .probs)

def getDirectCheck (d : RangeDec) : Except Short (Bool × RangeDec) := do
  let d ← d.normalizeCheck
  let range := d.range >>> 1
  let mask := (d.code - range) >>> 31 - 1
  pure (mask == -1, { d with range := range, code := d.code - (range &&& mask) })

end RangeDec

def Prog.check {α : Type} : Prog α → RangeDec → Except Short (α × RangeDec)
  | .ret a, d => .ok (a, d)
  | .bit i k, d => do
    let (b, d) ← d.getBitCheck i
    (k b).check d
  | .direct k, d => do
    let (b, d) ← d.getDirectCheck
    (k b).check d
  | .fault f, _ => .error (.fault f)

inductive Dummy where
  | lit
  | mtch
  | rep
  deriving DecidableEq, Repr

def dummyFooter (posSlot : Nat) : Prog Unit :=
  if posSlot ≥ kStartPosModelIndex then
    let numDirectBits := posSlot >>> 1 - 1
    if posSlot < kEndPosModelIndex then do
      let _ ← treeDecode (SpecPos + slotBase posSlot - posSlot - 1) numDirectBits 1
      pure ()
    else do
      let _ ← directDecode (numDirectBits - kNumAlignBits) 0
      let _ ← treeDecode Align kNumAlignBits 1
      pure ()
  else pure ()

def dummyDist (len : Nat) : Prog Unit := do
  let prob := PosSlot +
    (if len < kNumLenToPosStates then len else kNumLenToPosStates - 1) <<< kNumPosSlotBits
  let posSlot ← treeDecode prob kNumPosSlotBits 1
  dummyFooter (posSlot - 2 ^ kNumPosSlotBits)

namespace LzmaDec

def withBuf (p : LzmaDec) (buf : List UInt8) : LzmaDec := { p with rc := { p.rc with buf := buf } }

def dummy (p : LzmaDec) : Prog Dummy := do
  if ← Prog.getBit (IsMatch + p.state <<< kNumPosBitsMax + p.posState) then
    if ← Prog.getBit (IsRep + p.state) then
      if ← Prog.getBit (IsRepG0 + p.state) then
        let _ ← p.repIndex
        let _ ← lenDecode RepLenCoder p.posState
        pure .rep
      else if ← Prog.getBit (IsRep0Long + p.state <<< kNumPosBitsMax + p.posState) then
        let _ ← lenDecode RepLenCoder p.posState
        pure .rep
      else pure .rep
    else
      let len ← lenDecode LenCoder p.posState
      dummyDist len
      pure .mtch
  else
    let _ ← p.literal
    pure .lit

/-- `LzmaDec_TryDummy` on the bytes from `buf` on; `none` is `DUMMY_ERROR`. -/
def tryDummy (p : LzmaDec) (buf : List UInt8) : Except Fault (Option Dummy) :=
  let run : Except Short Dummy := do
    let (res, d) ← p.dummy.check (p.withBuf buf).rc
    let _ ← d.normalizeCheck
    pure res
  match run with
  | .ok res => .ok (some res)
  | .error .ended => .ok none
  | .error (.fault f) => .error f

def initRc (p : LzmaDec) (b1 b2 b3 b4 : UInt8) : LzmaDec :=
  { p with
    rc := { p.rc with
      code := b1.toUInt32 <<< 24 ||| b2.toUInt32 <<< 16 ||| b3.toUInt32 <<< 8 ||| b4.toUInt32
      range := 0xFFFFFFFF }
    needFlush := false }

def initDicAndState (p : LzmaDec) (initDic initState : Bool) : LzmaDec :=
  let p := { p with needFlush := true, remainLen := 0, tempBuf := [] }
  let p := if initDic then { p with processedPos := 0, checkDicSize := 0, needInitState := true }
    else p
  if initState then { p with needInitState := true } else p

def init (p : LzmaDec) : LzmaDec := { p with dicPos := 0 }.initDicAndState true true

def initStateReal (p : LzmaDec) (room : Nat) : Except Fault LzmaDec :=
  let numProbs := Literal + litSize <<< (p.prop.lc + p.prop.lp)
  if numProbs ≤ room then
    .ok { p with
      rc := { p.rc with
        probs := fun i => if i < numProbs then Prob.initValue else p.rc.probs i }
      rep0 := 1, rep1 := 1, rep2 := 1, rep3 := 1
      state := 0
      needInitState := false }
  else .error .heap

end LzmaDec

-- ---------------------------------------------------------------------------
-- From a buffer
-- ---------------------------------------------------------------------------

inductive FinishMode where
  | any
  | endMark
  deriving DecidableEq, Repr

inductive Status where
  | notSpecified
  | finishedWithMark
  | notFinished
  | needsMoreInput
  | maybeFinishedWithoutMark
  deriving DecidableEq, Repr

structure Reply where
  res : SRes
  status : Status
  srcLen : Nat
  dec : LzmaDec

/-- `LZMA_REQUIRED_INPUT_MAX`. -/
def requiredInputMax : Nat := 20

/-- `RC_INIT_SIZE`. -/
def rcInitSize : Nat := 5

namespace LzmaDec

inductive ToDic where
  | next (p : LzmaDec) (src : List UInt8) (srcLen : Nat)
  | ret (reply : Reply)

def flushPart (p : LzmaDec) (src : List UInt8) (srcLen : Nat) : ToDic :=
  if p.needFlush then
    let num := min (rcInitSize - p.tempBuf.length) src.length
    let p := { p with tempBuf := p.tempBuf ++ src.take num }
    match p.tempBuf with
    | b0 :: b1 :: b2 :: b3 :: b4 :: _ =>
      if b0 ≠ 0 then .ret ⟨.errorData, .notSpecified, srcLen + num, p⟩
      else .next { p.initRc b1 b2 b3 b4 with tempBuf := [] } (src.drop num) (srcLen + num)
    | _ => .ret ⟨.ok, .needsMoreInput, srcLen + num, p⟩
  else .next p src srcLen

def runSrc (dicLimit keep : Nat) (p : LzmaDec) (src : List UInt8) (srcLen : Nat) :
    Except Fault ToDic := do
  match ← decodeReal2 dicLimit keep (p.withBuf src) with
  | (.ok, q) => pure (.next q q.rc.buf (srcLen + (src.length - q.rc.buf.length)))
  | (_, q) => pure (.ret ⟨.errorData, .notSpecified, srcLen, q⟩)

def fromSrc (dicLimit : Nat) (checkEndMarkNow : Bool) (p : LzmaDec) (src : List UInt8)
    (srcLen : Nat) : Except Fault ToDic :=
  if src.length < requiredInputMax ∨ checkEndMarkNow then do
    match ← p.tryDummy src with
    | none => pure (.ret ⟨.ok, .needsMoreInput, srcLen + src.length, { p with tempBuf := src }⟩)
    | some dummyRes =>
      if checkEndMarkNow ∧ dummyRes ≠ .mtch then
        pure (.ret ⟨.errorData, .notFinished, srcLen, p⟩)
      else p.runSrc dicLimit src.length src srcLen
  else p.runSrc dicLimit requiredInputMax src srcLen

def runTemp (dicLimit lookAhead : Nat) (p : LzmaDec) (src : List UInt8) (srcLen : Nat) :
    Except Fault ToDic := do
  match ← decodeReal2 dicLimit p.tempBuf.length (p.withBuf p.tempBuf) with
  | (.ok, q) =>
    let lookAhead := lookAhead - q.rc.buf.length
    pure (.next { q with tempBuf := [] } (src.drop lookAhead) (srcLen + lookAhead))
  | (_, q) => pure (.ret ⟨.errorData, .notSpecified, srcLen, q⟩)

def fromTemp (dicLimit : Nat) (checkEndMarkNow : Bool) (p : LzmaDec) (src : List UInt8)
    (srcLen : Nat) : Except Fault ToDic :=
  let lookAhead := min (requiredInputMax - p.tempBuf.length) src.length
  let p := { p with tempBuf := p.tempBuf ++ src.take lookAhead }
  if p.tempBuf.length < requiredInputMax ∨ checkEndMarkNow then do
    match ← p.tryDummy p.tempBuf with
    | none => pure (.ret ⟨.ok, .needsMoreInput, srcLen + lookAhead, p⟩)
    | some dummyRes =>
      if checkEndMarkNow ∧ dummyRes ≠ .mtch then
        pure (.ret ⟨.errorData, .notFinished, srcLen, p⟩)
      else p.runTemp dicLimit lookAhead src srcLen
  else p.runTemp dicLimit lookAhead src srcLen

def toDicPass (room dicLimit : Nat) (finishMode : FinishMode) (p : LzmaDec) (src : List UInt8)
    (srcLen : Nat) : Except Fault ToDic :=
  match p.flushPart src srcLen with
  | .ret reply => .ok (.ret reply)
  | .next p src srcLen =>
    let full : Bool := p.dicPos ≥ dicLimit
    if full ∧ p.remainLen = 0 ∧ p.rc.code = 0 then
      .ok (.ret ⟨.ok, .maybeFinishedWithoutMark, srcLen, p⟩)
    else if full ∧ finishMode = .any then .ok (.ret ⟨.ok, .notFinished, srcLen, p⟩)
    else if full ∧ p.remainLen ≠ 0 then .ok (.ret ⟨.errorData, .notFinished, srcLen, p⟩)
    else do
      let p ← if p.needInitState then p.initStateReal room else .ok p
      if p.tempBuf = [] then fromSrc dicLimit full p src srcLen
      else fromTemp dicLimit full p src srcLen

def toDicLoop (room dicLimit : Nat) (finishMode : FinishMode) :
    Nat → LzmaDec → List UInt8 → Nat → Except Fault Reply
  | 0, _, _, _ => .error .loop
  | n + 1, p, src, srcLen =>
    if p.remainLen = kMatchSpecLenStart then
      .ok (if p.rc.code = 0 then ⟨.ok, .finishedWithMark, srcLen, p⟩
        else ⟨.errorData, .notSpecified, srcLen, p⟩)
    else do
      match ← p.toDicPass room dicLimit finishMode src srcLen with
      | .next p src srcLen => toDicLoop room dicLimit finishMode n p src srcLen
      | .ret reply => pure reply

def decodeToDic (room dicLimit : Nat) (finishMode : FinishMode) (p : LzmaDec) (src : List UInt8) :
    Except Fault Reply := do
  let p ← writeRem dicLimit p
  toDicLoop room dicLimit finishMode (dicLimit - p.dicPos + 3) p src 0

end LzmaDec

-- ---------------------------------------------------------------------------
-- One call
-- ---------------------------------------------------------------------------

def propsDecode (d b1 b2 b3 b4 : UInt8) : Option Props :=
  let dicSize := b1.toNat ||| b2.toNat <<< 8 ||| b3.toNat <<< 16 ||| b4.toNat <<< 24
  let dicSize := if dicSize < 2 ^ 12 then 2 ^ 12 else dicSize
  if d.toNat ≥ 9 * 5 * 5 then none
  else some
    { lc := d.toNat % 9, pb := d.toNat / 9 / 5, lp := d.toNat / 9 % 5, dicSize := dicSize }

/-- What `LzmaDecode` gives back, with the contents of `dest`. -/
structure Decoded where
  res : SRes
  status : Status
  destLen : Nat
  dest : Nat → UInt8

/-- A decoder before its first use: everything but `dic` and its size comes from
initialisation later. -/
def freshDec (prop : Props) (dest : Nat → UInt8) (outSize : Nat) : LzmaDec where
  prop := prop
  rc := ⟨0, 0, [], fun _ => Prob.initValue, Literal + litSize <<< (prop.lc + prop.lp)⟩
  dic := dest
  dicBufSize := outSize
  dicPos := 0
  processedPos := 0
  checkDicSize := 0
  state := 0
  rep0 := 0
  rep1 := 0
  rep2 := 0
  rep3 := 0
  remainLen := 0
  needFlush := false
  needInitState := false
  tempBuf := []

/-- `LzmaDecode`. The allocator always gives memory; `room` is how many probabilities it has
room for. -/
def lzmaDecode (room : Nat) (dest : Nat → UInt8) (outSize : Nat) (src : List UInt8)
    (props : Option Props) (finishMode : FinishMode) : Except Fault Decoded :=
  if src.length < rcInitSize then .ok ⟨.errorInputEof, .notSpecified, 0, dest⟩
  else
    match props with
    | none => .ok ⟨.errorUnsupported, .notSpecified, 0, dest⟩
    | some prop => do
      let reply ← (freshDec prop dest outSize).init.decodeToDic room outSize finishMode src
      let res := if reply.res = .ok ∧ reply.status = .needsMoreInput then .errorInputEof
        else reply.res
      pure ⟨res, reply.status, reply.dec.dicPos, reply.dec.dic⟩

/-- `HEAP_SIZE`. -/
def heapSize : Nat := 1024 * 1024

/-- `endian_swap`. -/
def endianSwap (b0 b1 b2 b3 : UInt8) : Nat :=
  (b3.toNat <<< 24 + b2.toNat <<< 16 + b1.toNat <<< 8 + b0.toNat) % 2 ^ 32

/-- The bytes that `lzma_decompress` hands over: `srcLen` of them behind the header of 13, whatever
the image they are part of ends with. Its callers pass the size of the whole image. -/
def payload (src : Nat → UInt8) (srcLen : Nat) : List UInt8 :=
  (List.range srcLen).map fun i => src (13 + i)

def fileSize (src : Nat → UInt8) : Nat := endianSwap (src 5) (src 6) (src 7) (src 8)

/-- `lzma_decompress` of the memory from `src` on. -/
def lzmaDecompress (src : Nat → UInt8) (dest : Nat → UInt8) (srcLen : Nat) :
    Except Fault Decoded :=
  lzmaDecode (heapSize / 2) dest (fileSize src) (payload src srcLen)
    (propsDecode (src 0) (src 1) (src 2) (src 3) (src 4)) .any

end BismarckPreloader.Lzma
