import BismarckPreloader.Lzma.RangeDec
import Mathlib.Data.Nat.Bitwise

/-!
# The parts of a symbol

Bytes, lengths and distances are read bit by bit, each bit with a probability that depends on the
bits before it. The probabilities lie in one table, with a part of it for each kind of bit.
-/

namespace BismarckPreloader.Lzma

def kNumPosBitsMax : Nat := 4
def kNumLitStates : Nat := 7
def kStartPosModelIndex : Nat := 4
def kEndPosModelIndex : Nat := 14
def kNumPosSlotBits : Nat := 6
def kNumLenToPosStates : Nat := 4
def kNumAlignBits : Nat := 4
def kLenNumLowBits : Nat := 3
def kLenNumMidBits : Nat := 3
def kLenNumHighBits : Nat := 8
def kLenNumLowSymbols : Nat := 8
def kLenNumMidSymbols : Nat := 8
def kMatchMinLen : Nat := 2
def kMatchSpecLenStart : Nat := 274

def LenChoice : Nat := 0
def LenChoice2 : Nat := 1
def LenLow : Nat := 2
def LenMid : Nat := 130
def LenHigh : Nat := 258
def IsMatch : Nat := 0
def IsRep : Nat := 192
def IsRepG0 : Nat := 204
def IsRepG1 : Nat := 216
def IsRepG2 : Nat := 228
def IsRep0Long : Nat := 240
def PosSlot : Nat := 432
def SpecPos : Nat := 688
def Align : Nat := 802
def LenCoder : Nat := 818
def RepLenCoder : Nat := 1332
def Literal : Nat := 1846

/-- `LZMA_LIT_SIZE`. -/
def litSize : Nat := 768

/-- `TREE_DECODE` without the subtraction at its end. `i` gains a bit with each pass, so it
reaches `limit` after as many passes as `limit` has bits below its first. -/
def treeDecode (probs : Nat) : Nat → Nat → Prog Nat
  | 0, i => .ret i
  | n + 1, i => do
    let b ← Prog.getBit (probs + i)
    treeDecode probs n (i + i + b.toNat)

/-- The loop for a literal after a match. The source's `offs &= ~bit` clears in `offs` the
bits of `bit`. -/
def matchedDecode (prob : Nat) : Nat → Nat → Nat → Nat → Prog Nat
  | 0, _, _, symbol => .ret symbol
  | n + 1, offs, matchByte, symbol => do
    let matchByte := matchByte <<< 1
    let bit := matchByte &&& offs
    let b ← Prog.getBit (prob + offs + bit + symbol)
    let offs := if b then offs &&& bit else offs ^^^ (offs &&& bit)
    matchedDecode prob n offs matchByte (symbol + symbol + b.toNat)

def reverseDecode (prob : Nat) : Nat → Nat → Nat → Nat → Prog Nat
  | 0, _, _, distance => .ret distance
  | n + 1, i, mask, distance => do
    let b ← Prog.getBit (prob + i)
    reverseDecode prob n (i + i + b.toNat) (mask <<< 1)
      (if b then distance ||| mask else distance)

def directDecode : Nat → Nat → Prog Nat
  | 0, distance => .ret distance
  | n + 1, distance => do
    let b ← Prog.getDirect
    directDecode n (distance <<< 1 + b.toNat)

def lenTree (probLen offset limitBits : Nat) : Prog Nat := do
  let len ← treeDecode probLen limitBits 1
  pure (len - 2 ^ limitBits + offset)

def lenDecode (prob posState : Nat) : Prog Nat := do
  if ← Prog.getBit (prob + LenChoice) then
    if ← Prog.getBit (prob + LenChoice2) then
      lenTree (prob + LenHigh) (kLenNumLowSymbols + kLenNumMidSymbols) kLenNumHighBits
    else lenTree (prob + LenMid + posState <<< kLenNumMidBits) kLenNumLowSymbols kLenNumMidBits
  else lenTree (prob + LenLow + posState <<< kLenNumLowBits) 0 kLenNumLowBits

def slotBase (posSlot : Nat) : Nat := (2 ||| (posSlot &&& 1)) <<< (posSlot >>> 1 - 1)

/-- The bits of a distance behind its slot; `none` is the end mark. -/
def footerDecode (posSlot : Nat) : Prog (Option Nat) :=
  if posSlot ≥ kStartPosModelIndex then
    let numDirectBits := posSlot >>> 1 - 1
    if posSlot < kEndPosModelIndex then do
      let distance ← reverseDecode (SpecPos + slotBase posSlot - posSlot - 1) numDirectBits 1 1
        (slotBase posSlot)
      pure (some distance)
    else do
      let distance ← directDecode (numDirectBits - kNumAlignBits) (2 ||| (posSlot &&& 1))
      let distance ← reverseDecode Align kNumAlignBits 1 1 (distance <<< kNumAlignBits)
      pure (if distance = 0xFFFFFFFF then none else some distance)
  else pure (some posSlot)

def distDecode (len : Nat) : Prog (Option Nat) := do
  let prob := PosSlot +
    (if len < kNumLenToPosStates then len else kNumLenToPosStates - 1) <<< kNumPosSlotBits
  let posSlot ← treeDecode prob kNumPosSlotBits 1
  footerDecode (posSlot - 0x40)

theorem and_offs (x : Nat) : x &&& 256 = if x.testBit 8 then 256 else 0 := by
  have h := Nat.and_two_pow x 8
  cases hb : x.testBit 8 with
  | false => simpa [hb] using h
  | true => simpa [hb] using h

theorem double_le {m n B b : Nat} (h : (m + 1) * 2 ^ (n + 1) ≤ 2 * B) (hb : b ≤ 1) :
    (m + m + b + 1) * 2 ^ n ≤ 2 * B := by
  have : (m + m + b + 1) * 2 ^ n ≤ (2 * (m + 1)) * 2 ^ n := Nat.mul_le_mul_right _ (by omega)
  rw [Nat.pow_succ] at h
  calc (m + m + b + 1) * 2 ^ n ≤ (2 * (m + 1)) * 2 ^ n := this
    _ = (m + 1) * (2 ^ n * 2) := by ring
    _ ≤ 2 * B := h

theorem index_lt_of_double {m n B : Nat} (h : (m + 1) * 2 ^ (n + 1) ≤ 2 * B) : m < B := by
  have h2 : (m + 1) * 2 ≤ (m + 1) * 2 ^ (n + 1) :=
    Nat.mul_le_mul_left _ (Nat.le_self_pow (by omega) 2)
  omega

end BismarckPreloader.Lzma
