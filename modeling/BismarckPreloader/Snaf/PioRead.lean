import BismarckPreloader.Lib.Memory
import BismarckPreloader.Lib.Words

/-!
# Reading the cache register through the data register

`_pio_read_data` sends the read command, the column and the dummy bytes, and then clocks
the page out: words as long as the destination is below the aligned end of the buffer, and
single bytes for the count modulo four. The two loops count in different ways, one from the
end address and one from the length.
-/

namespace BismarckPreloader.Snaf

structure ReadCmd where
  rCmd : UInt32
  rAddrIo : UInt32
  rDataIo : UInt32
  rDummyCycles : UInt32

/-- One `TRIG_CTRLR_PIO_WRITE`. -/
structure PioWrite where
  data : UInt32
  ioLen : UInt32
  deriving DecidableEq

def cmrLen (len : UInt32) : UInt32 := len - 1

def ioWidthLen (ioWidth len : UInt32) : UInt32 := (ioWidth <<< 28) ||| len

def readPhases (cmd : ReadCmd) (colAddr : UInt32) : List PioWrite :=
  [⟨cmd.rCmd <<< 24, ioWidthLen 0 (cmrLen 1)⟩,
    ⟨colAddr <<< 16, ioWidthLen cmd.rAddrIo (cmrLen 2)⟩,
    ⟨0, ioWidthLen cmd.rAddrIo (cmrLen (cmd.rDummyCycles / 8))⟩]

structure Transfer where
  wrBuf : UInt32
  clocked : Nat
  mem : Mem

def Transfer.put (t : Transfer) (b : UInt8) : Transfer :=
  { t with wrBuf := t.wrBuf + 1, mem := fun a => if a = t.wrBuf.toNat then b else t.mem a }

section
variable (out : Nat → UInt8)

/-- A read of `r_len + 1` bytes. The first byte clocked out is the highest one of the data
register, `rdata3`. -/
def trigCtrlrPioRead (rIoLen : UInt32) (t : Transfer) : UInt32 × Transfer :=
  let len := (rIoLen &&& 3).toNat + 1
  let rdata := fun k => if k < len then out (t.clocked + k) else 0
  (packWord (rdata 0) (rdata 1) (rdata 2) (rdata 3), { t with clocked := t.clocked + len })

def readWord (rIoLen : UInt32) (t : Transfer) : Transfer :=
  let r := trigCtrlrPioRead out (rIoLen ||| cmrLen 4) t
  (((r.2.put (wordByte r.1 0)).put (wordByte r.1 1)).put (wordByte r.1 2)).put (wordByte r.1 3)

def readByte (rIoLen : UInt32) (t : Transfer) : Transfer :=
  let r := trigCtrlrPioRead out rIoLen t
  r.2.put (wordByte r.1 0)

end

theorem toNat_align (x : UInt32) : (x &&& 0xFFFFFFFC).toNat = x.toNat / 4 * 4 := by
  have hx := x.toNat_lt
  have hbits : x.toNat &&& 0xFFFFFFFC = (x.toNat >>> 2) <<< 2 := by
    apply Nat.eq_of_testBit_eq
    intro i
    rw [Nat.testBit_and, Nat.testBit_shiftLeft, Nat.testBit_shiftRight,
      show (0xFFFFFFFC : Nat) = (2 ^ 30 - 1) <<< 2 from rfl, Nat.testBit_shiftLeft,
      Nat.testBit_two_pow_sub_one]
    rcases Nat.lt_or_ge i 32 with hi | hi
    · by_cases h2 : 2 ≤ i
      · simp [h2, show i - 2 < 30 by omega, show 2 + (i - 2) = i by omega]
      · simp [h2]
    · have hz : x.toNat.testBit i = false :=
        Nat.testBit_lt_two_pow (Nat.lt_of_lt_of_le hx (Nat.pow_le_pow_right (by decide) hi))
      simp [hz, show 2 + (i - 2) = i by omega]
  rw [UInt32.toNat_and, show (0xFFFFFFFC : UInt32).toNat = 0xFFFFFFFC from rfl, hbits,
    Nat.shiftRight_eq_div_pow, Nat.shiftLeft_eq]

theorem toNat_add_four {buf bound : UInt32} (h : buf < bound &&& 0xFFFFFFFC) :
    (buf + 4).toNat = buf.toNat + 4 := by
  rw [UInt32.lt_iff_toNat_lt, toNat_align] at h
  have := bound.toNat_lt
  rw [UInt32.toNat_add, show (4 : UInt32).toNat = 4 from rfl]
  omega

@[simp] theorem wrBuf_readWord (out : Nat → UInt8) (rIoLen : UInt32) (t : Transfer) :
    (readWord out rIoLen t).wrBuf = t.wrBuf + 4 := by
  simp only [readWord, Transfer.put, trigCtrlrPioRead]
  rw [UInt32.add_assoc, UInt32.add_assoc, UInt32.add_assoc]
  rfl

theorem wordLoop_decreases {buf bound : UInt32} (h : buf < bound &&& 0xFFFFFFFC) :
    (bound &&& 0xFFFFFFFC).toNat - (buf + 4).toNat < (bound &&& 0xFFFFFFFC).toNat - buf.toNat := by
  have hadd := toNat_add_four h
  rw [UInt32.lt_iff_toNat_lt] at h
  omega

def wordLoop (out : Nat → UInt8) (rIoLen wrBound : UInt32) (t : Transfer) : Transfer :=
  if _h : t.wrBuf < wrBound &&& 0xFFFFFFFC then
    wordLoop out rIoLen wrBound (readWord out rIoLen t)
  else t
termination_by (wrBound &&& 0xFFFFFFFC).toNat - t.wrBuf.toNat
decreasing_by
  rw [wrBuf_readWord]
  exact wordLoop_decreases _h

/-- A call of `_pio_read_data`. The flash answers the chip select and the phases it got with
the bytes it then clocks out, one after the other. -/
structure PioRead where
  cmd : ReadCmd
  csColAddr : UInt32
  wrBytes : UInt32
  wrBuf : UInt32
  mem : Mem
  flash : Bool → List PioWrite → Nat → UInt8

namespace PioRead

variable (r : PioRead)

def cs : Bool := r.csColAddr &&& ((1 : UInt32) <<< 31) ≠ 0

def colAddr : UInt32 := r.csColAddr &&& ~~~((1 : UInt32) <<< 31)

def rIoLen : UInt32 := ioWidthLen r.cmd.rDataIo (cmrLen 1)

def out : Nat → UInt8 := r.flash r.cs (readPhases r.cmd r.colAddr)

/-- `_pio_read_data` up to the release of the chip select. -/
def pioReadData : Transfer :=
  let t : Transfer := ⟨r.wrBuf, 0, r.mem⟩
  let wrBound := r.wrBuf + r.wrBytes
  let t := if 4 ≤ r.wrBytes then wordLoop r.out r.rIoLen wrBound t else t
  (readByte r.out r.rIoLen)^[(r.wrBytes &&& 3).toNat] t

def byteAddr (i : Nat) : Nat := (r.wrBuf + UInt32.ofNat i).toNat

/-- Exactly the bytes asked for are clocked out and stored one after the other, and no other
memory is written. -/
structure Exact : Prop where
  clocked : r.pioReadData.clocked = r.wrBytes.toNat
  stored : ∀ i < r.wrBytes.toNat, r.pioReadData.mem (r.byteAddr i) = r.out i
  frame : ∀ a, (∀ i < r.wrBytes.toNat, a ≠ r.byteAddr i) → r.pioReadData.mem a = r.mem a

end PioRead

theorem PioRead.rIoLen_len (r : PioRead) : r.rIoLen &&& 3 = 0 := by
  apply UInt32.toNat_inj.mp
  rw [rIoLen, ioWidthLen, show cmrLen 1 = 0 from rfl, UInt32.or_zero, UInt32.toNat_and,
    UInt32.toNat_shiftLeft, show (3 : UInt32).toNat = 2 ^ 2 - 1 from rfl,
    Nat.and_two_pow_sub_one_eq_mod, Nat.shiftLeft_eq]
  simp only [UInt32.reduceToNat, Nat.reduceMod, Nat.reducePow]
  omega

theorem PioRead.rIoLen_word (r : PioRead) : (r.rIoLen ||| cmrLen 4) &&& 3 = 3 := by
  have hlen := congrArg UInt32.toNat r.rIoLen_len
  rw [UInt32.toNat_and] at hlen
  apply UInt32.toNat_inj.mp
  rw [UInt32.toNat_and, UInt32.toNat_or, Nat.and_or_distrib_right, hlen]
  rfl

structure Moved (r : PioRead) (k : Nat) (t : Transfer) : Prop where
  wrBuf : t.wrBuf = r.wrBuf + UInt32.ofNat k
  stored : ∀ i < k, t.mem (r.byteAddr i) = r.out i
  frame : ∀ a, (∀ i < k, a ≠ r.byteAddr i) → t.mem a = r.mem a

variable {r : PioRead} {t : Transfer}

theorem Moved.put (h : Moved r k t) (hk : k < 2 ^ 32) : Moved r (k + 1) (t.put (r.out k)) where
  wrBuf := by
    rw [UInt32.ofNat_add, ← UInt32.add_assoc, ← h.wrBuf]
    rfl
  stored i hi := by
    simp only [Transfer.put, h.wrBuf]
    split
    next ha => rw [offset_inj (by omega) hk ha]
    next ha =>
      apply h.stored
      rcases Nat.lt_or_eq_of_le (Nat.le_of_lt_succ hi) with hlt | rfl
      · exact hlt
      · exact absurd rfl ha
  frame a ha := by
    have hne : a ≠ t.wrBuf.toNat := by
      rw [h.wrBuf]
      exact ha k (Nat.lt_succ_self k)
    simp only [Transfer.put, if_neg hne]
    exact h.frame a fun i hi => ha i (Nat.lt_succ_of_lt hi)

theorem Moved.congr (h : Moved r k t) (n : Nat) : Moved r k { t with clocked := n } :=
  ⟨h.wrBuf, h.stored, h.frame⟩

theorem Moved.start (r : PioRead) : Moved r 0 ⟨r.wrBuf, 0, r.mem⟩ where
  wrBuf := by simp
  stored i hi := absurd hi (Nat.not_lt_zero i)
  frame a _ := rfl

@[simp] theorem clocked_readWord (r : PioRead) (t : Transfer) :
    (readWord r.out r.rIoLen t).clocked = t.clocked + 4 := by
  simp [readWord, Transfer.put, trigCtrlrPioRead, r.rIoLen_word]

@[simp] theorem clocked_readByte (r : PioRead) (t : Transfer) :
    (readByte r.out r.rIoLen t).clocked = t.clocked + 1 := by
  simp [readByte, Transfer.put, trigCtrlrPioRead, r.rIoLen_len]

theorem Moved.readWord (h : Moved r t.clocked t) (hk : t.clocked + 4 ≤ 2 ^ 32) :
    Moved r (t.clocked + 4) (readWord r.out r.rIoLen t) := by
  have hbytes := wordByte_packWord (r.out t.clocked) (r.out (t.clocked + 1))
    (r.out (t.clocked + 2)) (r.out (t.clocked + 3))
  have h0 := ((h.congr (t.clocked + 4)).put (by omega)).put (by omega)
  have h4 := (h0.put (by omega)).put (by omega)
  simpa [Snaf.readWord, trigCtrlrPioRead, r.rIoLen_word, hbytes] using h4

theorem Moved.readByte (h : Moved r t.clocked t) (hk : t.clocked + 1 ≤ 2 ^ 32) :
    Moved r (t.clocked + 1) (readByte r.out r.rIoLen t) := by
  have hbyte := (wordByte_packWord (r.out t.clocked) 0 0 0).1
  have h1 := (h.congr (t.clocked + 1)).put (by omega)
  simpa [Snaf.readByte, trigCtrlrPioRead, r.rIoLen_len, hbyte] using h1

-- ---------------------------------------------------------------------------
-- The loops
-- ---------------------------------------------------------------------------

theorem Moved.iterate {pass : Transfer → Transfer} {len : Nat}
    (hclock : ∀ t, (pass t).clocked = t.clocked + len)
    (hpass : ∀ t, Moved r t.clocked t → t.clocked + len ≤ 2 ^ 32 →
      Moved r (t.clocked + len) (pass t))
    (h : Moved r t.clocked t) (hp : t.clocked + len * p ≤ 2 ^ 32) :
    Moved r (t.clocked + len * p) (pass^[p] t) := by
  induction p generalizing t with
  | zero => exact h
  | succ p ih =>
    rw [Nat.mul_succ] at hp ⊢
    have hone := hpass t h (by omega)
    rw [← hclock] at hone
    have hrest := ih hone (by rw [hclock]; omega)
    rw [hclock] at hrest
    rw [Function.iterate_succ_apply, show t.clocked + (len * p + len) = t.clocked + len + len * p
      by omega]
    exact hrest

theorem clocked_iterate {pass : Transfer → Transfer} {len : Nat}
    (hclock : ∀ t, (pass t).clocked = t.clocked + len) (p : Nat) (t : Transfer) :
    (pass^[p] t).clocked = t.clocked + len * p := by
  induction p generalizing t with
  | zero => rfl
  | succ p ih =>
    rw [Function.iterate_succ_apply, ih, hclock, Nat.mul_succ]
    omega

theorem wordLoop_eq (out : Nat → UInt8) (rIoLen wrBound : UInt32)
    (hgo : ∀ j < p, t.wrBuf.toNat + 4 * j < (wrBound &&& 0xFFFFFFFC).toNat)
    (hend : (wrBound &&& 0xFFFFFFFC).toNat ≤ t.wrBuf.toNat + 4 * p) :
    wordLoop out rIoLen wrBound t = (readWord out rIoLen)^[p] t := by
  induction p generalizing t with
  | zero =>
    rw [wordLoop, dif_neg (by rw [UInt32.lt_iff_toNat_lt]; omega)]
    rfl
  | succ p ih =>
    have hlt : t.wrBuf < wrBound &&& 0xFFFFFFFC := UInt32.lt_iff_toNat_lt.mpr (hgo 0 (by omega))
    have hbuf : (readWord out rIoLen t).wrBuf.toNat = t.wrBuf.toNat + 4 := by
      rw [wrBuf_readWord, toNat_add_four hlt]
    rw [wordLoop, dif_pos hlt, Function.iterate_succ_apply]
    apply ih
    · intro j hj
      have := hgo (j + 1) (by omega)
      omega
    · omega

namespace PioRead

/-- The number of words read. A buffer that ends at the top of the address space or beyond
has its end at a low address. -/
def words (r : PioRead) : Nat :=
  if 4 ≤ r.wrBytes.toNat ∧ r.wrBuf.toNat + r.wrBytes.toNat < 2 ^ 32 then
    (r.wrBuf.toNat % 4 + r.wrBytes.toNat) / 4
  else 0

theorem wordLoop_words (r : PioRead) (h4 : 4 ≤ r.wrBytes.toNat) :
    wordLoop r.out r.rIoLen (r.wrBuf + r.wrBytes) ⟨r.wrBuf, 0, r.mem⟩ =
      (readWord r.out r.rIoLen)^[r.words] ⟨r.wrBuf, 0, r.mem⟩ := by
  have hbuf := r.wrBuf.toNat_lt
  have hbytes := r.wrBytes.toNat_lt
  have hbound : (r.wrBuf + r.wrBytes &&& 0xFFFFFFFC).toNat =
      (r.wrBuf.toNat + r.wrBytes.toNat) % 2 ^ 32 / 4 * 4 := by
    rw [toNat_align, UInt32.toNat_add]
  apply wordLoop_eq
  · intro j hj
    rw [hbound]
    unfold words at hj
    split at hj
    next h =>
      simp only
      omega
    next => omega
  · rw [hbound]
    unfold words
    simp only
    split
    next h => omega
    next h => omega

theorem pioReadData_eq (r : PioRead) : r.pioReadData =
    (readByte r.out r.rIoLen)^[r.wrBytes.toNat % 4]
      ((readWord r.out r.rIoLen)^[r.words] ⟨r.wrBuf, 0, r.mem⟩) := by
  have hand : (r.wrBytes &&& 3).toNat = r.wrBytes.toNat % 4 := by
    rw [UInt32.toNat_and, show (3 : UInt32).toNat = 2 ^ 2 - 1 from rfl,
      Nat.and_two_pow_sub_one_eq_mod]
  have hle : 4 ≤ r.wrBytes ↔ 4 ≤ r.wrBytes.toNat := UInt32.le_iff_toNat_le
  simp only [pioReadData, hand]
  split
  next h4 => rw [wordLoop_words r (hle.mp h4)]
  next h4 =>
    have : r.words = 0 := if_neg fun h => h4 (hle.mpr h.1)
    rw [this, Function.iterate_zero_apply]

theorem pioReadData_clocked (r : PioRead) :
    r.pioReadData.clocked = 4 * r.words + r.wrBytes.toNat % 4 := by
  rw [pioReadData_eq, clocked_iterate (clocked_readByte r), clocked_iterate (clocked_readWord r)]
  simp

theorem pioReadData_filled (r : PioRead) (h : 4 * r.words + r.wrBytes.toNat % 4 ≤ 2 ^ 32) :
    Moved r (4 * r.words + r.wrBytes.toNat % 4) r.pioReadData := by
  have hwords := Moved.iterate (t := ⟨r.wrBuf, 0, r.mem⟩) (p := r.words) (clocked_readWord r)
    (fun _ => Moved.readWord) (Moved.start r) (by change 0 + 4 * r.words ≤ 2 ^ 32; omega)
  have hclock := clocked_iterate (clocked_readWord r) r.words ⟨r.wrBuf, 0, r.mem⟩
  rw [← hclock] at hwords
  simp only [Nat.zero_add] at hclock
  have hbytes := hwords.iterate (p := r.wrBytes.toNat % 4) (clocked_readByte r)
    (fun _ => Moved.readByte) (by rw [hclock]; omega)
  rwa [hclock, Nat.one_mul, ← pioReadData_eq] at hbytes

/-- `_pio_read_data` reads exactly what it is asked for when there are no words to read, or
when the buffer ends below the top of the address space and the odd bytes of its address and
of its length together make no word. -/
theorem pioReadData_exact_iff (r : PioRead) : r.Exact ↔ r.wrBytes.toNat < 4 ∨
    (r.wrBuf.toNat + r.wrBytes.toNat < 2 ^ 32 ∧
      r.wrBuf.toNat % 4 + r.wrBytes.toNat % 4 < 4) := by
  have hcount : 4 * r.words + r.wrBytes.toNat % 4 = r.wrBytes.toNat ↔ r.wrBytes.toNat < 4 ∨
      (r.wrBuf.toNat + r.wrBytes.toNat < 2 ^ 32 ∧
        r.wrBuf.toNat % 4 + r.wrBytes.toNat % 4 < 4) := by
    unfold words
    split
    next => omega
    next => omega
  rw [← hcount]
  constructor
  · intro h
    rw [← pioReadData_clocked, h.clocked]
  · intro h
    have hfilled := r.pioReadData_filled (by rw [h]; exact r.wrBytes.toNat_lt.le)
    rw [h] at hfilled
    exact ⟨by rw [pioReadData_clocked, h], hfilled.stored, hfilled.frame⟩

/-- Seven bytes to an odd address: two words and three bytes are read, and the four bytes
behind the buffer are overwritten. -/
def sevenToOdd : PioRead where
  cmd := ⟨0x6b, 0, 2, 8⟩
  csColAddr := 0
  wrBytes := 7
  wrBuf := 0x80000001
  mem _ := 0
  flash _ _ _ := 0xff

theorem not_exact_sevenToOdd : sevenToOdd.pioReadData.clocked = 11 ∧
    sevenToOdd.pioReadData.mem 0x80000008 = 0xff ∧ ¬sevenToOdd.Exact := by
  have hclock : sevenToOdd.pioReadData.clocked = 11 := sevenToOdd.pioReadData_clocked
  have hfilled := sevenToOdd.pioReadData_filled (by decide)
  refine ⟨hclock, hfilled.stored 7 (by decide), fun h => ?_⟩
  have hseven := h.clocked.symm.trans hclock
  exact absurd hseven (by decide)

end PioRead

end BismarckPreloader.Snaf
