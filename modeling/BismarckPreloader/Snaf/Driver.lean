import BismarckPreloader.Lib.Words
import BismarckPreloader.Nand.Page
import BismarckPreloader.Snaf.SkipTable

/-!
# The MTD functions of the driver

Reads, writes, erases and bad-block marks of logical pages. Each of them translates the page
number with `get_good_block` and does not look at its result, so a page of an unmapped block
goes to the physical block of the same number. An access is recorded with the page that was
asked for and the page it was issued to.

`unmappedRefused_iff` and `exact_iff` say for which chips and which reads this, and the
constant result of a read, do no harm.
-/

namespace BismarckPreloader.Snaf

open Nand (signaturePlrFl)

/-- `SNAF_MIN`. -/
def snafMin (x y : UInt32) : UInt32 := y ^^^ ((x ^^^ y) &&& -(if x < y then 1 else 0))

theorem snafMin_toNat (x y : UInt32) : (snafMin x y).toNat = min x.toNat y.toNat := by
  unfold snafMin
  split
  next h =>
    have hlt : x.toNat < y.toNat := h
    have hmask : y ^^^ ((x ^^^ y) &&& -1) = x := by
      apply UInt32.toBitVec_inj.mp
      have hall : (-1 : UInt32).toBitVec = BitVec.allOnes 32 := by decide
      rw [UInt32.toBitVec_xor, UInt32.toBitVec_and, UInt32.toBitVec_xor, hall, BitVec.and_allOnes,
        BitVec.xor_comm x.toBitVec, ← BitVec.xor_assoc, BitVec.xor_self, BitVec.zero_xor]
    rw [hmask, Nat.min_eq_left hlt.le]
  next h =>
    have hle : y.toNat ≤ x.toNat := Nat.le_of_not_lt h
    simp [Nat.min_eq_right hle]

inductive Op where
  | pageRead
  | pageWrite
  | blockErase
  | blockMark
  deriving DecidableEq, Repr

structure Issued where
  op : Op
  logical : UInt32
  physical : UInt32
  deriving DecidableEq, Repr

/-- A page read with its syndromes: the decoder's status and the page with its spare area. -/
structure EccRead where
  sts : BitVec 32
  data : Nat → UInt8

/-- The word of `PLR_FL_SIG_LOCATION`. -/
def flSignature (data : Nat → UInt8) : UInt32 :=
  packWord (data 512) (data 513) (data 514) (data 515)

def isPlrFirstLoadPart (data : Nat → UInt8) : Bool := flSignature data = signaturePlrFl

/-- The driver on a chip with pages of `2 ^ pageShift` bytes; `raw` is a page read without
the decoder. -/
structure Driver extends Chip where
  pageShift : Nat
  pageShift_lt : pageShift < 32
  flash : UInt32 → EccRead
  raw : UInt32 → Nat → UInt8

namespace Driver

variable (d : Driver)

def pagesize : UInt32 := UInt32.ofNat (2 ^ d.pageShift)

theorem pagesize_toNat : d.pagesize.toNat = 2 ^ d.pageShift := by
  rw [pagesize, UInt32.toNat_ofNat', Nat.mod_eq_of_lt]
  exact Nat.pow_lt_pow_right (by decide) d.pageShift_lt

def translate (page : UInt32) : UInt32 := (getGoodBlock d.blkShift d.skip page).2

def issue (op : Op) (page : UInt32) : Issued := ⟨op, page, d.translate page⟩

def pageBytes (olen page : UInt32) (off len : Nat) : List UInt8 :=
  (List.range len).map fun k =>
    if olen ≠ 0 then d.raw (d.translate page) (off + k)
    else (d.flash (d.translate page)).data (off + k)

variable {d} in
theorem opLen_le (h : done < dlen) :
    0 < (snafMin (dlen - done) d.pagesize).toNat ∧
      (snafMin (dlen - done) d.pagesize).toNat ≤ dlen.toNat - done.toNat ∧
      (dlen - done).toNat = dlen.toNat - done.toNat := by
  have hlt : done.toNat < dlen.toNat := h
  have hpos : 0 < 2 ^ d.pageShift := Nat.two_pow_pos _
  have hsub : (dlen - done).toNat = dlen.toNat - done.toNat :=
    UInt32.toNat_sub_of_le _ _ (UInt32.le_of_lt h)
  rw [snafMin_toNat, hsub, d.pagesize_toNat]
  omega

variable {d} in
theorem done_add_toNat (h : done < dlen) :
    (done + snafMin (dlen - done) d.pagesize).toNat =
      done.toNat + (snafMin (dlen - done) d.pagesize).toNat := by
  obtain ⟨-, hle, -⟩ := opLen_le (d := d) h
  have hd := dlen.toNat_lt
  have hlt : done.toNat < dlen.toNat := h
  rw [UInt32.toNat_add, Nat.mod_eq_of_lt (by omega)]

variable {d} in
theorem loop_decreases (h : done < dlen) :
    dlen.toNat - (done + snafMin (dlen - done) d.pagesize).toNat < dlen.toNat - done.toNat := by
  obtain ⟨hpos, hle, -⟩ := opLen_le (d := d) h
  have hlt : done.toNat < dlen.toNat := h
  rw [done_add_toNat h]
  omega

/-- `while (done_b < dlen)` of a read: the bytes, the accesses and `done_b`. -/
def readLoop (dlen olen page done : UInt32) : List UInt8 × List Issued × UInt32 :=
  if _h : done < dlen then
    let opLen := snafMin (dlen - done) d.pagesize
    let r := readLoop dlen olen (page + 1) (done + opLen)
    (d.pageBytes olen page 0 opLen.toNat ++ r.1, d.issue .pageRead page :: r.2.1, r.2.2)
  else ([], [], done)
termination_by dlen.toNat - done.toNat
decreasing_by exact loop_decreases _h

structure ReadResult where
  ret : Int
  retlen : UInt32
  buf : List UInt8
  issued : List Issued

/-- `otto_snaf_mtd_read_oob`. A page that cannot be decoded is reported on the console
only. -/
def readOob (fromAddr : Nat) (dlen olen : UInt32) : ReadResult :=
  let page := UInt32.ofNat (fromAddr / 2 ^ d.pageShift)
  let oob := if olen ≠ 0 then [d.issue .pageRead page] else []
  let off := UInt32.ofNat fromAddr &&& (d.pagesize - 1)
  if off ≠ 0 then
    let opLen := snafMin dlen (d.pagesize - off)
    let head := d.pageBytes olen page off.toNat opLen.toNat
    let r := d.readLoop dlen olen (page + 1) opLen
    ⟨0, r.2.2, head ++ r.1, oob ++ d.issue .pageRead page :: r.2.1⟩
  else
    let r := d.readLoop dlen olen page 0
    ⟨0, r.2.2, r.1, oob ++ r.2.1⟩

def writeLoop (dlen page done : UInt32) : List Issued :=
  if _h : done < dlen then
    let opLen := snafMin (dlen - done) d.pagesize
    d.issue .pageWrite page :: writeLoop dlen (page + 1) (done + opLen)
  else []
termination_by dlen.toNat - done.toNat
decreasing_by exact loop_decreases _h

/-- `otto_snaf_mtd_write_oob`. -/
def writeOob (raw : Bool) (toAddr : Nat) (dlen : UInt32) : Int × List Issued :=
  let page := UInt32.ofNat (toAddr / 2 ^ d.pageShift)
  if raw then
    if dlen = 0 then (0, [d.issue .pageRead page, d.issue .pageWrite page])
    -- the first pass takes `dlen + olen` bytes, so there is no other
    else (0, [d.issue .pageWrite page])
  else (0, d.writeLoop dlen page 0)

/-- `otto_snaf_mtd_erase_one_blk`. -/
def eraseOneBlk (addr : Nat) : Int × List Issued :=
  (0, [d.issue .blockErase (UInt32.ofNat (addr / 2 ^ d.pageShift))])

/-- `otto_snaf_mtd_block_markbad`. -/
def blockMarkbad (ofs : Nat) : Int × List Issued :=
  let erasesize := 2 ^ (d.blkShift + d.pageShift)
  let page := UInt32.ofNat (ofs / erasesize * erasesize / 2 ^ d.pageShift)
  (0, [d.issue .blockErase page, d.issue .blockMark page])

/-- A call of the MTD layer. The lengths of a write do not overflow when they are added. -/
inductive Request where
  | read (fromAddr : Nat) (len ooblen : UInt32)
  | write (raw : Bool) (toAddr : Nat) (len ooblen : UInt32) (fits : len.toNat + ooblen.toNat < 2 ^ 32)
  | erase (addr : Nat)
  | markBad (ofs : Nat)

def run : Request → Int × List Issued
  | .read fromAddr len ooblen =>
    let r := d.readOob fromAddr len ooblen
    (r.ret, r.issued)
  | .write raw toAddr len _ _ => d.writeOob raw toAddr len
  | .erase addr => d.eraseOneBlk addr
  | .markBad ofs => d.blockMarkbad ofs

end Driver

end BismarckPreloader.Snaf
