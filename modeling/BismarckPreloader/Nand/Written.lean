import BismarckPreloader.Lib.Files
import BismarckPreloader.Lib.Words
import BismarckPreloader.Nand.Page

/-!
# Pages as the image tools write them

Two formats: `plr_first_load_layout_t`, with two sectors and a tag behind each of them,
and the ordinary page, with a record of type `plr_oob_t` and the syndromes of all its
sectors in the spare area. Short data is filled up with ones. The BCH encoder is a
parameter.

A `Chip` is a flash without errors. The boot code reads every page in both formats; what
the engine makes of a page in the other one is a parameter.
-/

namespace BismarckPreloader.Nand

abbrev Encoder := List UInt8 → List UInt8 → Vector UInt8 10

def ones (n : Nat) : List UInt8 := List.replicate n 0xFF

def onOnes (bytes : List UInt8) : Nat → UInt8 := fun k => bytes.getD k 0xFF

def halfBytes (v : UInt16) : List UInt8 := [UInt8.ofNat (v.toNat / 256), UInt8.ofNat v.toNat]

def sector (data : Nat → UInt8) (i : Nat) : List UInt8 :=
  (List.range 512).map fun k => data (i * 512 + k)

def bch6UnitSize : Nat := 528

def pageSizeWithSpare (pageSize : Nat) : Nat := pageSize / 512 * bch6UnitSize

structure FlPage where
  signature : UInt32
  pageIndex : UInt16
  totalNumPage : UInt16
  data : Nat → UInt8

namespace FlPage

def oob0 (p : FlPage) : List UInt8 := wordBytes p.signature ++ ones 2

def oob1 (p : FlPage) : List UInt8 := halfBytes p.pageIndex ++ halfBytes p.totalNumPage ++ ones 2

def unit (encode : Encoder) (data oob : List UInt8) : List UInt8 :=
  data ++ (oob ++ (encode data oob).toList ++ ones 12)

def bytes (p : FlPage) (encode : Encoder) : List UInt8 :=
  unit encode (sector p.data 0) p.oob0 ++ unit encode (sector p.data 1) p.oob1

end FlPage

/-- A record of type `plr_oob_t`. -/
structure Spare where
  bbi : UInt16
  reserved : UInt16
  signature : UInt32
  chunkNum : UInt32
  startupNum : UInt32
  totalChunk : UInt32
  numCopy : UInt32
  deriving DecidableEq, Repr

namespace Spare

def bytes (s : Spare) : List UInt8 :=
  halfBytes s.bbi ++ halfBytes s.reserved ++ wordBytes s.signature ++ wordBytes s.chunkNum ++
    wordBytes s.startupNum ++ wordBytes s.totalChunk ++ wordBytes s.numCopy

def oob (s : Spare) : PlrOob where
  signature := s.signature
  idxCopy := UInt16.ofNat (s.chunkNum.toNat / 2 ^ 16)
  idxChunk := UInt16.ofNat s.chunkNum.toNat
  totalChunk := s.totalChunk
  numCopy := s.numCopy

end Spare

structure DataPage where
  spare : Spare
  data : Nat → UInt8

/-- `append_ecc_one_page`: the data, the spare area and a syndrome for every sector. -/
def DataPage.bytes (p : DataPage) (encode : Encoder) (pageSize : Nat) : List UInt8 :=
  let units := pageSize / 512
  let spare := p.spare.bytes ++ ones (6 * units - 24)
  (List.range units).flatMap (sector p.data) ++ spare ++
    (List.range units).flatMap fun i =>
      (encode (sector p.data i) ((spare.drop (6 * i)).take 6)).toList

inductive Written where
  | firstLoad (p : FlPage)
  | chunk (p : DataPage)
  | blank

def Written.bytes (encode : Encoder) (pageSize : Nat) : Written → List UInt8
  | .firstLoad p => p.bytes encode ++ ones (pageSizeWithSpare pageSize - 1080)
  | .chunk p => p.bytes encode pageSize
  | .blank => ones (pageSizeWithSpare pageSize)

def chunkPages (pageSize : Nat) (spare : UInt32 → Spare) (cn : UInt32) (img : List UInt8) :
    List Written :=
  (pieces pageSize img).zipIdx.map fun (data, j) =>
    .chunk ⟨spare (cn + UInt32.ofNat j), onOnes data⟩

@[simp] theorem length_ones (n : Nat) : (ones n).length = n := List.length_replicate

@[simp] theorem length_halfBytes (v : UInt16) : (halfBytes v).length = 2 := rfl

@[simp] theorem length_sector (data : Nat → UInt8) (i : Nat) : (sector data i).length = 512 := by
  rw [sector, List.length_map, List.length_range]

@[simp] theorem length_wordBytes (w : UInt32) : (wordBytes w).length = 4 := rfl

namespace FlPage

variable (p : FlPage) (encode : Encoder)

theorem length_oob0 : p.oob0.length = 6 := by simp [oob0]

theorem length_oob1 : p.oob1.length = 6 := by simp [oob1]

theorem length_unit {data oob : List UInt8} (hd : data.length = 512) (ho : oob.length = 6) :
    (unit encode data oob).length = 540 := by
  simp [unit, hd, ho]

theorem length_bytes : (p.bytes encode).length = 1080 := by
  rw [bytes, List.length_append, length_unit encode (length_sector _ _) p.length_oob0,
    length_unit encode (length_sector _ _) p.length_oob1]

variable {p encode}

theorem sectors_of_bytes {q : FlPage} (h : p.bytes encode = q.bytes encode) :
    sector p.data 0 = sector q.data 0 ∧ sector p.data 1 = sector q.data 1 := by
  have hlen : ∀ r : FlPage, (unit encode (sector r.data 0) r.oob0).length = 540 := fun r =>
    length_unit encode (length_sector _ _) r.length_oob0
  obtain ⟨h0, h1⟩ := List.append_inj h ((hlen p).trans (hlen q).symm)
  have hsector : ∀ {r s : FlPage} {i}, (sector r.data i).length = (sector s.data i).length := by
    simp
  exact ⟨(List.append_inj h0 hsector).1, (List.append_inj h1 hsector).1⟩

end FlPage

theorem length_flatMap_const (n : Nat) (f : Nat → List UInt8) (h : ∀ i, (f i).length = k) :
    ((List.range n).flatMap f).length = n * k := by
  simp [List.length_flatMap, h]

theorem Written.length_bytes (encode : Encoder) (h : pageSize = 2048 ∨ pageSize = 4096)
    (p : Written) : (p.bytes encode pageSize).length = pageSizeWithSpare pageSize := by
  have hunits : pageSize / 512 = 4 ∨ pageSize / 512 = 8 := by omega
  cases p with
  | firstLoad p =>
    rw [Written.bytes, List.length_append, p.length_bytes encode, length_ones, pageSizeWithSpare,
      bch6UnitSize]
    omega
  | chunk p =>
    have hspare : p.spare.bytes.length = 24 := by simp [Spare.bytes]
    simp only [Written.bytes, DataPage.bytes, List.length_append, hspare, length_ones,
      length_flatMap_const (pageSize / 512) (sector p.data) (length_sector p.data)]
    rw [length_flatMap_const _ _ fun i => Vector.length_toList, pageSizeWithSpare, bch6UnitSize]
    omega
  | blank => rw [Written.bytes, length_ones]

theorem getElem?_chunkPages (h : j < (img.length + n - 1) / n) :
    (chunkPages n spare cn img)[j]? = some (.chunk ⟨spare (cn + UInt32.ofNat j),
      onOnes ((img.drop (j * n)).take n)⟩) := by
  rw [chunkPages, List.getElem?_map, List.getElem?_zipIdx, getElem?_pieces h, Option.map_some,
    Option.map_some, Nat.zero_add]

theorem countOn_toNat (r : Nat) (h : i + j < 2 ^ 16) :
    ((UInt32.ofNat r <<< 16 ||| UInt32.ofNat i) + UInt32.ofNat j).toNat =
      r % 2 ^ 16 * 2 ^ 16 + (i + j) := by
  have hshift : (UInt32.ofNat r <<< 16).toNat = (r % 2 ^ 16) <<< 16 := by
    rw [UInt32.toNat_shiftLeft, UInt32.toNat_ofNat']
    change (r % 2 ^ 32) <<< 16 % 2 ^ 32 = (r % 2 ^ 16) <<< 16
    rw [Nat.shiftLeft_eq, Nat.shiftLeft_eq]
    omega
  rw [UInt32.toNat_add, UInt32.toNat_or, hshift, UInt32.toNat_ofNat',
    Nat.mod_eq_of_lt (by omega : i < 2 ^ 32), ← Nat.shiftLeft_add_eq_or_of_lt (by omega),
    Nat.shiftLeft_eq, UInt32.toNat_ofNat', Nat.mod_eq_of_lt (by omega : j < 2 ^ 32),
    Nat.mod_eq_of_lt (by omega), Nat.add_assoc]

def onesOob : PlrOob := ⟨0xFFFFFFFF, 0xFFFF, 0xFFFF, 0xFFFFFFFF, 0xFFFFFFFF⟩

def clean : EccSts := ⟨false, false, 0⟩

def erasedSts : EccSts := ⟨true, true, 0⟩

/-- A chip without errors: what it makes of an ordinary page read as a first-load page, and
of a first-load page, whose spare area is all ones, read as an ordinary one. -/
structure Chip where
  asFirstLoad : (Nat → UInt8) → FirstLoad
  asOrdinary : FlPage → BitVec 32 × (Nat → UInt8)

def Chip.read (chip : Chip) (units : Nat) : Written → PlrPageRead
  | .firstLoad p =>
    ⟨⟨(chip.asOrdinary p).1, onesOob, (chip.asOrdinary p).2⟩,
      ⟨clean, clean, p.signature, p.pageIndex⟩⟩
  | .chunk p =>
    ⟨⟨eccDecodeBchSector (List.replicate units clean), p.spare.oob, p.data⟩,
      chip.asFirstLoad p.data⟩
  | .blank =>
    ⟨⟨eccDecodeBchSector (List.replicate units erasedSts), onesOob, fun _ => 0xFF⟩,
      ⟨erasedSts, erasedSts, 0xFFFFFFFF, 0xFFFF⟩⟩

def strictChip : Chip where
  asFirstLoad _ := ⟨⟨true, false, 0⟩, ⟨true, false, 0⟩, 0, 0⟩
  asOrdinary _ := (eccDecodeBchSector [⟨true, false, 0⟩], fun _ => 0)

end BismarckPreloader.Nand
