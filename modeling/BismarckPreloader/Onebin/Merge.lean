import Mathlib.Data.List.Pairwise
import BismarckPreloader.Lib.Loops
import BismarckPreloader.Nand.Written

/-!
# The merging tool

`onebin` merges a loader and other files into one image for a flash programmer. The files
are kept in a list in the order of their addresses; each one is written in chunks and
filled up to the address of the next one. On NAND every file but the loader gets its spare
area and its syndromes; the loader has them.

A run is given by what it writes for each file, chunk by chunk. Without `-ft`
`check_parameters` divides by zero; files can be opened and read.
-/

namespace BismarckPreloader.Onebin

open Nand (Encoder ones)

inductive FlashType where
  | nor
  | nand
  deriving DecidableEq, Repr

inductive NandPageType where
  | unknown
  | small
  | large
  deriving DecidableEq, Repr

def minusOne : UInt32 := 0xFFFFFFFF
def noLimitedChunks : UInt32 := 0xFFFFFFFF
def maxFilesNumber : Nat := 12
def norSectorSize : Nat := 0x800

structure Params where
  flashType : FlashType
  nandPageType : NandPageType
  chunkSize : Nat
  chunkPerBlock : UInt32
  bbiSwapOffset : UInt32
  bbiDmaOffset : UInt32

structure ImageFile where
  address : UInt32
  loader : Bool
  bytes : List UInt8

/-- The loop of `add_to_file_list`. -/
def insertFile (image : ImageFile) : List ImageFile → Option (List ImageFile)
  | [] => some [image]
  | f :: fs =>
    if image.address < f.address then some (image :: f :: fs)
    else if image.address = f.address then none
    else (insertFile image fs).map (f :: ·)

def addToFileList (head : List ImageFile) (image : ImageFile) : Option (List ImageFile) :=
  if maxFilesNumber ≤ head.length then none else insertFile image head

def fileList (given : List ImageFile) : Option (List ImageFile) := given.foldlM addToFileList []

-- ---------------------------------------------------------------------------
-- Chunks
-- ---------------------------------------------------------------------------

namespace Params

variable (p : Params)

def pageSize : Nat := match p.flashType with
  | .nor => norSectorSize
  | .nand => 512

def oobSize : Nat := match p.flashType with
  | .nor => 0
  | .nand => 6

def eccSize : Nat := match p.flashType with
  | .nor => 0
  | .nand => 10

/-- `CHUNK_SIZE`: a chunk in the output. -/
def encodedSize : Nat := p.chunkSize + p.chunkSize / p.pageSize * (p.oobSize + p.eccSize)

/-- `BLOCK_SIZE`, computed in 32 bits. -/
def blockSize : UInt32 := UInt32.ofNat p.chunkSize * p.chunkPerBlock

def enableSwap : Bool := ¬(p.bbiSwapOffset = minusOne ∧ p.bbiDmaOffset = minusOne)

end Params

/-- `check_parameters`: a parameter is refused. -/
def checkParameters (p : Params) (files : List ImageFile) : Bool :=
  files.any (fun f => f.address.toNat % p.pageSize ≠ 0 || (f.loader && f.address ≠ 0) ||
    (!f.loader && f.address = 0)) ||
  (p.chunkSize ≠ 512 && p.chunkSize ≠ 2048 && p.chunkSize ≠ 4096) ||
  (p.enableSwap && (p.bbiSwapOffset = minusOne ||
    p.oobSize * p.chunkSize / p.pageSize ≤ p.bbiSwapOffset.toNat ||
    p.bbiDmaOffset = minusOne || p.chunkSize ≤ p.bbiDmaOffset.toNat))

def fillUp (n : Nat) (bytes : List UInt8) : List UInt8 := bytes.rightpad n 0xFF

section Chunks

variable (p : Params) (encode : Encoder)

def swapBbi (data oob : List UInt8) : List UInt8 × List UInt8 :=
  if p.enableSwap then
    (data.set p.bbiDmaOffset.toNat 0xFF,
      oob.set p.bbiSwapOffset.toNat (data.getD p.bbiDmaOffset.toNat 0))
  else (data, oob)

def unitOf (n : Nat) (buf : List UInt8) (i : Nat) : List UInt8 := (buf.drop (i * n)).take n

/-- `append_ecc_one_chunk`: what is written for a chunk. -/
def appendEccOneChunk (chunk : List UInt8) : List UInt8 :=
  let iteration := p.chunkSize / p.pageSize
  let data := fillUp p.chunkSize chunk
  let oob := ones (iteration * p.oobSize)
  if data = ones p.chunkSize then data ++ oob ++ ones (iteration * p.eccSize)
  else
    let (data, oob) := swapBbi p data oob
    let ecc (i : Nat) := (encode (unitOf p.pageSize data i) (unitOf p.oobSize oob i)).toList
    match p.nandPageType with
    | .small => (List.range iteration).flatMap fun i =>
        unitOf p.pageSize data i ++ unitOf p.oobSize oob i ++ ecc i
    | .large => data ++ oob ++ (List.range iteration).flatMap ecc
    | .unknown => []

/-- `append_raw_one_chunk`. -/
def appendRawOneChunk (chunk : List UInt8) : List UInt8 := fillUp p.encodedSize chunk

def Params.Encodes (f : ImageFile) : Prop := p.flashType = .nand ∧ f.loader = false

instance (f : ImageFile) : Decidable (p.Encodes f) := inferInstanceAs (Decidable (_ ∧ _))

def Params.readSize (f : ImageFile) : Nat := if p.Encodes f then p.chunkSize else p.encodedSize

def appendChunk (f : ImageFile) : List UInt8 → List UInt8 :=
  if p.Encodes f then appendEccOneChunk p encode else appendRawOneChunk p

inductive Crash where
  | divisionByZero
  deriving DecidableEq, Repr

/-- The loop of `file_write_out` behind `cc` chunks: whether the space is enough, and the
chunks. The space is looked at behind a full chunk only. -/
def fileLoop (append : List UInt8 → List UInt8) (size : Nat) (totalChunk : UInt32) :
    Nat → List (List UInt8) → Bool × List (List UInt8)
  | _, [] => (true, [])
  | cc, x :: xs =>
    if x.length ≠ size then (true, [append x])
    else if totalChunk ≠ noLimitedChunks ∧ totalChunk.toNat < cc + 1 then (false, [append x])
    else
      let (enough, chunks) := fileLoop append size totalChunk (cc + 1) xs
      (enough, append x :: chunks)

def paddingChunks (f : ImageFile) (totalChunk : UInt32) (cc : Nat) : Nat :=
  if totalChunk = noLimitedChunks then
    if p.Encodes f ∨ p.flashType = .nand then
      (p.chunkPerBlock.toNat - cc % p.chunkPerBlock.toNat) % p.chunkPerBlock.toNat
    else 0
  else totalChunk.toNat - cc

/-- `file_write_out`: whether it returns 0, and the chunks it writes. -/
def fileWriteOut (f : ImageFile) (totalChunk : UInt32) : Except Crash (Bool × List (List UInt8)) :=
  -- the chunk index of the last file is taken modulo `chunk_per_block`
  if totalChunk = noLimitedChunks ∧ f.bytes ≠ [] ∧ p.chunkPerBlock = 0 then .error .divisionByZero
  else
    let (enough, chunks) := fileLoop (appendChunk p encode f) (p.readSize f) totalChunk 0
      (pieces (p.readSize f) f.bytes)
    if enough then
      .ok (true, chunks ++ List.replicate (paddingChunks p f totalChunk chunks.length)
        (appendChunk p encode f (ones (p.readSize f))))
    else .ok (false, chunks)

/-- `chunk_per_partition` of a file with another one behind it. -/
def chunkPerPartition (address next : UInt32) : Except Crash UInt32 := match p.flashType with
  | .nor => .ok ((next - address) / UInt32.ofNat norSectorSize)
  | .nand =>
    if p.blockSize = 0 then .error .divisionByZero
    else .ok ((next - address) / p.blockSize * p.chunkPerBlock)

/-- `generate_onebin`: whether it returns 0, and the chunks written for each file. -/
def generateOnebin : List ImageFile → Except Crash (Bool × List (List (List UInt8)))
  | [] => .ok (true, [])
  | [f] => do
    let (enough, chunks) ← fileWriteOut p encode f noLimitedChunks
    pure (enough, [chunks])
  | f :: g :: files => do
    let total ← chunkPerPartition p f.address g.address
    let (enough, chunks) ← fileWriteOut p encode f total
    if enough then
      let (enough, more) ← generateOnebin (g :: files)
      pure (enough, chunks :: more)
    else pure (false, [chunks])

end Chunks

theorem insertFile_sorted (h : insertFile image fs = some fs')
    (hs : fs.Pairwise (·.address < ·.address)) :
    fs'.Pairwise (·.address < ·.address) ∧ fs'.Perm (image :: fs) := by
  induction fs generalizing fs' with
  | nil =>
    cases h
    exact ⟨List.pairwise_singleton _ _, .refl _⟩
  | cons f fs ih =>
    rw [insertFile] at h
    split at h
    next hlt =>
      cases h
      refine ⟨List.pairwise_cons.mpr ⟨fun g hg => ?_, hs⟩, .refl _⟩
      rcases List.mem_cons.mp hg with rfl | hg
      · exact hlt
      · exact UInt32.lt_trans hlt ((List.pairwise_cons.mp hs).1 g hg)
    next hlt =>
      split at h
      next => cases h
      next hne =>
        obtain ⟨rest, hrest, rfl⟩ := Option.map_eq_some_iff.mp h
        obtain ⟨hsorted, hperm⟩ := ih hrest (List.pairwise_cons.mp hs).2
        have hgt : f.address < image.address :=
          UInt32.lt_of_le_of_ne (UInt32.not_lt.mp hlt) (Ne.symm hne)
        refine ⟨List.pairwise_cons.mpr ⟨fun g hg => ?_, hsorted⟩,
          (hperm.cons f).trans (.swap image f fs)⟩
        rcases List.mem_cons.mp (hperm.subset hg) with rfl | hg
        · exact hgt
        · exact (List.pairwise_cons.mp hs).1 g hg

theorem fileList_sorted (h : fileList given = some files) :
    files.Pairwise (·.address < ·.address) ∧ files.Perm given := by
  have hstep : ∀ {given head files : List ImageFile}, given.foldlM addToFileList head = some files →
      head.Pairwise (·.address < ·.address) →
      files.Pairwise (·.address < ·.address) ∧ files.Perm (given.reverse ++ head) := by
    intro given
    induction given with
    | nil =>
      intro head files h hs
      cases h
      exact ⟨hs, .refl _⟩
    | cons image given ih =>
      intro head files h hs
      rw [List.foldlM_cons] at h
      obtain ⟨head', hadd, h⟩ := Option.bind_eq_some_iff.mp h
      rw [addToFileList] at hadd
      split at hadd
      next => cases hadd
      next =>
        obtain ⟨hs', hperm⟩ := insertFile_sorted hadd hs
        obtain ⟨hsorted, hp⟩ := ih h hs'
        refine ⟨hsorted, hp.trans ?_⟩
        rw [List.reverse_cons, List.append_assoc]
        exact hperm.append_left _
  obtain ⟨hs, hp⟩ := hstep h List.Pairwise.nil
  rw [List.append_nil] at hp
  exact ⟨hs, hp.trans (List.reverse_perm given)⟩

end BismarckPreloader.Onebin
